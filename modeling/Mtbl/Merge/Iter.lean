import Mtbl.Bytes.Compare
import Mtbl.Lib.Cursor

/-! Iterators and sources as their users see them, whatever is behind them. An iterator is a state
with two operations; a source makes iterators. A NULL iterator fails every call. -/
namespace Mtbl
open CRun Cursor

variable {σ : Type}

def mtblIterNext (I : Ops σ Entry Bytes) : Option σ → Run (Option Entry × Option σ)
  | none => .ok (none,none)
  | some it => do
    let (e,it) ← I.next it
    return (e,some it)

def mtblIterSeek (I : Ops σ Entry Bytes) (it : Option σ) (key : Bytes) : Run (Bool × Option σ) :=
  match it with
  | none => .ok (false,none)
  | some it => do
    let (ok,it) ← I.seek it key
    return (ok,some it)

/-- `struct mtbl_source`, with the closure inside its functions. -/
structure Source (σ : Type) where
  iter : Run (Option σ)
  get : Bytes → Run (Option σ)
  getPrefix : Bytes → Run (Option σ)
  getRange : Bytes → Bytes → Run (Option σ)

/-- The query makes an iterator that gives these entries in order, each once, and then fails. -/
def Gives (I : Ops σ Entry Bytes) (query : Run (Option σ)) (es : List Entry) : Prop :=
  ∃ it, query = .ok it ∧ Enumerates (mtblIterNext I) it es

/-- A source of these entries, whose keys ascend: each of its queries gives the entries it asks
for. -/
structure Source.Holds (I : Ops σ Entry Bytes) (s : Source σ) (es : List Entry) : Prop where
  ascending : es.Pairwise (fun a b => a.key < b.key)
  iter : Gives I s.iter es
  get : ∀ k, Gives I (s.get k) (es.filter (fun e => e.key = k))
  getPrefix : ∀ p, Gives I (s.getPrefix p) (es.filter (fun e => p <+: e.key))
  getRange : ∀ k0 k1, Gives I (s.getRange k0 k1) (es.filter (fun e => k0 ≤ e.key ∧ e.key ≤ k1))

variable {I : Ops σ Entry Bytes}

theorem Gives.unique {query : Run (Option σ)} {es es' : List Entry} (h : Gives I query es)
    (h' : Gives I query es') : es = es' := by
  obtain ⟨it,hit,henum⟩ := h
  obtain ⟨it',hit',henum'⟩ := h'
  obtain rfl := Except.ok.inj (hit.symm.trans hit')
  exact henum.unique henum'

theorem gives_none {query : Run (Option σ)} (h : query = .ok none) : Gives I query [] := by
  refine ⟨none,h,enumerates_of_step (R := fun it es => it = none ∧ es = []) ?_ ⟨rfl,rfl⟩⟩
  rintro it es ⟨rfl,rfl⟩
  exact ⟨none,rfl,rfl,rfl⟩

theorem gives_some {query : Run (Option σ)} {it : σ} {es : List Entry} (h : query = .ok (some it))
    (henum : Enumerates I.next it es) : Gives I query es := by
  refine ⟨some it,h,enumerates_of_step
    (R := fun it es => ∃ s, it = some s ∧ Enumerates I.next s es) ?_ ⟨it,rfl,henum⟩⟩
  rintro it es ⟨s,rfl,hs⟩
  obtain ⟨s',hnext,hs'⟩ := steps_enumerates I.next s es hs
  exact ⟨some s',by simp only [mtblIterNext,hnext,ok_bind,pure_eq_ok],s',rfl,hs'⟩

/-- An iterator that is not NULL enumerates what its own operation does. -/
theorem enumerates_some {it : σ} {es : List Entry} (h : Enumerates (mtblIterNext I) (some it) es) :
    Enumerates I.next it es := by
  refine enumerates_of_step
    (R := fun s rem => Enumerates (mtblIterNext I) (some s) rem) ?_ h
  intro s rem hs
  obtain ⟨it',hnext,hs'⟩ := steps_enumerates (mtblIterNext I) (some s) rem hs
  obtain ⟨⟨e,s'⟩,hown,hpure⟩ := bind_eq_ok.mp hnext
  obtain ⟨rfl,rfl⟩ := Prod.mk.inj (Except.ok.inj hpure)
  exact ⟨s',hown,hs'⟩

end Mtbl
