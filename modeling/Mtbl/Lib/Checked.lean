import Mtbl.Lib.Cursor

/-! Runs that are right or stop on a failed assertion. Assertions that guard what is read from
outside make every later step right or make it stop; the rules carry this over sequences of steps
and over the calls of an iterator. Where nothing can stop, the same rules give plain results. -/
namespace CRun
universe u
variable {α β : Type u}

/-- The run returns a value with the property. It stops on an assertion only where it may. -/
def Within (mayStop : Prop) (x : Run α) (P : α → Prop) : Prop :=
  mayStop ∧ x = .error .assertion ∨ ∃ a, x = .ok a ∧ P a

theorem Within.ok {mayStop : Prop} {a : α} {P : α → Prop} (h : P a) : Within mayStop (.ok a) P :=
  .inr ⟨a,rfl,h⟩

theorem Within.imp {mayStop : Prop} {x : Run α} {P Q : α → Prop} (h : Within mayStop x P)
    (hPQ : ∀ a, P a → Q a) : Within mayStop x Q :=
  h.imp_right (fun ⟨a,ha,hP⟩ => ⟨a,ha,hPQ a hP⟩)

/-- One step before another. -/
theorem Within.bind {mayStop : Prop} {x : Run α} {f : α → Run β} {P : α → Prop} {Q : β → Prop}
    (hx : Within mayStop x P) (hf : ∀ a, P a → Within mayStop (f a) Q) :
    Within mayStop (x >>= f) Q := by
  rcases hx with ⟨hmay,hstop⟩ | ⟨a,ha,hP⟩
  · exact .inl ⟨hmay,by rw [hstop,error_bind]⟩
  · rw [ha,ok_bind]
    exact hf a hP

/-- What is found is found again by every run that returns. -/
theorem Within.of_ok {mayStop : Prop} {x : Run α} {P : α → Prop} (h : Within mayStop x P) {a : α}
    (ha : x = .ok a) : P a := by
  rcases h with ⟨-,hstop⟩ | ⟨b,hb,hP⟩
  · rw [hstop] at ha
    cases ha
  · obtain rfl := Except.ok.inj (hb.symm.trans ha)
    exact hP

theorem within_false {x : Run α} {P : α → Prop} : Within False x P ↔ ∃ a, x = .ok a ∧ P a := by
  simp [Within]

/-- The run stops on an assertion, or returns a value with the property. -/
def Checked (x : Run α) (P : α → Prop) : Prop := x = .error .assertion ∨ ∃ a, x = .ok a ∧ P a

theorem within_true {x : Run α} {P : α → Prop} : Within True x P ↔ Checked x P := by
  simp [Within,Checked]

theorem Checked.ok {a : α} {P : α → Prop} (h : P a) : Checked (.ok a) P := .inr ⟨a,rfl,h⟩

theorem Checked.imp {x : Run α} {P Q : α → Prop} (h : Checked x P) (hPQ : ∀ a, P a → Q a) :
    Checked x Q := within_true.mp ((within_true.mpr h).imp hPQ)

theorem Checked.bind {x : Run α} {f : α → Run β} {P : α → Prop} {Q : β → Prop} (hx : Checked x P)
    (hf : ∀ a, P a → Checked (f a) Q) : Checked (x >>= f) Q :=
  within_true.mp ((within_true.mpr hx).bind (fun a hP => within_true.mpr (hf a hP)))

end CRun

namespace Cursor
open CRun

variable {σ ε κ : Type} [LinearOrder κ] {key : ε → κ} {es : List ε} {I : Ops σ ε κ}
  {guard : σ → Call κ → Prop} {R : σ → List ε → Prop}

/-- The iterator follows the plain cursor or stops on an assertion, as long as the condition holds. -/
structure RefinesChecked (key : ε → κ) (es : List ε) (I : Ops σ ε κ) (guard : σ → Call κ → Prop)
    (R : σ → List ε → Prop) : Prop where
  next : ∀ s rem, R s rem → guard s .next →
    Checked (I.next s) (fun p => p.1 = rem.head? ∧ R p.2 rem.tail)
  seek : ∀ s rem k, R s rem → guard s (.seek k) →
    Checked (I.seek s k) (fun p => p.1 = true ∧ R p.2 (seekList key es k))

theorem RefinesChecked.call (h : RefinesChecked key es I guard R) {s : σ} {rem : List ε}
    (hR : R s rem) {c : Call κ} (hc : guard s c) :
    Checked (I.call s c) (fun p => p.1 = (plainCall key es rem c).1 ∧
      R p.2 (plainCall key es rem c).2) := by
  cases c with
  | next =>
    apply (h.next s rem hR hc).bind
    rintro ⟨e,s'⟩ ⟨rfl,hR'⟩
    exact .ok ⟨rfl,hR'⟩
  | seek k =>
    apply (h.seek s rem k hR hc).bind
    rintro ⟨ok,s'⟩ ⟨rfl,hR'⟩
    exact .ok ⟨rfl,hR'⟩

/-- In a run whose calls all meet the condition every answer up to the assertion is that of the plain
cursor. -/
theorem RefinesChecked.calls (h : RefinesChecked key es I guard R) {s : σ} {rem : List ε}
    (hR : R s rem) (cs : List (Call κ)) (hguard : I.Guarded guard s cs) :
    Checked (I.calls s cs) (fun p => p.1 = (plainCalls key es rem cs).1) := by
  induction cs generalizing s rem with
  | nil => exact .ok rfl
  | cons c cs ih =>
    obtain ⟨hc,hrest⟩ := hguard
    rcases h.call hR hc with hstop | ⟨⟨a,s1⟩,hcall,ha,hR1⟩
    · exact .inl (by simp only [Ops.calls,hstop,error_bind])
    · rw [Ops.calls,hcall,ok_bind]
      apply (ih hR1 (hrest _ hcall)).bind
      rintro ⟨as,s2⟩ has
      exact .ok (congrArg₂ List.cons ha has)

end Cursor
