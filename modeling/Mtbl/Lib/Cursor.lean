import Mtbl.Lib.CRun

/-! Iterators against the plain cursor over a list. An iterator answers calls of `next` and `seek`;
the plain cursor is the list of entries still to come. Two rules lift a relation between states and
such lists from one call to every sequence of calls, the second under a condition on the state
before each call. -/
namespace Cursor
open CRun

inductive Call (κ : Type) where
  | next
  | seek (k : κ)
  deriving DecidableEq, Repr

inductive Answer (ε : Type) where
  | entry (e : ε)
  | success
  | failure
  deriving DecidableEq, Repr

variable {σ ε κ : Type}

def Answer.ofNext : Option ε → Answer ε
  | some e => .entry e
  | none => .failure

def Answer.ofSeek (ok : Bool) : Answer ε := if ok then .success else .failure

/-- `n` calls of `next`. -/
def nexts (next : σ → Run (Option ε × σ)) : ℕ → σ → Run (List (Option ε) × σ)
  | 0,s => .ok ([],s)
  | n+1,s => do
    let (e,s) ← next s
    let (es,s) ← nexts next n s
    return (e::es,s)

/-- Stepping returns the listed entries in order, each once, then failure for ever. -/
def Enumerates (next : σ → Run (Option ε × σ)) (s : σ) (es : List ε) : Prop :=
  ∀ n, ∃ s', nexts next n s = .ok ((List.range n).map (fun i => es[i]?),s')

/-- Stepping tells the entries apart. -/
theorem Enumerates.unique {next : σ → Run (Option ε × σ)} {s : σ} {es es' : List ε}
    (h : Enumerates next s es) (h' : Enumerates next s es') : es = es' := by
  refine List.ext_getElem? (fun i => ?_)
  obtain ⟨s1,h1⟩ := h (i+1)
  obtain ⟨s2,h2⟩ := h' (i+1)
  have hlist := (Prod.mk.inj (Except.ok.inj (h1.symm.trans h2))).1
  have := congrArg (fun l => l[i]?) hlist
  simpa using this

/-- `next` takes the first of the entries still to come, and fails where there is none. -/
def Steps (next : σ → Run (Option ε × σ)) (R : σ → List ε → Prop) : Prop :=
  ∀ s rem, R s rem → ∃ s', next s = .ok (rem.head?,s') ∧ R s' rem.tail

/-- One step of the plain cursor carries over to an enumeration. -/
theorem enumerates_of_step {next : σ → Run (Option ε × σ)} {R : σ → List ε → Prop}
    (hstep : Steps next R) {s : σ} {rem : List ε} (h : R s rem) : Enumerates next s rem := by
  intro n
  induction n generalizing s rem with
  | zero => exact ⟨s,rfl⟩
  | succ n ih =>
    obtain ⟨s1,hnext,hR⟩ := hstep s rem h
    obtain ⟨s2,hrun⟩ := ih hR
    refine ⟨s2,?_⟩
    have hlist : (List.range (n+1)).map (fun i => rem[i]?) =
        rem.head?::(List.range n).map (fun i => rem.tail[i]?) := by
      rw [List.range_succ_eq_map,List.map_cons,List.map_map]
      simp [List.head?_eq_getElem?,Function.comp_def]
    rw [hlist]
    simp only [nexts,hnext,ok_bind,hrun,pure_eq_ok]

theorem steps_enumerates (next : σ → Run (Option ε × σ)) : Steps next (Enumerates next) := by
  intro s es h
  obtain ⟨s1,hone⟩ := h 1
  obtain ⟨⟨e,s'⟩,hnext,hrest⟩ := bind_eq_ok.mp hone
  obtain ⟨⟨_,_⟩,-,hpure⟩ := bind_eq_ok.mp hrest
  have hhead := congrArg List.head? (Prod.mk.inj (Except.ok.inj hpure)).1
  obtain rfl : e = es.head? := by simpa [List.head?_eq_getElem?] using hhead
  refine ⟨s',hnext,fun n => ?_⟩
  obtain ⟨s2,hrun⟩ := h (n+1)
  obtain ⟨⟨e',s''⟩,hnext',hrest'⟩ := bind_eq_ok.mp hrun
  obtain ⟨rfl,rfl⟩ := Prod.mk.inj (Except.ok.inj (hnext.symm.trans hnext'))
  obtain ⟨⟨es2,s3⟩,hn,hpure⟩ := bind_eq_ok.mp hrest'
  obtain ⟨hlist,rfl⟩ := Prod.mk.inj (Except.ok.inj hpure)
  rw [List.range_succ_eq_map,List.map_cons,List.map_map] at hlist
  refine ⟨s3,hn.trans ?_⟩
  rw [(List.cons.inj hlist).2]
  congr 2
  exact List.map_congr_left (fun i _ => by cases es <;> simp [Function.comp])

/-- The two operations of an iterator. -/
structure Ops (σ ε κ : Type) where
  next : σ → Run (Option ε × σ)
  seek : σ → κ → Run (Bool × σ)

def Ops.call (I : Ops σ ε κ) (s : σ) : Call κ → Run (Answer ε × σ)
  | .next => do
    let (e,s) ← I.next s
    return (.ofNext e,s)
  | .seek k => do
    let (ok,s) ← I.seek s k
    return (.ofSeek ok,s)

def Ops.calls (I : Ops σ ε κ) (s : σ) : List (Call κ) → Run (List (Answer ε) × σ)
  | [] => .ok ([],s)
  | c::cs => do
    let (a,s) ← I.call s c
    let (as,s) ← I.calls s cs
    return (a::as,s)

/-- Every state that a sequence of calls passes through meets the condition for its next call. -/
def Ops.Guarded (I : Ops σ ε κ) (guard : σ → Call κ → Prop) : σ → List (Call κ) → Prop
  | _,[] => True
  | s,c::cs => guard s c ∧ ∀ p, I.call s c = .ok p → I.Guarded guard p.2 cs

instance Ops.decidableGuarded (I : Ops σ ε κ) (guard : σ → Call κ → Prop)
    [∀ s c, Decidable (guard s c)] : ∀ (cs : List (Call κ)) (s : σ), Decidable (I.Guarded guard s cs)
  | [],_ => isTrue trivial
  | c::cs,s =>
    have := Ops.decidableGuarded I guard cs
    inferInstanceAs (Decidable (guard s c ∧ ∀ p, I.call s c = .ok p → I.Guarded guard p.2 cs))

/-- No condition at all. -/
theorem Ops.guarded_true (I : Ops σ ε κ) (s : σ) (cs : List (Call κ)) :
    I.Guarded (fun _ _ => True) s cs := by
  induction cs generalizing s with
  | nil => trivial
  | cons c cs ih => exact ⟨trivial,fun p _ => ih p.2⟩

/-- What every allowed call keeps and answers holds over every sequence of them. -/
theorem Ops.calls_all (I : Ops σ ε κ) (Inv : σ → Prop) (allowed : Call κ → Prop)
    (Good : Answer ε → Prop) (hstep : ∀ s c, Inv s → allowed c →
      ∃ a s', I.call s c = .ok (a,s') ∧ Inv s' ∧ Good a) {s : σ} (hs : Inv s) (cs : List (Call κ))
    (hcs : ∀ c ∈ cs, allowed c) :
    ∃ as s', I.calls s cs = .ok (as,s') ∧ Inv s' ∧ ∀ a ∈ as, Good a := by
  induction cs generalizing s with
  | nil => exact ⟨[],s,rfl,hs,by simp⟩
  | cons c cs ih =>
    obtain ⟨a,s1,hcall,hs1,ha⟩ := hstep s c hs (hcs c List.mem_cons_self)
    obtain ⟨as,s2,hcalls,hs2,has⟩ := ih hs1 (fun d hd => hcs d (List.mem_cons_of_mem c hd))
    refine ⟨a::as,s2,?_,hs2,?_⟩
    · simp only [Ops.calls,hcall,ok_bind,hcalls,pure_eq_ok]
    · intro b hb
      rcases List.mem_cons.mp hb with rfl | hb
      · exact ha
      · exact has b hb

/-- The first position at which `p` fails, as a split of the list. -/
theorem drop_eq_dropWhile {α : Type*} (p : α → Bool) (xs : List α) (j : ℕ) (hj : j ≤ xs.length)
    (hbelow : ∀ k x, k < j → xs[k]? = some x → p x = true)
    (hat : ∀ x, xs[j]? = some x → p x = false) : xs.drop j = xs.dropWhile p := by
  induction xs generalizing j with
  | nil => simp
  | cons x xs ih =>
    cases j with
    | zero =>
      rw [List.drop_zero,List.dropWhile_cons_of_neg (by simp [hat x rfl])]
    | succ j =>
      rw [List.drop_succ_cons,List.dropWhile_cons_of_pos (hbelow 0 x (Nat.zero_lt_succ j) rfl)]
      refine ih j (by simpa using hj) ?_ ?_
      · exact fun k y hk hy => hbelow (k+1) y (Nat.succ_lt_succ hk) (by simpa using hy)
      · exact fun y hy => hat y (by simpa using hy)

section Plain
variable [LinearOrder κ] (key : ε → κ) (es : List ε)

/-- Entries with a key at or after `k`, in an ascending list. -/
def seekList (k : κ) : List ε := es.dropWhile (fun e => key e < k)

variable {key es} in
theorem drop_eq_seekList {k : κ} {j : ℕ} (hj : j ≤ es.length)
    (hbelow : ∀ i e, i < j → es[i]? = some e → key e < k)
    (hat : ∀ e, es[j]? = some e → k ≤ key e) : es.drop j = seekList key es k :=
  drop_eq_dropWhile _ es j hj (fun i e hi he => by simpa using hbelow i e hi he)
    (fun e he => by simpa using hat e he)

variable {key es} in
/-- Everything in front of the position that a seek leaves is before the key. -/
theorem seekList_take {k : κ} {j : ℕ} (h : es.drop j = seekList key es k) :
    ∀ e ∈ es.take j, key e < k := by
  have hsplit : es.take j++es.drop j = es.takeWhile (fun e => key e < k)++seekList key es k := by
    rw [List.take_append_drop,seekList,List.takeWhile_append_dropWhile]
  have htake := List.append_inj_left' hsplit (by rw [h])
  intro e he
  rw [htake] at he
  simpa using List.all_eq_true.mp List.all_takeWhile e he

variable {key es} in
theorem seekList_head {k : κ} {j : ℕ} (h : es.drop j = seekList key es k) {e : ε}
    (he : es[j]? = some e) : k ≤ key e := by
  have hhead : (seekList key es k).head? = some e := by
    rw [← h,List.head?_drop,he]
  have hnot := List.head?_dropWhile_not (fun e => decide (key e < k)) es
  rw [show es.dropWhile (fun e => decide (key e < k)) = seekList key es k from rfl,hhead] at hnot
  simpa using hnot

variable {key} in
/-- Seeking in a list whose later part is all at or after the key. -/
theorem seekList_append {k : κ} {xs ys : List ε} (h : ∀ e ∈ ys, k ≤ key e) :
    seekList key (xs++ys) k = seekList key xs k++ys := by
  induction xs with
  | nil =>
    cases ys with
    | nil => rfl
    | cons y ys => simp [seekList,h y]
  | cons x xs ih =>
    by_cases hx : key x < k
    · simpa [seekList,hx] using ih
    · simp [seekList,hx]

variable {key} in
/-- Seeking past entries that are all before the key. -/
theorem seekList_append_left {k : κ} {xs ys : List ε} (h : ∀ e ∈ xs, key e < k) :
    seekList key (xs++ys) k = seekList key ys k :=
  List.dropWhile_append_of_pos (fun e he => by simpa using h e he)

/-- In an ascending list, a selection that starts at `k` and is closed downwards from there is the
part of the list behind `k` up to the first key outside it. -/
theorem takeWhile_seekList {k : κ} {P Q : κ → Bool} (hes : es.Pairwise (fun a b => key a < key b))
    (hPQ : ∀ x, P x = true ↔ k ≤ x ∧ Q x = true)
    (hQ : ∀ x y, k ≤ x → x < y → Q y = true → Q x = true) :
    (seekList key es k).takeWhile (fun e => Q (key e)) = es.filter (fun e => P (key e)) := by
  induction es with
  | nil => rfl
  | cons e es ih =>
    obtain ⟨hlt,hes'⟩ := List.pairwise_cons.mp hes
    by_cases hek : key e < k
    · have hP : P (key e) = false := by
        rw [Bool.eq_false_iff]
        exact fun hP => absurd hek (not_lt.mpr ((hPQ _).mp hP).1)
      rw [List.filter_cons_of_neg (by simp [hP]),← ih hes']
      simp [seekList,hek]
    · have hall : seekList key (e::es) k = e::es := by simp [seekList,hek]
      have hrest : seekList key es k = es := by
        cases es with
        | nil => rfl
        | cons a es =>
          have := (not_lt.mp hek).trans_lt (hlt a (List.mem_cons_self ..))
          simp [seekList,this.le]
      rw [hrest] at ih
      rw [hall]
      by_cases hq : Q (key e) = true
      · have hP : P (key e) = true := (hPQ _).mpr ⟨not_lt.mp hek,hq⟩
        simp [hq,hP,ih hes']
      · have hnone : ∀ a ∈ e::es, ¬ P (key a) = true := by
          intro a ha hP
          rcases List.mem_cons.mp ha with rfl | ha
          · exact hq ((hPQ _).mp hP).2
          · exact hq (hQ _ _ (not_lt.mp hek) (hlt a ha) ((hPQ _).mp hP).2)
        rw [List.filter_eq_nil_iff.mpr hnone]
        simp [hq]

/-- The plain cursor: what a call answers and the entries still to come. -/
def plainCall (rem : List ε) : Call κ → Answer ε × List ε
  | .next => (.ofNext rem.head?,rem.tail)
  | .seek k => (.success,seekList key es k)

def plainCalls (rem : List ε) : List (Call κ) → List (Answer ε) × List ε
  | [] => ([],rem)
  | c::cs =>
    let (a,rem) := plainCall key es rem c
    let (as,rem) := plainCalls rem cs
    (a::as,rem)

/-- The iterator follows the plain cursor as long as the condition holds. -/
structure Refines (I : Ops σ ε κ) (guard : σ → Call κ → Prop) (R : σ → List ε → Prop) :
    Prop where
  next : ∀ s rem, R s rem → guard s .next → ∃ s', I.next s = .ok (rem.head?,s') ∧ R s' rem.tail
  seek : ∀ s rem k, R s rem → guard s (.seek k) →
    ∃ s', I.seek s k = .ok (true,s') ∧ R s' (seekList key es k)

/-- The plain cursor as an iterator. -/
def plainOps : Ops (List ε) ε κ where
  next rem := .ok (rem.head?,rem.tail)
  seek _ k := .ok (true,seekList key es k)

theorem plainOps_refines : Refines key es (plainOps key es) (fun _ _ => True) (fun s rem => s = rem)
    where
  next := by
    rintro s rem rfl -
    exact ⟨s.tail,rfl,rfl⟩
  seek := by
    rintro s rem k rfl -
    exact ⟨_,rfl,rfl⟩

/-- What a seek passes over, and what it leaves. -/
theorem exists_seekList_split (k : κ) :
    ∃ before, es = before++seekList key es k ∧ ∀ e ∈ before, key e < k := by
  refine ⟨es.takeWhile (fun e => key e < k),List.takeWhile_append_dropWhile.symm,?_⟩
  intro e he
  simpa using List.all_eq_true.mp List.all_takeWhile e he

variable {key es} {I : Ops σ ε κ} {guard : σ → Call κ → Prop} {R : σ → List ε → Prop}

theorem seekList_cons_le {k : κ} {e : ε} {rest : List ε} (h : seekList key es k = e::rest) :
    k ≤ key e := by
  have hnot := List.head?_dropWhile_not (fun e => decide (key e < k)) es
  rw [show es.dropWhile (fun e => decide (key e < k)) = seekList key es k from rfl,h] at hnot
  simpa using hnot

theorem Refines.call (h : Refines key es I guard R) {s : σ} {rem : List ε} (hR : R s rem)
    {c : Call κ} (hc : guard s c) :
    ∃ s', I.call s c = .ok ((plainCall key es rem c).1,s') ∧ R s' (plainCall key es rem c).2 := by
  cases c with
  | next =>
    obtain ⟨s',hnext,hR'⟩ := h.next s rem hR hc
    exact ⟨s',by simp only [Ops.call,hnext,ok_bind,pure_eq_ok,plainCall],hR'⟩
  | seek k =>
    obtain ⟨s',hseek,hR'⟩ := h.seek s rem k hR hc
    exact ⟨s',by simp [Ops.call,hseek,plainCall,Answer.ofSeek],hR'⟩

/-- In a run whose calls all meet the condition the answers are those of the plain cursor. -/
theorem Refines.calls (h : Refines key es I guard R) {s : σ} {rem : List ε} (hR : R s rem)
    (cs : List (Call κ)) (hguard : I.Guarded guard s cs) :
    ∃ s', I.calls s cs = .ok ((plainCalls key es rem cs).1,s') ∧
      R s' (plainCalls key es rem cs).2 := by
  induction cs generalizing s rem with
  | nil => exact ⟨s,rfl,hR⟩
  | cons c cs ih =>
    obtain ⟨hc,hrest⟩ := hguard
    obtain ⟨s1,hcall,hR1⟩ := h.call hR hc
    obtain ⟨s2,hcalls,hR2⟩ := ih hR1 (hrest _ hcall)
    exact ⟨s2,by simp only [Ops.calls,hcall,ok_bind,hcalls,pure_eq_ok,plainCalls],hR2⟩

end Plain

end Cursor
