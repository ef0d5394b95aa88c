import Mathlib.Tactic

/-! A buffer as the writes to it, each a list of items at an offset. A position holds what the last
write over it has put there; writes that follow one another without a gap fill the buffer with their
concatenation. -/
namespace Writes
variable {α : Type*}

/-- The item at a position, if some write is over it. -/
def itemAt (writes : List (ℕ × List α)) (i : ℕ) : Option α :=
  writes.foldl (fun old p => if p.1 ≤ i ∧ i < p.1+p.2.length then p.2[i-p.1]? else old) none

/-- The buffer begins with these items. -/
def Fills (writes : List (ℕ × List α)) (out : List α) : Prop :=
  ∀ i < out.length, itemAt writes i = out[i]?

/-- The first `n` items, if there is a write over each of them. -/
def items (writes : List (ℕ × List α)) (n : ℕ) : Option (List α) :=
  (List.range n).mapM (itemAt writes)

variable {writes : List (ℕ × List α)} {out more : List α}

theorem itemAt_append (p : ℕ × List α) (i : ℕ) : itemAt (writes++[p]) i =
    if p.1 ≤ i ∧ i < p.1+p.2.length then p.2[i-p.1]? else itemAt writes i := by
  simp only [itemAt,List.foldl_append,List.foldl_cons,List.foldl_nil]

theorem Fills.nil (writes : List (ℕ × List α)) : Fills writes [] :=
  fun i hi => absurd hi (Nat.not_lt_zero i)

theorem Fills.append (h : Fills writes out) : Fills (writes++[(out.length,more)]) (out++more) := by
  intro i hi
  rw [itemAt_append]
  rw [List.length_append] at hi
  by_cases hlt : i < out.length
  · rw [if_neg (by omega),h i hlt,List.getElem?_append_left hlt]
  · have hle := not_lt.mp hlt
    rw [if_pos ⟨hle,hi⟩,List.getElem?_append_right hle]

theorem fills_single (out : List α) : Fills [(0,out)] out := by
  have h := @Fills.append α [] [] out (Fills.nil [])
  rwa [List.nil_append] at h

/-- Where no write is, there is nothing. -/
theorem itemAt_eq_none {i : ℕ} (h : ∀ p ∈ writes, i < p.1 ∨ p.1+p.2.length ≤ i) :
    itemAt writes i = none := by
  induction writes using List.reverseRecOn with
  | nil => rfl
  | append_singleton writes p ih =>
    rw [itemAt_append,if_neg]
    · exact ih (fun q hq => h q (List.mem_append_left _ hq))
    · have hp := h p (List.mem_append_right _ (List.mem_singleton_self p))
      omega

theorem not_fills {i : ℕ} (hi : i < out.length)
    (h : ∀ p ∈ writes, i < p.1 ∨ p.1+p.2.length ≤ i) : ¬ Fills writes out := by
  intro hfills
  have hnone := (hfills i hi).symm.trans (itemAt_eq_none h)
  rw [List.getElem?_eq_getElem hi] at hnone
  cases hnone

theorem mapM_eq_some {ι : Type*} {f : ι → Option α} {l : List ι} :
    l.mapM f = some out ↔ l.map f = out.map some := by
  induction l generalizing out with
  | nil => cases out <;> simp
  | cons a l ih =>
    simp only [List.mapM_cons,Option.bind_eq_bind,Option.bind_eq_some_iff,Option.pure_def,ih,
      List.map_cons]
    constructor
    · rintro ⟨b,hb,rest,hrest,hout⟩
      rw [← Option.some.inj hout,List.map_cons,hb,hrest]
    · intro hmap
      cases out with
      | nil => cases hmap
      | cons b out =>
        obtain ⟨hb,hrest⟩ := List.cons.inj hmap
        exact ⟨b,hb,out,hrest,rfl⟩

theorem items_eq_some {n : ℕ} : items writes n = some out ↔ n = out.length ∧ Fills writes out := by
  rw [items,mapM_eq_some]
  constructor
  · intro hmap
    have hsize : n = out.length := by
      simpa only [List.length_map,List.length_range] using congrArg List.length hmap
    refine ⟨hsize,fun i hi => ?_⟩
    have hitem := congrArg (·[i]?) hmap
    simpa [hsize,hi] using hitem
  · rintro ⟨rfl,hfills⟩
    apply List.ext_getElem
    · simp
    · intro i _ hi
      have hlt : i < out.length := by rwa [List.length_map] at hi
      simp [hfills i hlt,hlt]

end Writes
