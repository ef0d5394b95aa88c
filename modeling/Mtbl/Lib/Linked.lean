import Mathlib.Tactic

/-! Linked lists in a memory: each node has a field with the next one, and a list is given by its
first node. Lists that share a memory must not share nodes; the frame condition of each operation
says which fields it leaves alone. -/
namespace LinkedList
variable {α : Type*}

/-- Following the pointers from the first node gives these nodes and ends. -/
def Linked (next : α → Option α) : Option α → List α → Prop
  | head,[] => head = none
  | head,a::as => head = some a ∧ Linked next (next a) as

variable {next next' : α → Option α} {head : Option α} {a u : α} {as : List α}

theorem Linked.head_eq (h : Linked next head as) : head = as.head? := by
  cases as with
  | nil => exact h
  | cons a as => exact h.1

theorem Linked.frame (h : Linked next head as) (hsame : ∀ b ∈ as, next' b = next b) :
    Linked next' head as := by
  induction as generalizing head with
  | nil => exact h
  | cons a as ih =>
    refine ⟨h.1,?_⟩
    rw [hsame a List.mem_cons_self]
    exact ih h.2 (fun b hb => hsame b (List.mem_cons_of_mem a hb))

theorem Linked.push (h : Linked next head as) (hnode : next' a = head)
    (hsame : ∀ b ∈ as, next' b = next b) : Linked next' (some a) (a::as) :=
  ⟨rfl,hnode ▸ h.frame hsame⟩

theorem Linked.pop (h : Linked next head (a::as)) (hsame : ∀ b ∈ as, next' b = next b) :
    Linked next' (next a) as :=
  h.2.frame hsame

theorem Linked.single (hnode : next a = none) : Linked next (some a) [a] := ⟨rfl,hnode⟩

/-- Linking a node behind the last one. -/
theorem Linked.append (h : Linked next head as) (hlast : as.getLast? = some u)
    (hlink : next' u = some a) (hnode : next' a = none) (hnodup : as.Nodup)
    (hsame : ∀ b ∈ as, b ≠ u → next' b = next b) : Linked next' head (as++[a]) := by
  induction as generalizing head with
  | nil => simp at hlast
  | cons b as ih =>
    refine ⟨h.1,?_⟩
    rcases List.eq_nil_or_concat as with rfl | ⟨bs,c,rfl⟩
    · obtain rfl : b = u := by simpa using hlast
      rw [hlink]
      exact .single hnode
    · have hlast' : (bs.concat c).getLast? = some u := by
        rw [List.concat_eq_append] at hlast ⊢
        simpa [List.getLast?_cons] using hlast
      have hmem : u ∈ bs.concat c := List.mem_of_getLast? hlast'
      have hne : b ≠ u := by
        rintro rfl
        exact (List.nodup_cons.mp hnodup).1 hmem
      rw [hsame b List.mem_cons_self hne]
      exact ih h.2 hlast' (List.nodup_cons.mp hnodup).2
        (fun d hd => hsame d (List.mem_cons_of_mem b hd))

end LinkedList
