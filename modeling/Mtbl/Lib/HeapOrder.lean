import Mathlib.Tactic

/-! Heap order in a list seen as a binary tree, the children of position `i` at `2*i+1` and `2*i+2`.
An item moves through the tree as a hole: the list keeps its other items, and what stands at the
hole does not count until the item is put there. -/
namespace HeapOrder
variable {α : Type*} {r : α → α → Prop} {n : ℕ} {xs : List α} {x : α} {pos : ℕ}

def parent (i : ℕ) : ℕ := (i-1)/2

theorem parent_lt {i : ℕ} (h : 0 < i) : parent i < i := by
  unfold parent
  omega

theorem parent_eq_iff {i p : ℕ} (h : 0 < i) : parent i = p ↔ i = 2*p+1 ∨ i = 2*p+2 := by
  unfold parent
  omega

/-- The item at `i` is `b`, the one at its parent `a`. -/
def Edge (xs : List α) (i : ℕ) (a b : α) : Prop :=
  0 < i ∧ xs[parent i]? = some a ∧ xs[i]? = some b

/-- Every parent from position `n` on is before its children. -/
def OrderedFrom (r : α → α → Prop) (n : ℕ) (xs : List α) : Prop :=
  ∀ i a b, n ≤ parent i → Edge xs i a b → r a b

abbrev IsHeap (r : α → α → Prop) (xs : List α) : Prop := OrderedFrom r 0 xs

theorem ordered_nil : IsHeap r ([] : List α) := by
  rintro i a b - ⟨-,-,hb⟩
  simp at hb

theorem IsHeap.from (h : IsHeap r xs) (n : ℕ) : OrderedFrom r n xs :=
  fun i a b _ he => h i a b (Nat.zero_le _) he

/-- No parent is in the second half. -/
theorem orderedFrom_half : OrderedFrom r (xs.length/2) xs := by
  rintro i a b hn ⟨hi,-,hb⟩
  have hlt := (List.getElem?_eq_some_iff.mp hb).1
  unfold parent at hn
  omega

/-- The root is before every item. -/
theorem IsHeap.root_le (h : IsHeap r xs) (hrefl : ∀ a, r a a)
    (htrans : ∀ a b c, r a b → r b c → r a c) {a : α} (ha : xs[0]? = some a) {i : ℕ} {b : α}
    (hb : xs[i]? = some b) : r a b := by
  induction i using Nat.strong_induction_on generalizing b with
  | h i ih =>
    rcases Nat.eq_zero_or_pos i with rfl | hi
    · obtain rfl := Option.some.inj (ha.symm.trans hb)
      exact hrefl a
    · have hlt := (parent_lt hi).trans (List.getElem?_eq_some_iff.mp hb).1
      have hp : xs[parent i]? = some xs[parent i] := List.getElem?_eq_getElem hlt
      exact htrans _ _ _ (ih _ (parent_lt hi) hp) (h i _ b (Nat.zero_le _) ⟨hi,hp,hb⟩)

theorem IsHeap.root_le_mem (h : IsHeap r xs) (hrefl : ∀ a, r a a)
    (htrans : ∀ a b c, r a b → r b c → r a c) {a : α} (ha : xs[0]? = some a) :
    ∀ b ∈ xs, r a b := by
  intro b hb
  obtain ⟨i,hi⟩ := List.mem_iff_getElem?.mp hb
  exact h.root_le hrefl htrans ha hi

/-! ### The hole -/

/-- Every pair of parent and child off the hole is in order. -/
def OrderedExcept (r : α → α → Prop) (n : ℕ) (xs : List α) (pos : ℕ) : Prop :=
  ∀ i a b, n ≤ parent i → i ≠ pos → parent i ≠ pos → Edge xs i a b → r a b

/-- The hole's parent is before the hole's children. -/
def GrandOrdered (r : α → α → Prop) (n : ℕ) (xs : List α) (pos : ℕ) : Prop :=
  ∀ i a b, 0 < pos → n ≤ parent pos → 0 < i → parent i = pos → xs[parent pos]? = some a →
    xs[i]? = some b → r a b

/-- `x` is before the hole's children. -/
def BelowChildren (r : α → α → Prop) (xs : List α) (pos : ℕ) (x : α) : Prop :=
  ∀ i b, 0 < i → parent i = pos → xs[i]? = some b → r x b

/-- `x` is behind the hole's parent. -/
def Above (r : α → α → Prop) (n : ℕ) (xs : List α) (pos : ℕ) (x : α) : Prop :=
  ∀ a, 0 < pos → n ≤ parent pos → xs[parent pos]? = some a → r a x

/-- Where the hole of an item on its way down may be. -/
structure DownHole (r : α → α → Prop) (n : ℕ) (xs : List α) (pos : ℕ) (x : α) : Prop where
  lt : pos < xs.length
  except : OrderedExcept r n xs pos
  grand : GrandOrdered r n xs pos
  above : Above r n xs pos x

/-- Where the hole of an item on its way up may be. -/
structure UpHole (r : α → α → Prop) (xs : List α) (pos : ℕ) (x : α) : Prop where
  lt : pos < xs.length
  except : OrderedExcept r 0 xs pos
  grand : GrandOrdered r 0 xs pos
  below : BelowChildren r xs pos x

theorem OrderedFrom.except (h : OrderedFrom r n xs) (pos : ℕ) : OrderedExcept r n xs pos :=
  fun i a b hn _ _ he => h i a b hn he

theorem OrderedExcept.take (h : OrderedExcept r n xs pos) (m : ℕ) :
    OrderedExcept r n (xs.take m) pos := by
  rintro i a b hn hne hp ⟨hi,ha,hb⟩
  have hsub : ∀ (j : ℕ) (c : α), (xs.take m)[j]? = some c → xs[j]? = some c := by
    intro j c hc
    rw [List.getElem?_take] at hc
    split at hc
    · exact hc
    · cases hc
  exact h i a b hn hne hp ⟨hi,hsub _ _ ha,hsub _ _ hb⟩

/-- What stands at the hole does not count. -/
theorem OrderedExcept.set (h : OrderedExcept r n xs pos) (x : α) :
    OrderedExcept r n (xs.set pos x) pos := by
  rintro i a b hn hne hp ⟨hi,ha,hb⟩
  rw [List.getElem?_set_ne (Ne.symm hp)] at ha
  rw [List.getElem?_set_ne (Ne.symm hne)] at hb
  exact h i a b hn hne hp ⟨hi,ha,hb⟩

/-- A hole opened at the root. -/
theorem OrderedExcept.rootHole (h : OrderedExcept r 0 xs 0) (hpos : 0 < xs.length) (x : α) :
    DownHole r 0 xs 0 x :=
  ⟨hpos,h,fun _ _ _ h0 => absurd h0 (lt_irrefl 0),fun _ h0 => absurd h0 (lt_irrefl 0)⟩

/-- A hole opened right before the part in order. -/
theorem OrderedFrom.hole (h : OrderedFrom r (n+1) xs) (hn : n < xs.length) (x : α) :
    DownHole r n xs n x := by
  refine ⟨hn,?_,?_,?_⟩
  · intro i a b hni _ hp he
    exact h i a b (by omega) he
  · intro i a b hpos hni
    exact absurd (parent_lt hpos) (not_lt.mpr hni)
  · intro a hpos hni
    exact absurd (parent_lt hpos) (not_lt.mpr hni)

/-- A hole opened behind the last item. -/
theorem IsHeap.lastHole (h : IsHeap r xs) (x : α) : UpHole r (xs++[x]) xs.length x := by
  have hchild : ∀ i b, 0 < i → parent i = xs.length → (xs++[x])[i]? ≠ some b := by
    intro i b hi hp hb
    have hlt := (List.getElem?_eq_some_iff.mp hb).1
    have := parent_lt hi
    simp only [List.length_append,List.length_cons,List.length_nil] at hlt
    omega
  refine ⟨by simp,?_,?_,?_⟩
  · rintro i a b hn hne hp ⟨hi,ha,hb⟩
    have hlt := (List.getElem?_eq_some_iff.mp hb).1
    have hpi := parent_lt hi
    simp only [List.length_append,List.length_cons,List.length_nil] at hlt
    rw [List.getElem?_append_left (by omega)] at ha hb
    exact h i a b hn ⟨hi,ha,hb⟩
  · exact fun i a b _ _ hi hp _ hb => absurd hb (hchild i b hi hp)
  · exact fun i b hi hp hb => absurd hb (hchild i b hi hp)

/-- The item is put into the hole. -/
theorem orderedFrom_fill (hexcept : OrderedExcept r n xs pos) (habove : Above r n xs pos x)
    (hbelow : BelowChildren r xs pos x) : OrderedFrom r n (xs.set pos x) := by
  rintro i a b hn ⟨hi,ha,hb⟩
  have hpi := parent_lt hi
  by_cases hipos : i = pos
  · subst hipos
    rw [List.getElem?_set_ne (by omega)] at ha
    rw [List.getElem?_set_self'] at hb
    obtain ⟨_,_,rfl⟩ := Option.map_eq_some_iff.mp hb
    exact habove a hi hn ha
  · rw [List.getElem?_set_ne (Ne.symm hipos)] at hb
    by_cases hp : parent i = pos
    · rw [hp,List.getElem?_set_self'] at ha
      obtain ⟨_,_,rfl⟩ := Option.map_eq_some_iff.mp ha
      exact hbelow i b hi hp hb
    · rw [List.getElem?_set_ne (Ne.symm hp)] at ha
      exact hexcept i a b hn hipos hp ⟨hi,ha,hb⟩

/-- The hole moves down: a child that is before its sibling and before the item takes its place. -/
theorem DownHole.move (h : DownHole r n xs pos x) {c : ℕ} {b : α} (hc : 0 < c)
    (hparent : parent c = pos) (hb : xs[c]? = some b) (hfirst : BelowChildren r xs pos b) (hbx : r b x) :
    DownHole r n (xs.set pos b) c x := by
  have hlt := (List.getElem?_eq_some_iff.mp hb).1
  have hpc := parent_lt hc
  have hself : (xs.set pos b)[pos]? = some b := by rw [List.getElem?_set_self h.lt]
  refine ⟨by simpa using hlt,?_,?_,?_⟩
  · rintro i a d hn hne hp ⟨hi,ha,hd⟩
    have hpi := parent_lt hi
    by_cases hipos : i = pos
    · subst hipos
      rw [List.getElem?_set_ne (by omega)] at ha
      obtain rfl := Option.some.inj (hself.symm.trans hd)
      exact h.grand c a b hi hn hc hparent ha hb
    · rw [List.getElem?_set_ne (Ne.symm hipos)] at hd
      by_cases hpp : parent i = pos
      · rw [hpp] at ha
        obtain rfl := Option.some.inj (hself.symm.trans ha)
        exact hfirst i d hi hpp hd
      · rw [List.getElem?_set_ne (Ne.symm hpp)] at ha
        exact h.except i a d hn hipos hpp ⟨hi,ha,hd⟩
  · intro i a d _ hn hi hp ha hd
    have hpi := parent_lt hi
    rw [hparent] at ha
    obtain rfl := Option.some.inj (hself.symm.trans ha)
    rw [List.getElem?_set_ne (by omega)] at hd
    exact h.except i b d (by omega) (by omega) (by omega) ⟨hi,by rw [hp]; exact hb,hd⟩
  · intro a _ _ ha
    rw [hparent] at ha
    obtain rfl := Option.some.inj (hself.symm.trans ha)
    exact hbx

/-- The hole moves up: its parent, which is behind the item, takes its place. -/
theorem UpHole.move (h : UpHole r xs pos x) (htrans : ∀ a b c, r a b → r b c → r a c)
    (hpos : 0 < pos) {a : α} (ha : xs[parent pos]? = some a) (hxa : r x a) :
    UpHole r (xs.set pos a) (parent pos) x := by
  have hpp := parent_lt hpos
  have hself : (xs.set pos a)[pos]? = some a := by rw [List.getElem?_set_self h.lt]
  have hchild : ∀ i b, 0 < i → parent i = parent pos → (xs.set pos a)[i]? = some b →
      r a b ∨ b = a := by
    intro i b hi hp hb
    by_cases hipos : i = pos
    · subst hipos
      exact .inr (Option.some.inj (hb.symm.trans hself))
    · rw [List.getElem?_set_ne (Ne.symm hipos)] at hb
      exact .inl (h.except i a b (Nat.zero_le _) hipos (by omega) ⟨hi,by rw [hp]; exact ha,hb⟩)
  have hgrand : ∀ g, 0 < parent pos → xs[parent (parent pos)]? = some g → r g a := by
    intro g hpp0 hg
    have := parent_lt hpp0
    exact h.except (parent pos) g a (Nat.zero_le _) (by omega) (by omega) ⟨hpp0,hg,ha⟩
  refine ⟨by simpa using hpp.trans h.lt,?_,?_,?_⟩
  · rintro i c d hn hne hp ⟨hi,hc,hd⟩
    by_cases hipos : i = pos
    · exact absurd (congrArg parent hipos) hp
    · rw [List.getElem?_set_ne (Ne.symm hipos)] at hd
      by_cases hpi : parent i = pos
      · rw [hpi] at hc
        obtain rfl := Option.some.inj (hself.symm.trans hc)
        exact h.grand i a d hpos (Nat.zero_le _) hi hpi ha hd
      · rw [List.getElem?_set_ne (Ne.symm hpi)] at hc
        exact h.except i c d hn hipos hpi ⟨hi,hc,hd⟩
  · intro i g d hpp0 _ hi hp hg hd
    have := parent_lt hpp0
    rw [List.getElem?_set_ne (by omega)] at hg
    rcases hchild i d hi hp hd with had | rfl
    · exact htrans _ _ _ (hgrand g hpp0 hg) had
    · exact hgrand g hpp0 hg
  · intro i b hi hp hb
    rcases hchild i b hi hp hb with hab | rfl
    · exact htrans _ _ _ hxa hab
    · exact hxa

/-- A move of the hole keeps the items. -/
theorem move_perm (hpos : pos < xs.length) {c : ℕ} {b : α} (hne : pos ≠ c) (hb : xs[c]? = some b) :
    ((xs.set pos b).set c x).Perm (xs.set pos x) := by
  obtain ⟨hc,hbc⟩ := List.getElem?_eq_some_iff.mp hb
  have hpos' : pos < (xs.set pos x).length := by simpa using hpos
  have hc' : c < (xs.set pos x).length := by simpa using hc
  have hswap := List.set_set_perm hpos' hc'
  rw [List.getElem_set_self,List.getElem_set_ne hne,hbc,List.set_set] at hswap
  exact hswap

end HeapOrder
