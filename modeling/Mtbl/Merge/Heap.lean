import Mtbl.Lib.CRun
import Mtbl.Lib.HeapOrder

/-! The binary heap of `libmy/heap.c`. Both sifts carry the moving item beside the vector and write
it where they stop; in between the vector has a hole. NULL is `none`. -/
namespace Mtbl
open CRun HeapOrder

variable {α : Type} (cmp : α → α → ℤ)

/-- `ptrvec_value`, which asserts its bound. -/
def ptrvecValue (vec : List α) (i : ℕ) : Run α :=
  match vec[i]? with
  | some x => .ok x
  | none => .error .assertion

theorem ptrvecValue_ok {vec : List α} {i : ℕ} {x : α} (h : vec[i]? = some x) :
    ptrvecValue vec i = .ok x := by
  rw [ptrvecValue,h]

def siftupLoop (newitem : α) : ℕ → List α → ℕ → Run (List α)
  | 0,_,_ => .error .fuel
  | n+1,vec,pos =>
    if 0 < pos then do
      let parentpos := (pos-1)/2
      let parent ← ptrvecValue vec parentpos
      if cmp parent newitem ≤ 0 then return vec.set pos newitem
      siftupLoop newitem n (vec.set pos parent) parentpos
    else .ok (vec.set pos newitem)

def siftup (vec : List α) : Run (List α) := do
  let pos := vec.length-1
  let newitem ← ptrvecValue vec pos
  siftupLoop cmp newitem vec.length vec pos

/-- The child to hold the item against: the right one where it is not behind the left one. -/
def siftChild (vec : List α) (childpos : ℕ) : Run (ℕ × α) := do
  let rightpos := childpos+1
  let childval ← ptrvecValue vec childpos
  if rightpos < vec.length then
    let rightval ← ptrvecValue vec rightpos
    return if cmp rightval childval ≤ 0 then (rightpos,rightval) else (childpos,childval)
  else return (childpos,childval)

def siftdownLoop (newitem : α) : ℕ → List α → ℕ → Run (List α)
  | 0,_,_ => .error .fuel
  | n+1,vec,pos =>
    if 2*pos+1 < vec.length then do
      let (childpos,childval) ← siftChild cmp vec (2*pos+1)
      if cmp newitem childval ≤ 0 then return vec.set pos newitem
      siftdownLoop newitem n (vec.set pos childval) childpos
    else .ok (vec.set pos newitem)

def siftdown (vec : List α) (pos : ℕ) : Run (List α) := do
  check (pos < vec.length)
  let newitem ← ptrvecValue vec pos
  siftdownLoop cmp newitem (vec.length+1) vec pos

/-- The loop of `heap_heapify`, from position `i` down. -/
def heapifyLoop : ℕ → List α → Run (List α)
  | 0,vec => .ok vec
  | i+1,vec => do
    let vec ← siftdown cmp vec i
    heapifyLoop i vec

def heapHeapify (vec : List α) : Run (List α) := heapifyLoop cmp (vec.length/2) vec

def heapClip (vec : List α) (nElems : ℕ) : List α := vec.take nElems

def heapAdd (vec : List α) (item : α) : List α := vec++[item]

def heapPush (vec : List α) (item : α) : Run (List α) := siftup cmp (vec++[item])

def heapPop (vec : List α) : Run (Option α × List α) :=
  if vec.length < 1 then .ok (none,vec)
  else do
    let lastelt ← ptrvecValue vec (vec.length-1)
    let vec := vec.take (vec.length-1)
    if 0 < vec.length then
      let returnitem ← ptrvecValue vec 0
      let vec ← siftdown cmp (vec.set 0 lastelt) 0
      return (some returnitem,vec)
    else return (some lastelt,vec)

def heapReplace (vec : List α) (item : α) : Run (Option α × List α) :=
  if vec.length < 1 then .ok (none,vec)
  else do
    let returnitem ← ptrvecValue vec 0
    let vec ← siftdown cmp (vec.set 0 item) 0
    return (some returnitem,vec)

def heapPeek (vec : List α) : Option α := vec[0]?

theorem set_same {vec : List α} {i : ℕ} {x : α} (h : vec[i]? = some x) : vec.set i x = vec := by
  obtain ⟨hlt,rfl⟩ := List.getElem?_eq_some_iff.mp h
  exact List.set_getElem_self hlt

/-! ### What each operation does to an ordered heap -/

/-- The comparison answers by a preorder: not above zero only for `r a b`, above it only for
`r b a`. -/
structure Compares (cmp : α → α → ℤ) (r : α → α → Prop) : Prop where
  of_le : ∀ a b, cmp a b ≤ 0 → r a b
  of_gt : ∀ a b, ¬ cmp a b ≤ 0 → r b a
  trans : ∀ a b c, r a b → r b c → r a c

variable {cmp} {r : α → α → Prop}

theorem Compares.refl (h : Compares cmp r) (a : α) : r a a := by
  by_cases ha : cmp a a ≤ 0
  · exact h.of_le a a ha
  · exact h.of_gt a a ha

theorem Compares.total (h : Compares cmp r) (a b : α) : r a b ∨ r b a := by
  by_cases hab : cmp a b ≤ 0
  · exact .inl (h.of_le a b hab)
  · exact .inr (h.of_gt a b hab)

theorem siftupLoop_spec (h : Compares cmp r) {x : α} (fuel : ℕ) {vec : List α} {pos : ℕ}
    (hhole : UpHole r vec pos x) (hfuel : pos < fuel) :
    ∃ vec', siftupLoop cmp x fuel vec pos = .ok vec' ∧ IsHeap r vec' ∧
      vec'.Perm (vec.set pos x) := by
  induction fuel generalizing vec pos with
  | zero => omega
  | succ n ih =>
    rcases Nat.eq_zero_or_pos pos with rfl | hpos
    · refine ⟨vec.set 0 x,by simp [siftupLoop],?_,.refl _⟩
      exact orderedFrom_fill hhole.except (fun a h0 => absurd h0 (lt_irrefl 0)) hhole.below
    · have hlt := parent_lt hpos
      have hplt := hlt.trans hhole.lt
      have hparent : vec[parent pos]? = some vec[parent pos] := List.getElem?_eq_getElem hplt
      have hval := ptrvecValue_ok hparent
      by_cases hle : cmp vec[parent pos] x ≤ 0
      · refine ⟨vec.set pos x,?_,?_,.refl _⟩
        · simp only [siftupLoop,hpos,if_true]
          rw [show (pos-1)/2 = parent pos from rfl,hval]
          simp [hle]
        · refine orderedFrom_fill hhole.except (fun a _ _ ha => ?_) hhole.below
          obtain rfl := Option.some.inj (hparent.symm.trans ha)
          exact h.of_le _ _ hle
      · have hmove := hhole.move h.trans hpos hparent (h.of_gt _ _ hle)
        obtain ⟨vec',hrun,hord,hperm⟩ := ih hmove (by omega)
        refine ⟨vec',?_,hord,hperm.trans (move_perm hhole.lt (by omega) hparent)⟩
        simp only [siftupLoop,hpos,if_true]
        rw [show (pos-1)/2 = parent pos from rfl,hval]
        simpa [hle] using hrun

theorem siftChild_spec (h : Compares cmp r) {vec : List α} {pos : ℕ}
    (hlt : 2*pos+1 < vec.length) :
    ∃ c b, siftChild cmp vec (2*pos+1) = .ok (c,b) ∧ 0 < c ∧ parent c = pos ∧ vec[c]? = some b ∧
      BelowChildren r vec pos b := by
  have hleft : vec[2*pos+1]? = some vec[2*pos+1] := List.getElem?_eq_getElem hlt
  by_cases hrlt : 2*pos+1+1 < vec.length
  · have hright : vec[2*pos+1+1]? = some vec[2*pos+1+1] := List.getElem?_eq_getElem hrlt
    have hrun : siftChild cmp vec (2*pos+1) = .ok
        (if cmp vec[2*pos+1+1] vec[2*pos+1] ≤ 0 then (2*pos+1+1,vec[2*pos+1+1])
          else (2*pos+1,vec[2*pos+1])) := by
      simp only [siftChild,ptrvecValue_ok hleft,ok_bind,hrlt,if_true,ptrvecValue_ok hright,
        pure_eq_ok]
    have hbelow : ∀ b, r b vec[2*pos+1] → r b vec[2*pos+1+1] → BelowChildren r vec pos b := by
      intro b hbl hbr i d hi hp hd
      rcases (parent_eq_iff hi).mp hp with rfl | rfl
      · exact Option.some.inj (hleft.symm.trans hd) ▸ hbl
      · exact Option.some.inj (hright.symm.trans hd) ▸ hbr
    by_cases hle : cmp vec[2*pos+1+1] vec[2*pos+1] ≤ 0
    · rw [if_pos hle] at hrun
      exact ⟨_,_,hrun,by omega,(parent_eq_iff (by omega)).mpr (.inr rfl),hright,
        hbelow _ (h.of_le _ _ hle) (h.refl _)⟩
    · rw [if_neg hle] at hrun
      exact ⟨_,_,hrun,by omega,(parent_eq_iff (by omega)).mpr (.inl rfl),hleft,
        hbelow _ (h.refl _) (h.of_gt _ _ hle)⟩
  · refine ⟨_,_,?_,by omega,(parent_eq_iff (by omega)).mpr (.inl rfl),hleft,?_⟩
    · simp only [siftChild,ptrvecValue_ok hleft,ok_bind,hrlt,if_false,pure_eq_ok]
    · intro i d hi hp hd
      rcases (parent_eq_iff hi).mp hp with rfl | rfl
      · exact Option.some.inj (hleft.symm.trans hd) ▸ h.refl _
      · exact absurd (List.getElem?_eq_some_iff.mp hd).1 hrlt

theorem siftdownLoop_spec (h : Compares cmp r) {x : α} {n : ℕ} (fuel : ℕ) {vec : List α} {pos : ℕ}
    (hhole : DownHole r n vec pos x) (hfuel : vec.length < fuel+pos) :
    ∃ vec', siftdownLoop cmp x fuel vec pos = .ok vec' ∧ OrderedFrom r n vec' ∧
      vec'.Perm (vec.set pos x) := by
  induction fuel generalizing vec pos with
  | zero =>
    have := hhole.lt
    omega
  | succ m ih =>
    by_cases hchild : 2*pos+1 < vec.length
    · obtain ⟨c,b,hrun,hc,hpc,hb,hbelow⟩ := siftChild_spec h hchild
      have hlt := parent_lt hc
      by_cases hle : cmp x b ≤ 0
      · refine ⟨vec.set pos x,?_,?_,.refl _⟩
        · simp only [siftdownLoop,hchild,if_true,hrun,ok_bind,hle,pure_eq_ok]
        · exact orderedFrom_fill hhole.except hhole.above
            (fun i d hi hp hd => h.trans _ _ _ (h.of_le _ _ hle) (hbelow i d hi hp hd))
      · have hmove := hhole.move hc hpc hb hbelow (h.of_gt _ _ hle)
        obtain ⟨vec',hloop,hord,hperm⟩ := ih hmove (by rw [List.length_set]; omega)
        refine ⟨vec',?_,hord,hperm.trans (move_perm hhole.lt (by omega) hb)⟩
        simp only [siftdownLoop,hchild,if_true,hrun,ok_bind,hle,if_false,hloop]
    · refine ⟨vec.set pos x,by simp only [siftdownLoop,hchild,if_false],?_,.refl _⟩
      refine orderedFrom_fill hhole.except hhole.above (fun i d hi hp hd => ?_)
      have hid := (List.getElem?_eq_some_iff.mp hd).1
      rcases (parent_eq_iff hi).mp hp with rfl | rfl
      · exact absurd hid hchild
      · omega

theorem siftdown_spec (h : Compares cmp r) {x : α} {n : ℕ} {vec : List α} {pos : ℕ}
    (hhole : DownHole r n vec pos x) (hx : vec[pos]? = some x) :
    ∃ vec', siftdown cmp vec pos = .ok vec' ∧ OrderedFrom r n vec' ∧ vec'.Perm vec := by
  obtain ⟨vec',hrun,hord,hperm⟩ := siftdownLoop_spec h (vec.length+1) hhole (by omega)
  rw [set_same hx] at hperm
  refine ⟨vec',?_,hord,hperm⟩
  simp only [siftdown,check_of hhole.lt,ok_bind,ptrvecValue_ok hx,hrun]

theorem heapifyLoop_spec (h : Compares cmp r) {i : ℕ} {vec : List α} (hi : i ≤ vec.length)
    (hord : OrderedFrom r i vec) :
    ∃ vec', heapifyLoop cmp i vec = .ok vec' ∧ IsHeap r vec' ∧ vec'.Perm vec := by
  induction i generalizing vec with
  | zero => exact ⟨vec,rfl,hord,.refl _⟩
  | succ i ih =>
    obtain ⟨vec1,hdown,hord1,hperm1⟩ :=
      siftdown_spec h (hord.hole hi vec[i]) (List.getElem?_eq_getElem hi)
    obtain ⟨vec2,hloop,hord2,hperm2⟩ := ih (by have := hperm1.length_eq; omega) hord1
    exact ⟨vec2,by simp only [heapifyLoop,hdown,ok_bind,hloop],hord2,hperm2.trans hperm1⟩

/-- Items added in any order become an ordered heap. -/
theorem heapHeapify_spec (h : Compares cmp r) (vec : List α) :
    ∃ vec', heapHeapify cmp vec = .ok vec' ∧ IsHeap r vec' ∧ vec'.Perm vec :=
  heapifyLoop_spec h (Nat.div_le_self _ _) orderedFrom_half

theorem heapPush_spec (h : Compares cmp r) {vec : List α} (hord : IsHeap r vec) (x : α) :
    ∃ vec', heapPush cmp vec x = .ok vec' ∧ IsHeap r vec' ∧ vec'.Perm (vec++[x]) := by
  have hx : (vec++[x])[vec.length]? = some x := by simp
  obtain ⟨vec',hrun,hord',hperm⟩ :=
    siftupLoop_spec h (vec++[x]).length (hord.lastHole x) (by simp)
  rw [set_same hx] at hperm
  refine ⟨vec',?_,hord',hperm⟩
  have hlast : (vec++[x]).length-1 = vec.length := by simp
  simp only [heapPush,siftup,hlast,ptrvecValue_ok hx,ok_bind,hrun]

/-- The order at the root does not matter: the item there is taken out. -/
theorem heapPop_spec (h : Compares cmp r) {x : α} {vec : List α}
    (hord : OrderedExcept r 0 (x::vec) 0) :
    ∃ vec', heapPop cmp (x::vec) = .ok (some x,vec') ∧ IsHeap r vec' ∧ vec'.Perm vec := by
  rcases List.eq_nil_or_concat vec with rfl | ⟨rest,last,rfl⟩
  · exact ⟨[],rfl,ordered_nil,.refl _⟩
  · rw [List.concat_eq_append] at *
    have hlast : (x::(rest++[last]))[(x::(rest++[last])).length-1]? = some last := by simp
    have htake : (x::(rest++[last])).take ((x::(rest++[last])).length-1) = x::rest := by
      simp
    have hset : OrderedExcept r 0 (last::rest) 0 := by
      have := (hord.take ((x::(rest++[last])).length-1)).set last
      rwa [htake] at this
    obtain ⟨vec',hdown,hord',hperm⟩ := siftdown_spec h (hset.rootHole (by simp) last) rfl
    refine ⟨vec',?_,hord',hperm.trans (List.perm_append_singleton last rest).symm⟩
    have hval : ptrvecValue (x::rest) 0 = .ok x := rfl
    simp only [heapPop,ptrvecValue_ok hlast,htake,ok_bind]
    simp [hval,hdown]

/-- The order at the root does not matter: the item there is taken out, the new one put in. -/
theorem heapReplace_spec (h : Compares cmp r) {x : α} {vec : List α}
    (hord : OrderedExcept r 0 (x::vec) 0) (y : α) :
    ∃ vec', heapReplace cmp (x::vec) y = .ok (some x,vec') ∧ IsHeap r vec' ∧
      vec'.Perm (y::vec) := by
  obtain ⟨vec',hdown,hord',hperm⟩ := siftdown_spec h ((hord.set y).rootHole (by simp) y) rfl
  refine ⟨vec',?_,hord',hperm⟩
  have hval : ptrvecValue (x::vec) 0 = .ok x := rfl
  simp only [List.set_cons_zero] at hdown
  simp [heapReplace,hval,hdown]

end Mtbl
