import Mtbl.Lib.Memory
import Mtbl.Bytes.Compare

/-! `vector.h`: arrays that grow, over an allocator that may refuse. Each call is given the allocator as
it is at that time. Sizes and capacities are counted in 64 bits, and `width` is the size of an element
in bytes. -/
namespace Mtbl
open CRun Memory

/-- `_p` is the index to which the pointer points. -/
structure Vec (α : Type) where
  v : Memory α
  p : ℕ
  n : ℕ
  nAlloced : ℕ
  hint : ℕ

section
variable {α : Type} (alloc : ℕ → Bool) (width : ℕ)

/-- `my_malloc` and `my_realloc` of this many elements. -/
def vecRealloc (v : Memory α) (nAlloced : ℕ) : Run (Memory α) := do
  let size := nAlloced*width%2^64
  check (alloc size = true)
  return v.resize (size/width)

/-- The hint is an `unsigned`. -/
def vecReinit (hint : ℕ) : Run (Vec α) := do
  let hint := if hint%2^32 = 0 then 1 else hint%2^32
  let v ← vecRealloc alloc width [] hint
  return ⟨v,0,0,hint,hint⟩

/-- The structure itself has five words. -/
def vecInit (hint : ℕ) : Run (Vec α) := do
  check (alloc 40 = true)
  vecReinit alloc width hint

/-- The memory goes to the caller, with the number of elements in it. -/
def vecDetach (vec : Vec α) : Run (Vec α × Memory α × ℕ) := do
  let v ← vecRealloc alloc width [] vec.hint
  return (⟨v,0,0,vec.hint,vec.hint⟩,vec.v,vec.n)

def vecGrow (vec : Vec α) : Run (Vec α) := do
  let nAlloced := vec.nAlloced*2%2^64
  let v ← vecRealloc alloc width vec.v nAlloced
  return { vec with v := v, nAlloced := nAlloced, p := vec.n }

/-- The two loops that double the capacity differ in what they take for full. -/
def growRound (full : Vec α → Bool) (vec : Vec α) : Run (Vec α ⊕ Vec α) :=
  if full vec then do
    let vec ← vecGrow alloc width vec
    return .inl vec
  else return .inr vec

def vecReserve (fuel : ℕ) (vec : Vec α) (nElems : ℕ) : Run (Vec α) :=
  loop (growRound alloc width (fun vec => decide (nElems > (vec.nAlloced+2^64-vec.n)%2^64))) fuel vec

def vecAdd (fuel : ℕ) (vec : Vec α) (elem : α) : Run (Vec α) := do
  let vec ← loop (growRound alloc width (fun vec => decide ((vec.n+1)%2^64 > vec.nAlloced))) fuel vec
  let v ← store vec.v vec.n [elem]
  return { vec with v := v, n := (vec.n+1)%2^64, p := (vec.n+1)%2^64 }

/-- `memcpy` counts bytes. -/
def vecAppend (fuel : ℕ) (vec : Vec α) (elems : List α) : Run (Vec α) := do
  let vec ← vecReserve alloc width fuel vec elems.length
  let v ← store vec.v vec.n (elems.take (elems.length*width%2^64/width))
  let n := (vec.n+elems.length)%2^64
  return { vec with v := v, n := n, p := n }

def vecExtend (fuel : ℕ) (vec0 vec1 : Vec α) : Run (Vec α) := do
  let elems ← loadAll vec1.v vec1.n
  vecAppend alloc width fuel vec0 elems

def vecReset (vec : Vec α) : Run (Vec α) :=
  if vec.nAlloced > vec.hint then do
    let v ← vecRealloc alloc width vec.v vec.hint
    return { vec with v := v, n := 0, nAlloced := vec.hint, p := 0 }
  else return { vec with n := 0, p := 0 }

end

section
variable {α : Type}

def vecClip (vec : Vec α) (nElems : ℕ) : Vec α :=
  if nElems < vec.n then { vec with n := nElems, p := nElems } else vec

def vecBytes (width : ℕ) (vec : Vec α) : ℕ := vec.n*width%2^64

def vecSize (vec : Vec α) : ℕ := vec.n

def vecValue (vec : Vec α) (i : ℕ) : Run α := do
  check (i < vec.n)
  load vec.v i

def vecAdvance (vec : Vec α) (x : ℕ) : Run (Vec α) := do
  check (x ≤ (vec.nAlloced+2^64-vec.n)%2^64)
  let n := (vec.n+x)%2^64
  return { vec with n := n, p := n }

/-- How callers write through `_ptr`: some elements, and past them. -/
def vecPut (vec : Vec α) (elems : List α) : Run (Vec α) := do
  let v ← store vec.v vec.p elems
  vecAdvance { vec with v := v } elems.length

/-! ### One vector -/

/-- The vector has these elements. Its memory is less than an object may have. -/
structure Vec.Holds (width : ℕ) (vec : Vec α) (items : List α) : Prop where
  cells : vec.v.length = vec.nAlloced
  begins : vec.v.Begins items
  size : vec.n = items.length
  ptr : vec.p = vec.n
  limit : vec.nAlloced*width < 2^63
  hint_pos : 0 < vec.hint
  hint_le : vec.hint ≤ vec.nAlloced

/-- No object is larger than a pointer difference can count. -/
def Refuses (alloc : ℕ → Bool) : Prop := ∀ size, alloc size = true → size < 2^63

def GrantsUpTo (alloc : ℕ → Bool) (bound : ℕ) : Prop := ∀ size ≤ bound, alloc size = true

theorem GrantsUpTo.mono {alloc : ℕ → Bool} {a b : ℕ} (h : GrantsUpTo alloc b) (hle : a ≤ b) :
    GrantsUpTo alloc a := fun size hsize => h size (hsize.trans hle)

variable {alloc : ℕ → Bool} {width : ℕ} {vec : Vec α} {items : List α}

theorem Vec.Holds.le (h : vec.Holds width items) : vec.n ≤ vec.nAlloced := by
  rw [h.size,← h.cells]
  exact h.begins.length_le

theorem Vec.Holds.capacity (h : vec.Holds width items) (hwidth : 0 < width) :
    vec.nAlloced < 2^63 := (Nat.le_mul_of_pos_right _ hwidth).trans_lt h.limit

theorem Vec.Holds.free (h : vec.Holds width items) (hwidth : 0 < width) :
    (vec.nAlloced+2^64-vec.n)%2^64 = vec.nAlloced-vec.n := by
  have hle := h.le
  have hcap := h.capacity hwidth
  rw [show vec.nAlloced+2^64-vec.n = vec.nAlloced-vec.n+2^64 by omega,Nat.add_mod_right,
    Nat.mod_eq_of_lt (by omega)]

theorem Vec.Holds.hint_limit (h : vec.Holds width items) : vec.hint*width < 2^63 :=
  (Nat.mul_le_mul_right _ h.hint_le).trans_lt h.limit

theorem Vec.Holds.enough_fuel (h : vec.Holds width items) {fuel : ℕ} (hfuel : 64 ≤ fuel) :
    2^63 ≤ vec.nAlloced*2^fuel := by
  have hpos : 1 ≤ vec.nAlloced := h.hint_pos.trans_le h.hint_le
  have hpow : 2^63 ≤ 2^fuel := Nat.pow_le_pow_right Nat.two_pos (by omega)
  exact hpow.trans (Nat.le_mul_of_pos_left _ hpos)

/-- An allocation of a size that does not wrap has a cell for each element. -/
theorem vecRealloc_spec (hrefuses : Refuses alloc) (hwidth : 0 < width) {nAlloced bound : ℕ}
    (hwrap : nAlloced*width < 2^64) (hbound : nAlloced*width ≤ bound) (v : Memory α) :
    Granted (GrantsUpTo alloc bound) (vecRealloc alloc width v nAlloced)
      (fun v' => v' = v.resize nAlloced ∧ nAlloced*width < 2^63) := by
  have hsize : nAlloced*width%2^64 = nAlloced*width := Nat.mod_eq_of_lt hwrap
  rw [vecRealloc,hsize]
  apply (Granted.check (fun hg => hg _ hbound)).bind
  intro _ halloc
  rw [Nat.mul_div_cancel _ hwidth]
  exact .ok ⟨rfl,hrefuses _ halloc⟩

theorem vecGrow_spec (hrefuses : Refuses alloc) (hwidth : 0 < width) (h : vec.Holds width items)
    {bound : ℕ} (hbound : vec.nAlloced*2*width ≤ bound) :
    Granted (GrantsUpTo alloc bound) (vecGrow alloc width vec)
      (fun vec' => vec'.Holds width items ∧ vec'.nAlloced = vec.nAlloced*2 ∧ vec'.hint = vec.hint) := by
  have hcap := h.capacity hwidth
  have hlimit := h.limit
  have hdouble : vec.nAlloced*2%2^64 = vec.nAlloced*2 := Nat.mod_eq_of_lt (by omega)
  have hwrap : vec.nAlloced*2*width < 2^64 := by
    rw [Nat.mul_right_comm]
    omega
  rw [vecGrow,hdouble]
  apply (vecRealloc_spec hrefuses hwidth hwrap hbound _).bind
  rintro v ⟨rfl,hsmall⟩
  have hle := h.le
  refine .ok ⟨?_,rfl,rfl⟩
  exact {
    cells := resize_length ..
    begins := h.begins.resize (by rw [← h.size]; omega)
    size := h.size
    ptr := rfl
    limit := hsmall
    hint_pos := h.hint_pos
    hint_le := h.hint_le.trans (Nat.le_mul_of_pos_right _ Nat.two_pos) }

/-- The vector after an operation that makes room for `total` elements. -/
structure Grown (width : ℕ) (vec vec' : Vec α) (items : List α) (total : ℕ) : Prop where
  holds : vec'.Holds width items
  hint_eq : vec'.hint = vec.hint
  le : vec.nAlloced ≤ vec'.nAlloced
  fits : total ≤ vec'.nAlloced
  capacity : vec'.nAlloced ≤ max vec.nAlloced (2*total)

/-- The capacity is doubled until everything fits, which takes less than 64 rounds. -/
theorem grow_spec (hrefuses : Refuses alloc) (hwidth : 0 < width) {full : Vec α → Bool}
    {total bound : ℕ} (hfull : ∀ vec' : Vec α, vec'.Holds width items →
      (full vec' = true ↔ vec'.nAlloced < total))
    {fuel : ℕ} (h : vec.Holds width items) (hfuel : 2^63 ≤ vec.nAlloced*2^fuel)
    (hbound : width*max vec.nAlloced (2*total) ≤ bound) :
    Granted (GrantsUpTo alloc bound) (loop (growRound alloc width full) fuel vec)
      (fun vec' => Grown width vec vec' items total) := by
  have hcap := h.capacity hwidth
  induction fuel generalizing vec with
  | zero => omega
  | succ fuel ih =>
    rw [loop,growRound]
    by_cases hmore : vec.nAlloced < total
    · rw [if_pos ((hfull vec h).mpr hmore)]
      have hdouble : vec.nAlloced*2 ≤ max vec.nAlloced (2*total) := by omega
      have hround := vecGrow_spec hrefuses hwidth h
        (((Nat.mul_le_mul_right width hdouble).trans_eq (Nat.mul_comm ..)).trans hbound)
      rw [bind_assoc]
      apply hround.bind
      rintro vec' ⟨hholds,hsize,hhint⟩
      have hmax : max vec'.nAlloced (2*total) ≤ max vec.nAlloced (2*total) := by omega
      apply Granted.imp (ih hholds ?_ ((Nat.mul_le_mul_left width hmax).trans hbound)
        (hholds.capacity hwidth))
      · rintro vec'' hgrown
        exact {
          holds := hgrown.holds
          hint_eq := hgrown.hint_eq.trans hhint
          le := (hsize ▸ Nat.le_mul_of_pos_right _ Nat.two_pos).trans hgrown.le
          fits := hgrown.fits
          capacity := hgrown.capacity.trans hmax }
      · rw [hsize,Nat.mul_assoc,← pow_succ']
        exact hfuel
    · rw [if_neg (fun hf => hmore ((hfull vec h).mp hf))]
      exact .ok ⟨h,rfl,le_rfl,not_lt.mp hmore,le_max_left ..⟩

theorem vecReserve_spec (hrefuses : Refuses alloc) (hwidth : 0 < width) {fuel : ℕ} (hfuel : 64 ≤ fuel)
    (h : vec.Holds width items) (k : ℕ) {bound : ℕ}
    (hbound : width*max vec.nAlloced (2*(items.length+k)) ≤ bound) :
    Granted (GrantsUpTo alloc bound) (vecReserve alloc width fuel vec k)
      (fun vec' => Grown width vec vec' items (items.length+k)) := by
  apply grow_spec hrefuses hwidth ?_ h (h.enough_fuel hfuel) hbound
  intro vec' h'
  have hle := h'.le
  have hsize := h'.size
  rw [h'.free hwidth,decide_eq_true_iff]
  omega

/-- New elements behind the old ones, where there is room for them. -/
theorem Vec.Holds.stored (h : vec.Holds width items) {elems : List α}
    (hroom : items.length+elems.length ≤ vec.nAlloced) :
    ∃ v, store vec.v items.length elems = .ok v ∧
      (⟨v,items.length+elems.length,items.length+elems.length,vec.nAlloced,vec.hint⟩ : Vec α).Holds
        width (items++elems) := by
  obtain ⟨v,hstore,hlength,hbegins⟩ := h.begins.store (hroom.trans_eq h.cells.symm)
  refine ⟨v,hstore,?_⟩
  exact {
    cells := hlength.trans h.cells
    begins := hbegins
    size := List.length_append.symm
    ptr := rfl
    limit := h.limit
    hint_pos := h.hint_pos
    hint_le := h.hint_le }

theorem vecAdd_spec (hrefuses : Refuses alloc) (hwidth : 0 < width) {fuel : ℕ} (hfuel : 64 ≤ fuel)
    (h : vec.Holds width items) (elem : α) {bound : ℕ}
    (hbound : width*max vec.nAlloced (2*(items.length+1)) ≤ bound) :
    Granted (GrantsUpTo alloc bound) (vecAdd alloc width fuel vec elem)
      (fun vec' => Grown width vec vec' (items++[elem]) (items.length+1)) := by
  have hfull : ∀ vec' : Vec α, vec'.Holds width items →
      (decide ((vec'.n+1)%2^64 > vec'.nAlloced) = true ↔ vec'.nAlloced < items.length+1) := by
    intro vec' h'
    have hle := h'.le
    have hcap := h'.capacity hwidth
    rw [decide_eq_true_iff,Nat.mod_eq_of_lt (by omega),h'.size]
  apply (grow_spec hrefuses hwidth hfull h (h.enough_fuel hfuel) hbound).bind
  rintro vec' ⟨h',hhint,hle,hroom,hmax⟩
  obtain ⟨v,hstore,hholds⟩ := h'.stored (show items.length+[elem].length ≤ vec'.nAlloced from hroom)
  have hcap := h'.capacity hwidth
  rw [h'.size,hstore,ok_bind,Nat.mod_eq_of_lt (by omega)]
  exact .ok ⟨hholds,hhint,hle,hroom,hmax⟩

theorem vecAppend_spec (hrefuses : Refuses alloc) (hwidth : 0 < width) {fuel : ℕ} (hfuel : 64 ≤ fuel)
    (h : vec.Holds width items) (elems : List α) {bound : ℕ}
    (hbound : width*max vec.nAlloced (2*(items.length+elems.length)) ≤ bound) :
    Granted (GrantsUpTo alloc bound) (vecAppend alloc width fuel vec elems)
      (fun vec' => Grown width vec vec' (items++elems) (items.length+elems.length)) := by
  apply (vecReserve_spec hrefuses hwidth hfuel h elems.length hbound).bind
  rintro vec' ⟨h',hhint,hle,hroom,hmax⟩
  have hcap := h'.capacity hwidth
  -- the bytes to copy do not wrap, since they fit into the new memory
  have hbytes : elems.length*width < 2^64 := by
    have := Nat.mul_le_mul_right width (show elems.length ≤ vec'.nAlloced by omega)
    have := h'.limit
    omega
  obtain ⟨v,hstore,hholds⟩ := h'.stored hroom
  rw [Nat.mod_eq_of_lt hbytes,Nat.mul_div_cancel _ hwidth,List.take_length,h'.size,hstore,ok_bind,
    Nat.mod_eq_of_lt (by omega)]
  exact .ok ⟨hholds,hhint,hle,hroom,hmax⟩

theorem vecReset_spec (hrefuses : Refuses alloc) (hwidth : 0 < width) (h : vec.Holds width items)
    {bound : ℕ} (hbound : width*vec.hint ≤ bound) :
    Granted (GrantsUpTo alloc bound) (vecReset alloc width vec) (fun vec' =>
      vec'.Holds width [] ∧ vec'.hint = vec.hint ∧ vec'.nAlloced = vec.hint) := by
  have hlimit := h.hint_limit
  unfold vecReset
  split_ifs with hlarge
  · apply (vecRealloc_spec hrefuses hwidth (by omega) ((Nat.mul_comm ..).trans_le hbound) _).bind
    rintro v ⟨rfl,hsmall⟩
    refine .ok ⟨?_,rfl,rfl⟩
    exact ⟨resize_length ..,Begins.nil _,rfl,rfl,hsmall,h.hint_pos,le_rfl⟩
  · have hsame : vec.nAlloced = vec.hint := le_antisymm (not_lt.mp hlarge) h.hint_le
    exact .ok ⟨⟨h.cells,Begins.nil _,rfl,rfl,h.limit,h.hint_pos,h.hint_le⟩,rfl,hsame⟩

theorem vecDetach_spec (hrefuses : Refuses alloc) (hwidth : 0 < width) (h : vec.Holds width items)
    {bound : ℕ} (hbound : width*vec.hint ≤ bound) :
    Granted (GrantsUpTo alloc bound) (vecDetach alloc width vec) (fun r =>
      r.1.Holds width [] ∧ r.1.hint = vec.hint ∧ r.1.nAlloced = vec.hint ∧
        loadAll r.2.1 r.2.2 = .ok items) := by
  have hlimit := h.hint_limit
  unfold vecDetach
  apply (vecRealloc_spec hrefuses hwidth (by omega) ((Nat.mul_comm ..).trans_le hbound) _).bind
  rintro v ⟨rfl,hsmall⟩
  refine .ok ⟨?_,rfl,rfl,?_⟩
  · exact ⟨resize_length ..,Begins.nil _,rfl,rfl,hsmall,h.hint_pos,le_rfl⟩
  · rw [h.size]
    exact h.begins.loadAll

theorem vecReinit_spec (hrefuses : Refuses alloc) (hwidth : 0 < width) (hword : width < 2^32)
    (hint : ℕ) {bound : ℕ} (hbound : width*max 1 (hint%2^32) ≤ bound) :
    Granted (GrantsUpTo alloc bound) (vecReinit alloc width hint) (fun vec : Vec α =>
      vec.Holds width [] ∧ vec.hint = max 1 (hint%2^32) ∧ vec.nAlloced = max 1 (hint%2^32)) := by
  have hsame : (if hint%2^32 = 0 then 1 else hint%2^32) = max 1 (hint%2^32) := by
    split_ifs <;> omega
  have hmod := Nat.mod_lt hint (show 0 < 2^32 by norm_num)
  have hwrap : max 1 (hint%2^32)*width < 2^64 := by
    have := Nat.mul_lt_mul'' (show max 1 (hint%2^32) < 2^32 by omega) hword
    omega
  simp only [vecReinit,hsame]
  apply (vecRealloc_spec hrefuses hwidth hwrap ((Nat.mul_comm ..).trans_le hbound) _).bind
  rintro v ⟨rfl,hsmall⟩
  refine .ok ⟨?_,rfl,rfl⟩
  exact ⟨resize_length ..,Begins.nil _,rfl,rfl,hsmall,Nat.one_pos.trans_le (le_max_left ..),le_rfl⟩

theorem vecClip_holds (h : vec.Holds width items) (k : ℕ) :
    (vecClip vec k).Holds width (items.take k) := by
  have hsize := h.size
  unfold vecClip
  split_ifs with hlt
  · refine ⟨h.cells,h.begins.take k,?_,rfl,h.limit,h.hint_pos,h.hint_le⟩
    rw [List.length_take,Nat.min_eq_left (by omega)]
  · rwa [List.take_of_length_le (by omega)]

theorem vecBytes_eq (h : vec.Holds width items) : vecBytes width vec = items.length*width := by
  have hle := Nat.mul_le_mul_right width h.le
  have hlimit := h.limit
  rw [vecBytes,Nat.mod_eq_of_lt (by omega),h.size]

theorem vecValue_spec (h : vec.Holds width items) {i : ℕ} (hi : i < items.length) :
    vecValue vec i = .ok items[i] := by
  rw [vecValue,check_of (h.size ▸ hi),ok_bind]
  exact h.begins.load hi

/-- Writing past the elements and going on behind what was written, where there is room. -/
theorem vecPut_spec (h : vec.Holds width items) (hwidth : 0 < width) {elems : List α}
    (hroom : items.length+elems.length ≤ vec.nAlloced) : ∃ vec', vecPut vec elems = .ok vec' ∧
      vec'.Holds width (items++elems) ∧ vec'.hint = vec.hint ∧ vec'.nAlloced = vec.nAlloced := by
  obtain ⟨v,hstore,hholds⟩ := h.stored hroom
  have hcap := h.capacity hwidth
  have hsize := h.size
  have hfree := h.free hwidth
  rw [hsize] at hfree
  refine ⟨_,?_,hholds,rfl,rfl⟩
  rw [vecPut,h.ptr,hsize,hstore,ok_bind,vecAdvance]
  simp only
  rw [hfree,check_of (by omega),ok_bind,Nat.mod_eq_of_lt (by omega)]
  rfl

/-! ### A vector that is kept -/

/-- The vector holds these elements, and its capacity stays within what up to `most` need. -/
structure Vec.Keeps (width hint most : ℕ) (vec : Vec α) (items : List α) : Prop where
  holds : vec.Holds width items
  hint_eq : vec.hint = hint
  capacity : vec.nAlloced ≤ max hint (2*most)

section
variable {hint most : ℕ}

theorem Vec.Keeps.grown {vec' : Vec α} {items' : List α} {total : ℕ}
    (h : vec.Keeps width hint most items) (hgrown : Grown width vec vec' items' total)
    (htotal : total ≤ most) : vec'.Keeps width hint most items' where
  holds := hgrown.holds
  hint_eq := hgrown.hint_eq.trans h.hint_eq
  capacity := by
    have hcap := hgrown.capacity
    have hold := h.capacity
    omega

/-- What the vector asks for when it grows. -/
theorem Vec.Keeps.bound (h : vec.Keeps width hint most items) {total bound : ℕ}
    (htotal : total ≤ most) (hbound : width*max hint (2*most) ≤ bound) :
    width*max vec.nAlloced (2*total) ≤ bound := by
  have hcap := h.capacity
  refine (Nat.mul_le_mul_left width ?_).trans hbound
  omega

theorem Vec.Keeps.hint_bound (h : vec.Keeps width hint most items) {bound : ℕ}
    (hbound : width*max hint (2*most) ≤ bound) : width*vec.hint ≤ bound :=
  h.hint_eq ▸ (Nat.mul_le_mul_left width (le_max_left ..)).trans hbound

theorem vecInit_keeps (hrefuses : Refuses alloc) (hwidth : 0 < width) (hword : width < 2^32)
    (hint most : ℕ) {bound : ℕ} (hstruct : 40 ≤ bound) (hbound : width*max 1 (hint%2^32) ≤ bound) :
    Granted (GrantsUpTo alloc bound) (vecInit alloc width hint) (fun vec : Vec α =>
      vec.Keeps width (max 1 (hint%2^32)) most [] ∧ vec.nAlloced = max 1 (hint%2^32)) := by
  rw [vecInit]
  apply (Granted.check (fun hg => hg _ hstruct)).bind
  intro _ _
  apply (vecReinit_spec hrefuses hwidth hword hint hbound).imp
  rintro vec ⟨hholds,hhint,hcap⟩
  exact ⟨⟨hholds,hhint,hcap ▸ le_max_left ..⟩,hcap⟩

section
variable (hrefuses : Refuses alloc) (hwidth : 0 < width)
include hrefuses hwidth

theorem Vec.Keeps.reserve {fuel : ℕ} (hfuel : 64 ≤ fuel) (h : vec.Keeps width hint most items)
    {k : ℕ} (hk : items.length+k ≤ most) {bound : ℕ} (hbound : width*max hint (2*most) ≤ bound) :
    Granted (GrantsUpTo alloc bound) (vecReserve alloc width fuel vec k) (fun vec' =>
      vec'.Keeps width hint most items ∧ items.length+k ≤ vec'.nAlloced) :=
  (vecReserve_spec hrefuses hwidth hfuel h.holds k (h.bound hk hbound)).imp
    (fun _ hgrown => ⟨h.grown hgrown hk,hgrown.fits⟩)

theorem Vec.Keeps.add {fuel : ℕ} (hfuel : 64 ≤ fuel) (h : vec.Keeps width hint most items) {elem : α}
    (hk : items.length+1 ≤ most) {bound : ℕ} (hbound : width*max hint (2*most) ≤ bound) :
    Granted (GrantsUpTo alloc bound) (vecAdd alloc width fuel vec elem)
      (fun vec' => vec'.Keeps width hint most (items++[elem])) :=
  (vecAdd_spec hrefuses hwidth hfuel h.holds elem (h.bound hk hbound)).imp
    (fun _ hgrown => h.grown hgrown hk)

theorem Vec.Keeps.append {fuel : ℕ} (hfuel : 64 ≤ fuel) (h : vec.Keeps width hint most items)
    {elems : List α} (hk : items.length+elems.length ≤ most) {bound : ℕ}
    (hbound : width*max hint (2*most) ≤ bound) :
    Granted (GrantsUpTo alloc bound) (vecAppend alloc width fuel vec elems)
      (fun vec' => vec'.Keeps width hint most (items++elems)) :=
  (vecAppend_spec hrefuses hwidth hfuel h.holds elems (h.bound hk hbound)).imp
    (fun _ hgrown => h.grown hgrown hk)

theorem Vec.Keeps.reset (h : vec.Keeps width hint most items) {bound : ℕ}
    (hbound : width*max hint (2*most) ≤ bound) :
    Granted (GrantsUpTo alloc bound) (vecReset alloc width vec)
      (fun vec' => vec'.Keeps width hint most []) := by
  apply (vecReset_spec hrefuses hwidth h.holds (h.hint_bound hbound)).imp
  rintro vec' ⟨hholds,hhint,hcap⟩
  exact ⟨hholds,hhint.trans h.hint_eq,(hcap.trans h.hint_eq).trans_le (le_max_left ..)⟩

theorem Vec.Keeps.detach (h : vec.Keeps width hint most items) {bound : ℕ}
    (hbound : width*max hint (2*most) ≤ bound) :
    Granted (GrantsUpTo alloc bound) (vecDetach alloc width vec) (fun r =>
      r.1.Keeps width hint most [] ∧ loadAll r.2.1 r.2.2 = .ok items) := by
  apply (vecDetach_spec hrefuses hwidth h.holds (h.hint_bound hbound)).imp
  rintro r ⟨hholds,hhint,hcap,hload⟩
  exact ⟨⟨hholds,hhint.trans h.hint_eq,(hcap.trans h.hint_eq).trans_le (le_max_left ..)⟩,hload⟩

end

theorem Vec.Keeps.put (hwidth : 0 < width) (h : vec.Keeps width hint most items) {elems : List α}
    (hroom : items.length+elems.length ≤ vec.nAlloced) : ∃ vec', vecPut vec elems = .ok vec' ∧
      vec'.Keeps width hint most (items++elems) ∧ vec'.nAlloced = vec.nAlloced := by
  obtain ⟨vec',hput,hholds,hhint,hcap⟩ := vecPut_spec h.holds hwidth hroom
  exact ⟨vec',hput,⟨hholds,hhint.trans h.hint_eq,hcap ▸ h.capacity⟩,hcap⟩

end

end
end Mtbl
