import Mtbl.Memory.Vec

/-! The vector of readers of a sorter on a thread pool. The result worker appends to it in
`_collect_readers_cb` while the sorter's thread goes through it and frees it in `mtbl_sorter_destroy`,
and neither holds a mutex: what each of them reads or writes at once is a step of its own. -/
namespace Mtbl
open CRun Memory

/-- The structure `reader_vec`. Its array is an object that moves. -/
structure ReaderVec where
  v : Option ℕ
  n : ℕ
  nAlloced : ℕ
  deriving DecidableEq, Repr

/-- `pointer` says that `s->readers` is not NULL, and the structure is `none` once it is freed.
`destroyed` has what `mtbl_reader_destroy` was called with. -/
structure Readers (ρ : Type) where
  pointer : Bool
  vec : Option ReaderVec
  arrays : Objects (Memory ρ)
  destroyed : List ρ

/-- Where `reader_vec_add(s->readers, reader)` stands. -/
inductive CollectPc
  | call
  | full
  | double
  | realloc
  | moved (v : Option ℕ)
  | load
  | store (v : Option ℕ) (n : ℕ)
  | count
  | done
  deriving DecidableEq, Repr

/-- Where the loop over the readers and `reader_vec_destroy` stand. -/
inductive FreePc (ρ : Type)
  | size (i : ℕ)
  | value (i : ℕ)
  | array (i : ℕ)
  | element (i : ℕ) (v : Option ℕ)
  | reader (i : ℕ) (r : ρ)
  | vector
  | freeArray (v : Option ℕ)
  | clearArray
  | freeVector
  | clearVector
  | done
  deriving DecidableEq, Repr

section
variable {ρ : Type}

namespace Readers

/-- `reader_vec_init(1)`. -/
def init : Readers ρ := ⟨true,some ⟨some 0,0,1⟩,[some (fresh 1)],[]⟩

/-- The structure, by a pointer to it that was read before. -/
def deref (r : Readers ρ) : Run ReaderVec :=
  match r.vec with
  | some vec => .ok vec
  | none => .error .useAfterFree

/-- The structure, by `s->readers`. -/
def readers (r : Readers ρ) : Run ReaderVec := if r.pointer then r.deref else .error .nullDeref

/-- All readers, while nobody appends any. -/
def all (r : Readers ρ) : Run (List ρ) := do
  let vec ← r.readers
  let v ← r.arrays.read vec.v
  v.loadAll vec.n

end Readers

/-- A step of `reader_vec_add`. The array holds pointers. -/
def collectStep (alloc : ℕ → Bool) (reader : ρ) (r : Readers ρ) :
    CollectPc → Option (Run (Readers ρ × CollectPc))
  | .call => some (do
      let _ ← r.readers
      return (r,.full))
  | .full => some (do
      let vec ← r.deref
      return (r,if (vec.n+1)%2^64 > vec.nAlloced then .double else .load))
  | .double => some (do
      let vec ← r.deref
      return ({ r with vec := some { vec with nAlloced := vec.nAlloced*2%2^64 } },.realloc))
  | .realloc => some (do
      let vec ← r.deref
      let (arrays,v) ← r.arrays.realloc [] (vecRealloc alloc 8 · vec.nAlloced) vec.v
      return ({ r with arrays := arrays },.moved v))
  | .moved v => some (do
      let vec ← r.deref
      return ({ r with vec := some { vec with v := v } },.full))
  | .load => some (do
      let vec ← r.deref
      return (r,.store vec.v vec.n))
  | .store v n => some (do
      let arrays ← r.arrays.modify (Memory.store · n [reader]) v
      return ({ r with arrays := arrays },.count))
  | .count => some (do
      let vec ← r.deref
      return ({ r with vec := some { vec with n := (vec.n+1)%2^64 } },.done))
  | .done => none

/-- A step of `mtbl_sorter_destroy` behind its entries. -/
def freeStep (r : Readers ρ) : FreePc ρ → Option (Run (Readers ρ × FreePc ρ))
  | .size i => some (do
      let vec ← r.readers
      return (r,if i < vec.n then .value i else .vector))
  | .value i => some (do
      let vec ← r.readers
      check (i < vec.n)
      return (r,.array i))
  | .array i => some (do
      let vec ← r.deref
      return (r,.element i vec.v))
  | .element i v => some (do
      let array ← r.arrays.read v
      let reader ← array.load i
      return (r,.reader i reader))
  | .reader i reader => some (.ok ({ r with destroyed := r.destroyed++[reader] },.size ((i+1)%2^32)))
  | .vector => some (if r.pointer then do
      let vec ← r.deref
      return (r,.freeArray vec.v)
    else .ok (r,.done))
  | .freeArray v => some (do
      let arrays ← r.arrays.free v
      return ({ r with arrays := arrays },.clearArray))
  | .clearArray => some (do
      let vec ← r.deref
      return ({ r with vec := some { vec with v := none } },.freeVector))
  | .freeVector => some (do
      let _ ← r.deref
      return ({ r with vec := none },.clearVector))
  | .clearVector => some (.ok ({ r with pointer := false },.done))
  | .done => none

/-! ### One thread at a time -/

/-- The structure points to the array `v`, and the array `a` has `cap` cells, the first of which hold
these readers. -/
structure Readers.Has (r : Readers ρ) (v a n nAlloced cap : ℕ) (xs : List ρ) : Prop where
  pointer : r.pointer = true
  vec : r.vec = some ⟨some v,n,nAlloced⟩
  array : ∃ m : Memory ρ, r.arrays.Live a m ∧ m.length = cap ∧ m.Begins xs

/-- The vector has these readers. -/
def Readers.Holds (r : Readers ρ) (xs : List ρ) : Prop :=
  ∃ a cap, r.Has a a xs.length cap cap xs ∧ cap < 2^60

/-- The vector had these readers when the callback was called with one more. -/
def Collecting (r : Readers ρ) (xs : List ρ) (reader : ρ) : CollectPc → Prop
  | .call | .full | .double => r.Holds xs
  | .realloc => ∃ a cap, r.Has a a xs.length (cap*2) cap xs ∧ cap < 2^60
  | .moved v => ∃ a b cap, v = some b ∧ r.Has a b xs.length cap cap xs ∧ cap < 2^60
  | .load => ∃ a cap, r.Has a a xs.length cap cap xs ∧ cap < 2^60 ∧ xs.length < cap
  | .store v n => ∃ a cap, v = some a ∧ n = xs.length ∧ r.Has a a xs.length cap cap xs ∧
      cap < 2^60 ∧ xs.length < cap
  | .count => ∃ a cap, r.Has a a xs.length cap cap (xs++[reader]) ∧ cap < 2^60
  | .done => r.Holds (xs++[reader])

/-- While nobody appends to it: the readers of the vector are destroyed in order, then the vector. -/
def Freeing (r : Readers ρ) (xs : List ρ) : FreePc ρ → Prop
  | .size i => r.Holds xs ∧ i ≤ xs.length ∧ r.destroyed = xs.take i
  | .value i | .array i => r.Holds xs ∧ i < xs.length ∧ r.destroyed = xs.take i
  | .element i v => ∃ a cap, v = some a ∧ r.Has a a xs.length cap cap xs ∧ cap < 2^60 ∧
      i < xs.length ∧ r.destroyed = xs.take i
  | .reader i reader => r.Holds xs ∧ xs[i]? = some reader ∧ r.destroyed = xs.take i
  | .vector => r.Holds xs ∧ r.destroyed = xs
  | .freeArray v => ∃ a cap, v = some a ∧ r.Has a a xs.length cap cap xs ∧ r.destroyed = xs
  | .clearArray | .freeVector => r.pointer = true ∧ r.vec ≠ none ∧ r.destroyed = xs
  | .clearVector => r.pointer = true ∧ r.destroyed = xs
  | .done => r.pointer = false ∧ r.destroyed = xs

section
variable {r : Readers ρ} {v a n nAlloced cap : ℕ} {xs : List ρ} {reader : ρ} {alloc : ℕ → Bool}

theorem Readers.Has.deref (h : r.Has v a n nAlloced cap xs) : r.deref = .ok ⟨some v,n,nAlloced⟩ := by
  simp only [Readers.deref,h.vec]

theorem Readers.Has.readers (h : r.Has v a n nAlloced cap xs) :
    r.readers = .ok ⟨some v,n,nAlloced⟩ := by
  rw [Readers.readers,if_pos h.pointer,h.deref]

theorem Readers.Has.le (h : r.Has v a n nAlloced cap xs) : xs.length ≤ cap := by
  obtain ⟨m,-,hlength,hbegins⟩ := h.array
  exact hlength ▸ hbegins.length_le

/-- The structure is written, not the array. -/
theorem Readers.Has.setVec (h : r.Has v a n nAlloced cap xs) (v' n' nAlloced' : ℕ) :
    Readers.Has { r with vec := some ⟨some v',n',nAlloced'⟩ } v' a n' nAlloced' cap xs :=
  ⟨h.pointer,rfl,h.array⟩

@[simp] theorem Readers.holds_init : (Readers.init : Readers ρ).Holds [] :=
  ⟨0,1,⟨rfl,rfl,_,rfl,rfl,Begins.nil _⟩,by norm_num⟩

theorem Readers.Holds.pointer (h : r.Holds xs) : r.pointer = true := by
  obtain ⟨_,_,hhas,-⟩ := h
  exact hhas.pointer

theorem Readers.Holds.vec (h : r.Holds xs) : r.vec ≠ none := by
  obtain ⟨_,_,hhas,-⟩ := h
  simp [hhas.vec]

theorem Readers.Holds.all (h : r.Holds xs) : r.all = .ok xs := by
  obtain ⟨a,cap,hhas,-⟩ := h
  obtain ⟨m,hlive,-,hbegins⟩ := hhas.array
  rw [Readers.all,hhas.readers,ok_bind,hlive.read,ok_bind,hbegins.loadAll]

/-- In every step of the callback there is a vector. -/
theorem Collecting.vec {pc : CollectPc} (h : Collecting r xs reader pc) :
    r.pointer = true ∧ r.vec ≠ none := by
  cases pc with
  | call | full | double | done => exact ⟨Readers.Holds.pointer h,Readers.Holds.vec h⟩
  | realloc =>
    obtain ⟨_,_,hhas,-⟩ := h
    exact ⟨hhas.pointer,by simp [hhas.vec]⟩
  | moved v =>
    obtain ⟨_,_,_,-,hhas,-⟩ := h
    exact ⟨hhas.pointer,by simp [hhas.vec]⟩
  | load =>
    obtain ⟨_,_,hhas,-⟩ := h
    exact ⟨hhas.pointer,by simp [hhas.vec]⟩
  | store v n =>
    obtain ⟨_,_,-,-,hhas,-⟩ := h
    exact ⟨hhas.pointer,by simp [hhas.vec]⟩
  | count =>
    obtain ⟨_,_,hhas,-⟩ := h
    exact ⟨hhas.pointer,by simp [hhas.vec]⟩

/-- A step of the callback, while the sorter's thread leaves the vector alone. It fails only if no
memory is granted. -/
theorem Collecting.step (halloc : Refuses alloc) {pc : CollectPc} (h : Collecting r xs reader pc)
    {x : Run (Readers ρ × CollectPc)} (hstep : collectStep alloc reader r pc = some x) :
    (∃ r' pc', x = .ok (r',pc') ∧ r'.destroyed = r.destroyed ∧ Collecting r' xs reader pc') ∨
      x = .error .assertion := by
  cases pc with
  | call =>
    obtain rfl := Option.some.inj hstep
    obtain ⟨a,cap,hhas,hcap⟩ := h
    rw [hhas.readers,ok_bind]
    exact .inl ⟨_,_,rfl,rfl,a,cap,hhas,hcap⟩
  | full =>
    obtain rfl := Option.some.inj hstep
    obtain ⟨a,cap,hhas,hcap⟩ := h
    rw [hhas.deref,ok_bind]
    have hle := hhas.le
    refine .inl ⟨_,_,rfl,rfl,?_⟩
    dsimp only
    split_ifs with hfull
    · exact ⟨a,cap,hhas,hcap⟩
    · rw [Nat.mod_eq_of_lt (by omega)] at hfull
      exact ⟨a,cap,hhas,hcap,by omega⟩
  | double =>
    obtain rfl := Option.some.inj hstep
    obtain ⟨a,cap,hhas,hcap⟩ := h
    rw [hhas.deref,ok_bind]
    refine .inl ⟨_,_,rfl,rfl,a,cap,?_,hcap⟩
    have hset := hhas.setVec a xs.length (cap*2%2^64)
    rwa [Nat.mod_eq_of_lt (show cap*2 < 2^64 by omega)] at hset ⊢
  | realloc =>
    obtain rfl := Option.some.inj hstep
    obtain ⟨a,cap,hhas,hcap⟩ := h
    obtain ⟨m,hlive,rfl,hbegins⟩ := hhas.array
    rw [hhas.deref,ok_bind]
    have hle := hhas.le
    rcases @vecRealloc_spec _ alloc 8 halloc (by norm_num) (m.length*2) _ (by omega) (le_refl _) m with
      ⟨m',hrealloc,rfl,hsmall⟩ | ⟨hrefused,-⟩
    · obtain ⟨arrays,b,hmoved,hlive'⟩ :=
        @Objects.Live.realloc _ _ _ _ _ hlive (vecRealloc alloc 8 · _) [] hrealloc
      rw [hmoved,ok_bind]
      refine .inl ⟨_,_,rfl,rfl,a,b,m.length*2,rfl,⟨hhas.pointer,hhas.vec,_,hlive',?_,?_⟩,?_⟩
      · exact Memory.resize_length ..
      · exact hbegins.resize (by omega)
      · omega
    · rw [@Objects.Live.realloc_refused _ _ _ _ hlive (vecRealloc alloc 8 · _) [] _ hrefused]
      exact .inr rfl
  | moved v =>
    obtain rfl := Option.some.inj hstep
    obtain ⟨a,b,cap,rfl,hhas,hcap⟩ := h
    rw [hhas.deref,ok_bind]
    exact .inl ⟨_,_,rfl,rfl,b,cap,hhas.setVec b _ _,hcap⟩
  | load =>
    obtain rfl := Option.some.inj hstep
    obtain ⟨a,cap,hhas,hcap,hroom⟩ := h
    rw [hhas.deref,ok_bind]
    exact .inl ⟨_,_,rfl,rfl,a,cap,rfl,rfl,hhas,hcap,hroom⟩
  | store v n =>
    obtain rfl := Option.some.inj hstep
    obtain ⟨a,cap,rfl,rfl,hhas,hcap,hroom⟩ := h
    obtain ⟨m,hlive,hlength,hbegins⟩ := hhas.array
    obtain ⟨m',hstore,hlength',hbegins'⟩ :=
      @Begins.store _ _ _ [reader] hbegins (by simpa [hlength])
    obtain ⟨hmodify,hlive'⟩ := @Objects.Live.modify _ _ _ _ _ hlive (Memory.store · _ _) hstore
    rw [hmodify,ok_bind]
    exact .inl ⟨_,_,rfl,rfl,a,cap,⟨hhas.pointer,hhas.vec,m',hlive',hlength'.trans hlength,hbegins'⟩,hcap⟩
  | count =>
    obtain rfl := Option.some.inj hstep
    obtain ⟨a,cap,hhas,hcap⟩ := h
    rw [hhas.deref,ok_bind]
    have hle := hhas.le
    rw [List.length_append,List.length_singleton] at hle
    refine .inl ⟨_,_,rfl,rfl,a,cap,?_,hcap⟩
    have hset := hhas.setVec a ((xs.length+1)%2^64) cap
    rw [Nat.mod_eq_of_lt (show xs.length+1 < 2^64 by omega)] at hset ⊢
    rwa [List.length_append,List.length_singleton]
  | done => cases hstep

/-- A step of `mtbl_sorter_destroy` behind its entries, while nobody appends. The counter does not
wrap. -/
theorem Freeing.step {pc : FreePc ρ} (h : Freeing r xs pc) (hfew : xs.length < 2^32)
    {x : Run (Readers ρ × FreePc ρ)} (hstep : freeStep r pc = some x) :
    ∃ r' pc', x = .ok (r',pc') ∧ Freeing r' xs pc' := by
  cases pc with
  | size i =>
    obtain rfl := Option.some.inj hstep
    obtain ⟨⟨a,cap,hhas,hcap⟩,hi,hdestroyed⟩ := h
    rw [hhas.readers,ok_bind]
    refine ⟨_,_,rfl,?_⟩
    dsimp only
    split_ifs with hmore
    · exact ⟨⟨a,cap,hhas,hcap⟩,hmore,hdestroyed⟩
    · exact ⟨⟨a,cap,hhas,hcap⟩,hdestroyed.trans (List.take_of_length_le (by omega))⟩
  | value i =>
    obtain rfl := Option.some.inj hstep
    obtain ⟨⟨a,cap,hhas,hcap⟩,hi,hdestroyed⟩ := h
    rw [hhas.readers,ok_bind,check_of hi,ok_bind]
    exact ⟨_,_,rfl,⟨a,cap,hhas,hcap⟩,hi,hdestroyed⟩
  | array i =>
    obtain rfl := Option.some.inj hstep
    obtain ⟨⟨a,cap,hhas,hcap⟩,hi,hdestroyed⟩ := h
    rw [hhas.deref,ok_bind]
    exact ⟨_,_,rfl,a,cap,rfl,hhas,hcap,hi,hdestroyed⟩
  | element i v =>
    obtain rfl := Option.some.inj hstep
    obtain ⟨a,cap,rfl,hhas,hcap,hi,hdestroyed⟩ := h
    obtain ⟨m,hlive,-,hbegins⟩ := hhas.array
    rw [hlive.read,ok_bind,hbegins.load hi,ok_bind]
    exact ⟨_,_,rfl,⟨a,cap,hhas,hcap⟩,List.getElem?_eq_getElem hi,hdestroyed⟩
  | reader i reader =>
    obtain rfl := Option.some.inj hstep
    obtain ⟨⟨a,cap,hhas,hcap⟩,hget,hdestroyed⟩ := h
    have hi : i < xs.length := (List.getElem?_eq_some_iff.mp hget).1
    rw [Nat.mod_eq_of_lt (show i+1 < 2^32 by omega)]
    refine ⟨_,_,rfl,⟨a,cap,⟨hhas.pointer,hhas.vec,hhas.array⟩,hcap⟩,hi,?_⟩
    change r.destroyed++[reader] = _
    rw [hdestroyed,List.take_add_one,hget,Option.toList_some]
  | vector =>
    obtain rfl := Option.some.inj hstep
    obtain ⟨⟨a,cap,hhas,hcap⟩,hdestroyed⟩ := h
    rw [if_pos hhas.pointer,hhas.deref,ok_bind]
    exact ⟨_,_,rfl,a,cap,rfl,hhas,hdestroyed⟩
  | freeArray v =>
    obtain rfl := Option.some.inj hstep
    obtain ⟨a,cap,rfl,hhas,hdestroyed⟩ := h
    obtain ⟨m,hlive,-,-⟩ := hhas.array
    rw [hlive.free,ok_bind]
    exact ⟨_,_,rfl,hhas.pointer,by simp [hhas.vec],hdestroyed⟩
  | clearArray =>
    obtain rfl := Option.some.inj hstep
    obtain ⟨hpointer,hvec,hdestroyed⟩ := h
    obtain ⟨vec,hvec⟩ := Option.ne_none_iff_exists'.mp hvec
    simp only [Readers.deref,hvec]
    exact ⟨_,_,rfl,hpointer,by simp,hdestroyed⟩
  | freeVector =>
    obtain rfl := Option.some.inj hstep
    obtain ⟨hpointer,hvec,hdestroyed⟩ := h
    obtain ⟨vec,hvec⟩ := Option.ne_none_iff_exists'.mp hvec
    simp only [Readers.deref,hvec]
    exact ⟨_,_,rfl,hpointer,hdestroyed⟩
  | clearVector =>
    obtain rfl := Option.some.inj hstep
    exact ⟨_,_,rfl,rfl,h.2⟩
  | done => cases hstep

/-- At any time a first part of the readers has been destroyed. -/
theorem Freeing.destroyed {pc : FreePc ρ} (h : Freeing r xs pc) : r.destroyed <+: xs := by
  cases pc with
  | size i | value i | array i | reader i reader => exact h.2.2 ▸ List.take_prefix ..
  | element i v =>
    obtain ⟨_,_,-,-,-,-,hdestroyed⟩ := h
    exact hdestroyed ▸ List.take_prefix ..
  | freeArray v =>
    obtain ⟨_,_,-,-,hdestroyed⟩ := h
    exact hdestroyed ▸ List.prefix_rfl
  | clearArray | freeVector => exact h.2.2 ▸ List.prefix_rfl
  | vector | clearVector | done => exact h.2 ▸ List.prefix_rfl

/-- When the vector is gone, all of them. -/
theorem Freeing.all {pc : FreePc ρ} (h : Freeing r xs pc) (hpointer : r.pointer = false) :
    r.destroyed = xs := by
  have hgone (hthere : r.pointer = true) : False := by
    rw [hpointer] at hthere
    cases hthere
  cases pc with
  | size i | value i | array i | reader i reader | vector => exact (hgone h.1.pointer).elim
  | element i v =>
    obtain ⟨_,_,-,hhas,-⟩ := h
    exact (hgone hhas.pointer).elim
  | freeArray v =>
    obtain ⟨_,_,-,hhas,-⟩ := h
    exact (hgone hhas.pointer).elim
  | clearArray | freeVector | clearVector => exact (hgone h.1).elim
  | done => exact h.2

end

end

end Mtbl
