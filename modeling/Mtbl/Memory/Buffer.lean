import Mtbl.Memory.Vec

/-! What a vector is for: a list of elements and room for more. `_reserve` promises room, and a caller
may write through the pointer as far as room was promised. -/
namespace Mtbl
open CRun Memory

/-- The elements, the room promised behind them, the room of an empty buffer, and the most that any of
it has come to. -/
structure Buffer (α : Type) where
  items : List α
  room : ℕ
  hint : ℕ
  most : ℕ
  deriving DecidableEq, Repr

inductive VecOp (α : Type)
  | reserve (nElems : ℕ)
  | add (elem : α)
  | append (elems : List α)
  | extend (vec1 : Vec α)
  | put (elems : List α)
  | reset
  | clip (nElems : ℕ)
  | detach
  | reinit (hint : ℕ)
  | value (i : ℕ)
  | data

section
variable {α : Type}

/-- `_init`. A hint of zero is a hint of one. -/
def Buffer.init (hint : ℕ) : Buffer α := ⟨[],max 1 (hint%2^32),max 1 (hint%2^32),max 1 (hint%2^32)⟩

/-- The buffer with these elements and this room. -/
def Buffer.to (b : Buffer α) (items : List α) (room : ℕ) : Buffer α :=
  ⟨items,room,b.hint,max b.most (items.length+room)⟩

/-- What the operation does, and what the caller gets to read. There is nothing to say of an operation
that reads or writes past what is there for it. -/
def Buffer.step (b : Buffer α) : VecOp α → Option (Buffer α × List α)
  | .reserve nElems => some (b.to b.items (max b.room nElems),[])
  | .add elem => some (b.to (b.items++[elem]) (b.room-1),[])
  | .append elems => some (b.to (b.items++elems) (b.room-elems.length),[])
  | .extend vec1 =>
    match loadAll vec1.v vec1.n with
    | .ok elems => some (b.to (b.items++elems) (b.room-elems.length),[])
    | .error _ => none
  | .put elems =>
    if elems.length ≤ b.room then some (b.to (b.items++elems) (b.room-elems.length),[]) else none
  | .reset => some (b.to [] b.hint,[])
  | .clip nElems => some (b.to (b.items.take nElems) (b.room+(b.items.length-nElems)),[])
  | .detach => some (b.to [] b.hint,b.items)
  | .reinit hint => some ({ Buffer.init hint with most := max b.most (max 1 (hint%2^32)) },[])
  | .value i => (b.items[i]?).map (fun x => (b,[x]))
  | .data => some (b,b.items)

def Buffer.run : Buffer α → List (VecOp α) → Option (Buffer α × List (List α))
  | b,[] => some (b,[])
  | b,op::ops => do
    let (b,out) ← b.step op
    let (b,outs) ← b.run ops
    return (b,out::outs)

/-- The operation on the vector, and what the caller reads. -/
def vecStep (alloc : ℕ → Bool) (width fuel : ℕ) (vec : Vec α) : VecOp α → Run (Vec α × List α)
  | .reserve nElems => do
    let vec ← vecReserve alloc width fuel vec nElems
    return (vec,[])
  | .add elem => do
    let vec ← vecAdd alloc width fuel vec elem
    return (vec,[])
  | .append elems => do
    let vec ← vecAppend alloc width fuel vec elems
    return (vec,[])
  | .extend vec1 => do
    let vec ← vecExtend alloc width fuel vec vec1
    return (vec,[])
  | .put elems => do
    let vec ← vecPut vec elems
    return (vec,[])
  | .reset => do
    let vec ← vecReset alloc width vec
    return (vec,[])
  | .clip nElems => return (vecClip vec nElems,[])
  | .detach => do
    let (vec,v,n) ← vecDetach alloc width vec
    let out ← loadAll v n
    return (vec,out)
  | .reinit hint => do
    let vec ← vecReinit alloc width hint
    return (vec,[])
  | .value i => do
    let x ← vecValue vec i
    return (vec,[x])
  | .data => do
    let out ← loadAll vec.v (vecSize vec)
    return (vec,out)

def vecRun (width fuel : ℕ) : Vec α → List (VecOp α × (ℕ → Bool)) → Run (Vec α × List (List α))
  | vec,[] => .ok (vec,[])
  | vec,(op,alloc)::ops => do
    let (vec,out) ← vecStep alloc width fuel vec op
    let (vec,outs) ← vecRun width fuel vec ops
    return (vec,out::outs)

/-- The vector has the elements, its capacity has the room and is at most doubled for it. -/
structure Represents (width : ℕ) (vec : Vec α) (b : Buffer α) : Prop extends
    vec.Keeps width b.hint b.most b.items where
  room : b.items.length+b.room ≤ vec.nAlloced
  most : b.items.length+b.room ≤ b.most
  hint_le : b.hint ≤ b.most

variable {alloc : ℕ → Bool} {width : ℕ} {vec : Vec α} {b b' : Buffer α}

theorem Buffer.step_most {op : VecOp α} {out : List α} (h : b.step op = some (b',out)) :
    b.most ≤ b'.most := by
  cases op with
  | put elems =>
    simp only [Buffer.step] at h
    split_ifs at h
    obtain ⟨rfl,-⟩ := Prod.mk.inj (Option.some.inj h)
    exact le_max_left ..
  | extend vec1 =>
    simp only [Buffer.step] at h
    split at h
    · obtain ⟨rfl,-⟩ := Prod.mk.inj (Option.some.inj h)
      exact le_max_left ..
    · cases h
  | value i =>
    obtain ⟨x,-,hx⟩ := Option.map_eq_some_iff.mp h
    obtain ⟨rfl,-⟩ := Prod.mk.inj hx
    exact le_rfl
  | data =>
    obtain ⟨rfl,-⟩ := Prod.mk.inj (Option.some.inj h)
    exact le_rfl
  | reserve => exact (Prod.mk.inj (Option.some.inj h)).1 ▸ le_max_left ..
  | add => exact (Prod.mk.inj (Option.some.inj h)).1 ▸ le_max_left ..
  | append => exact (Prod.mk.inj (Option.some.inj h)).1 ▸ le_max_left ..
  | reset => exact (Prod.mk.inj (Option.some.inj h)).1 ▸ le_max_left ..
  | clip => exact (Prod.mk.inj (Option.some.inj h)).1 ▸ le_max_left ..
  | detach => exact (Prod.mk.inj (Option.some.inj h)).1 ▸ le_max_left ..
  | reinit => exact (Prod.mk.inj (Option.some.inj h)).1 ▸ le_max_left ..

/-- A new state of the buffer, from what is known of the vector. -/
theorem Represents.to {vec' : Vec α} (h : Represents width vec b) {items : List α} {room : ℕ}
    (hholds : vec'.Holds width items) (hhint : vec'.hint = vec.hint)
    (hroom : items.length+room ≤ vec'.nAlloced)
    (hcap : vec'.nAlloced ≤ max b.hint (2*max b.most (items.length+room))) :
    Represents width vec' (b.to items room) where
  holds := hholds
  hint_eq := hhint.trans h.hint_eq
  room := hroom
  most := le_max_right ..
  hint_le := h.hint_le.trans (le_max_left ..)
  capacity := hcap

theorem Represents.grown {vec' : Vec α} (h : Represents width vec b) {items : List α}
    {room total : ℕ} (hgrown : Grown width vec vec' items total)
    (hroom : items.length+room = max (b.items.length+b.room) total) :
    Represents width vec' (b.to items room) := by
  have hcap := hgrown.capacity
  have hle := hgrown.le
  have hfits := hgrown.fits
  have hold := h.capacity
  have hroom' := h.room
  exact h.to hgrown.holds hgrown.hint_eq (by omega) (by omega)

/-- What a growing vector asks for is within the bound for its new state. -/
theorem Represents.bound (h : Represents width vec b) {items : List α} {room total bound : ℕ}
    (htotal : total ≤ items.length+room)
    (hbound : width*(2*(b.to items room).most) ≤ bound) :
    width*max vec.nAlloced (2*total) ≤ bound := by
  have hcap := h.capacity
  have hhint := h.hint_le
  refine (Nat.mul_le_mul_left width ?_).trans hbound
  simp only [Buffer.to]
  omega

theorem Represents.init (hrefuses : Refuses alloc) (hwidth : 0 < width) (hword : width < 2^32)
    (hint : ℕ) {bound : ℕ} (hstruct : 40 ≤ bound) (hbound : width*max 1 (hint%2^32) ≤ bound) :
    Granted (GrantsUpTo alloc bound) (vecInit alloc width hint)
      (fun vec : Vec α => Represents width vec (.init hint)) := by
  apply (vecInit_keeps hrefuses hwidth hword hint _ hstruct hbound).imp
  rintro vec ⟨hkeeps,hcap⟩
  exact ⟨hkeeps,hcap.symm ▸ (Nat.zero_add _).le,(Nat.zero_add _).le,le_rfl⟩

/-- One operation. -/
theorem Represents.step (hrefuses : Refuses alloc) (hwidth : 0 < width) (hword : width < 2^32)
    {fuel : ℕ} (hfuel : 64 ≤ fuel) (h : Represents width vec b) {op : VecOp α} {out : List α}
    (hstep : b.step op = some (b',out)) {bound : ℕ}
    (hbound : width*(2*b'.most) ≤ bound) :
    Granted (GrantsUpTo alloc bound) (vecStep alloc width fuel vec op)
      (fun r => Represents width r.1 b' ∧ r.2 = out) := by
  have hroom := h.room
  have hhint : width*vec.hint ≤ bound := by
    refine (Nat.mul_le_mul_left width ?_).trans hbound
    have hmost := Buffer.step_most hstep
    have hle := h.hint_le
    rw [h.hint_eq]
    omega
  cases op with
  | reserve k =>
    obtain ⟨rfl,rfl⟩ := Prod.mk.inj (Option.some.inj hstep)
    apply (vecReserve_spec hrefuses hwidth hfuel h.holds k (h.bound (by omega) hbound)).bind
    intro vec' hgrown
    exact .ok ⟨h.grown hgrown (by omega),rfl⟩
  | add elem =>
    obtain ⟨rfl,rfl⟩ := Prod.mk.inj (Option.some.inj hstep)
    have hlen : (b.items++[elem]).length = b.items.length+1 := List.length_append
    apply (vecAdd_spec hrefuses hwidth hfuel h.holds elem (h.bound (by omega) hbound)).bind
    intro vec' hgrown
    exact .ok ⟨h.grown hgrown (by omega),rfl⟩
  | append elems =>
    obtain ⟨rfl,rfl⟩ := Prod.mk.inj (Option.some.inj hstep)
    have hlen : (b.items++elems).length = b.items.length+elems.length := List.length_append
    apply (vecAppend_spec hrefuses hwidth hfuel h.holds elems (h.bound (by omega) hbound)).bind
    intro vec' hgrown
    exact .ok ⟨h.grown hgrown (by omega),rfl⟩
  | extend vec1 =>
    simp only [Buffer.step] at hstep
    split at hstep
    · next elems hload =>
      obtain ⟨rfl,rfl⟩ := Prod.mk.inj (Option.some.inj hstep)
      have hlen : (b.items++elems).length = b.items.length+elems.length := List.length_append
      simp only [vecStep,vecExtend,hload,ok_bind]
      apply (vecAppend_spec hrefuses hwidth hfuel h.holds elems (h.bound (by omega) hbound)).bind
      intro vec' hgrown
      exact .ok ⟨h.grown hgrown (by omega),rfl⟩
    · cases hstep
  | put elems =>
    simp only [Buffer.step] at hstep
    split_ifs at hstep with hfits
    obtain ⟨rfl,rfl⟩ := Prod.mk.inj (Option.some.inj hstep)
    have hlen : (b.items++elems).length = b.items.length+elems.length := List.length_append
    obtain ⟨vec',hput,hholds,hhint',hcap'⟩ := vecPut_spec h.holds hwidth
      (show b.items.length+elems.length ≤ vec.nAlloced by omega)
    have hcap := h.capacity
    have hnew : Represents width vec' (b.to (b.items++elems) (b.room-elems.length)) :=
      h.to hholds hhint' (by omega) (by omega)
    simp only [vecStep,hput,ok_bind,pure_eq_ok]
    exact .ok ⟨hnew,rfl⟩
  | reset =>
    obtain ⟨rfl,rfl⟩ := Prod.mk.inj (Option.some.inj hstep)
    apply (vecReset_spec hrefuses hwidth h.holds hhint).bind
    rintro vec' ⟨hholds,hhint',hcap⟩
    rw [h.hint_eq] at hcap
    refine .ok ⟨h.to hholds hhint' ?_ (hcap.trans_le (le_max_left ..)),rfl⟩
    exact (Nat.zero_add _).trans_le hcap.ge
  | clip k =>
    obtain ⟨rfl,rfl⟩ := Prod.mk.inj (Option.some.inj hstep)
    have hlen : (b.items.take k).length = min k b.items.length := List.length_take
    have hsame : (vecClip vec k).hint = vec.hint ∧ (vecClip vec k).nAlloced = vec.nAlloced := by
      unfold vecClip
      split_ifs <;> exact ⟨rfl,rfl⟩
    have hcap := h.capacity
    refine .ok ⟨h.to (vecClip_holds h.holds k) hsame.1 ?_ ?_,rfl⟩
    · rw [hsame.2]
      omega
    · rw [hsame.2]
      omega
  | detach =>
    obtain ⟨rfl,rfl⟩ := Prod.mk.inj (Option.some.inj hstep)
    apply (vecDetach_spec hrefuses hwidth h.holds hhint).bind
    rintro ⟨vec',v,n⟩ ⟨hholds,hhint',hcap,hload⟩
    rw [h.hint_eq] at hcap
    simp only [hload,ok_bind,pure_eq_ok]
    refine .ok ⟨h.to hholds hhint' ?_ (hcap.trans_le (le_max_left ..)),rfl⟩
    exact (Nat.zero_add _).trans_le hcap.ge
  | reinit hint =>
    obtain ⟨rfl,rfl⟩ := Prod.mk.inj (Option.some.inj hstep)
    have hle : width*max 1 (hint%2^32) ≤ bound := by
      refine (Nat.mul_le_mul_left width ?_).trans hbound
      dsimp only
      omega
    apply (vecReinit_spec hrefuses hwidth hword hint hle).bind
    rintro vec' ⟨hholds,hhint',hcap⟩
    refine .ok ⟨⟨⟨hholds,hhint',hcap.trans_le (le_max_left ..)⟩,?_,?_,le_max_right ..⟩,rfl⟩
    · exact (Nat.zero_add _).trans_le hcap.ge
    · exact (Nat.zero_add _).trans_le (le_max_right ..)
  | value i =>
    obtain ⟨x,hx,hout⟩ := Option.map_eq_some_iff.mp hstep
    obtain ⟨rfl,rfl⟩ := Prod.mk.inj hout
    obtain ⟨hi,rfl⟩ := List.getElem?_eq_some_iff.mp hx
    simp only [vecStep,vecValue_spec h.holds hi,ok_bind,pure_eq_ok]
    exact .ok ⟨h,rfl⟩
  | data =>
    obtain ⟨rfl,rfl⟩ := Prod.mk.inj (Option.some.inj hstep)
    simp only [vecStep,vecSize,h.holds.size,h.holds.begins.loadAll,ok_bind,pure_eq_ok]
    exact .ok ⟨h,rfl⟩

theorem Buffer.run_most {ops : List (VecOp α)} {outs : List (List α)}
    (h : b.run ops = some (b',outs)) : b.most ≤ b'.most := by
  induction ops generalizing b outs with
  | nil => exact (Prod.mk.inj (Option.some.inj h)).1 ▸ le_rfl
  | cons op ops ih =>
    obtain ⟨⟨b1,out⟩,hstep,h⟩ := Option.bind_eq_some_iff.mp h
    obtain ⟨⟨b2,outs'⟩,hrest,h⟩ := Option.bind_eq_some_iff.mp h
    obtain ⟨rfl,-⟩ := Prod.mk.inj (Option.some.inj h)
    exact (Buffer.step_most hstep).trans (ih hrest)

theorem Represents.run {width fuel : ℕ} (hwidth : 0 < width) (hword : width < 2^32)
    (hfuel : 64 ≤ fuel) (h : Represents width vec b) {ops : List (VecOp α × (ℕ → Bool))} {outs : List (List α)}
    (hrefuses : ∀ op ∈ ops, Refuses op.2) (hrun : b.run (ops.map Prod.fst) = some (b',outs))
    {bound : ℕ} (hbound : width*(2*b'.most) ≤ bound) :
    Granted (∀ op ∈ ops, GrantsUpTo op.2 bound) (vecRun width fuel vec ops)
      (fun r => Represents width r.1 b' ∧ r.2 = outs) := by
  induction ops generalizing vec b outs with
  | nil =>
    obtain ⟨rfl,rfl⟩ := Prod.mk.inj (Option.some.inj hrun)
    exact .ok ⟨h,rfl⟩
  | cons op ops ih =>
    obtain ⟨op,alloc⟩ := op
    obtain ⟨⟨b1,out⟩,hstep,hrun⟩ := Option.bind_eq_some_iff.mp hrun
    obtain ⟨⟨b2,outs'⟩,hrest,hrun⟩ := Option.bind_eq_some_iff.mp hrun
    obtain ⟨rfl,rfl⟩ := Prod.mk.inj (Option.some.inj hrun)
    have hle : 2*b1.most ≤ 2*b2.most := Nat.mul_le_mul_left 2 (Buffer.run_most hrest)
    have hfirst := h.step (hrefuses _ List.mem_cons_self) hwidth hword hfuel hstep
      ((Nat.mul_le_mul_left width hle).trans hbound)
    apply (hfirst.mono (fun hg => hg _ List.mem_cons_self)).bind
    rintro ⟨vec1,out'⟩ ⟨h1,rfl⟩
    have hothers := ih h1 (fun o ho => hrefuses o (List.mem_cons_of_mem _ ho)) hrest
    apply (hothers.mono (fun hg o ho => hg o (List.mem_cons_of_mem _ ho))).bind
    rintro ⟨vec2,outs''⟩ ⟨h2,rfl⟩
    exact .ok ⟨h2,rfl⟩

end

/-- A vector from its creation on: as far as memory is granted it does what the buffer does, and no
write leaves its memory; otherwise it stops at the allocation. The memory that it asks for is bounded
by twice what was ever in it or promised. -/
theorem vector_runs {α : Type} (width hint fuel : ℕ) (hwidth : 0 < width) (hword : width < 2^32)
    (hfuel : 64 ≤ fuel) (alloc : ℕ → Bool) (ops : List (VecOp α × (ℕ → Bool)))
    (hrefuses : Refuses alloc) (hops : ∀ op ∈ ops, Refuses op.2) (b : Buffer α)
    (outs : List (List α))
    (hrun : (Buffer.init hint).run (ops.map Prod.fst) = some (b,outs)) :
    Granted (GrantsUpTo alloc (max 40 (width*(2*b.most))) ∧
        ∀ op ∈ ops, GrantsUpTo op.2 (max 40 (width*(2*b.most))))
      (do let vec ← vecInit alloc width hint; vecRun width fuel vec ops)
      (fun r => Represents width r.1 b ∧ r.2 = outs) := by
  have hmost : max 1 (hint%2^32) ≤ b.most := Buffer.run_most hrun
  have hinit : width*max 1 (hint%2^32) ≤ max 40 (width*(2*b.most)) :=
    (Nat.mul_le_mul_left width (by omega)).trans (le_max_right ..)
  have hfirst := @Represents.init α alloc width hrefuses hwidth hword hint _ (le_max_left ..) hinit
  apply (hfirst.mono (fun hg => hg.1)).bind
  intro vec hvec
  exact (hvec.run hwidth hword hfuel hops hrun (le_max_right ..)).mono (fun hg => hg.2)

/-- All that a pointer difference can count is granted. -/
def amply (size : ℕ) : Bool := decide (size < 2^63)

theorem refuses_amply : Refuses amply := fun _ h => of_decide_eq_true h

theorem grantsUpTo_amply {bound : ℕ} (h : bound < 2^63) : GrantsUpTo amply bound :=
  fun _ hsize => decide_eq_true (hsize.trans_lt h)

/-- A vector of words with room for one, which grows for three more. -/
theorem vector_runs_four : ∃ vec, (do
    let vec ← vecInit amply 8 0
    vecRun 8 64 vec [(.add 5,amply),(.reserve 3,amply),(.put [6,7],amply),(.value 2,amply),
      (.clip 2,amply),(.extend ⟨[some 8],1,1,1,1⟩,amply),(.detach,amply),(.reinit 2,amply)]) =
        .ok (vec,[[],[],[],[7],[],[],[5,6,8],[]]) ∧
    Represents 8 vec ⟨([] : List ℕ),2,2,4⟩ := by
  have h := vector_runs 8 0 64 (by decide) (by decide) le_rfl amply
    [(.add 5,amply),(.reserve 3,amply),(.put [6,7],amply),(.value 2,amply),(.clip 2,amply),
      (.extend ⟨[some 8],1,1,1,1⟩,amply),(.detach,amply),(.reinit 2,amply)] refuses_amply
    (by simpa using refuses_amply) ⟨([] : List ℕ),2,2,4⟩ [[],[],[],[7],[],[],[5,6,8],[]] (by decide)
  obtain ⟨r,hr,hvec,hout⟩ := h.returns
    ⟨grantsUpTo_amply (by decide),by simpa using grantsUpTo_amply (by decide)⟩
  exact ⟨r.1,hout ▸ hr,hvec⟩

end Mtbl
