import Mtbl.Merge.Heap

/-! The heap as a priority queue. A queue is a bag of items; the heap keeps it in its vector through any
sequence of calls, and its first item is a least one as soon as added items have been heapified. -/
namespace Mtbl
open CRun HeapOrder

/-- The calls; `clip` is `heap_clip` to no items. -/
inductive HeapOp (α : Type)
  | push (item : α)
  | pop
  | replace (item : α)
  | clip
  | add (item : α)
  | heapify

section
variable {α : Type}

/-- What a call takes out of the bag and puts into it. A replacement is not put into an empty one. -/
inductive QueueStep : Multiset α → HeapOp α → Option α → Multiset α → Prop
  | push {bag : Multiset α} {x : α} : QueueStep bag (.push x) none (x ::ₘ bag)
  | popEmpty : QueueStep 0 .pop none 0
  | pop {bag : Multiset α} {x : α} : QueueStep (x ::ₘ bag) .pop (some x) bag
  | replaceEmpty {y : α} : QueueStep 0 (.replace y) none 0
  | replace {bag : Multiset α} {x y : α} :
      QueueStep (x ::ₘ bag) (.replace y) (some x) (y ::ₘ bag)
  | clip {bag : Multiset α} : QueueStep bag .clip none 0
  | add {bag : Multiset α} {x : α} : QueueStep bag (.add x) none (x ::ₘ bag)
  | heapify {bag : Multiset α} : QueueStep bag .heapify none bag

inductive QueueRun : Multiset α → List (HeapOp α) → List (Option α) → Multiset α → Prop
  | nil {bag : Multiset α} : QueueRun bag [] [] bag
  | cons {bag bag' bag'' : Multiset α} {op : HeapOp α} {ops : List (HeapOp α)} {ret : Option α}
      {rets : List (Option α)} (step : QueueStep bag op ret bag')
      (run : QueueRun bag' ops rets bag'') : QueueRun bag (op::ops) (ret::rets) bag''

/-- The items in the vector are in heap order behind the call if they are before it. -/
def HeapOp.settles (settled : Bool) : HeapOp α → Bool
  | .add _ => false
  | .clip | .heapify => true
  | _ => settled

/-- Every `heap_add` has been followed by `heap_heapify`. -/
def settledAfter (ops : List (HeapOp α)) : Bool := ops.foldl HeapOp.settles true

variable (cmp : α → α → ℤ)

structure TotalPreorder : Prop where
  total : ∀ a b, cmp a b ≤ 0 ∨ cmp b a ≤ 0
  trans : ∀ a b c, cmp a b ≤ 0 → cmp b c ≤ 0 → cmp a c ≤ 0

def heapOp (vec : List α) : HeapOp α → Run (Option α × List α)
  | .push x => do
    let vec ← heapPush cmp vec x
    return (none,vec)
  | .pop => heapPop cmp vec
  | .replace x => heapReplace cmp vec x
  | .clip => .ok (none,heapClip vec 0)
  | .add x => .ok (none,heapAdd vec x)
  | .heapify => do
    let vec ← heapHeapify cmp vec
    return (none,vec)

/-- The answers of the calls and the vector behind them. -/
def heapOps (vec : List α) : List (HeapOp α) → Run (List (Option α) × List α)
  | [] => .ok ([],vec)
  | op::ops => do
    let (ret,vec) ← heapOp cmp vec op
    let (rets,vec) ← heapOps vec ops
    return (ret::rets,vec)

/-- The order that the items are in: none before they are heapified. -/
def settledOrder (settled : Bool) (a b : α) : Prop := settled = true → cmp a b ≤ 0

variable {cmp}

theorem TotalPreorder.compares (h : TotalPreorder cmp) (settled : Bool) :
    Compares cmp (settledOrder cmp settled) where
  of_le _ _ hab _ := hab
  of_gt a b hab _ := (h.total a b).resolve_left hab
  trans a b c hab hbc hs := h.trans a b c (hab hs) (hbc hs)

theorem isHeap_unsettled (vec : List α) : IsHeap (settledOrder cmp false) vec :=
  fun _ _ _ _ _ h => by cases h

/-- One call keeps the bag and the order. -/
theorem heapOp_spec (h : TotalPreorder cmp) {settled : Bool} {vec : List α}
    (hord : IsHeap (settledOrder cmp settled) vec) (op : HeapOp α) :
    ∃ ret vec', heapOp cmp vec op = .ok (ret,vec') ∧ QueueStep (vec : Multiset α) op ret vec' ∧
      IsHeap (settledOrder cmp (op.settles settled)) vec' := by
  have hcmp := h.compares settled
  cases op with
  | push x =>
    obtain ⟨vec',hrun,hord',hperm⟩ := heapPush_spec hcmp hord x
    refine ⟨none,vec',by simp only [heapOp,hrun,ok_bind,pure_eq_ok],?_,hord'⟩
    have hbag : (vec' : Multiset α) = x ::ₘ (vec : Multiset α) :=
      Multiset.coe_eq_coe.mpr (hperm.trans (List.perm_append_singleton x vec))
    rw [hbag]
    exact .push
  | pop =>
    cases vec with
    | nil => exact ⟨none,[],rfl,.popEmpty,hord⟩
    | cons x vec =>
      obtain ⟨vec',hrun,hord',hperm⟩ := heapPop_spec hcmp (hord.except 0)
      refine ⟨some x,vec',hrun,?_,hord'⟩
      rw [Multiset.coe_eq_coe.mpr hperm,← Multiset.cons_coe]
      exact .pop
  | replace y =>
    cases vec with
    | nil => exact ⟨none,[],rfl,.replaceEmpty,hord⟩
    | cons x vec =>
      obtain ⟨vec',hrun,hord',hperm⟩ := heapReplace_spec hcmp (hord.except 0) y
      refine ⟨some x,vec',hrun,?_,hord'⟩
      rw [Multiset.coe_eq_coe.mpr hperm,← Multiset.cons_coe,← Multiset.cons_coe]
      exact .replace
  | clip => exact ⟨none,[],rfl,.clip,ordered_nil⟩
  | add x =>
    refine ⟨none,vec++[x],rfl,?_,isHeap_unsettled _⟩
    rw [Multiset.coe_eq_coe.mpr (List.perm_append_singleton x vec)]
    exact .add
  | heapify =>
    obtain ⟨vec',hrun,hord',hperm⟩ := heapHeapify_spec (h.compares true) vec
    refine ⟨none,vec',by simp only [heapOp,hrun,ok_bind,pure_eq_ok],?_,hord'⟩
    rw [Multiset.coe_eq_coe.mpr hperm]
    exact .heapify

theorem heapOps_spec (h : TotalPreorder cmp) (ops : List (HeapOp α)) {settled : Bool}
    {vec : List α} (hord : IsHeap (settledOrder cmp settled) vec) :
    ∃ rets vec', heapOps cmp vec ops = .ok (rets,vec') ∧
      QueueRun (vec : Multiset α) ops rets vec' ∧
      IsHeap (settledOrder cmp (ops.foldl HeapOp.settles settled)) vec' := by
  induction ops generalizing settled vec with
  | nil => exact ⟨[],vec,rfl,.nil,hord⟩
  | cons op ops ih =>
    obtain ⟨ret,vec1,hop,hstep,hord1⟩ := heapOp_spec h hord op
    obtain ⟨rets,vec2,hops,hrun,hord2⟩ := ih hord1
    exact ⟨ret::rets,vec2,by simp only [heapOps,hop,hops,ok_bind,pure_eq_ok],.cons hstep hrun,hord2⟩

/-- `heap_pop` and `heap_replace` return what `heap_peek` shows. -/
theorem heapOp_top (h : TotalPreorder cmp) (vec : List α) :
    (∃ vec', heapPop cmp vec = .ok (heapPeek vec,vec')) ∧
      ∀ y, ∃ vec', heapReplace cmp vec y = .ok (heapPeek vec,vec') := by
  have hcmp := h.compares false
  cases vec with
  | nil => exact ⟨⟨[],rfl⟩,fun _ => ⟨[],rfl⟩⟩
  | cons x vec =>
    have hord := (@isHeap_unsettled _ cmp (x::vec)).except 0
    constructor
    · obtain ⟨vec',hrun,-⟩ := heapPop_spec hcmp hord
      exact ⟨vec',hrun⟩
    · intro y
      obtain ⟨vec',hrun,-⟩ := heapReplace_spec hcmp hord y
      exact ⟨vec',hrun⟩

end

/-- Any sequence of calls on an empty heap: the vector holds the bag, `heap_pop` and `heap_replace`
return the top, and if every `heap_add` has been followed by `heap_heapify`, no parent compares
greater than its child and the top is a least item. -/
theorem heap_is_priority_queue {α : Type} (cmp : α → α → ℤ) (h : TotalPreorder cmp)
    (ops : List (HeapOp α)) : ∃ rets vec, heapOps cmp [] ops = .ok (rets,vec) ∧
      QueueRun 0 ops rets (vec : Multiset α) ∧
      ((∃ vec', heapPop cmp vec = .ok (heapPeek vec,vec')) ∧
        ∀ y, ∃ vec', heapReplace cmp vec y = .ok (heapPeek vec,vec')) ∧
      (settledAfter ops = true → (∀ i a b, Edge vec i a b → cmp a b ≤ 0) ∧
        ∀ x, heapPeek vec = some x → ∀ y ∈ vec, cmp x y ≤ 0) := by
  obtain ⟨rets,vec,hops,hrun,hord⟩ := @heapOps_spec _ _ h ops true [] ordered_nil
  refine ⟨rets,vec,hops,hrun,heapOp_top h vec,fun hsettled => ?_⟩
  have hle : IsHeap (fun a b => cmp a b ≤ 0) vec :=
    fun i a b hi hedge => hord i a b hi hedge hsettled
  refine ⟨fun i a b hedge => hle i a b (Nat.zero_le _) hedge,fun x hx => ?_⟩
  exact hle.root_le_mem (fun a => (h.total a a).elim id id) h.trans hx

/-- Three items added and heapified, and one pushed. -/
theorem heap_is_priority_queue_four : ∃ vec,
    heapOps (fun a b : ℤ => a-b) [] [.add 5,.add 3,.add 4,.heapify,.push 1] =
      .ok ([none,none,none,none,none],vec) ∧ heapPeek vec = some 1 ∧ ∀ y ∈ vec, (1 : ℤ)-y ≤ 0 := by
  have h : TotalPreorder (fun a b : ℤ => a-b) := by
    constructor
    · intro a b
      omega
    · intro a b c hab hbc
      omega
  obtain ⟨rets,vec,hops,-,-,hmin⟩ := heap_is_priority_queue (fun a b : ℤ => a-b) h
    [.add 5,.add 3,.add 4,.heapify,.push 1]
  have hrun : heapOps (fun a b : ℤ => a-b) [] [.add 5,.add 3,.add 4,.heapify,.push 1] =
      .ok ([none,none,none,none,none],[1,3,4,5]) := by decide +kernel
  obtain ⟨rfl,rfl⟩ := Prod.mk.inj (Except.ok.inj (hops.symm.trans hrun))
  exact ⟨_,hops,rfl,(hmin rfl).2 1 rfl⟩

end Mtbl
