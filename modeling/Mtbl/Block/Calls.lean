import Mtbl.Block.Prev
import Mtbl.Block.Refine

/-! Every operation of the block iterator against the cursor over the list of entries. The cursor is
a position in the list, its length standing for the invalid cursor. -/
namespace Mtbl
open CRun Cursor

inductive BlockCall
  | seekToFirst
  | seekToLast
  | seek (target : Bytes)
  | next
  | prev
  deriving DecidableEq, Repr

def blockIterCall (bi : BlockIter) : BlockCall → Run BlockIter
  | .seekToFirst => blockIterSeekToFirst bi
  | .seekToLast => blockIterSeekToLast bi
  | .seek target => blockIterSeek bi target
  | .next => do
    let (bi,_) ← blockIterNext bi
    return bi
  | .prev => blockIterPrev bi

/-- What `block_iter_valid` and `block_iter_get` answer after each call. -/
def blockIterCalls (bi : BlockIter) : List BlockCall → Run (List (Bool × Option Entry))
  | [] => .ok []
  | c::cs => do
    let bi ← blockIterCall bi c
    let answers ← blockIterCalls bi cs
    return (blockIterValid bi,blockIterGet bi)::answers

/-- The cursor moves back from a valid position only. -/
def cursorCall (es : List Entry) (i : ℕ) : BlockCall → Run ℕ
  | .seekToFirst => .ok 0
  | .seekToLast => .ok (es.length-1)
  | .seek target => .ok (es.findIdx (fun e => decide (target ≤ e.key)))
  | .next => .ok (min (i+1) es.length)
  | .prev => do
    check (i < es.length)
    return if i = 0 then es.length else i-1

def cursorCalls (es : List Entry) (i : ℕ) : List BlockCall → Run (List (Bool × Option Entry))
  | [] => .ok []
  | c::cs => do
    let i ← cursorCall es i c
    let answers ← cursorCalls es i cs
    return (decide (i < es.length),es[i]?)::answers

namespace Shows
variable {bi : BlockIter} {es : List Entry} {i : ℕ}

theorem seekToLast (h : Shows bi es i) :
    ∃ bi', blockIterSeekToLast bi = .ok bi' ∧ Shows bi' es (es.length-1) := by
  obtain ⟨slots,rs,rfl,hs,-⟩ := h
  obtain ⟨bi',hrun,hc',hsame⟩ := BlockIter.blockIterSeekToLast_spec hs.toSlotted
  rw [List.length_map]
  exact ⟨bi',hrun,slots,rs,rfl,hsame.stores hs,hc'⟩

theorem prev (h : Shows bi es i) (hi : i < es.length) :
    ∃ bi', blockIterPrev bi = .ok bi' ∧ Shows bi' es (if i = 0 then es.length else i-1) := by
  obtain ⟨slots,rs,rfl,hs,hc⟩ := h
  rw [List.length_map] at hi ⊢
  rcases hc with ⟨-,ha⟩ | ⟨heq,-⟩
  · obtain ⟨bi',hrun,hc',hsame⟩ := BlockIter.blockIterPrev_spec hs.toSlotted ha
    exact ⟨bi',hrun,slots,rs,rfl,hsame.stores hs,hc'⟩
  · omega

/-- The position left by a seek is the first with a key at or after the target. -/
theorem eq_findIdx (h : Shows bi es i) {target : Bytes}
    (hdrop : es.drop i = seekList Entry.key es target) :
    i = es.findIdx (fun e => decide (target ≤ e.key)) := by
  have hfind : seekList Entry.key es target =
      es.drop (es.findIdx (fun e => decide (target ≤ e.key))) := by
    rw [seekList,List.dropWhile_eq_drop_findIdx_not]
    congr 2
    funext e
    have hlt : e.key < target ↔ ¬ target ≤ e.key := not_le.symm
    simp only [hlt,decide_not,Bool.not_not]
  have hlen := congrArg List.length (hdrop.trans hfind)
  rw [List.length_drop,List.length_drop] at hlen
  have hle := h.le
  have hle' := @List.findIdx_le_length _ (fun e => decide (target ≤ e.key)) es
  omega

/-- One call keeps the iterator on the cursor's position, or both refuse it. -/
theorem call (h : Shows bi es i) (hsort : Ascending es) (c : BlockCall) :
    (∃ bi' j, blockIterCall bi c = .ok bi' ∧ cursorCall es i c = .ok j ∧ Shows bi' es j) ∨
      ∃ fault, blockIterCall bi c = .error fault ∧ cursorCall es i c = .error fault := by
  cases c with
  | seekToFirst =>
    obtain ⟨bi',hrun,h'⟩ := h.seekToFirst
    exact .inl ⟨bi',0,hrun,rfl,h'⟩
  | seekToLast =>
    obtain ⟨bi',hrun,h'⟩ := h.seekToLast
    exact .inl ⟨bi',_,hrun,rfl,h'⟩
  | seek target =>
    obtain ⟨bi',j,hrun,h',hdrop⟩ := h.seek hsort target
    exact .inl ⟨bi',j,hrun,by rw [cursorCall,← h'.eq_findIdx hdrop],h'⟩
  | next =>
    obtain ⟨bi',hrun,h'⟩ := h.next
    exact .inl ⟨bi',_,by rw [blockIterCall,hrun]; rfl,rfl,h'⟩
  | prev =>
    rcases Nat.lt_or_ge i es.length with hlt | hge
    · obtain ⟨bi',hrun,h'⟩ := h.prev hlt
      exact .inl ⟨bi',_,hrun,by rw [cursorCall,check_of hlt]; rfl,h'⟩
    · have hvalid := h.valid
      rw [decide_eq_false (by omega)] at hvalid
      refine .inr ⟨.assertion,?_,?_⟩
      · simp [blockIterCall,blockIterPrev,hvalid,check]
      · simp [cursorCall,check,show ¬ i < es.length by omega]

theorem calls (h : Shows bi es i) (hsort : Ascending es) (cs : List BlockCall) :
    blockIterCalls bi cs = cursorCalls es i cs := by
  induction cs generalizing bi i with
  | nil => rfl
  | cons c cs ih =>
    rw [blockIterCalls,cursorCalls]
    rcases h.call hsort c with ⟨bi',j,hrun,hcur,h'⟩ | ⟨fault,hrun,hcur⟩
    · rw [hrun,hcur,ok_bind,ok_bind,ih h',h'.valid,h'.get]
    · rw [hrun,hcur,error_bind,error_bind]

end Shows

def blockBuilderAdds (b : BlockBuilder) : List Entry → Run BlockBuilder
  | [] => .ok b
  | e::es => do
    let b ← blockBuilderAdd b e.key e.val
    blockBuilderAdds b es

theorem Builds.adds {b : BlockBuilder} {es : List Entry} (h : Builds b es)
    (hinterval : 0 < b.blockRestartInterval) (new : List Entry) (hsmall : ∀ e ∈ new, e.Small) :
    ∃ b', blockBuilderAdds b new = .ok b' ∧ Builds b' (es++new) := by
  induction new generalizing b es with
  | nil => exact ⟨b,rfl,by rwa [List.append_nil]⟩
  | cons e new ih =>
    obtain ⟨b1,hadd,hb1,hint⟩ := h.add hinterval (hsmall e List.mem_cons_self)
    obtain ⟨b2,hadds,hb2⟩ := ih hb1 (hint ▸ hinterval)
      (fun x hx => hsmall x (List.mem_cons_of_mem e hx))
    refine ⟨b2,by rw [blockBuilderAdds,hadd,ok_bind,hadds],?_⟩
    rwa [List.append_assoc,List.singleton_append] at hb2

/-- The block built from a sorted list answers every sequence of calls as the cursor over the list
does, whatever bytes follow the block in memory. No object has 2^63 bytes. -/
theorem block_iter_refines (interval : ℕ) (hinterval : 1 ≤ interval) (es : List Entry)
    (hsort : Ascending es) (hsmall : ∀ e ∈ es, e.Small) :
    ∃ b, blockBuilderAdds (blockBuilderInit interval) es = .ok b ∧
      (b.restarts.length < 2^31 → b.buf.length < 2^63 → ∀ front tail, ∃ B bi,
        blockInit front ((blockBuilderFinish b).2++tail) (blockBuilderFinish b).2.length = .ok B ∧
        blockIterInit B = .ok bi ∧
        ∀ calls, blockIterCalls bi calls = cursorCalls es es.length calls) := by
  obtain ⟨b,hadds,hb⟩ := (Builds.init interval).adds hinterval es hsmall
  refine ⟨b,hadds,fun hcount hsize front tail => ?_⟩
  obtain ⟨B,bi,hinit,hiter,hshows⟩ := hb.finish front tail hcount hsize
  exact ⟨B,bi,hinit,hiter,fun calls => hshows.calls hsort calls⟩

theorem block_iter_refines_two :
    ∃ b, blockBuilderAdds (blockBuilderInit 1) [⟨[97],[1]⟩,⟨[98],[2]⟩] = .ok b ∧
      ∀ front tail, ∃ B bi,
        blockInit front ((blockBuilderFinish b).2++tail) (blockBuilderFinish b).2.length = .ok B ∧
        blockIterInit B = .ok bi ∧ ∀ calls, blockIterCalls bi calls =
          cursorCalls [⟨[97],[1]⟩,⟨[98],[2]⟩] 2 calls := by
  obtain ⟨b,hadds,hrefines⟩ := block_iter_refines 1 le_rfl [⟨[97],[1]⟩,⟨[98],[2]⟩]
    (by simp only [Ascending]; decide) (by decide)
  have hb : blockBuilderAdds (blockBuilderInit 1) [⟨[97],[1]⟩,⟨[98],[2]⟩] =
      .ok ⟨1,[0,1,1,97,1,0,1,1,98,2],[98],[0,5],false,1⟩ := by decide
  obtain rfl := Except.ok.inj (hadds.symm.trans hb)
  exact ⟨_,hadds,hrefines (by decide) (by decide)⟩

end Mtbl
