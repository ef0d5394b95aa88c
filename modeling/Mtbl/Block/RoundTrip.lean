import Mtbl.Block.Calls

/-! What goes into a block comes out of it, in any order of keys and on both sides of the size from
which restart points take eight bytes. -/
namespace Mtbl
open CRun

/-- The loop of a reader of the whole block: while the iterator is valid, get and next. -/
def blockIterEntries : ℕ → BlockIter → Run (List Entry × BlockIter)
  | 0,_ => .error .fuel
  | fuel+1,bi =>
    match blockIterGet bi with
    | none => .ok ([],bi)
    | some e => do
      let (bi,_) ← blockIterNext bi
      let (es,bi) ← blockIterEntries fuel bi
      return (e::es,bi)

namespace BlockIter
variable {bi : BlockIter} {slots : List Slot} {rs : List ℕ} {i : ℕ}

theorem Cursor.valid (h : bi.Slotted slots rs) (hc : bi.Cursor slots rs i) :
    blockIterValid bi = decide (i < slots.length) := by
  rcases hc with ⟨hlt,ha⟩ | ⟨heq,hp⟩
  · rw [ha.valid h,decide_eq_true hlt]
  · rw [hp.valid,decide_eq_false (by omega)]

/-- From slot `i` on the loop reads the rest. -/
theorem blockIterEntries_spec (fuel : ℕ) (bi : BlockIter) (i : ℕ) (h : bi.Slotted slots rs)
    (hc : bi.Cursor slots rs i) (hi : i ≤ slots.length) (hfuel : slots.length < i+fuel) :
    ∃ bi', blockIterEntries fuel bi = .ok ((slots.drop i).map Slot.entry,bi') ∧
      blockIterValid bi' = false := by
  induction fuel generalizing bi i with
  | zero => omega
  | succ fuel ih =>
    have hget := hc.get h
    unfold blockIterEntries
    rcases Nat.lt_or_ge i slots.length with hlt | hge
    · rw [List.getElem?_eq_getElem hlt,Option.map_some] at hget
      obtain ⟨b1,hnext,hc1,hsame⟩ := blockIterNext_spec h hc
      rw [min_eq_left (show i+1 ≤ slots.length by omega)] at hc1
      obtain ⟨b2,hrest,hend⟩ := ih b1 (i+1) (hsame.slotted h) hc1 hlt (by omega)
      refine ⟨b2,?_,hend⟩
      simp only [hget,hnext,ok_bind,hrest,pure_eq_ok]
      rw [List.drop_eq_getElem_cons hlt,List.map_cons]
    · rw [List.getElem?_eq_none hge,Option.map_none] at hget
      refine ⟨bi,?_,?_⟩
      · rw [hget,List.drop_of_length_le hge,List.map_nil]
      · rw [hc.valid h,decide_eq_false (by omega)]

end BlockIter

/-- The block made of these entries is read back as they were added, by way of the restart points
that the builder recorded. No object has `2^63` bytes. -/
theorem block_round_trip (interval : ℕ) (hinterval : 1 ≤ interval) (es : List Entry)
    (hsmall : ∀ e ∈ es, e.Small) :
    ∃ b, blockBuilderAdds (blockBuilderInit interval) es = .ok b ∧
      (b.restarts.length < 2^32 → (blockBuilderFinish b).2.length < 2^63 → ∀ front tail,
        ∃ B bi first past,
          blockInit front ((blockBuilderFinish b).2++tail) (blockBuilderFinish b).2.length = .ok B ∧
          B.restartOffset = b.buf.length ∧ blockIterInit B = .ok bi ∧
          bi.numRestarts = b.restarts.length ∧
          (∀ j v, b.restarts[j]? = some v → getRestartPoint bi j = .ok v) ∧
          blockIterSeekToFirst bi = .ok first ∧
          blockIterEntries (es.length+1) first = .ok (es,past) ∧ blockIterValid past = false) := by
  obtain ⟨b,hadds,slots,rs,hes,hb⟩ := (Builds.init interval).adds hinterval es hsmall
  rw [List.nil_append] at hes
  refine ⟨b,hadds,fun hcount hsize front tail => ?_⟩
  have hlen := blockBuilderFinish_length b
  obtain ⟨B,bi,hinit,hoffset,hiter,hnum,hslotted,-⟩ := hb.finish front tail hcount (by omega)
  obtain ⟨first,hfirst,hc,hsame⟩ := BlockIter.blockIterSeekToFirst_spec hslotted
  obtain ⟨past,hread,hend⟩ := BlockIter.blockIterEntries_spec (es.length+1) first 0
    (hsame.slotted hslotted) hc (Nat.zero_le _) (by rw [← hes,List.length_map]; omega)
  rw [List.drop_zero,hes] at hread
  refine ⟨B,bi,first,past,hinit,hoffset,hiter,hnum,fun j v hv => ?_,hfirst,hread,hend⟩
  rw [hb.restarts,List.getElem?_map] at hv
  obtain ⟨r,hr,rfl⟩ := Option.map_eq_some_iff.mp hv
  exact hslotted.point bi rfl rfl rfl j r hr

/-- Out of order, one key twice, and a restart before the third entry. -/
theorem block_round_trip_three :
    ∃ b, blockBuilderAdds (blockBuilderInit 2) [⟨[98,99],[1]⟩,⟨[98],[]⟩,⟨[98],[2]⟩] = .ok b ∧
      b.restarts = [0,9] ∧ ∀ front tail, ∃ B bi first past,
        blockInit front ((blockBuilderFinish b).2++tail) (blockBuilderFinish b).2.length = .ok B ∧
        blockIterInit B = .ok bi ∧ blockIterSeekToFirst bi = .ok first ∧
        blockIterEntries 4 first = .ok ([⟨[98,99],[1]⟩,⟨[98],[]⟩,⟨[98],[2]⟩],past) ∧
        blockIterValid past = false := by
  obtain ⟨b,hadds,htrip⟩ := block_round_trip 2 (by decide) [⟨[98,99],[1]⟩,⟨[98],[]⟩,⟨[98],[2]⟩]
    (by decide)
  have hb : blockBuilderAdds (blockBuilderInit 2) [⟨[98,99],[1]⟩,⟨[98],[]⟩,⟨[98],[2]⟩] =
      .ok ⟨2,[0,2,1,98,99,1,1,0,0,0,1,1,98,2],[98],[0,9],false,1⟩ := by decide
  obtain rfl := Except.ok.inj (hadds.symm.trans hb)
  refine ⟨_,hadds,rfl,fun front tail => ?_⟩
  obtain ⟨B,bi,first,past,hinit,-,hiter,-,-,hfirst,hread,hend⟩ :=
    htrip (by decide) (by decide) front tail
  exact ⟨B,bi,first,past,hinit,hiter,hfirst,hread,hend⟩

end Mtbl
