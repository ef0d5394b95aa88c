import Mtbl.Block.Accepted
import Mtbl.Block.Calls

/-! Whether decoded entries lie inside the block. `decode_entry` compares the room in front of the
restart array with the sum of two `uint32_t` lengths, which is taken modulo 2^32; and a 64-bit restart
point may lead to memory in front of the block. -/
namespace Mtbl
open CRun

theorem skipRestarts_eq_ok {fuel : ℕ} {bi bi' : BlockIter} (h : skipRestarts fuel bi = .ok bi') :
    ∃ j, bi' = { bi with restartIndex := j } := by
  induction fuel generalizing bi with
  | zero => cases h
  | succ fuel ih =>
    unfold skipRestarts at h
    simp only at h
    split_ifs at h with hnext
    · obtain ⟨point,-,h⟩ := bind_eq_ok.mp h
      split_ifs at h with hbefore
      · obtain ⟨j,rfl⟩ := ih h
        exact ⟨j,rfl⟩
      · obtain rfl := Except.ok.inj h
        exact ⟨bi.restartIndex,rfl⟩
    · obtain rfl := Except.ok.inj h
      exact ⟨bi.restartIndex,rfl⟩

/-- The iterator after the entry that was decoded at `next`. -/
structure BlockIter.Parsed (bi bi' : BlockIter) : Prop where
  sameBlock : bi.SameBlock bi'
  current : bi'.current = bi.next
  room : bi.next < bi.restarts ∨ bi.Wraps bi.next
  decoded : ∃ r, decodeAt bi bi.next = .ok (some r) ∧
    bi'.val = bi.advance r.1 r.2.2.1 ∧ bi'.valLen = r.2.2.2 ∧
    bi'.next = bi.advance r.1 (r.2.2.1+r.2.2.2) ∧
    ∃ suffix, readAt bi r.1 r.2.2.1 = .ok suffix ∧ bi'.key = bi.key.take r.2.1++suffix

/-- Parsing decodes the next entry or invalidates the iterator. -/
theorem parseNextKey_eq_ok {bi bi' : BlockIter} {more : Bool}
    (h : parseNextKey bi = .ok (bi',more)) :
    (more = false ∧ bi' = bi.invalidate) ∨ (more = true ∧ bi.Parsed bi') := by
  unfold parseNextKey at h
  by_cases hend : bi.restarts ≤ bi.next ∧ ¬ bi.Wraps bi.next
  · rw [if_pos hend] at h
    obtain ⟨rfl,rfl⟩ := Prod.mk.inj (Except.ok.inj h)
    exact .inl ⟨rfl,rfl⟩
  rw [if_neg hend] at h
  obtain ⟨r,hdec,h⟩ := bind_eq_ok.mp h
  cases r with
  | none => cases h
  | some r =>
    obtain ⟨p,shared,nonShared,valueLength⟩ := r
    obtain ⟨_,-,h⟩ := bind_eq_ok.mp h
    obtain ⟨suffix,hsuffix,h⟩ := bind_eq_ok.mp h
    obtain ⟨bi1,hskip,h⟩ := bind_eq_ok.mp h
    obtain ⟨rfl,rfl⟩ := Prod.mk.inj (Except.ok.inj h)
    obtain ⟨j,rfl⟩ := skipRestarts_eq_ok hskip
    have hroom : bi.next < bi.restarts ∨ bi.Wraps bi.next := by
      rwa [not_and_or,not_le,not_not] at hend
    exact .inr ⟨rfl,⟨rfl,rfl,rfl,rfl⟩,rfl,hroom,_,hdec,rfl,rfl,rfl,suffix,hsuffix,rfl⟩

/-! ### One entry -/

theorem mtblVarintDecode32_lt {data : Bytes} {n v : ℕ} (h : mtblVarintDecode32 data = .ok (n,v)) :
    v < 2^32 := by
  obtain ⟨r,-,hr⟩ := bind_eq_ok.mp h
  obtain ⟨-,rfl⟩ := Prod.mk.inj (Except.ok.inj hr)
  exact Nat.mod_lt _ (by norm_num)

theorem headerAt_lengths {data : Bytes} {pos : ℕ} {r : ℕ × ℕ × ℕ × ℕ}
    (h : headerAt data pos = .ok r) : r.2.2.1 < 2^32 ∧ r.2.2.2 < 2^32 := by
  obtain ⟨⟨n,s⟩,-,h⟩ := bind_eq_ok.mp h
  obtain ⟨⟨m,u⟩,hu,h⟩ := bind_eq_ok.mp h
  obtain ⟨⟨l,v⟩,hv,h⟩ := bind_eq_ok.mp h
  obtain rfl := Except.ok.inj h
  exact ⟨mtblVarintDecode32_lt hu,mtblVarintDecode32_lt hv⟩

theorem decodeAt_eq_some {bi : BlockIter} {p : ℕ} {r : ℕ × ℕ × ℕ × ℕ}
    (h : decodeAt bi p = .ok (some r)) : ∃ r', r = (bi.offsetOf p r'.1,r'.2) ∧
      decodeEntry (bi.view p).mem (bi.view p).pos (bi.view p).limit = .ok (some r') := by
  unfold decodeAt at h
  split_ifs at h
  obtain ⟨o,hdec,h⟩ := bind_eq_ok.mp h
  cases o with
  | none => cases h
  | some r' => exact ⟨r',(Option.some.inj (Except.ok.inj h)).symm,hdec⟩

/-- The header at the pointer does not end in front of the block, and the lengths of key suffix and
value that it spells sum to less than 2^32. -/
def BlockIter.HeaderFits (bi : BlockIter) (p : ℕ) : Prop :=
  ∀ h, headerAt (bi.view p).mem (bi.view p).pos = .ok h →
    ¬ bi.Wraps (bi.offsetOf p h.1) ∧ h.2.2.1+h.2.2.2 < 2^32

/-- Key suffix and value lie between the first byte of the block and its restart array. -/
def BlockIter.Inside (bi : BlockIter) (r : ℕ × ℕ × ℕ × ℕ) : Prop :=
  ¬ bi.Wraps r.1 ∧ r.1+r.2.2.1+r.2.2.2 ≤ bi.restarts

section
variable {bi : BlockIter} {p : ℕ} {r : ℕ × ℕ × ℕ × ℕ}

/-- A header ends in front of the block or at most as far behind its start as the limit allows. -/
theorem BlockIter.offsetOf_le {i : ℕ} (hi : i ≤ (bi.view p).limit)
    (hback : ¬ bi.Wraps (bi.offsetOf p i)) :
    bi.offsetOf p i+((bi.view p).limit-i) = bi.restarts := by
  unfold BlockIter.view at hi ⊢
  unfold BlockIter.offsetOf at hback ⊢
  by_cases hp : bi.Wraps p
  · simp only [if_pos hp] at hi hback ⊢
    unfold BlockIter.Wraps at hp hback
    omega
  · simp only [if_neg hp] at hi ⊢
    omega

theorem decodeAt_inside (h : decodeAt bi p = .ok (some r)) (hfits : bi.HeaderFits p) :
    bi.Inside r := by
  obtain ⟨r',rfl,hdec⟩ := decodeAt_eq_some h
  obtain ⟨-,hhead,hle,hsum⟩ := decodeEntry_eq_some hdec
  obtain ⟨hback,hlengths⟩ := hfits r' hhead
  have hroom := bi.offsetOf_le hle hback
  rw [Nat.mod_eq_of_lt hlengths] at hsum
  exact ⟨hback,by simp only; omega⟩

/-- In a region of less than 4 GiB no other entry lies inside. -/
theorem decodeAt_fits (h : decodeAt bi p = .ok (some r)) (hsmall : bi.restarts < 2^32)
    (hin : bi.Inside r) : bi.HeaderFits p := by
  obtain ⟨r',rfl,hdec⟩ := decodeAt_eq_some h
  obtain ⟨-,hhead,-,-⟩ := decodeEntry_eq_some hdec
  obtain ⟨hback,hle⟩ := hin
  intro h' hh'
  obtain rfl := Except.ok.inj (hhead.symm.trans hh')
  simp only at hle
  exact ⟨hback,by omega⟩

end

/-! ### Runs of the iterator -/

theorem blockIterInit_eq_ok {B : Block} {bi : BlockIter} (h : blockIterInit B = .ok bi) :
    ∃ n, bi = ⟨B.data,B.restartOffset,n,B.restartOffset,n,0,[],0,0,B.front⟩ := by
  obtain ⟨_,-,h⟩ := bind_eq_ok.mp h
  obtain ⟨n,-,h⟩ := bind_eq_ok.mp h
  obtain ⟨_,-,h⟩ := bind_eq_ok.mp h
  exact ⟨n,(Except.ok.inj h).symm⟩

/-- A valid iterator stands on an entry that was decoded at `current`. -/
def BlockIter.OnDecoded (bi : BlockIter) : Prop :=
  blockIterValid bi = true → ∃ r, decodeAt bi bi.current = .ok (some r) ∧
    bi.val = bi.advance r.1 r.2.2.1 ∧ bi.valLen = r.2.2.2

theorem blockIterInit_onDecoded {B : Block} {bi : BlockIter} (h : blockIterInit B = .ok bi) :
    bi.OnDecoded := by
  obtain ⟨n,rfl⟩ := blockIterInit_eq_ok h
  exact fun hvalid => by simp [blockIterValid] at hvalid

/-- The iterator reads the same block, and if it is valid stands on a decoded entry. -/
structure BlockIter.Moved (bi bi' : BlockIter) : Prop where
  sameBlock : bi.SameBlock bi'
  decoded : bi'.OnDecoded

namespace BlockIter
variable {bi bi' b : BlockIter} {fuel : ℕ}

theorem Moved.invalidate (bi : BlockIter) : bi.Moved bi.invalidate :=
  ⟨⟨rfl,rfl,rfl,rfl⟩,fun h => by simp [blockIterValid,BlockIter.invalidate] at h⟩

theorem Moved.after (h : bi.SameBlock b) (h' : b.Moved bi') : bi.Moved bi' :=
  ⟨h.trans h'.sameBlock,h'.decoded⟩

theorem Parsed.moved (h : bi.Parsed bi') : bi.Moved bi' := by
  refine ⟨h.sameBlock,fun _ => ?_⟩
  obtain ⟨r,hdec,hval,hlen,-⟩ := h.decoded
  rw [h.sameBlock.decodeAt,h.current]
  exact ⟨r,hdec,by rw [h.sameBlock.advance,hval],hlen⟩

theorem Moved.parse {more : Bool} (h : parseNextKey bi = .ok (bi',more)) : bi.Moved bi' := by
  rcases parseNextKey_eq_ok h with ⟨-,rfl⟩ | ⟨-,hparsed⟩
  · exact .invalidate bi
  · exact hparsed.moved

theorem seekToRestartPoint_sameBlock {idx : ℕ} (h : seekToRestartPoint bi idx = .ok bi') :
    bi.SameBlock bi' := by
  obtain ⟨offset,-,h⟩ := bind_eq_ok.mp h
  obtain rfl := Except.ok.inj h
  exact ⟨rfl,rfl,rfl,rfl⟩

theorem Moved.parseWhileBelow {bound : ℕ} (h : parseWhileBelow bound fuel bi = .ok bi') :
    bi.Moved bi' := by
  induction fuel generalizing bi with
  | zero => cases h
  | succ fuel ih =>
    obtain ⟨⟨b,more⟩,hparse,h⟩ := bind_eq_ok.mp h
    have hb := Moved.parse hparse
    simp only at h
    split_ifs at h with hmore
    · exact (ih h).after hb.sameBlock
    · obtain rfl := Except.ok.inj h
      exact hb

theorem Moved.linearSearch {target : Bytes} (h : linearSearch target fuel bi = .ok bi') :
    bi.Moved bi' := by
  induction fuel generalizing bi with
  | zero => cases h
  | succ fuel ih =>
    obtain ⟨⟨b,more⟩,hparse,h⟩ := bind_eq_ok.mp h
    have hb := Moved.parse hparse
    simp only at h
    split_ifs at h with hmore hcmp
    · obtain rfl := Except.ok.inj h
      exact hb
    · obtain rfl := Except.ok.inj h
      exact hb
    · exact (ih h).after hb.sameBlock

theorem prevRestart_sameBlock {original : ℕ} {o : Option BlockIter}
    (h : prevRestart original fuel bi = .ok o) : ∀ b, o = some b → bi.SameBlock b := by
  induction fuel generalizing bi with
  | zero => cases h
  | succ fuel ih =>
    obtain ⟨point,-,h⟩ := bind_eq_ok.mp h
    split_ifs at h with hat hfirst
    · obtain rfl := Except.ok.inj h
      intro b hb
      cases hb
    · intro b hb
      exact (show bi.SameBlock { bi with restartIndex := bi.restartIndex-1 } from
        ⟨rfl,rfl,rfl,rfl⟩).trans (ih h b hb)
    · obtain rfl := Except.ok.inj h
      intro b hb
      obtain rfl := Option.some.inj hb
      exact .refl bi

theorem Moved.seek {target : Bytes} {restartFuel : ℕ} (hbi : bi.OnDecoded)
    (h : blockIterSeekWithin restartFuel fuel bi target = .ok bi') : bi.Moved bi' := by
  obtain ⟨left,-,h⟩ := bind_eq_ok.mp h
  obtain ⟨o,hfrom,h⟩ := bind_eq_ok.mp h
  unfold seekFrom at hfrom
  simp only at hfrom
  split_ifs at hfrom with heq hlt
  · obtain rfl := Except.ok.inj hfrom
    obtain rfl := Except.ok.inj h
    exact ⟨.refl bi,hbi⟩
  · obtain rfl := Except.ok.inj hfrom
    exact .linearSearch h
  · obtain ⟨b,hseek,hb⟩ := bind_eq_ok.mp hfrom
    obtain rfl := Except.ok.inj hb
    exact (Moved.linearSearch h).after (seekToRestartPoint_sameBlock hseek)

theorem Moved.prev (h : blockIterPrev bi = .ok bi') : bi.Moved bi' := by
  obtain ⟨_,-,h⟩ := bind_eq_ok.mp h
  obtain ⟨o,hprev,h⟩ := bind_eq_ok.mp h
  cases o with
  | none =>
    obtain rfl := Except.ok.inj h
    exact .invalidate bi
  | some b =>
    obtain ⟨b1,hseek,h⟩ := bind_eq_ok.mp h
    exact (Moved.parseWhileBelow h).after
      ((prevRestart_sameBlock hprev b rfl).trans (seekToRestartPoint_sameBlock hseek))

/-- Every call leaves the iterator on a decoded entry, or invalid. -/
theorem Moved.call (hbi : bi.OnDecoded) {c : BlockCall} (h : blockIterCall bi c = .ok bi') :
    bi.Moved bi' := by
  cases c with
  | seekToFirst =>
    obtain ⟨b,hseek,h⟩ := bind_eq_ok.mp h
    obtain ⟨⟨b1,more⟩,hparse,h⟩ := bind_eq_ok.mp h
    obtain rfl := Except.ok.inj h
    exact (Moved.parse hparse).after (seekToRestartPoint_sameBlock hseek)
  | seekToLast =>
    obtain ⟨b,hseek,h⟩ := bind_eq_ok.mp h
    exact (Moved.parseWhileBelow h).after (seekToRestartPoint_sameBlock hseek)
  | seek target => exact .seek hbi h
  | next =>
    obtain ⟨⟨b,more⟩,hnext,h⟩ := bind_eq_ok.mp h
    obtain rfl := Except.ok.inj h
    unfold blockIterNext at hnext
    split_ifs at hnext with hvalid
    · obtain ⟨rfl,-⟩ := Prod.mk.inj (Except.ok.inj hnext)
      exact ⟨.refl _,hbi⟩
    · obtain ⟨⟨b1,more'⟩,hparse,hnext⟩ := bind_eq_ok.mp hnext
      obtain ⟨rfl,-⟩ := Prod.mk.inj (Except.ok.inj hnext)
      exact .parse hparse
  | prev => exact .prev h

end BlockIter

/-- The iterator after a sequence of calls. -/
def blockIterRun (bi : BlockIter) : List BlockCall → Run BlockIter
  | [] => .ok bi
  | c::cs => do
    let bi ← blockIterCall bi c
    blockIterRun bi cs

theorem blockIterRun_moved {bi bi' : BlockIter} (hbi : bi.OnDecoded) {cs : List BlockCall}
    (h : blockIterRun bi cs = .ok bi') : bi.Moved bi' := by
  induction cs generalizing bi with
  | nil =>
    obtain rfl := Except.ok.inj h
    exact ⟨.refl bi,hbi⟩
  | cons c cs ih =>
    obtain ⟨b,hcall,h⟩ := bind_eq_ok.mp h
    have hb := BlockIter.Moved.call hbi hcall
    exact (ih hb.decoded h).after hb.sameBlock

/-- An entry that `decode_entry` lets through, at any pointer, lies inside the block if its header fits,
and in a region of less than 4 GiB only then; and so does the value that an iterator hands out after any
calls. -/
theorem decoded_entries_inside {B : Block} {bi : BlockIter} (hiter : blockIterInit B = .ok bi) :
    (∀ p r, decodeAt bi p = .ok (some r) →
      (bi.HeaderFits p → bi.Inside r) ∧ (bi.restarts < 2^32 → bi.Inside r → bi.HeaderFits p)) ∧
    ∀ cs bi', blockIterRun bi cs = .ok bi' → blockIterValid bi' = true →
      (bi.HeaderFits bi'.current → bi'.val+bi'.valLen ≤ bi.restarts) ∧
      (bi.restarts < 2^32 → bi'.val+bi'.valLen ≤ bi.restarts → bi.HeaderFits bi'.current) := by
  refine ⟨fun p r h => ⟨decodeAt_inside h,decodeAt_fits h⟩,fun cs bi' hrun hvalid => ?_⟩
  obtain ⟨hsame,hdecoded⟩ := blockIterRun_moved (blockIterInit_onDecoded hiter) hrun
  obtain ⟨r,hdec,hval,hlen⟩ := hdecoded hvalid
  have hcurrent : bi'.current ≤ bi.restarts := by
    rw [← hsame.restarts]
    exact (of_decide_eq_true hvalid).le
  rw [hsame.decodeAt] at hdec
  have hr : r.1 ≤ bi.restarts := by
    rw [decodeAt_of_le hcurrent] at hdec
    exact (decodeEntry_eq_some hdec).2.2.1
  rw [hsame.advance,bi.advance_of_le hr] at hval
  rw [hval,hlen]
  exact ⟨fun hfits => (decodeAt_inside hdec hfits).2,
    fun hsmall hle => decodeAt_fits hdec hsmall ⟨bi.not_wraps hr,hle⟩⟩

/-- One entry, key `a` and value 1, and the restart array behind it. -/
def oneEntryBlock : Bytes := [0,1,1,97,1,0,0,0,0,1,0,0,0]

theorem decoded_entries_inside_one : ∃ bi,
    blockInit ⟨4096,[0,0]⟩ oneEntryBlock 13 = .ok ⟨oneEntryBlock,13,5,⟨4096,[0,0]⟩⟩ ∧
    blockIterInit ⟨oneEntryBlock,13,5,⟨4096,[0,0]⟩⟩ = .ok bi ∧
    (∀ p r, decodeAt bi p = .ok (some r) → (bi.Inside r ↔ bi.HeaderFits p)) ∧
    ∀ cs bi', blockIterRun bi cs = .ok bi' → blockIterValid bi' = true →
      (bi'.val+bi'.valLen ≤ 5 ↔ bi.HeaderFits bi'.current) := by
  have hiter : blockIterInit ⟨oneEntryBlock,13,5,⟨4096,[0,0]⟩⟩ =
      .ok ⟨oneEntryBlock,5,1,5,1,0,[],0,0,⟨4096,[0,0]⟩⟩ := by decide
  obtain ⟨hdecode,hrun⟩ := decoded_entries_inside hiter
  refine ⟨_,by decide,hiter,fun p r h => ?_,fun cs bi' h hvalid => ?_⟩
  · exact ⟨(hdecode p r h).2 (by decide),(hdecode p r h).1⟩
  · exact ⟨(hrun cs bi' h hvalid).2 (by decide),(hrun cs bi' h hvalid).1⟩

/-- A key suffix of 2^32-1 bytes and a value of one byte, in an entry region of seven bytes. -/
def wrappingBlock : Bytes := [0,255,255,255,255,15,1,0,0,0,0,1,0,0,0]

/-- The sum of the two lengths is 0 in 32 bits. The block is accepted, the first restart point is
this entry, and `decode_entry` returns it. -/
theorem decoded_entries_inside_fails :
    ∃ bi bi', blockInit ⟨4096,[]⟩ wrappingBlock 15 = .ok ⟨wrappingBlock,15,7,⟨4096,[]⟩⟩ ∧
      blockIterInit ⟨wrappingBlock,15,7,⟨4096,[]⟩⟩ = .ok bi ∧ seekToRestartPoint bi 0 = .ok bi' ∧
      ¬ ∀ r, decodeAt bi' bi'.next = .ok (some r) → r.1+r.2.2.1+r.2.2.2 ≤ bi'.restarts := by
  refine ⟨⟨wrappingBlock,7,1,7,1,0,[],0,0,⟨4096,[]⟩⟩,⟨wrappingBlock,7,1,7,0,0,[],0,0,⟨4096,[]⟩⟩,
    by decide,by decide,by decide,fun h => ?_⟩
  have hdec : decodeAt ⟨wrappingBlock,7,1,7,0,0,[],0,0,⟨4096,[]⟩⟩ 0 = .ok (some (7,0,2^32-1,1)) := by
    decide
  exact absurd (h _ hdec) (by decide)

end Mtbl
