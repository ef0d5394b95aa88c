import Mtbl.Block.Inside

/-! What parsing an entry reads, on arbitrary bytes. It ends where that is in memory, and moves on
unless the header's first varint goes on past its fifth byte: all three lengths then decode from no
bytes to zero. A pointer in front of the block counts as a negative offset. -/
namespace Mtbl
open CRun

theorem headerAt_halts {data : Bytes} {pos : ℕ} (h : Halts (headerAt data pos)) :
    ∃ r, headerAt data pos = .ok r := by
  rcases h with hstop | hok
  · obtain ⟨hfirst,hrest⟩ := halts_bind.mp (.inl hstop : Halts (headerAt data pos))
    obtain ⟨⟨n,s⟩,hn⟩ := mtblVarintDecode32_halts hfirst
    obtain ⟨hsecond,hrest⟩ := halts_bind.mp (hrest _ hn)
    obtain ⟨⟨m,u⟩,hm⟩ := mtblVarintDecode32_halts hsecond
    obtain ⟨hthird,-⟩ := halts_bind.mp (hrest _ hm)
    obtain ⟨⟨l,v⟩,hl⟩ := mtblVarintDecode32_halts hthird
    exact ⟨_,by simp only [headerAt,hn,hm,hl,ok_bind]; rfl⟩
  · exact hok

theorem headerAt_halts_iff {data : Bytes} {pos : ℕ} :
    Halts (headerAt data pos) ↔ ∃ r, headerAt data pos = .ok r := ⟨headerAt_halts,.inr⟩

/-- A header takes a byte at least, unless its first varint goes on past its fifth. -/
theorem headerAt_progress {data : Bytes} {pos : ℕ} {r : ℕ × ℕ × ℕ × ℕ}
    (h : headerAt data pos = .ok r) (hcont : ¬ Continued 5 (data.drop pos)) : pos < r.1 := by
  obtain ⟨⟨n,s⟩,hn,h⟩ := bind_eq_ok.mp h
  obtain ⟨⟨m,u⟩,-,h⟩ := bind_eq_ok.mp h
  obtain ⟨⟨l,v⟩,-,h⟩ := bind_eq_ok.mp h
  obtain rfl := Except.ok.inj h
  have := (mtblVarintDecode32_bounded hcont hn).1
  simp only
  omega

namespace BlockIter
variable {bi bi' : BlockIter} {size p : ℕ}

/-- What is read of the entry at the pointer lies in memory: the header, if there is room for one, and
if this passes the checks and shares no more than it may, the first bytes of its key suffix. -/
def Reads (bi : BlockIter) (p shared most : ℕ) : Prop :=
  (bi.view p).pos+3 ≤ (bi.view p).limit →
    ∃ h, headerAt (bi.view p).mem (bi.view p).pos = .ok h ∧
      (h.1 ≤ (bi.view p).limit → (h.2.2.1+h.2.2.2)%2^32 ≤ (bi.view p).limit-h.1 → h.2.1 ≤ shared →
        Halts (readAt bi (bi.offsetOf p h.1) (min h.2.2.1 most)))

/-- What parsing reads of the next entry lies in memory. -/
def Readable (bi : BlockIter) : Prop := bi.Reads bi.next bi.key.length (2^32)

/-- The iterator is about to parse a header that starts with five continued bytes. -/
def Overlong (bi : BlockIter) : Prop :=
  (bi.view bi.next).pos+3 ≤ (bi.view bi.next).limit ∧
    Continued 5 ((bi.view bi.next).mem.drop (bi.view bi.next).pos)

/-- The offset with a sign, so that one in front of the block is negative. -/
def signed (bi : BlockIter) (p : ℕ) : ℤ := if bi.Wraps p then (p : ℤ)-2^64 else p

/-- The offset of the next entry. -/
def position (bi : BlockIter) : ℤ := bi.signed bi.next

theorem SameBlock.signed (h : bi.SameBlock bi') (p : ℕ) : bi'.signed p = bi.signed p := by
  simp only [BlockIter.signed,h.wraps]

theorem SameBlock.placed (h : bi.SameBlock bi') (hplace : bi.front.address+bi.restarts ≤ 2^63) :
    bi'.front.address+bi'.restarts ≤ 2^63 := by rwa [h.front,h.restarts]

/-- There is memory up to the limit, or none at the pointer. -/
theorem Framed.view_mem (hf : bi.Framed size) (p : ℕ) :
    (bi.view p).limit ≤ (bi.view p).mem.length ∨ (bi.view p).mem = [] := by
  have hlayout := hf.layout
  have hmem := hf.size_le
  unfold BlockIter.view
  by_cases hp : bi.Wraps p
  · rw [if_pos hp]
    unfold fromFront
    split_ifs with hback
    · left
      simp only [List.length_append,List.length_drop]
      omega
    · exact .inr rfl
  · rw [if_neg hp]
    left
    simp only
    omega

/-- What comes after `decode_entry` is reached if the header passes its checks. -/
theorem Framed.decodeAt_halts {α : Type} (hf : bi.Framed size)
    {f : Option (ℕ × ℕ × ℕ × ℕ) → Run α} (hnone : Halts (f none)) :
    Halts (decodeAt bi p >>= f) ↔ ¬ bi.FarPast p ∧ ((bi.view p).pos+3 ≤ (bi.view p).limit →
      ∃ h, headerAt (bi.view p).mem (bi.view p).pos = .ok h ∧
        (h.1 ≤ (bi.view p).limit → (h.2.2.1+h.2.2.2)%2^32 ≤ (bi.view p).limit-h.1 →
          Halts (f (some (bi.offsetOf p h.1,h.2))))) := by
  unfold decodeAt
  by_cases hfar : bi.FarPast p
  · rw [if_pos hfar]
    exact iff_of_false (not_halts_error (by decide)) (fun h => h.1 hfar)
  rw [if_neg hfar]
  by_cases hroom : (bi.view p).pos+3 ≤ (bi.view p).limit
  · rw [decodeEntry_eq hroom (hf.view_mem p)]
    simp only [bind_assoc,hfar,not_false_eq_true,hroom,forall_const,true_and]
    rw [halts_bind,headerAt_halts_iff]
    constructor
    · rintro ⟨⟨h,hh⟩,hrest⟩
      refine ⟨h,hh,fun hle hsum => ?_⟩
      have hlast := hrest h hh
      rwa [check_of hle,ok_bind,check_of (not_lt.mpr hsum),ok_bind] at hlast
    · rintro ⟨h,hh,hrest⟩
      refine ⟨⟨h,hh⟩,fun a ha => ?_⟩
      obtain rfl := Except.ok.inj (hh.symm.trans ha)
      refine (Halts.check _).bind fun _ hle => (Halts.check _).bind fun _ hsum => ?_
      exact hrest (check_eq_ok.mp hle) (not_lt.mp (check_eq_ok.mp hsum))
  · have hnull : decodeEntry (bi.view p).mem (bi.view p).pos (bi.view p).limit = .ok none := by
      rw [decodeEntry,if_pos (by omega)]
      rfl
    rw [hnull]
    exact iff_of_true hnone ⟨hfar,fun h => absurd h hroom⟩

/-- The place of the pointer in the memory it points into is the pointer's. -/
theorem offsetOf_pos (bi : BlockIter) (p : ℕ) : bi.offsetOf p (bi.view p).pos = p := by
  unfold offsetOf BlockIter.view
  by_cases hp : bi.Wraps p
  · rw [if_pos hp,if_pos hp,Nat.add_zero,Nat.mod_eq_of_lt hp.2.1]
  · rw [if_neg hp,if_neg hp]

theorem signed_offsetOf {i : ℕ} (hi : i ≤ (bi.view p).limit) :
    bi.signed (bi.offsetOf p i) = bi.signed p+(i-(bi.view p).pos) := by
  unfold signed offsetOf
  unfold BlockIter.view at hi ⊢
  by_cases hp : bi.Wraps p
  · simp only [if_pos hp] at hi ⊢
    unfold Wraps at hp ⊢
    split_ifs <;> omega
  · simp only [if_neg hp] at hi ⊢
    rw [if_neg (bi.not_wraps hi)]
    omega

/-- Pointers move up, for an object that does not reach into the upper half of the address space. -/
theorem signed_advance {n : ℕ} (hplace : bi.front.address+bi.restarts ≤ 2^63)
    (hp : p ≤ bi.restarts ∨ bi.Wraps p) (hn : n < 2^33) :
    bi.signed (bi.advance p n) = bi.signed p+n := by
  unfold signed advance
  rcases hp with hle | hp
  · rw [if_neg (bi.not_wraps hle),if_neg (bi.not_wraps hle)]
    unfold Wraps
    split_ifs <;> omega
  · rw [if_pos hp,if_pos hp]
    unfold Wraps at hp ⊢
    split_ifs <;> omega

theorem readByte_of_continued {data : Bytes} {n p i : ℕ} (h : Continued n (data.drop p))
    (hi : i < n) : ∃ b, readByte data (p+i) = .ok b ∧ 128 ≤ b := by
  obtain ⟨hlen,hall⟩ := h
  rw [List.length_drop] at hlen
  have hp : p+i < data.length := by omega
  refine ⟨data[p+i].toNat,by rw [readByte,List.getElem?_eq_getElem hp],hall _ ?_⟩
  apply List.mem_of_getElem? (i := i)
  rw [List.getElem?_take_of_lt hi,List.getElem?_drop,List.getElem?_eq_getElem hp]

theorem Overlong.not_farPast (h : bi.Overlong) : ¬ bi.FarPast bi.next := by
  rintro ⟨hpast,hwraps,-⟩
  have hroom := h.1
  rw [BlockIter.view,if_neg hwraps] at hroom
  simp only at hroom
  omega

/-- Such a header is decoded from no bytes: the two checks pass on three zeros. -/
theorem Overlong.decode (h : bi.Overlong) : decodeAt bi bi.next = .ok (some (bi.next,0,0,0)) := by
  obtain ⟨hroom,hcont⟩ := h
  have hentry : decodeEntry (bi.view bi.next).mem (bi.view bi.next).pos (bi.view bi.next).limit =
      .ok (some ((bi.view bi.next).pos,0,0,0)) := by
    generalize bi.view bi.next = v at hroom hcont
    obtain ⟨a,ha,hge⟩ := readByte_of_continued hcont (show 0 < 5 by omega)
    obtain ⟨b,hb,-⟩ := readByte_of_continued hcont (show 1 < 5 by omega)
    obtain ⟨c,hc,-⟩ := readByte_of_continued hcont (show 2 < 5 by omega)
    have hor : ¬ (a ||| b ||| c) < 128 :=
      not_lt.mpr (hge.trans (Nat.left_le_or.trans Nat.left_le_or))
    rw [Nat.add_zero] at ha
    unfold decodeEntry
    rw [if_neg (by omega),ha,ok_bind,hb,ok_bind,hc,ok_bind,if_neg hor]
    simp only [mtblVarintDecode32_continued hcont,ok_bind,Nat.add_zero]
    rw [check_of (by omega),ok_bind,check_of (by simp),ok_bind]
    rfl
  rw [decodeAt,if_neg (Overlong.not_farPast ⟨hroom,hcont⟩),hentry,ok_bind,Option.map_some,
    bi.offsetOf_pos]
  rfl

theorem not_past (h : (bi.view bi.next).pos < (bi.view bi.next).limit) :
    ¬ (bi.restarts ≤ bi.next ∧ ¬ bi.Wraps bi.next) := by
  rintro ⟨hle,hwraps⟩
  rw [BlockIter.view,if_neg hwraps] at h
  exact absurd hle (not_le.mpr h)

/-- Parsing it succeeds and stays where it is. -/
theorem Overlong.parse (hf : bi.Framed size) (h : bi.Overlong) :
    ∃ bi', parseNextKey bi = .ok (bi',true) ∧ bi'.next = bi.next ∧ bi'.key = [] ∧
      bi.SameBlock bi' := by
  have hroom := h.1
  have hslice : readAt bi bi.next 0 = .ok [] := by
    have hlen := h.2.1
    rw [List.length_drop] at hlen
    rw [readAt,readSlice,if_pos (by omega),List.take_zero]
  have hadvance : bi.advance bi.next 0 = bi.next := by
    unfold advance
    split_ifs with hwraps
    · rw [Nat.add_zero,Nat.mod_eq_of_lt hwraps.2.1]
    · rfl
  obtain ⟨j,hskip⟩ := Framed.skipRestarts (bi.numRestarts+1)
    { bi with current := bi.next, key := [], next := bi.next, val := bi.next, valLen := 0 }
    ⟨hf.layout,hf.size_le,hf.count_pos,hf.count_lt⟩ (by simp only; omega)
  refine ⟨{ bi with current := bi.next, key := [], next := bi.next, val := bi.next, valLen := 0,
                    restartIndex := j },?_,rfl,rfl,rfl,rfl,rfl,rfl⟩
  unfold parseNextKey
  rw [if_neg (not_past (by omega)),h.decode]
  simp only [ok_bind,Nat.not_lt_zero,not_false_eq_true,check_true,hslice,List.take_zero,
    List.append_nil,Nat.add_zero,hadvance,hskip]
  rfl

theorem Parsed.progress (h : bi.Parsed bi') (hplace : bi.front.address+bi.restarts ≤ 2^63)
    (hover : ¬ bi.Overlong) : bi.position < bi'.position := by
  obtain ⟨r,hdec,-,-,hnext,-⟩ := h.decoded
  obtain ⟨r',rfl,hentry⟩ := decodeAt_eq_some hdec
  obtain ⟨hroom,hhead,hle,-⟩ := decodeEntry_eq_some hentry
  have hmoves := headerAt_progress hhead (fun hc => hover ⟨hroom,hc⟩)
  obtain ⟨hsuffix,hvalue⟩ := headerAt_lengths hhead
  have hplaced : bi.offsetOf bi.next r'.1 ≤ bi.restarts ∨ bi.Wraps (bi.offsetOf bi.next r'.1) := by
    by_cases hback : bi.Wraps (bi.offsetOf bi.next r'.1)
    · exact .inr hback
    · have := bi.offsetOf_le hle hback
      omega
  have hend := signed_advance hplace hplaced (show r'.2.2.1+r'.2.2.2 < 2^33 by omega)
  rw [signed_offsetOf hle,← hnext] at hend
  rw [position,position,h.sameBlock.signed,hend]
  omega

/-- A successful parse moves on exactly if the header is not such a one. -/
theorem Framed.progress_iff (hf : bi.Framed size) (hplace : bi.front.address+bi.restarts ≤ 2^63) :
    (∀ bi', parseNextKey bi = .ok (bi',true) → bi.position < bi'.position) ↔ ¬ bi.Overlong := by
  constructor
  · intro h hover
    obtain ⟨bi',hparse,hnext,-,hsame⟩ := hover.parse hf
    have hlt := h bi' hparse
    rw [position,position,hnext,hsame.signed] at hlt
    exact lt_irrefl _ hlt
  · intro hover bi' hparse
    rcases parseNextKey_eq_ok hparse with ⟨hmore,-⟩ | ⟨-,hparsed⟩
    · cases hmore
    · exact hparsed.progress hplace hover

theorem view_past (h : bi.restarts ≤ p ∧ ¬ bi.Wraps p) :
    ¬ (bi.view p).pos+3 ≤ (bi.view p).limit := by
  rw [BlockIter.view,if_neg h.2]
  simp only
  omega

theorem not_farPast (h : ¬ (bi.restarts ≤ p ∧ ¬ bi.Wraps p)) : ¬ bi.FarPast p :=
  fun hfar => h ⟨hfar.1.le,hfar.2.1⟩

/-- Parsing ends exactly if what it reads is in memory. -/
theorem Framed.parse_halts (hf : bi.Framed size) : Halts (parseNextKey bi) ↔ bi.Readable := by
  unfold parseNextKey Readable Reads
  by_cases hend : bi.restarts ≤ bi.next ∧ ¬ bi.Wraps bi.next
  · rw [if_pos hend]
    exact iff_of_true (.ok _) (fun hroom => absurd hroom (view_past hend))
  rw [if_neg hend,hf.decodeAt_halts .assertion]
  simp only [not_farPast hend,not_false_eq_true,true_and]
  refine forall_congr' fun _ => exists_congr fun h => and_congr_right fun hhead => ?_
  have hmin : min h.2.2.1 (2^32) = h.2.2.1 := min_eq_left (headerAt_lengths hhead).1.le
  rw [hmin]
  refine forall_congr' fun _ => forall_congr' fun _ => ?_
  rw [halts_bind]
  simp only [Halts.check,check_eq_ok,true_and,not_lt]
  refine ⟨fun hrest hshared => (halts_bind.mp (hrest () hshared)).1,fun hread _ hshared => ?_⟩
  refine (hread hshared).bind fun suffix _ => ?_
  obtain ⟨j,hskip⟩ := Framed.skipRestarts (bi.numRestarts+1)
    { bi with current := bi.next, key := bi.key.take h.2.1++suffix,
              next := bi.advance (bi.offsetOf bi.next h.1) (h.2.2.1+h.2.2.2),
              val := bi.advance (bi.offsetOf bi.next h.1) h.2.2.1, valLen := h.2.2.2 }
    ⟨hf.layout,hf.size_le,hf.count_pos,hf.count_lt⟩ (by simp only; omega)
  rw [hskip]
  exact .ok _

end BlockIter

end Mtbl
