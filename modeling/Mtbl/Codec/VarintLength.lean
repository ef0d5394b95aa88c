import Mtbl.Codec.Varint

/-! How many bytes a varint takes, from its value and from its bytes. `mtbl_varint_length_packed` scans
as far as its caller allows, `_varint_decode` as far as the width of its result. -/
namespace Mtbl
open CRun

/-- The loop of `mtbl_varint_length`. A 64-bit value leaves it after at most nine rounds. -/
def varintLengthLoop : ℕ → ℕ → ℕ → ℕ
  | 0,_,len => len
  | fuel+1,v,len => if 128 ≤ v then varintLengthLoop fuel (v >>> 7) (len+1) else len

def mtblVarintLength (v : ℕ) : ℕ := varintLengthLoop 10 (v%2^64) 1

/-- The loop of `mtbl_varint_length_packed`, with `len` bytes left to look at. The index is an
`unsigned`. -/
def lengthPackedLoop (data : Bytes) : ℕ → ℕ → Run ℕ
  | 0,i => .ok i
  | len+1,i =>
    match data[i]? with
    | none => .error .outOfBounds
    | some b =>
      if b.toNat &&& 0x80 = 0 then .ok i
      else lengthPackedLoop data len ((i+1)%2^32)

def mtblVarintLengthPacked (data : Bytes) (lenData : ℕ) : Run ℕ := do
  let i ← lengthPackedLoop data lenData 0
  return if i = lenData then 0 else (i+1)%2^32

/-- The first byte that promises no other. -/
def lastByte (data : Bytes) : ℕ := data.findIdx (fun b => decide (b.toNat < 128))

theorem lastByte_cons_lt {b : UInt8} (h : b.toNat < 128) (data : Bytes) : lastByte (b::data) = 0 := by
  simp [lastByte,List.findIdx_cons,h]

theorem lastByte_cons_ge {b : UInt8} (h : 128 ≤ b.toNat) (data : Bytes) :
    lastByte (b::data) = lastByte data+1 := by
  simp [lastByte,List.findIdx_cons,Nat.not_lt.mpr h]

theorem lastByte_le (data : Bytes) : lastByte data ≤ data.length := List.findIdx_le_length

theorem lastByte_ge_iff {n : ℕ} {data : Bytes} (hn : n ≤ data.length) :
    n ≤ lastByte data ↔ Continued n data := by
  induction n generalizing data with
  | zero => simp [Continued]
  | succ n ih =>
    cases data with
    | nil => cases hn
    | cons b data =>
      rw [continued_cons]
      rcases Nat.lt_or_ge b.toNat 128 with hb | hb
      · rw [lastByte_cons_lt hb]
        constructor
        · intro h
          cases h
        · intro h
          exact absurd h.1 (not_le.mpr hb)
      · rw [lastByte_cons_ge hb,Nat.add_le_add_iff_right,ih (Nat.le_of_succ_le_succ hn)]
        exact ⟨fun h => ⟨hb,h⟩,fun h => h.2⟩

/-! ### The scanner -/

/-- The scanner looks at `len` bytes from `i` on. -/
theorem lengthPackedLoop_eq (data : Bytes) {len i : ℕ}
    (hi : i+min len (lastByte (data.drop i)) < 2^32)
    (hlen : len ≤ (data.drop i).length ∨ lastByte (data.drop i) < (data.drop i).length) :
    lengthPackedLoop data len i = .ok (i+min len (lastByte (data.drop i))) := by
  induction len generalizing i with
  | zero => rw [lengthPackedLoop,Nat.zero_min,Nat.add_zero]
  | succ len ih =>
    have hlt : i < data.length := by
      by_contra hge
      rw [List.drop_eq_nil_of_le (not_lt.mp hge)] at hlen
      simp at hlen
    have hdrop := List.drop_eq_getElem_cons hlt
    rw [lengthPackedLoop,List.getElem?_eq_getElem hlt]
    rcases Nat.lt_or_ge data[i].toNat 128 with hb | hb
    · rw [hdrop,lastByte_cons_lt hb,Nat.min_zero]
      exact if_pos (cont_clear _ hb)
    · rw [hdrop,lastByte_cons_ge hb] at hi hlen ⊢
      rw [List.length_cons] at hlen
      simp only [if_neg (cont_set _ hb)]
      rw [Nat.mod_eq_of_lt (by omega),ih (by omega) (by omega)]
      congr 1
      omega

theorem mtblVarintLengthPacked_eq {data : Bytes} {n : ℕ} (hlast : lastByte data+1 < 2^32)
    (hn : n ≤ data.length ∨ lastByte data < data.length) :
    mtblVarintLengthPacked data n = .ok (if n ≤ lastByte data then 0 else lastByte data+1) := by
  have hloop := @lengthPackedLoop_eq data n 0 (by rw [List.drop_zero]; omega) hn
  rw [List.drop_zero,Nat.zero_add] at hloop
  rw [mtblVarintLengthPacked,hloop,ok_bind,pure_eq_ok]
  rcases Nat.lt_or_ge (lastByte data) n with h | h
  · rw [Nat.min_eq_right h.le,if_neg h.ne,if_neg (not_le.mpr h),Nat.mod_eq_of_lt hlast]
  · rw [Nat.min_eq_left h,if_pos rfl,if_pos h]

/-! ### Encodings -/

theorem lastByte_encode (fuel v : ℕ) (hv : v < 128^(fuel+1)) (rest : Bytes) :
    lastByte (varintEncodeLoop (fuel+1) v++rest)+1 = (varintEncodeLoop (fuel+1) v).length := by
  induction fuel generalizing v with
  | zero =>
    have h : v < 128 := by simpa using hv
    have hb : (UInt8.ofNat v).toNat < 128 := by rw [UInt8.toNat_ofNat']; omega
    rw [varintEncodeLoop_lt h]
    exact congrArg (·+1) (lastByte_cons_lt hb _)
  | succ fuel ih =>
    rcases Nat.lt_or_ge v 128 with h | h
    · have hb : (UInt8.ofNat v).toNat < 128 := by rw [UInt8.toNat_ofNat']; omega
      rw [varintEncodeLoop_lt h]
      exact congrArg (·+1) (lastByte_cons_lt hb _)
    · have hb : 128 ≤ (UInt8.ofNat (v%128+128)).toNat := by rw [UInt8.toNat_ofNat']; omega
      rw [varintEncodeLoop_ge h,List.cons_append,lastByte_cons_ge hb,List.length_cons,
        ih (v/128) (by rw [pow_succ] at hv; omega)]

theorem varintLengthLoop_eq (fuel v len : ℕ) (hv : v < 128^(fuel+1)) :
    varintLengthLoop (fuel+1) v (len+1) = len+(varintEncodeLoop (fuel+1) v).length := by
  induction fuel generalizing v len with
  | zero =>
    have h : v < 128 := by simpa using hv
    rw [varintLengthLoop,if_neg (not_le.mpr h),varintEncodeLoop_lt h,List.length_singleton]
  | succ fuel ih =>
    rw [varintLengthLoop]
    rcases Nat.lt_or_ge v 128 with h | h
    · rw [if_neg (not_le.mpr h),varintEncodeLoop_lt h,List.length_singleton]
    · rw [if_pos h,shiftRight_seven,ih (v/128) (len+1) (by rw [pow_succ] at hv; omega),
        varintEncodeLoop_ge h,List.length_cons]
      omega

theorem mtblVarintLength_eq {v : ℕ} (hv : v < 2^64) :
    mtblVarintLength v = (mtblVarintEncode64 v).length := by
  rw [mtblVarintLength,mtblVarintEncode64,Nat.mod_eq_of_lt hv,
    varintLengthLoop_eq 9 v 0 (hv.trans (by norm_num)),Nat.zero_add]

/-- A value of 32 bits has left the loop after five rounds. -/
theorem varintEncodeLoop_more (fuel more v : ℕ) (hv : v < 128^(fuel+1)) :
    varintEncodeLoop (fuel+1+more) v = varintEncodeLoop (fuel+1) v := by
  induction fuel generalizing v with
  | zero =>
    have h : v < 128 := by simpa using hv
    rw [Nat.add_right_comm,varintEncodeLoop_lt h,varintEncodeLoop_lt h]
  | succ fuel ih =>
    rw [Nat.add_right_comm]
    rcases Nat.lt_or_ge v 128 with h | h
    · rw [varintEncodeLoop_lt h,varintEncodeLoop_lt h]
    · rw [varintEncodeLoop_ge h,varintEncodeLoop_ge h,ih (v/128) (by rw [pow_succ] at hv; omega)]

theorem mtblVarintEncode32_eq_encode64 {v : ℕ} (hv : v < 2^32) :
    mtblVarintEncode32 v = mtblVarintEncode64 v := by
  rw [mtblVarintEncode32_eq hv,mtblVarintEncode64,Nat.mod_eq_of_lt (hv.trans (by norm_num))]
  exact (varintEncodeLoop_more 4 5 v (hv.trans (by norm_num))).symm

/-- Encoders, decoders and the two length functions agree on every value. -/
theorem varint_codec_agrees (v : ℕ) (hv : v < 2^64) (rest : Bytes) :
    (mtblVarintDecode64 (mtblVarintEncode64 v++rest) = .ok (mtblVarintLength v,v) ∧
      (mtblVarintEncode64 v).length = mtblVarintLength v ∧ mtblVarintLength v ≤ 10 ∧
      ∀ n, mtblVarintLength v ≤ n →
        mtblVarintLengthPacked (mtblVarintEncode64 v++rest) n = .ok (mtblVarintLength v)) ∧
    (v < 2^32 → mtblVarintEncode32 v = mtblVarintEncode64 v ∧
      mtblVarintDecode32 (mtblVarintEncode32 v++rest) = .ok (mtblVarintLength v,v) ∧
      mtblVarintLength v ≤ 5) := by
  have hlen := mtblVarintLength_eq hv
  have hten := (mtblVarintEncode64_length v).2
  constructor
  · have hlast : lastByte (mtblVarintEncode64 v++rest)+1 = (mtblVarintEncode64 v).length := by
      rw [mtblVarintEncode64,Nat.mod_eq_of_lt hv]
      exact lastByte_encode 9 v (hv.trans (by norm_num)) rest
    refine ⟨?_,hlen.symm,hlen ▸ hten,fun n hn => ?_⟩
    · rw [hlen]
      exact mtblVarintDecode64_encode64 hv rest
    · rw [hlen] at hn ⊢
      rw [mtblVarintLengthPacked_eq (by omega) (.inr (by rw [List.length_append]; omega)),
        if_neg (by omega),hlast]
  · intro hv32
    have hsame := mtblVarintEncode32_eq_encode64 hv32
    refine ⟨hsame,?_,?_⟩
    · rw [mtblVarintDecode32_encode32 hv32,hsame,hlen]
    · rw [hlen,← hsame]
      exact (mtblVarintEncode32_length hv32).2

/-- At the top of the 32-bit range, with a continuation byte behind the encoding. -/
theorem varint_codec_agrees_top : mtblVarintLength 4294967295 = 5 ∧
    mtblVarintDecode32 (mtblVarintEncode32 4294967295++[255]) = .ok (5,4294967295) := by
  have h := varint_codec_agrees 4294967295 (by norm_num) [255]
  have hlen : mtblVarintLength 4294967295 = 5 := by decide
  exact ⟨hlen,hlen ▸ (h.2 (by norm_num)).2.1⟩

/-! ### The scanner and the decoder -/

/-- With room for `k` more bytes the decoder reads up to the last byte, if that is among them. -/
theorem varintDecodeLoop_reads {maxShift : ℕ} (k : ℕ) (data : Bytes) (shift len val : ℕ)
    (hk : maxShift ≤ shift+7*k) (hk' : shift+7*k < maxShift+7) {l : ℕ} (hl : 0 < l) :
    (∃ v, varintDecodeLoop maxShift data shift len val = .ok (l,v)) ↔
      lastByte data < k ∧ lastByte data < data.length ∧ l = len+lastByte data+1 := by
  induction k generalizing data shift len val with
  | zero =>
    have hshift : ¬ shift < maxShift := by omega
    constructor
    · rintro ⟨v,hrun⟩
      cases data <;> simp [varintDecodeLoop,hshift] at hrun <;> omega
    · intro h
      exact absurd h.1 (Nat.not_lt_zero _)
  | succ k ih =>
    cases data with
    | nil =>
      constructor
      · rintro ⟨v,hrun⟩
        rw [varintDecodeLoop,if_pos (by omega)] at hrun
        cases hrun
      · intro h
        exact absurd h.2.1 (Nat.not_lt_zero _)
    | cons b data =>
      rw [varintDecodeLoop,if_pos (by omega),List.length_cons]
      rcases Nat.lt_or_ge b.toNat 128 with hb | hb
      · simp only [cont_clear b hb,if_true,lastByte_cons_lt hb]
        constructor
        · rintro ⟨v,hrun⟩
          obtain ⟨rfl,-⟩ := Prod.mk.inj (Except.ok.inj hrun)
          exact ⟨Nat.succ_pos k,Nat.succ_pos _,rfl⟩
        · rintro ⟨-,-,rfl⟩
          exact ⟨_,rfl⟩
      · simp only [if_neg (cont_set b hb),lastByte_cons_ge hb]
        rw [ih data (shift+7) (len+1) _ (by omega) (by omega)]
        omega

/-- The scanner gives the length of the varint at the start of `data` if the decoder finds one there,
and 0 if not. -/
structure ScannerAgrees (data : Bytes) : Prop where
  length : ∀ l, 0 < l → (mtblVarintLengthPacked data data.length = .ok l ↔
    ∃ v, mtblVarintDecode64 data = .ok (l,v))
  missing : (¬ ∃ l v, 0 < l ∧ mtblVarintDecode64 data = .ok (l,v)) →
    mtblVarintLengthPacked data data.length = .ok 0

/-- They agree unless a varint goes on past its tenth byte and ends behind it. -/
theorem scanner_agrees_iff (data : Bytes) (hn : data.length < 2^32) : ScannerAgrees data ↔
    data.length ≤ 10 ∨ ¬ Continued 10 data ∨ Continued data.length data := by
  have hle := lastByte_le data
  have hreads := @varintDecodeLoop_reads 64 10 data 0 0 0 (by norm_num) (by norm_num)
  have hall := lastByte_ge_iff (le_refl data.length)
  have hscan : mtblVarintLengthPacked data data.length =
      .ok (if data.length ≤ lastByte data then 0 else lastByte data+1) := by
    rcases hle.eq_or_lt with heq | hlt
    · have hloop := @lengthPackedLoop_eq data data.length 0 (by rw [List.drop_zero]; omega)
        (.inl le_rfl)
      rw [List.drop_zero,heq,Nat.min_self,Nat.zero_add] at hloop
      rw [mtblVarintLengthPacked,hloop,ok_bind,if_pos rfl,if_pos heq.ge]
      rfl
    · exact mtblVarintLengthPacked_eq (by omega) (.inr hlt)
  have hten : (data.length ≤ 10 ∨ ¬ Continued 10 data ∨ Continued data.length data) ↔
      (lastByte data < data.length → lastByte data < 10) := by
    rw [← hall]
    rcases Nat.lt_or_ge 10 data.length with hmore | hless
    · rw [← lastByte_ge_iff hmore.le]
      omega
    · exact ⟨fun _ h => h.trans_le hless,fun _ => .inl hless⟩
  rw [hten]
  constructor
  · intro h hlt
    have hread := (h.length (lastByte data+1) (Nat.succ_pos _)).mp
      (by rw [hscan,if_neg (not_le.mpr hlt)])
    exact ((hreads (Nat.succ_pos _)).mp hread).1
  · intro h
    constructor
    · intro l hl
      rw [mtblVarintDecode64,varintDecode,hreads hl,hscan]
      split_ifs with hend
      · refine ⟨fun heq => ?_,fun hr => absurd hr.2.1 (not_lt.mpr hend)⟩
        obtain rfl := Except.ok.inj heq
        exact absurd hl (lt_irrefl 0)
      · have hlt := not_le.mp hend
        rw [Except.ok.injEq]
        exact ⟨fun heq => ⟨h hlt,hlt,by omega⟩,fun hr => by omega⟩
    · intro hnone
      rw [hscan]
      split_ifs with hend
      · rfl
      · have hlt := not_le.mp hend
        obtain ⟨v,hrun⟩ := (hreads (Nat.succ_pos (lastByte data))).mpr ⟨h hlt,hlt,by omega⟩
        exact absurd ⟨_,v,Nat.succ_pos _,hrun⟩ hnone

/-- Ten bytes with the high bit and one without: the scanner counts eleven, and the decoder refuses
them. -/
theorem scanner_agrees_fails : ¬ ∀ data : Bytes, data.length < 2^32 → ScannerAgrees data := by
  intro hclaim
  have hread := ((hclaim (List.replicate 10 128++[0]) (by decide)).length 11 (by decide)).mp
    (by decide)
  obtain ⟨v,hrun⟩ := hread
  have hrefused : mtblVarintDecode64 (List.replicate 10 128++[0]) = .ok (0,0) := by decide
  rw [hrefused] at hrun
  cases hrun

/-- The longest varint that both take. -/
theorem scanner_agrees_iff_ten : ScannerAgrees (List.replicate 9 128++[1,7]) :=
  (scanner_agrees_iff _ (by decide)).mpr (.inr (.inl (by decide)))

end Mtbl
