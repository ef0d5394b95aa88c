import Mtbl.Bytes.Compare
import Mtbl.Lib.Loop

/-! Variable-length integers: seven bits a byte, lowest first, the high bit set on every byte but
the last. The unrolled 32-bit encoder, the looping 64-bit encoder and the shared bounded
decoder. -/
namespace Mtbl
open CRun

/-- The loop of `mtbl_varint_encode64`. A 64-bit value leaves it after at most ten bytes. -/
def varintEncodeLoop : ℕ → ℕ → Bytes
  | 0,_ => []
  | fuel+1,v =>
    if 128 ≤ v then UInt8.ofNat ((v &&& 127) ||| 128)::varintEncodeLoop fuel (v >>> 7)
    else [UInt8.ofNat v]

def mtblVarintEncode64 (v : ℕ) : Bytes := varintEncodeLoop 10 (v%2^64)

/-- The argument is a `uint32_t`: a wider value of the caller is narrowed first. -/
def mtblVarintEncode32 (value : ℕ) : Bytes :=
  let v := value%2^32
  if v < 1 <<< 7 then
    [UInt8.ofNat v]
  else if v < 1 <<< 14 then
    [UInt8.ofNat (v ||| 128),UInt8.ofNat (v >>> 7)]
  else if v < 1 <<< 21 then
    [UInt8.ofNat (v ||| 128),UInt8.ofNat ((v >>> 7) ||| 128),UInt8.ofNat (v >>> 14)]
  else if v < 1 <<< 28 then
    [UInt8.ofNat (v ||| 128),UInt8.ofNat ((v >>> 7) ||| 128),UInt8.ofNat ((v >>> 14) ||| 128),
      UInt8.ofNat (v >>> 21)]
  else
    [UInt8.ofNat (v ||| 128),UInt8.ofNat ((v >>> 7) ||| 128),UInt8.ofNat ((v >>> 14) ||| 128),
      UInt8.ofNat ((v >>> 21) ||| 128),UInt8.ofNat (v >>> 28)]

/-- The loop of `_varint_decode`, at byte `len` with `shift` bits read into `val`: the number of
bytes read and the value, or length 0 when the last admissible byte still continues. -/
def varintDecodeLoop (maxShift : ℕ) : Bytes → ℕ → ℕ → ℕ → Run (ℕ × ℕ)
  | [],shift,_,_ => if shift < maxShift then .error .outOfBounds else .ok (0,0)
  | b::data,shift,len,val =>
    if shift < maxShift then
      let val' := val ||| (((b.toNat &&& 0x7f) <<< shift)%2^64)
      if b.toNat &&& 0x80 = 0 then .ok (len+1,val')
      else varintDecodeLoop maxShift data (shift+7) (len+1) val'
    else .ok (0,0)

def varintDecode (data : Bytes) (maxShift : ℕ) : Run (ℕ × ℕ) := varintDecodeLoop maxShift data 0 0 0

/-- The decoded value is narrowed to a `uint32_t`. -/
def mtblVarintDecode32 (data : Bytes) : Run (ℕ × ℕ) := do
  let (ret,tmpv) ← varintDecode data 32
  return (ret,tmpv%2^32)

def mtblVarintDecode64 (data : Bytes) : Run (ℕ × ℕ) := varintDecode data 64

theorem and_127 (v : ℕ) : v &&& 127 = v%128 := Nat.and_two_pow_sub_one_eq_mod v 7

theorem or_128 {v : ℕ} (h : v < 128) : v ||| 128 = v+128 := by
  have hh := Nat.two_pow_add_eq_or_of_lt (show v < 2^7 from h) 1
  rw [Nat.or_comm,show (128 : ℕ) = 2^7*1 by norm_num,← hh]
  omega

theorem shiftRight_seven (v : ℕ) : v >>> 7 = v/128 := Nat.shiftRight_eq_div_pow v 7

/-- Only the low byte of `v | 128` is stored. -/
theorem ofNat_or_128 (v : ℕ) : UInt8.ofNat (v ||| 128) = UInt8.ofNat (v%128+128) := by
  apply UInt8.toNat_inj.mp
  rw [UInt8.toNat_ofNat',UInt8.toNat_ofNat']
  have hbyte := (by decide +kernel : ∀ i : Fin 256, (i.val ||| 128)%256 = i.val%128+128)
  have h := hbyte ⟨v%256,by omega⟩
  have hmod : (v ||| 128)%2^8 = ((v%2^8) ||| 128)%2^8 := by
    simp only [Nat.or_mod_two_pow,Nat.mod_mod]
  rw [hmod]
  simp only [Nat.reducePow] at h ⊢
  omega

theorem varintEncodeLoop_lt {fuel v : ℕ} (h : v < 128) :
    varintEncodeLoop (fuel+1) v = [UInt8.ofNat v] := by
  simp [varintEncodeLoop,show ¬ 128 ≤ v by omega]

theorem varintEncodeLoop_ge {fuel v : ℕ} (h : 128 ≤ v) :
    varintEncodeLoop (fuel+1) v = UInt8.ofNat (v%128+128)::varintEncodeLoop fuel (v/128) := by
  rw [varintEncodeLoop,if_pos h,and_127,or_128 (Nat.mod_lt v (by norm_num)),shiftRight_seven]

theorem varintEncodeLoop_length (fuel v : ℕ) : (varintEncodeLoop fuel v).length ≤ fuel := by
  induction fuel generalizing v with
  | zero => simp [varintEncodeLoop]
  | succ fuel ih =>
    rcases Nat.lt_or_ge v 128 with h | h
    · simp [varintEncodeLoop_lt h]
    · simpa [varintEncodeLoop_ge h] using ih (v/128)

theorem varintEncodeLoop_pos (fuel v : ℕ) : 0 < (varintEncodeLoop (fuel+1) v).length := by
  rcases Nat.lt_or_ge v 128 with h | h
  · simp [varintEncodeLoop_lt h]
  · simp [varintEncodeLoop_ge h]

theorem cont_clear (b : UInt8) (h : b.toNat < 128) : b.toNat &&& 0x80 = 0 := by
  have hbyte := (by decide +kernel : ∀ i : Fin 128, i.val &&& 0x80 = 0)
  exact hbyte ⟨b.toNat,h⟩

theorem cont_set (b : UInt8) (h : 128 ≤ b.toNat) : b.toNat &&& 0x80 ≠ 0 := by
  have hb := b.toNat_lt
  have hbyte := (by decide +kernel : ∀ i : Fin 256, 128 ≤ i.val → i.val &&& 0x80 ≠ 0)
  exact hbyte ⟨b.toNat,hb⟩ h

/-- Placing seven new bits above the bits read so far adds them. -/
theorem or_payload {val shift x : ℕ} (hv : val < 2^shift) (hx : x*2^shift < 2^64) :
    val ||| ((x <<< shift)%2^64) = val+x*2^shift := by
  rw [Nat.shiftLeft_eq,Nat.mod_eq_of_lt hx,Nat.mul_comm x,Nat.or_comm,
    ← Nat.two_pow_add_eq_or_of_lt hv]
  omega

/-- The decoder run on an encoding reads exactly the encoding. The invariant of the loop is that
`val` holds the bits below `shift` and the rest of the value still fits below `maxShift`. -/
theorem varintDecodeLoop_encode {maxShift : ℕ} (hmax : maxShift ≤ 64) (rest : Bytes)
    (fuel v shift len val : ℕ) (hv : v < 128^(fuel+1)) (hval : val < 2^shift)
    (hfit : v*2^shift < 2^maxShift) (hs : shift < maxShift) :
    varintDecodeLoop maxShift (varintEncodeLoop (fuel+1) v++rest) shift len val =
      .ok (len+(varintEncodeLoop (fuel+1) v).length,val+v*2^shift) := by
  induction fuel generalizing v shift len val with
  | zero =>
    have h : v < 128 := by simpa using hv
    have hb : (UInt8.ofNat v).toNat = v := by rw [UInt8.toNat_ofNat']; omega
    have hfit64 := hfit.trans_le (Nat.pow_le_pow_right (by norm_num) hmax)
    have hc := cont_clear (UInt8.ofNat v) (by omega)
    simp only [varintEncodeLoop_lt h,List.cons_append,List.nil_append,varintDecodeLoop,hs,if_true,
      hb,hb ▸ hc,show v &&& 0x7f = v%128 from and_127 v,Nat.mod_eq_of_lt h,
      or_payload hval hfit64,List.length_singleton]
  | succ fuel ih =>
    have hfit64 := hfit.trans_le (Nat.pow_le_pow_right (by norm_num) hmax)
    rcases Nat.lt_or_ge v 128 with h | h
    · have hb : (UInt8.ofNat v).toNat = v := by rw [UInt8.toNat_ofNat']; omega
      have hc := cont_clear (UInt8.ofNat v) (by omega)
      simp only [varintEncodeLoop_lt h,List.cons_append,List.nil_append,varintDecodeLoop,hs,if_true,
        hb,hb ▸ hc,show v &&& 0x7f = v%128 from and_127 v,Nat.mod_eq_of_lt h,
        or_payload hval hfit64,List.length_singleton]
    · have hb : (UInt8.ofNat (v%128+128)).toNat = v%128+128 := by rw [UInt8.toNat_ofNat']; omega
      have hc := cont_set (UInt8.ofNat (v%128+128)) (by omega)
      have hlow : v%128*2^shift < 2^64 :=
        (Nat.mul_le_mul_right _ (Nat.mod_le v 128)).trans_lt hfit64
      have hsplit : v*2^shift = v%128*2^shift+v/128*2^(shift+7) := by
        rw [pow_add]
        nth_rewrite 1 [← Nat.mod_add_div v 128]
        ring
      have hval' : val+v%128*2^shift < 2^(shift+7) := by
        have hm : v%128 ≤ 127 := by omega
        have := Nat.mul_le_mul_right (2^shift) hm
        rw [pow_add]
        omega
      have hs' : shift+7 < maxShift := by
        have h1 : 1 ≤ v/128 := by omega
        have h2 := Nat.mul_le_mul_right (2^(shift+7)) h1
        exact (Nat.pow_lt_pow_iff_right (by norm_num : 1 < 2)).mp (by omega)
      rw [varintEncodeLoop_ge h]
      simp only [List.cons_append,varintDecodeLoop,hs,if_true,hb,if_neg (hb ▸ hc),
        show (v%128+128) &&& 0x7f = (v%128+128)%128 from and_127 _,Nat.add_mod_right,Nat.mod_mod,
        or_payload hval hlow]
      rw [ih (v/128) (shift+7) (len+1) _ (by rw [pow_succ] at hv; omega) hval' (by omega) hs']
      simp only [List.length_cons,hsplit,Except.ok.injEq,Prod.mk.injEq]
      omega

/-- The unrolled encoder writes what the loop writes: its thresholds are the loop's exits. -/
theorem mtblVarintEncode32_eq {v : ℕ} (hv : v < 2^32) :
    mtblVarintEncode32 v = varintEncodeLoop 5 v := by
  unfold mtblVarintEncode32
  simp only [Nat.mod_eq_of_lt hv,Nat.shiftLeft_eq,Nat.one_mul,ofNat_or_128,Nat.shiftRight_eq_div_pow]
  split_ifs with h1 h2 h3 h4
  · rw [varintEncodeLoop_lt h1]
  · rw [varintEncodeLoop_ge (by omega),varintEncodeLoop_lt (by omega)]
  · rw [varintEncodeLoop_ge (by omega),varintEncodeLoop_ge (by omega),
      varintEncodeLoop_lt (by omega),Nat.div_div_eq_div_mul]
  · rw [varintEncodeLoop_ge (by omega),varintEncodeLoop_ge (by omega),
      varintEncodeLoop_ge (by omega),varintEncodeLoop_lt (by omega)]
    simp only [Nat.div_div_eq_div_mul]
  · rw [varintEncodeLoop_ge (by omega),varintEncodeLoop_ge (by omega),
      varintEncodeLoop_ge (by omega),varintEncodeLoop_ge (by omega),varintEncodeLoop_lt (by omega)]
    simp only [Nat.div_div_eq_div_mul]

theorem mtblVarintDecode32_encode32 {v : ℕ} (hv : v < 2^32) (rest : Bytes) :
    mtblVarintDecode32 (mtblVarintEncode32 v++rest) = .ok ((mtblVarintEncode32 v).length,v) := by
  have h := varintDecodeLoop_encode (by norm_num : 32 ≤ 64) rest 4 v 0 0 0 (by omega) (by norm_num)
    (by omega) (by norm_num)
  simp only [mtblVarintDecode32,varintDecode,mtblVarintEncode32_eq hv,h,ok_bind,pure_eq_ok,
    Nat.zero_add,pow_zero,Nat.mul_one,Nat.mod_eq_of_lt hv]

theorem mtblVarintDecode64_encode64 {v : ℕ} (hv : v < 2^64) (rest : Bytes) :
    mtblVarintDecode64 (mtblVarintEncode64 v++rest) = .ok ((mtblVarintEncode64 v).length,v) := by
  have h := varintDecodeLoop_encode le_rfl rest 9 v 0 0 0 (by omega) (by norm_num)
    (by omega) (by norm_num)
  simp only [mtblVarintDecode64,varintDecode,mtblVarintEncode64,Nat.mod_eq_of_lt hv,h,
    Nat.zero_add,pow_zero,Nat.mul_one]

theorem mtblVarintEncode64_length (v : ℕ) :
    1 ≤ (mtblVarintEncode64 v).length ∧ (mtblVarintEncode64 v).length ≤ 10 :=
  ⟨varintEncodeLoop_pos 9 _,varintEncodeLoop_length 10 _⟩

theorem mtblVarintEncode32_length {v : ℕ} (hv : v < 2^32) :
    1 ≤ (mtblVarintEncode32 v).length ∧ (mtblVarintEncode32 v).length ≤ 5 := by
  rw [mtblVarintEncode32_eq hv]
  exact ⟨varintEncodeLoop_pos 4 _,varintEncodeLoop_length 5 _⟩

/-- A value below 128 is its own encoding; any other starts with a continuation byte. -/
theorem mtblVarintEncode32_head {v : ℕ} (hv : v < 2^32) :
    (v < 128 ∧ mtblVarintEncode32 v = [UInt8.ofNat v]) ∨
      ∃ b bs, 128 ≤ v ∧ 128 ≤ b.toNat ∧ mtblVarintEncode32 v = b::bs := by
  rw [mtblVarintEncode32_eq hv]
  rcases Nat.lt_or_ge v 128 with h | h
  · exact .inl ⟨h,varintEncodeLoop_lt h⟩
  · refine .inr ⟨_,_,h,?_,varintEncodeLoop_ge h⟩
    rw [UInt8.toNat_ofNat']
    omega

example : mtblVarintDecode32 (mtblVarintEncode32 300++[7]) = .ok (2,300) := by decide

/-! ### Decoding arbitrary bytes -/

/-- The first `n` bytes all promise another byte. -/
def Continued (n : ℕ) (data : Bytes) : Prop :=
  n ≤ data.length ∧ ∀ b ∈ data.take n, 128 ≤ b.toNat

instance (n : ℕ) (data : Bytes) : Decidable (Continued n data) :=
  inferInstanceAs (Decidable (_ ∧ _))

theorem continued_cons {n : ℕ} {b : UInt8} {data : Bytes} :
    Continued (n+1) (b::data) ↔ 128 ≤ b.toNat ∧ Continued n data := by
  simp only [Continued,List.length_cons,Nat.add_le_add_iff_right,List.take_succ_cons,
    List.forall_mem_cons]
  tauto

/-- The decoder fails only for want of bytes. -/
theorem varintDecodeLoop_error {maxShift : ℕ} {data : Bytes} {shift len val : ℕ} {e : Fault}
    (h : varintDecodeLoop maxShift data shift len val = .error e) : e = .outOfBounds := by
  induction data generalizing shift len val with
  | nil =>
    rw [varintDecodeLoop] at h
    split_ifs at h
    exact (Except.error.inj h).symm
  | cons b data ih =>
    rw [varintDecodeLoop] at h
    simp only at h
    split_ifs at h
    exact ih h

theorem mtblVarintDecode32_halts {data : Bytes} (h : Halts (mtblVarintDecode32 data)) :
    ∃ r, mtblVarintDecode32 data = .ok r := by
  rcases h with hstop | hok
  · rw [mtblVarintDecode32,varintDecode] at hstop
    cases hloop : varintDecodeLoop 32 data 0 0 0 with
    | ok r =>
      rw [hloop] at hstop
      cases hstop
    | error e =>
      rw [hloop,varintDecodeLoop_error hloop] at hstop
      cases hstop
  · exact hok

/-- With room for `k` more bytes the decoder gives up on `k` continued bytes, and otherwise reads at
least one and at most `k`. -/
theorem varintDecodeLoop_bounded {maxShift : ℕ} (k : ℕ) (data : Bytes) (shift len val : ℕ)
    (hk : maxShift ≤ shift+7*k) (hk' : shift+7*k < maxShift+7) :
    (Continued k data ∧ varintDecodeLoop maxShift data shift len val = .ok (0,0)) ∨
      (¬ Continued k data ∧ ∀ r, varintDecodeLoop maxShift data shift len val = .ok r →
        len < r.1 ∧ r.1 ≤ len+k) := by
  induction k generalizing data shift len val with
  | zero =>
    left
    have hshift : ¬ shift < maxShift := by omega
    refine ⟨⟨Nat.zero_le _,by simp⟩,?_⟩
    cases data <;> simp [varintDecodeLoop,hshift]
  | succ k ih =>
    cases data with
    | nil =>
      refine .inr ⟨fun h => absurd h.1 (by simp),fun r hr => ?_⟩
      rw [varintDecodeLoop,if_pos (by omega)] at hr
      cases hr
    | cons b data =>
      rw [continued_cons,varintDecodeLoop,if_pos (by omega)]
      rcases Nat.lt_or_ge b.toNat 128 with hb | hb
      · refine .inr ⟨fun h => absurd h.1 (by omega),fun r hr => ?_⟩
        simp only [cont_clear b hb,if_true,Except.ok.injEq] at hr
        subst hr
        exact ⟨by simp only; omega,by simp only; omega⟩
      · simp only [cont_set b hb,if_false,hb,true_and]
        rcases ih data (shift+7) (len+1)
          (val ||| (((b.toNat &&& 0x7f) <<< shift)%2^64)) (by omega) (by omega) with h | ⟨hnot,h⟩
        · exact .inl h
        · refine .inr ⟨hnot,fun r hr => ?_⟩
          have := h r hr
          omega

/-- The decoder reads only bytes that are there, and a 64-bit value. -/
theorem varintDecodeLoop_le {maxShift : ℕ} {data : Bytes} {shift len val : ℕ} {r : ℕ × ℕ}
    (h : varintDecodeLoop maxShift data shift len val = .ok r) (hval : val < 2^64) :
    r.1 ≤ len+data.length ∧ r.2 < 2^64 := by
  induction data generalizing shift len val with
  | nil =>
    rw [varintDecodeLoop] at h
    split_ifs at h
    obtain rfl := Except.ok.inj h
    exact ⟨Nat.zero_le _,Nat.two_pow_pos 64⟩
  | cons b data ih =>
    have hval' : val ||| (((b.toNat &&& 0x7f) <<< shift)%2^64) < 2^64 :=
      Nat.or_lt_two_pow hval (Nat.mod_lt _ (Nat.two_pow_pos 64))
    rw [varintDecodeLoop] at h
    simp only at h
    split_ifs at h
    · obtain rfl := Except.ok.inj h
      exact ⟨by simp only [List.length_cons]; omega,hval'⟩
    · have := ih h hval'
      rw [List.length_cons]
      omega
    · obtain rfl := Except.ok.inj h
      exact ⟨Nat.zero_le _,Nat.two_pow_pos 64⟩

/-- A varint that goes on past its fifth byte decodes to length 0 and value 0. -/
theorem mtblVarintDecode32_continued {data : Bytes} (h : Continued 5 data) :
    mtblVarintDecode32 data = .ok (0,0) := by
  rcases varintDecodeLoop_bounded 5 data 0 0 0 (by omega : 32 ≤ 0+7*5) (by omega) with ⟨-,hrun⟩ | ⟨hnot,-⟩
  · rw [mtblVarintDecode32,varintDecode,hrun]
    rfl
  · exact absurd h hnot

theorem mtblVarintDecode32_bounded {data : Bytes} (h : ¬ Continued 5 data) {n v : ℕ}
    (hrun : mtblVarintDecode32 data = .ok (n,v)) : 0 < n ∧ n ≤ 5 := by
  obtain ⟨r,hloop,hr⟩ := bind_eq_ok.mp hrun
  rcases varintDecodeLoop_bounded 5 data 0 0 0 (by omega : 32 ≤ 0+7*5) (by omega) with ⟨hc,-⟩ | ⟨-,hbound⟩
  · exact absurd hc h
  · obtain ⟨rfl,-⟩ := Prod.mk.inj (Except.ok.inj hr)
    have := hbound r hloop
    omega

end Mtbl
