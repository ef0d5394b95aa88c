import Mathlib.Data.List.GetD
import Mathlib.Data.ZMod.Basic
import Mathlib.Dynamics.PeriodicPts.Defs
import Mathlib.Tactic

/-! Linear feedback shift registers, the arithmetic of cyclic redundancy checks. A register shifts to
the right, and the bit that falls out feeds the taps back; reading a bit adds it at that end first.
Everything is linear in exclusive or, so what becomes of two messages differs by what becomes of
their difference. -/
namespace ShiftRegister

variable {w : ℕ} {poly s t x y : BitVec w} {a b bits : List Bool}

def shift (poly s : BitVec w) : BitVec w :=
  if s.getLsbD 0 then (s >>> 1) ^^^ poly else s >>> 1

/-- A bit at the end where bits are read and fall out. -/
def bit (b : Bool) : BitVec w := if b then 1#w else 0#w

def read (poly s : BitVec w) (b : Bool) : BitVec w := shift poly (s ^^^ bit b)

def reads (poly s : BitVec w) (bits : List Bool) : BitVec w := bits.foldl (read poly) s

/-! ### Linearity -/

theorem shift_xor (poly s t : BitVec w) : shift poly (s ^^^ t) = shift poly s ^^^ shift poly t := by
  simp only [shift,BitVec.getLsbD_xor,BitVec.ushiftRight_xor_distrib]
  cases s.getLsbD 0 <;> cases t.getLsbD 0
  · simp
  · simp [BitVec.xor_assoc]
  · simp only [Bool.xor_false,if_true,Bool.false_eq_true,if_false]
    ac_rfl
  · simp only [Bool.xor_self,if_true,Bool.false_eq_true,if_false]
    rw [BitVec.xor_assoc,BitVec.xor_comm poly,BitVec.xor_assoc,BitVec.xor_self,BitVec.xor_zero]

@[simp] theorem shift_zero : shift poly 0#w = 0#w := by simp [shift]

/-- What is linear once is linear any number of times. -/
theorem iterate_xor {f : BitVec w → BitVec w} (hf : ∀ x y, f (x ^^^ y) = f x ^^^ f y) (n : ℕ)
    (x y : BitVec w) : f^[n] (x ^^^ y) = f^[n] x ^^^ f^[n] y := by
  induction n generalizing x y with
  | zero => rfl
  | succ n ih => rw [Function.iterate_succ_apply,hf,ih]; rfl

theorem shifts_xor (n : ℕ) (s t : BitVec w) :
    (shift poly)^[n] (s ^^^ t) = (shift poly)^[n] s ^^^ (shift poly)^[n] t :=
  iterate_xor (shift_xor poly) n s t

@[simp] theorem shifts_zero (n : ℕ) : (shift poly)^[n] 0#w = 0#w :=
  Function.iterate_fixed shift_zero n

theorem bit_xor (b c : Bool) : (bit (b ^^ c) : BitVec w) = bit b ^^^ bit c := by
  cases b <;> cases c <;> simp [bit]

@[simp] theorem bit_false : (bit false : BitVec w) = 0#w := rfl

theorem getLsbD_bit (b : Bool) (i : ℕ) :
    (bit b : BitVec w).getLsbD i = (decide (i < w) && decide (i = 0) && b) := by
  cases b
  · simp
  · by_cases hi : i = 0 <;> simp [bit,hi]

theorem reads_append (s : BitVec w) (a b : List Bool) :
    reads poly s (a++b) = reads poly (reads poly s a) b := List.foldl_append

theorem reads_cons (s : BitVec w) (b : Bool) (bits : List Bool) :
    reads poly s (b::bits) = reads poly (read poly s b) bits := rfl

/-- Two messages of one length, and their difference. -/
theorem reads_xor (s t : BitVec w) (hlen : a.length = b.length) :
    reads poly s a ^^^ reads poly t b = reads poly (s ^^^ t) (List.zipWith xor a b) := by
  induction a generalizing b s t with
  | nil =>
    obtain rfl := List.length_eq_zero_iff.mp hlen.symm
    rfl
  | cons c a ih =>
    cases b with
    | nil => cases hlen
    | cons d b =>
      simp only [List.zipWith_cons_cons,reads_cons]
      rw [ih _ _ (by simpa using hlen)]
      congr 1
      rw [read,read,read,← shift_xor,bit_xor]
      congr 1
      ac_rfl

theorem reads_replicate_false (s : BitVec w) (n : ℕ) :
    reads poly s (List.replicate n false) = (shift poly)^[n] s := by
  induction n generalizing s with
  | zero => rfl
  | succ n ih => rw [List.replicate_succ,reads_cons,ih,read,bit_false,BitVec.xor_zero]; rfl

/-! ### Nothing is forgotten -/

theorem eq_zero_of_shift (htop : poly.getLsbD (w-1) = true) (h : shift poly s = 0#w) :
    s = 0#w := by
  have hw : 0 < w := by
    by_contra hw
    obtain rfl : w = 0 := by omega
    simp [BitVec.eq_nil poly] at htop
  have hlow : s.getLsbD 0 = false := by
    by_contra hlow
    rw [shift,if_pos (by simpa using hlow)] at h
    have hbit := congrArg (fun x => x.getLsbD (w-1)) h
    simp only [BitVec.getLsbD_xor,BitVec.getLsbD_ushiftRight,htop,BitVec.getLsbD_zero] at hbit
    rw [BitVec.getLsbD_of_ge s (1+(w-1)) (by omega)] at hbit
    cases hbit
  rw [shift,if_neg (by simp [hlow])] at h
  apply BitVec.eq_of_getLsbD_eq
  intro i hi
  cases i with
  | zero => simpa using hlow
  | succ i =>
    have hbit := congrArg (fun x => x.getLsbD i) h
    simpa [Nat.add_comm] using hbit

theorem xor_eq_zero (h : s ^^^ t = 0#w) : s = t := by
  have hs : s ^^^ t ^^^ t = t := by rw [h,BitVec.zero_xor]
  rwa [BitVec.xor_assoc,BitVec.xor_self,BitVec.xor_zero] at hs

theorem shift_injective (htop : poly.getLsbD (w-1) = true) : Function.Injective (shift poly) := by
  intro s t h
  apply xor_eq_zero
  apply eq_zero_of_shift htop
  rw [shift_xor,h,BitVec.xor_self]

theorem read_injective (htop : poly.getLsbD (w-1) = true) (b : Bool) :
    Function.Injective (fun s => read poly s b) := by
  intro s t h
  have hst := shift_injective htop h
  apply xor_eq_zero
  rw [← BitVec.xor_self (x := s ^^^ bit b)]
  nth_rewrite 2 [hst]
  rw [BitVec.xor_assoc,BitVec.xor_comm (bit b),BitVec.xor_assoc,BitVec.xor_self,BitVec.xor_zero]

theorem reads_injective (htop : poly.getLsbD (w-1) = true) (bits : List Bool) :
    Function.Injective (fun s => reads poly s bits) := by
  induction bits with
  | nil => exact fun s t h => h
  | cons b bits ih => exact fun s t h => read_injective htop b (ih h)

/-! ### Several bits at once -/

/-- Up to `w` bits in a register, the first where bits fall out. -/
def ofBits (bits : List Bool) : BitVec w := (BitVec.ofBoolListLE bits).setWidth w

theorem getLsbD_ofBits (bits : List Bool) (i : ℕ) :
    (ofBits bits : BitVec w).getLsbD i = (decide (i < w) && bits.getD i false) := by
  simp [ofBits]

theorem ofBits_cons (b : Bool) (bits : List Bool) :
    (ofBits (b::bits) : BitVec w) = bit b ^^^ (ofBits bits <<< 1) := by
  apply BitVec.eq_of_getLsbD_eq
  intro i hi
  simp only [BitVec.getLsbD_xor,BitVec.getLsbD_shiftLeft,getLsbD_ofBits,getLsbD_bit]
  cases i with
  | zero => simp [hi]
  | succ i =>
    have hlt : i < w := by omega
    simp [hi,hlt]

/-- Room at the other end comes back. -/
theorem shift_shiftLeft (h : s.getLsbD (w-1) = false) : shift poly (s <<< 1) = s := by
  have hlow : (s <<< 1).getLsbD 0 = false := by simp
  rw [shift,if_neg (by simp [hlow])]
  apply BitVec.eq_of_getLsbD_eq
  intro i hi
  rcases Nat.lt_or_ge (1+i) w with hlt | hge
  · rw [BitVec.getLsbD_ushiftRight,BitVec.getLsbD_shiftLeft]
    simp [hlt]
  · obtain rfl : i = w-1 := by omega
    rw [h,BitVec.getLsbD_ushiftRight,BitVec.getLsbD_of_ge _ _ hge]

/-- Reading a word is adding it and shifting it through. -/
theorem reads_eq (s : BitVec w) (h : bits.length ≤ w) :
    reads poly s bits = (shift poly)^[bits.length] (s ^^^ ofBits bits) := by
  induction bits generalizing s with
  | nil =>
    have hnil : (ofBits [] : BitVec w) = 0#w := by
      apply BitVec.eq_of_getLsbD_eq
      intro i hi
      simp [getLsbD_ofBits]
    simp [reads,hnil]
  | cons b bits ih =>
    simp only [List.length_cons] at h
    have htop : (ofBits bits : BitVec w).getLsbD (w-1) = false := by
      rw [getLsbD_ofBits,List.getD_eq_getElem?_getD,List.getElem?_eq_none (by omega)]
      exact Bool.and_false _
    rw [reads_cons,ih _ (by omega),List.length_cons,Function.iterate_succ_apply,ofBits_cons,
      ← BitVec.xor_assoc,shift_xor,shift_shiftLeft htop,read]

theorem shifts_injective (htop : poly.getLsbD (w-1) = true) (n : ℕ) :
    Function.Injective (shift poly)^[n] := (shift_injective htop).iterate n

theorem ofBits_injective (hlen : a.length = b.length) (hw : a.length ≤ w)
    (h : (ofBits a : BitVec w) = ofBits b) : a = b := by
  apply List.ext_getElem hlen
  intro i ha hb
  have hbit := congrArg (fun x => x.getLsbD i) h
  have hi : i < w := by omega
  simp only [getLsbD_ofBits,hi,decide_true,Bool.true_and,List.getD_eq_getElem _ _ ha,
    List.getD_eq_getElem _ _ hb] at hbit
  exact hbit

/-- The low bits of a register go through the taps, the others only move. -/
theorem shifts_split {n : ℕ} {low : BitVec w} (hlow : ∀ i, low.getLsbD i =
    (decide (i < n) && x.getLsbD i)) :
    (shift poly)^[n] x = (shift poly)^[n] low ^^^ (x >>> n) := by
  have hhigh : ∀ k y, (∀ i, i < k → (y : BitVec w).getLsbD i = false) →
      (shift poly)^[k] y = y >>> k := by
    intro k
    induction k with
    | zero => intro y _; simp
    | succ k ih =>
      intro y hy
      have hzero : shift poly y = y >>> 1 := by
        rw [shift,if_neg (by simp [hy 0 (Nat.zero_lt_succ k)])]
      rw [Function.iterate_succ_apply,hzero,ih (y >>> 1) (fun i hi => ?_),← BitVec.shiftRight_add,
        Nat.add_comm]
      rw [BitVec.getLsbD_ushiftRight]
      exact hy (1+i) (by omega)
  have hsum : x = low ^^^ (x ^^^ low) := by
    rw [BitVec.xor_comm x,← BitVec.xor_assoc,BitVec.xor_self,BitVec.zero_xor]
  nth_rewrite 1 [hsum]
  rw [shifts_xor,hhigh n (x ^^^ low) (fun i hi => by simp [hlow,hi])]
  congr 1
  apply BitVec.eq_of_getLsbD_eq
  intro i hi
  simp [hlow]

/-! ### Bursts -/

/-- Messages that differ within a window as wide as the register leave different registers. -/
theorem reads_burst (htop : poly.getLsbD (w-1) = true) (s : BitVec w)
    {pre mid mid' post : List Bool} (hlen : mid.length = mid'.length) (hw : mid.length ≤ w)
    (hne : mid ≠ mid') : reads poly s (pre++mid++post) ≠ reads poly s (pre++mid'++post) := by
  intro h
  rw [reads_append,reads_append s (pre++mid'),reads_append,reads_append s pre] at h
  have hmid := reads_injective htop post h
  have hw' : mid'.length ≤ w := hlen ▸ hw
  rw [reads_eq (reads poly s pre) hw,reads_eq (reads poly s pre) hw',← hlen] at hmid
  have hbits := shifts_injective htop _ hmid
  refine hne (ofBits_injective (w := w) hlen hw (xor_eq_zero ?_))
  have hsum := congrArg (fun x => reads poly s pre ^^^ x) hbits
  simp only [← BitVec.xor_assoc,BitVec.xor_self,BitVec.zero_xor] at hsum
  rw [hsum,BitVec.xor_self]

/-! ### An odd number of bits -/

/-- How many bits of two messages differ. -/
def distance (a b : List Bool) : ℕ := (List.zipWith xor a b).count true

def parity (x : BitVec w) : ZMod 2 := ∑ i ∈ Finset.range w, if x.getLsbD i then 1 else 0

theorem parity_xor (x y : BitVec w) : parity (x ^^^ y) = parity x+parity y := by
  rw [parity,parity,parity,← Finset.sum_add_distrib]
  apply Finset.sum_congr rfl
  intro i _
  rw [BitVec.getLsbD_xor]
  cases x.getLsbD i <;> cases y.getLsbD i <;> decide

/-- The bit that falls out is missed. -/
theorem parity_ushiftRight (x : BitVec w) :
    parity (x >>> 1)+(if x.getLsbD 0 then 1 else 0) = parity x := by
  have hout : (if x.getLsbD w then 1 else 0 : ZMod 2) = 0 := by
    rw [BitVec.getLsbD_of_ge x w le_rfl]
    rfl
  have hsum := Finset.sum_range_succ' (fun i => if x.getLsbD i then 1 else 0 : ℕ → ZMod 2) w
  rw [Finset.sum_range_succ,hout,add_zero] at hsum
  rw [parity,parity,hsum]
  congr 1
  apply Finset.sum_congr rfl
  intro i _
  rw [BitVec.getLsbD_ushiftRight,Nat.add_comm]

/-- Taps that are odd in number keep the parity. -/
theorem parity_shift (hodd : parity poly = 1) (x : BitVec w) : parity (shift poly x) = parity x := by
  rw [← parity_ushiftRight x,shift]
  cases x.getLsbD 0 with
  | true => simp only [if_true,parity_xor,hodd]
  | false => simp

theorem parity_bit (hw : 0 < w) (b : Bool) : parity (bit b : BitVec w) = if b then 1 else 0 := by
  rw [parity,Finset.sum_eq_single_of_mem 0 (Finset.mem_range.mpr hw)]
  · rw [getLsbD_bit]
    simp [hw]
  · intro i _ hi
    simp [getLsbD_bit,hi]

theorem parity_reads (hodd : parity poly = 1) (hw : 0 < w) (s : BitVec w) (bits : List Bool) :
    parity (reads poly s bits) = parity s+(bits.count true : ℕ) := by
  induction bits generalizing s with
  | nil => simp [reads]
  | cons b bits ih =>
    rw [reads_cons,ih,read,parity_shift hodd,parity_xor,parity_bit hw,add_assoc]
    congr 1
    cases b <;> simp [add_comm]

/-- Messages that differ in an odd number of bits leave different registers. -/
theorem reads_odd (hodd : parity poly = 1) (hw : 0 < w) (s : BitVec w) (hlen : a.length = b.length)
    (h : Odd (distance a b)) : reads poly s a ≠ reads poly s b := by
  intro heq
  have hdiff := congrArg parity (@reads_xor _ poly _ _ s s hlen)
  rw [heq,BitVec.xor_self,BitVec.xor_self,parity_reads hodd hw] at hdiff
  rw [distance,← ZMod.natCast_eq_one_iff_odd] at h
  have hzero : parity (0#w) = 0 := by simp [parity]
  rw [hzero,h,zero_add] at hdiff
  exact absurd hdiff (by decide)

/-! ### Two bits -/

theorem exists_next_true {n : ℕ} (h : bits.count true = n+1) :
    ∃ k rest, bits = List.replicate k false++true::rest ∧ rest.count true = n := by
  induction bits with
  | nil => cases h
  | cons b bits ih =>
    cases b with
    | true => exact ⟨0,bits,rfl,by simpa using h⟩
    | false =>
      obtain ⟨k,rest,rfl,hrest⟩ := ih (by simpa using h)
      exact ⟨k+1,rest,rfl,hrest⟩

/-- Messages that differ in two bits leave different registers, as long as the distance between the
two does not reach the period of the register. -/
theorem reads_two (htop : poly.getLsbD (w-1) = true) {n : ℕ}
    (hperiod : ∀ k, 0 < k → k < n → (shift poly)^[k] 1#w ≠ 1#w) (s : BitVec w)
    (hlen : a.length = b.length) (hshort : a.length ≤ n) (h : distance a b = 2) :
    reads poly s a ≠ reads poly s b := by
  intro heq
  have hdiff := @reads_xor _ poly _ _ s s hlen
  rw [heq,BitVec.xor_self,BitVec.xor_self] at hdiff
  obtain ⟨i,rest,hfirst,hone⟩ := exists_next_true h
  obtain ⟨k,last,rfl,hnone⟩ := exists_next_true hone
  have hbits : (List.zipWith xor a b).length = i+(k+(last.length+1)+1) := by
    simp [hfirst]
  rw [List.length_zipWith,hlen,min_self] at hbits
  have hread : ∀ t : BitVec w, read poly t true = shift poly (t ^^^ 1#w) := fun _ => rfl
  rw [hfirst,reads_append,reads_replicate_false,shifts_zero,reads_cons,hread,BitVec.zero_xor,
    reads_append,reads_replicate_false,reads_cons,hread,← Function.iterate_succ_apply] at hdiff
  have hlast : reads poly 0#w last = 0#w := by
    have hall : last = List.replicate last.length false := by
      apply List.eq_replicate_of_mem
      intro c hc
      cases c with
      | true => exact absurd hc (List.count_eq_zero.mp hnone)
      | false => rfl
    rw [hall,reads_replicate_false,shifts_zero]
  have hzero := reads_injective htop last (hlast.trans hdiff)
  exact hperiod (k+1) (Nat.zero_lt_succ k) (by omega)
    (xor_eq_zero (eq_zero_of_shift htop hzero.symm))

/-- A prime period is the least one. -/
theorem shifts_ne_of_prime {p : ℕ} (hp : p.Prime) (hperiod : (shift poly)^[p] x = x)
    (hmoves : shift poly x ≠ x) : ∀ k, 0 < k → k < p → (shift poly)^[k] x ≠ x := by
  intro k hpos hlt hk
  have hgcd := Function.IsPeriodicPt.gcd (f := shift poly) (x := x) (m := k) (n := p) hk hperiod
  rw [(Nat.coprime_of_lt_prime (by omega) hlt hp).symm.gcd_eq_one] at hgcd
  exact hmoves hgcd

/-! ### Many shifts -/

/-- A linear map by what becomes of the single bits. -/
def columns (f : BitVec w → BitVec w) : List (BitVec w) :=
  (List.range w).map (fun i => f (1#w <<< i))

def combine : List (BitVec w) → BitVec w → BitVec w
  | [],_ => 0#w
  | c::cols,x => (if x.getLsbD 0 then c else 0#w) ^^^ combine cols (x >>> 1)

/-- The columns of the map made twice. -/
def square (cols : List (BitVec w)) : List (BitVec w) := cols.map (combine cols)

section
variable {f : BitVec w → BitVec w}

theorem combine_columns (hf : ∀ x y, f (x ^^^ y) = f x ^^^ f y) (x : BitVec w) :
    combine (columns f) x = f x := by
  have hzero : f 0#w = 0#w := by
    have h := hf 0#w 0#w
    rw [BitVec.xor_self] at h
    rw [h,BitVec.xor_self]
  have hpart : ∀ n i, i+n = w →
      combine ((List.range' i n).map (fun j => f (1#w <<< j))) (x >>> i) = f ((x >>> i) <<< i) := by
    intro n
    induction n with
    | zero =>
      intro i hi
      obtain rfl : i = w := hi
      rw [show x >>> i <<< i = 0#i by
        apply BitVec.eq_of_getLsbD_eq
        intro j hj
        simp [hj]]
      exact hzero.symm
    | succ n ih =>
      intro i hi
      have hsplit : x >>> i <<< i =
          (if x.getLsbD i then 1#w <<< i else 0#w) ^^^ (x >>> (i+1) <<< (i+1)) := by
        apply BitVec.eq_of_getLsbD_eq
        intro j hj
        rw [BitVec.getLsbD_xor,BitVec.getLsbD_shiftLeft,BitVec.getLsbD_shiftLeft,
          BitVec.getLsbD_ushiftRight,BitVec.getLsbD_ushiftRight]
        rcases lt_trichotomy j i with hlt | rfl | hgt
        · have hlt' : j < i+1 := by omega
          cases x.getLsbD i <;> simp [hlt,hlt']
        · rw [Nat.sub_self,Nat.add_zero]
          cases x.getLsbD j <;> simp [hj]
        · have hne : ¬ j < i := by omega
          have hne' : ¬ j < i+1 := by omega
          rw [show i+(j-i) = j by omega,show i+1+(j-(i+1)) = j by omega]
          cases x.getLsbD i <;> simp [hj,hne,hne',show j-i ≠ 0 by omega]
      rw [List.range'_succ,List.map_cons,combine,← BitVec.shiftRight_add,ih (i+1) (by omega),hsplit,
        hf,BitVec.getLsbD_ushiftRight,Nat.add_zero]
      cases x.getLsbD i <;> simp [hzero]
  have hall := hpart w 0 (Nat.zero_add w)
  rw [BitVec.ushiftRight_zero,BitVec.shiftLeft_zero,← List.range_eq_range'] at hall
  exact hall

theorem square_columns (hf : ∀ x y, f (x ^^^ y) = f x ^^^ f y) :
    square (columns f) = columns (f ∘ f) := by
  rw [square,funext (combine_columns hf),columns,List.map_map]
  rfl

theorem squares_columns (hf : ∀ x y, f (x ^^^ y) = f x ^^^ f y) (k : ℕ) :
    square^[k] (columns f) = columns (f^[2^k]) := by
  induction k with
  | zero => rfl
  | succ k ih =>
    rw [Function.iterate_succ_apply',ih,square_columns (iterate_xor hf (2^k)),
      ← Function.iterate_add,pow_succ,Nat.mul_two]

end

/-- How to shift a power of two times. -/
theorem shifts_two_pow (k : ℕ) (x : BitVec w) :
    (shift poly)^[2^k] x = combine (square^[k] (columns (shift poly))) x := by
  rw [squares_columns (shift_xor poly) k,combine_columns (shifts_xor _)]

/-! ### Division of polynomials -/

/-- Long division by a divisor of degree `w` whose lower coefficients are `low`: `n` coefficients of
the dividend from the highest one on. The remainder is left in the lowest `w`. -/
def divide {m : ℕ} (low : BitVec w) : ℕ → BitVec m → BitVec m
  | 0,x => x
  | n+1,x => divide low n
    (if x.getLsbD (w+n) then x ^^^ ((low.setWidth m ^^^ (1#m <<< w)) <<< n) else x)

/-- The register after a message is the remainder of a division, both seen from their other ends. -/
theorem divide_reads {m : ℕ} (hw : 0 < w) (low s : BitVec w) {bits : List Bool}
    {x : BitVec m} (hm : w+bits.length ≤ m)
    (hx : ∀ k < w+bits.length, x.getLsbD (w+bits.length-1-k) =
      ((s.getLsbD k) ^^ (bits.getD k false))) :
    ((divide low bits.length x).setWidth w).reverse = reads low.reverse s bits := by
  induction bits generalizing s x with
  | nil =>
    apply BitVec.eq_of_getLsbD_eq
    intro k hk
    rw [BitVec.getLsbD_reverse,BitVec.getMsbD_eq_getLsbD,BitVec.getLsbD_setWidth]
    simpa [hk,reads,divide,show w-1-k < w by omega] using hx k (by simpa using hk)
  | cons b bits ih =>
    rw [List.length_cons,divide,reads_cons]
    have hfirst := hx 0 (by simp)
    rw [List.length_cons,List.getD_cons_zero,show w+(bits.length+1)-1-0 = w+bits.length by omega]
      at hfirst
    rw [List.length_cons] at hm
    apply ih (read low.reverse s b) (by omega)
    intro k hk
    have hnext := hx (k+1) (by rw [List.length_cons]; omega)
    rw [List.length_cons,List.getD_cons_succ,show w+(bits.length+1)-1-(k+1) = w+bits.length-1-k by
      omega] at hnext
    have hout : (s ^^^ bit b).getLsbD 0 = x.getLsbD (w+bits.length) := by
      rw [hfirst,BitVec.getLsbD_xor,getLsbD_bit]
      simp [hw]
    have hmoved : ((s ^^^ bit b) >>> 1).getLsbD k = s.getLsbD (k+1) := by
      rw [BitVec.getLsbD_ushiftRight,BitVec.getLsbD_xor,getLsbD_bit,Nat.add_comm]
      simp
    have htaps : ((low.setWidth m ^^^ (1#m <<< w)) <<< bits.length).getLsbD (w+bits.length-1-k) =
        low.reverse.getLsbD k := by
      rw [BitVec.getLsbD_shiftLeft,BitVec.getLsbD_reverse,BitVec.getMsbD_eq_getLsbD]
      rcases Nat.lt_or_ge k w with hlt | hge
      · rw [show w+bits.length-1-k-bits.length = w-1-k by omega,BitVec.getLsbD_xor,
          BitVec.getLsbD_setWidth,BitVec.getLsbD_shiftLeft]
        simp [hlt,show w-1-k < m by omega,show w-1-k < w by omega,
          show w+bits.length-1-k < m by omega,show ¬ w+bits.length-1-k < bits.length by omega]
      · simp [show ¬ k < w by omega,show w+bits.length-1-k < bits.length by omega]
    rw [read,shift,hout]
    split_ifs
    · rw [BitVec.getLsbD_xor,BitVec.getLsbD_xor,htaps,hnext,hmoved,Bool.xor_assoc,Bool.xor_assoc,
        Bool.xor_comm (bits.getD k false)]
    · rw [hnext,hmoved]

end ShiftRegister
