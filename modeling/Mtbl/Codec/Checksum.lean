import Mathlib.NumberTheory.LucasLehmer
import Mtbl.Codec.Crc32c
import Mtbl.Codec.Fixed
import Mtbl.Lib.ShiftRegister

/-! What the checksum of a block is good for. It is the register of the Castagnoli polynomial after
the bits of the block, each byte from its lowest bit on, so it tells apart byte strings that differ in
few bits or in bits that are close together. -/
namespace Mtbl
open CRun ShiftRegister

/-- The reflected polynomial. -/
def castagnoli : BitVec 32 := 0x82F63B78#32

/-- The bits of a byte in the order in which the checksum reads them. -/
def byteBits (b : UInt8) : List Bool := (List.range 8).map b.toBitVec.getLsbD

def bitsOf (bs : Bytes) : List Bool := bs.flatMap byteBits

@[simp] theorem bitsOf_nil : bitsOf [] = [] := rfl

@[simp] theorem bitsOf_cons (b : UInt8) (bs : Bytes) : bitsOf (b::bs) = byteBits b++bitsOf bs := rfl

@[simp] theorem byteBits_length (b : UInt8) : (byteBits b).length = 8 := by simp [byteBits]

@[simp] theorem bitsOf_length (bs : Bytes) : (bitsOf bs).length = 8*bs.length := by
  induction bs with
  | nil => rfl
  | cons b bs ih =>
    rw [bitsOf_cons,List.length_append,ih,byteBits_length,List.length_cons]
    omega

theorem getD_byteBits (b : UInt8) (i : ℕ) : (byteBits b).getD i false = b.toNat.testBit i := by
  rcases Nat.lt_or_ge i 8 with hlt | hge
  · rw [List.getD_eq_getElem _ _ (by simpa using hlt)]
    simp [byteBits,BitVec.getLsbD]
  · rw [List.getD_eq_default _ _ (by simpa using hge)]
    exact (Nat.testBit_lt_two_pow (b.toNat_lt.trans_le (Nat.pow_le_pow_right (by omega) hge))).symm

/-- The bits of bytes that spell a number are its binary digits. -/
theorem ofBits_bitsOf {w n v : ℕ} {bs : Bytes} (h : leValue n bs = .ok v) :
    (ofBits (bitsOf (bs.take n)) : BitVec w) = BitVec.ofNat w v := by
  apply BitVec.eq_of_getLsbD_eq
  intro i hi
  rw [getLsbD_ofBits,BitVec.getLsbD_ofNat]
  congr 1
  clear hi
  induction n generalizing bs v i with
  | zero =>
    obtain rfl := Except.ok.inj h
    simp
  | succ n ih =>
    cases bs with
    | nil => cases h
    | cons b bs =>
      obtain ⟨u,hu,hpure⟩ := bind_eq_ok.mp h
      obtain rfl := Except.ok.inj hpure
      rw [List.take_succ_cons,bitsOf_cons,Nat.add_comm,show 256 = 2^8 from rfl,
        Nat.testBit_two_pow_mul_add _ b.toNat_lt]
      split_ifs with hlt
      · rw [List.getD_append _ _ _ _ (by simpa using hlt),getD_byteBits]
      · rw [List.getD_append_right _ _ _ _ (by simpa using hlt),byteBits_length,ih hu]

theorem ofBits_byteBits (b : UInt8) : (ofBits (byteBits b) : BitVec 32) = b.toUInt32.toBitVec := by
  have h := @ofBits_bitsOf 32 1 b.toNat [b] rfl
  rw [List.take_succ_cons,bitsOf_cons,List.take_nil,bitsOf_nil,List.append_nil] at h
  rw [h]
  apply BitVec.eq_of_toNat_eq
  simp

/-! ### The register behind the checksum -/

theorem crc32cBit_toBitVec (x : UInt32) : (crc32cBit x).toBitVec = shift castagnoli x.toBitVec := by
  have hlow : (x &&& 1 = 1) ↔ x.toBitVec.getLsbD 0 = true := by
    rw [← UInt32.toBitVec_inj,UInt32.toBitVec_and]
    constructor
    · intro h
      have hbit := congrArg (fun y => y.getLsbD 0) h
      simpa using hbit
    · intro h
      apply BitVec.eq_of_getLsbD_eq
      intro i hi
      cases i with
      | zero => simpa using h
      | succ i => simp
  rw [crc32cBit,shift]
  simp only [hlow]
  split_ifs
  · rfl
  · rfl

theorem crc32cBits_toBitVec (n : ℕ) (x : UInt32) :
    (crc32cBit^[n] x).toBitVec = (shift castagnoli)^[n] x.toBitVec := by
  induction n generalizing x with
  | zero => rfl
  | succ n ih => rw [Function.iterate_succ_apply,ih,crc32cBit_toBitVec]; rfl

theorem crc32cBytes_toBitVec (c : UInt32) (bs : Bytes) :
    (bs.foldl crc32cByte c).toBitVec = reads castagnoli c.toBitVec (bitsOf bs) := by
  induction bs generalizing c with
  | nil => rfl
  | cons b bs ih =>
    rw [List.foldl_cons,ih,bitsOf_cons,reads_append]
    congr 1
    rw [crc32cByte,crc32cBits_toBitVec,UInt32.toBitVec_xor,reads_eq _ (by simp),byteBits_length,
      ofBits_byteBits]

theorem castagnoli_top : castagnoli.getLsbD (32-1) = true := by decide

theorem castagnoli_odd : parity castagnoli = 1 := by decide

/-- The register comes back to a single bit after 2^31-1 shifts and not before. -/
theorem castagnoli_period : ∀ k, 0 < k → k < 2^31-1 → (shift castagnoli)^[k] 1#32 ≠ 1#32 := by
  have hprime : (2^31-1).Prime := lucas_lehmer_sufficiency 31 (by norm_num) (by norm_num)
  apply shifts_ne_of_prime hprime
  · apply shift_injective castagnoli_top
    have hround : (shift castagnoli)^[2^31] 1#32 = shift castagnoli 1#32 := by
      rw [shifts_two_pow]
      decide +kernel
    rwa [show 2^31 = 2^31-1+1 from rfl,Function.iterate_succ_apply'] at hround
  · decide

/-! ### What the checksum notices -/

/-- Damage to a block that leaves its length: bits that are close together, an odd number of bits, or
two bits, in a block that is shorter than the period of the register. -/
inductive Damage (raw raw' : Bytes) : Prop
  | burst {pre mid mid' post : List Bool} (before : bitsOf raw = pre++mid++post)
    (after : bitsOf raw' = pre++mid'++post) (length : mid.length = mid'.length)
    (width : mid.length ≤ 32) (ne : mid ≠ mid')
  | odd (length : raw.length = raw'.length) (bits : Odd (distance (bitsOf raw) (bitsOf raw')))
  | two (length : raw.length = raw'.length) (short : raw.length < 2^28)
    (bits : distance (bitsOf raw) (bitsOf raw') = 2)

section
variable {raw raw' : Bytes}

theorem Damage.length_eq (h : Damage raw raw') : raw.length = raw'.length := by
  cases h with
  | burst before after length width ne =>
    have hraw := congrArg List.length before
    have hraw' := congrArg List.length after
    simp only [bitsOf_length,List.length_append] at hraw hraw'
    omega
  | odd length bits => exact length
  | two length short bits => exact length

/-- The checksum tells a block from any damaged copy of it. -/
theorem mtblCrc32c_detects (h : Damage raw raw') : mtblCrc32c raw ≠ mtblCrc32c raw' := by
  intro heq
  have hcrc : raw.foldl crc32cByte 0xFFFFFFFF = raw'.foldl crc32cByte 0xFFFFFFFF := by
    rw [mtblCrc32c,mtblCrc32c] at heq
    rw [← UInt32.not_not (a := raw.foldl crc32cByte 0xFFFFFFFF),heq,UInt32.not_not]
  have hreads := congrArg UInt32.toBitVec hcrc
  rw [crc32cBytes_toBitVec,crc32cBytes_toBitVec] at hreads
  cases h with
  | burst before after length width ne =>
    rw [before,after] at hreads
    exact reads_burst castagnoli_top _ length width ne hreads
  | odd length bits =>
    refine reads_odd castagnoli_odd (by decide) _ ?_ bits hreads
    rw [bitsOf_length,bitsOf_length,length]
  | two length short bits =>
    refine reads_two castagnoli_top castagnoli_period _ ?_ ?_ bits hreads
    · rw [bitsOf_length,bitsOf_length,length]
    · rw [bitsOf_length]
      omega

end

/-- Two flipped bits, further apart than a window. -/
theorem mtblCrc32c_detects_two : mtblCrc32c [1,2,3,4,5,6,7,8] ≠ mtblCrc32c [0,2,3,4,5,6,7,9] :=
  mtblCrc32c_detects (.two rfl (by decide) (by decide))

end Mtbl
