import Mathlib.Tactic
import Mathlib.Data.List.Lex

/-! Byte strings and `bytes_compare`. Keys are ordered by unsigned bytes, a proper prefix before
its extensions, which is the lexicographic order of the lists. -/

/-- Bytes in their unsigned order, so that byte strings carry the lexicographic linear order. -/
instance uint8LinearOrder : LinearOrder UInt8 where
  le_refl := UInt8.le_refl
  le_trans _ _ _ := UInt8.le_trans
  le_antisymm _ _ := UInt8.le_antisymm
  le_total := UInt8.le_total
  lt_iff_le_not_ge a b := by
    rw [UInt8.lt_iff_toNat_lt,UInt8.le_iff_toNat_le,UInt8.le_iff_toNat_le]
    omega
  toDecidableLE := inferInstance
  toDecidableLT := inferInstance

namespace Mtbl

abbrev Bytes := List UInt8

/-- A key with its value. -/
structure Entry where
  key : Bytes
  val : Bytes
  deriving DecidableEq, Repr

/-- The address of the first of some bytes in memory, and the bytes before it that can be read. -/
structure Front where
  address : ℕ
  bytes : Bytes
  deriving DecidableEq, Repr

/-- The C library's `memcmp` over `n` bytes, as the difference of the first two bytes that
differ. -/
def memcmp : Bytes → Bytes → ℕ → ℤ
  | a::as,b::bs,n+1 => if a = b then memcmp as bs n else (a.toNat : ℤ)-b.toNat
  | _,_,_ => 0

/-- `bytes_compare` with the lengths it is passed. -/
def bytesCompareLen (a : Bytes) (lenA : ℕ) (b : Bytes) (lenB : ℕ) : ℤ :=
  let len := if lenA > lenB then lenB else lenA
  let ret := memcmp a b len
  if ret = 0 then
    if lenA < lenB then -1 else if lenA = lenB then 0 else 1
  else ret

def bytesCompare (a b : Bytes) : ℤ := bytesCompareLen a a.length b b.length

@[simp] theorem bytesCompare_nil_nil : bytesCompare [] [] = 0 := rfl

@[simp] theorem bytesCompare_nil_cons (b : UInt8) (bs : Bytes) :
    bytesCompare [] (b::bs) = -1 := by
  simp [bytesCompare,bytesCompareLen,memcmp]

@[simp] theorem bytesCompare_cons_nil (a : UInt8) (as : Bytes) :
    bytesCompare (a::as) [] = 1 := by
  simp [bytesCompare,bytesCompareLen,memcmp]

theorem bytesCompare_cons_cons (a b : UInt8) (as bs : Bytes) :
    bytesCompare (a::as) (b::bs) =
      if a = b then bytesCompare as bs else (a.toNat : ℤ)-b.toNat := by
  have hlen : (if (a::as).length > (b::bs).length then (b::bs).length else (a::as).length) =
      (if as.length > bs.length then bs.length else as.length)+1 := by
    simp only [List.length_cons]
    split_ifs <;> omega
  unfold bytesCompare bytesCompareLen
  rw [hlen]
  by_cases h : a = b
  · subst h
    simp only [memcmp,if_true]
    simp only [List.length_cons,Nat.add_lt_add_iff_right,Nat.add_right_cancel_iff]
  · have hn : (a.toNat : ℤ)-b.toNat ≠ 0 := by
      have : a.toNat ≠ b.toNat := fun hh => h (UInt8.toNat_inj.mp hh)
      omega
    simp only [memcmp,h,if_false,hn]

/-- `bytes_compare` is the three-way comparison of the lexicographic order. -/
theorem bytesCompare_spec (a b : Bytes) :
    (bytesCompare a b < 0 ↔ a < b) ∧ (bytesCompare a b = 0 ↔ a = b) := by
  induction a generalizing b with
  | nil => cases b <;> simp [List.nil_lt_cons]
  | cons x as ih =>
    cases b with
    | nil => simp
    | cons y bs =>
      rw [bytesCompare_cons_cons,List.cons_lt_cons_iff]
      by_cases h : x = y
      · subst h
        simpa using ih bs
      · have hxy : x.toNat ≠ y.toNat := fun hh => h (UInt8.toNat_inj.mp hh)
        simp only [h,if_false,UInt8.lt_iff_toNat_lt,List.cons.injEq,false_and,or_false]
        exact ⟨by omega,by simpa using fun hh => hxy (by omega)⟩

@[simp] theorem bytesCompare_neg (a b : Bytes) : bytesCompare a b < 0 ↔ a < b :=
  (bytesCompare_spec a b).1

@[simp] theorem bytesCompare_eq_zero (a b : Bytes) : bytesCompare a b = 0 ↔ a = b :=
  (bytesCompare_spec a b).2

@[simp] theorem bytesCompare_pos (a b : Bytes) : 0 < bytesCompare a b ↔ b < a := by
  have h := bytesCompare_spec a b
  constructor
  · intro hp
    rcases lt_trichotomy a b with hab | hab | hab
    · have := h.1.mpr hab
      omega
    · have := h.2.mpr hab
      omega
    · exact hab
  · intro hp
    have h1 : ¬ bytesCompare a b < 0 := fun hh => lt_asymm hp (h.1.mp hh)
    have h2 : bytesCompare a b ≠ 0 := fun hh => hp.ne' (h.2.mp hh)
    omega

@[simp] theorem bytesCompare_nonpos (a b : Bytes) : bytesCompare a b ≤ 0 ↔ a ≤ b := by
  rw [← not_lt,bytesCompare_pos,not_lt]

@[simp] theorem bytesCompare_nonneg (a b : Bytes) : 0 ≤ bytesCompare a b ↔ b ≤ a := by
  rw [← not_lt,bytesCompare_neg,not_lt]

theorem memcmp_take (a b : Bytes) (n : ℕ) : memcmp (a.take n) b n = memcmp a b n := by
  induction n generalizing a b with
  | zero => cases a <;> cases b <;> simp [memcmp]
  | succ n ih =>
    cases a with
    | nil => simp
    | cons x as =>
      cases b with
      | nil => simp [memcmp]
      | cons y bs => simp [memcmp,ih]

/-- Only the bytes both lengths cover are read. -/
theorem bytesCompareLen_take (a b : Bytes) (lenA lenB : ℕ) :
    bytesCompareLen (a.take (min lenA lenB)) lenA b lenB = bytesCompareLen a lenA b lenB := by
  have h : (if lenA > lenB then lenB else lenA) = min lenA lenB := by split <;> omega
  simp only [bytesCompareLen,h,memcmp_take]

example : bytesCompare [1,255] [2] < 0 := by decide

end Mtbl
