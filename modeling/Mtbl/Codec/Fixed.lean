import Mtbl.Bytes.Compare
import Mtbl.Lib.CRun

/-! Fixed-width little-endian integers. -/
namespace Mtbl
open CRun

/-- The low `n` bytes of a value, lowest first. -/
def leBytes : ℕ → ℕ → Bytes
  | 0,_ => []
  | n+1,v => UInt8.ofNat v::leBytes n (v/256)

/-- The number that `n` leading bytes spell, lowest first. -/
def leValue : ℕ → Bytes → Run ℕ
  | 0,_ => .ok 0
  | _+1,[] => .error .outOfBounds
  | n+1,b::bs => do
    let v ← leValue n bs
    return b.toNat+256*v

def mtblFixedEncode32 (value : ℕ) : Bytes := leBytes 4 value
def mtblFixedEncode64 (value : ℕ) : Bytes := leBytes 8 value
def mtblFixedDecode32 (ptr : Bytes) : Run ℕ := leValue 4 ptr
def mtblFixedDecode64 (ptr : Bytes) : Run ℕ := leValue 8 ptr

@[simp] theorem leBytes_length (n v : ℕ) : (leBytes n v).length = n := by
  induction n generalizing v with
  | zero => rfl
  | succ n ih => simp [leBytes,ih]

theorem leValue_leBytes (n v : ℕ) (rest : Bytes) :
    leValue n (leBytes n v++rest) = .ok (v%256^n) := by
  induction n generalizing v with
  | zero => simp [leValue,Nat.mod_one]
  | succ n ih =>
    simp only [leBytes,List.cons_append,leValue,ih,ok_bind,pure_eq_ok,UInt8.toNat_ofNat']
    rw [pow_succ 256 n,Nat.mul_comm (256^n) 256,Nat.mod_mul]

/-- Enough bytes spell a number, which is below the limit their count sets. -/
theorem leValue_ok {n : ℕ} {bs : Bytes} (h : n ≤ bs.length) :
    ∃ v, leValue n bs = .ok v ∧ v < 256^n := by
  induction n generalizing bs with
  | zero => exact ⟨0,rfl,by simp⟩
  | succ n ih =>
    cases bs with
    | nil => simp at h
    | cons b bs =>
      obtain ⟨v,hv,hlt⟩ := ih (Nat.le_of_succ_le_succ h)
      have hb := b.toNat_lt
      refine ⟨b.toNat+256*v,by rw [leValue,hv]; rfl,?_⟩
      rw [pow_succ]
      omega

theorem leValue_short {n : ℕ} {bs : Bytes} (h : bs.length < n) :
    leValue n bs = .error .outOfBounds := by
  induction n generalizing bs with
  | zero => exact absurd h (Nat.not_lt_zero _)
  | succ n ih =>
    cases bs with
    | nil => rfl
    | cons b bs => rw [leValue,ih (Nat.lt_of_succ_lt_succ h),error_bind]

/-- The bytes behind the number do not matter. -/
theorem leValue_grow {n v : ℕ} {bs bs' : Bytes} (h : leValue n bs = .ok v) (hpre : bs <+: bs') :
    leValue n bs' = .ok v := by
  induction n generalizing v bs bs' with
  | zero => exact h
  | succ n ih =>
    cases bs with
    | nil => cases h
    | cons b bs =>
      obtain ⟨rest,rfl⟩ := hpre
      obtain ⟨w,hw,hv⟩ := bind_eq_ok.mp h
      rw [List.cons_append,leValue,ih hw (List.prefix_append bs rest)]
      exact hv

theorem leValue_lt {n v : ℕ} {bs : Bytes} (h : leValue n bs = .ok v) :
    v < 256^n ∧ n ≤ bs.length := by
  induction n generalizing bs v with
  | zero =>
    obtain rfl : 0 = v := Except.ok.inj h
    simp
  | succ n ih =>
    cases bs with
    | nil => cases h
    | cons b bs =>
      obtain ⟨w,hw,hv⟩ := bind_eq_ok.mp h
      obtain rfl := Except.ok.inj hv
      obtain ⟨hlt,hle⟩ := ih hw
      have hb := b.toNat_lt
      rw [pow_succ,List.length_cons]
      omega

@[simp] theorem mtblFixedEncode32_length (v : ℕ) : (mtblFixedEncode32 v).length = 4 :=
  leBytes_length 4 v

@[simp] theorem mtblFixedEncode64_length (v : ℕ) : (mtblFixedEncode64 v).length = 8 :=
  leBytes_length 8 v

theorem mtblFixedDecode32_encode32 (v : ℕ) (rest : Bytes) :
    mtblFixedDecode32 (mtblFixedEncode32 v++rest) = .ok (v%2^32) := leValue_leBytes 4 v rest

theorem mtblFixedDecode64_encode64 (v : ℕ) (rest : Bytes) :
    mtblFixedDecode64 (mtblFixedEncode64 v++rest) = .ok (v%2^64) := leValue_leBytes 8 v rest

/-- Indexing into a concatenation of encodings of one width. -/
theorem flatMap_drop (f : ℕ → Bytes) (w : ℕ) (hf : ∀ v, (f v).length = w) (xs : List ℕ)
    {i v : ℕ} (hi : xs[i]? = some v) : ∃ rest, (xs.flatMap f).drop (i*w) = f v++rest := by
  induction xs generalizing i with
  | nil => simp at hi
  | cons x xs ih =>
    cases i with
    | zero =>
      obtain rfl : x = v := by simpa using hi
      exact ⟨xs.flatMap f,by simp⟩
    | succ i =>
      obtain ⟨rest,hrest⟩ := ih (i := i) (by simpa using hi)
      refine ⟨rest,?_⟩
      rw [List.flatMap_cons,← hrest,show (i+1)*w = (f x).length+i*w by rw [hf]; ring,
        List.drop_length_add_append]

theorem flatMap_length (f : ℕ → Bytes) (w : ℕ) (hf : ∀ v, (f v).length = w) (xs : List ℕ) :
    (xs.flatMap f).length = xs.length*w := by
  induction xs with
  | nil => simp
  | cons x xs ih => simp only [List.flatMap_cons,List.length_append,hf,ih,List.length_cons]; ring

end Mtbl
