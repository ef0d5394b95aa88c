import Mtbl.Lib.Loop

/-! Blocks of memory and the programs that ask for them. A cell holds what was last written to it; one
that was not written since the block was allocated holds nothing that a program may read. A program
over an allocator that may refuse either does what it should or stops where it was refused. -/
namespace CRun
universe u

/-- The cells of a block, in order. -/
abbrev Memory (α : Type*) := List (Option α)

namespace Memory
variable {α : Type u}

def fresh (n : ℕ) : Memory α := List.replicate n none

/-- The cells that both sizes have are kept. -/
def resize (m : Memory α) (n : ℕ) : Memory α := m.take n++fresh (n-m.length)

def store (m : Memory α) (i : ℕ) (xs : List α) : Run (Memory α) :=
  if i+xs.length ≤ m.length then .ok (m.take i++xs.map some++m.drop (i+xs.length))
  else .error .outOfBounds

/-- Cells without a value count as outside the block. -/
def load (m : Memory α) (i : ℕ) : Run α :=
  match m[i]? with
  | some (some x) => .ok x
  | _ => .error .outOfBounds

/-- The first `n` cells, all of which must have been written. -/
def loadAll : Memory α → ℕ → Run (List α)
  | _,0 => .ok []
  | some x::m,n+1 => do
    let xs ← loadAll m n
    return x::xs
  | _,_+1 => .error .outOfBounds

/-- The first cells hold these items. -/
def Begins (m : Memory α) (xs : List α) : Prop := xs.map some <+: m

variable {m : Memory α} {xs ys : List α}

@[simp] theorem fresh_length (n : ℕ) : (fresh n : Memory α).length = n := List.length_replicate

@[simp] theorem resize_length (m : Memory α) (n : ℕ) : (resize m n).length = n := by
  rw [resize,List.length_append,List.length_take,fresh_length]
  omega

@[simp] theorem Begins.nil (m : Memory α) : Begins m [] := List.nil_prefix

theorem Begins.length_le (h : Begins m xs) : xs.length ≤ m.length := by
  have hle := List.IsPrefix.length_le h
  rwa [List.length_map] at hle

theorem Begins.of_append (h : Begins m (xs++ys)) : Begins m xs := by
  rw [Begins,List.map_append] at h
  exact (List.prefix_append ..).trans h

theorem Begins.take (h : Begins m xs) (n : ℕ) : Begins m (xs.take n) := by
  apply @Begins.of_append _ _ _ (xs.drop n)
  rwa [List.take_append_drop]

theorem Begins.resize (h : Begins m xs) {n : ℕ} (hn : xs.length ≤ n) : Begins (m.resize n) xs := by
  refine List.IsPrefix.trans ?_ (List.prefix_append ..)
  rw [List.prefix_take_iff]
  exact ⟨h,by rwa [List.length_map]⟩

theorem Begins.store (h : Begins m xs) (hfit : xs.length+ys.length ≤ m.length) :
    ∃ m', store m xs.length ys = .ok m' ∧ m'.length = m.length ∧ Begins m' (xs++ys) := by
  refine ⟨_,if_pos hfit,?_,?_⟩
  · simp only [List.length_append,List.length_take,List.length_map,List.length_drop]
    omega
  · have htake : m.take xs.length = xs.map some := by
      have := List.prefix_iff_eq_take.mp h
      rw [List.length_map] at this
      exact this.symm
    rw [Begins,htake,List.map_append]
    exact List.prefix_append ..

theorem Begins.load (h : Begins m xs) {i : ℕ} (hi : i < xs.length) : load m i = .ok xs[i] := by
  obtain ⟨rest,rfl⟩ := h
  have hcell : (xs.map some++rest)[i]? = some (some xs[i]) := by
    rw [List.getElem?_append_left (by rwa [List.length_map]),List.getElem?_map,
      List.getElem?_eq_getElem hi]
    rfl
  rw [Memory.load,hcell]

theorem Begins.loadAll (h : Begins m xs) : loadAll m xs.length = .ok xs := by
  obtain ⟨rest,rfl⟩ := h
  induction xs with
  | nil => simp only [List.length_nil,Memory.loadAll]
  | cons x xs ih =>
    rw [List.map_cons,List.cons_append,List.length_cons,Memory.loadAll,ih]
    rfl

end Memory

/-! ### Objects that are freed -/

/-- The objects allocated so far, `none` where one was freed. A pointer is the place of an object, or
`none` for the null pointer. -/
abbrev Objects (α : Type*) := List (Option α)

namespace Objects
variable {α : Type u}

def read (o : Objects α) : Option ℕ → Run α
  | none => .error .nullDeref
  | some a =>
    match o[a]? with
    | some (some x) => .ok x
    | _ => .error .useAfterFree

def modify (o : Objects α) (f : α → Run α) : Option ℕ → Run (Objects α)
  | none => .error .nullDeref
  | some a => do
    let x ← o.read (some a)
    let y ← f x
    return o.set a (some y)

def free (o : Objects α) : Option ℕ → Run (Objects α)
  | none => .ok o
  | some a => do
    let _ ← o.read (some a)
    return o.set a none

/-- The object that the pointer leads to is freed wherever the new one is: what else points to it
points to nothing from now on. -/
def realloc (o : Objects α) (empty : α) (f : α → Run α) (p : Option ℕ) :
    Run (Objects α × Option ℕ) := do
  let x ← if p.isNone then .ok empty else o.read p
  let y ← f x
  let o ← o.free p
  return (o++[some y],some o.length)

/-- The object is there and holds this. -/
def Live (o : Objects α) (a : ℕ) (x : α) : Prop := o[a]? = some (some x)

variable {o : Objects α} {a : ℕ} {x y : α}

theorem Live.lt (h : o.Live a x) : a < o.length := (List.getElem?_eq_some_iff.mp h).1

theorem Live.read (h : o.Live a x) : o.read (some a) = .ok x := by
  rw [Live] at h
  simp only [Objects.read,h]

theorem Live.modify (h : o.Live a x) {f : α → Run α} (hf : f x = .ok y) :
    o.modify f (some a) = .ok (List.set o a (some y)) ∧ Live (List.set o a (some y)) a y := by
  refine ⟨?_,List.getElem?_set_self h.lt⟩
  rw [Objects.modify,h.read,ok_bind,hf,ok_bind,pure_eq_ok]

theorem Live.free (h : o.Live a x) : o.free (some a) = .ok (List.set o a none) := by
  rw [Objects.free,h.read,ok_bind,pure_eq_ok]

theorem Live.realloc (h : o.Live a x) {f : α → Run α} {empty : α} (hf : f x = .ok y) :
    ∃ o' b, o.realloc empty f (some a) = .ok (o',some b) ∧ Live o' b y := by
  refine ⟨List.set o a none++[some y],(List.set o a none).length,?_,List.getElem?_concat_length⟩
  rw [Objects.realloc,if_neg (by simp),h.read,ok_bind]
  dsimp only
  rw [hf,ok_bind,h.free,ok_bind,pure_eq_ok]

theorem Live.realloc_refused (h : o.Live a x) {f : α → Run α} {empty : α} {e : Fault}
    (hf : f x = .error e) : o.realloc empty f (some a) = .error e := by
  rw [Objects.realloc,if_neg (by simp),h.read,ok_bind]
  dsimp only
  rw [hf,error_bind]

end Objects

/-! ### Programs that ask for memory -/

variable {α β : Type u}

/-- The run returns what it should, or fails an assertion where it was not granted everything. -/
def Granted (grants : Prop) (x : Run α) (P : α → Prop) : Prop :=
  (∃ a, x = .ok a ∧ P a) ∨ x = .error .assertion ∧ ¬ grants

variable {grants grants' : Prop} {x : Run α} {P P' : α → Prop}

theorem Granted.ok {a : α} (h : P a) : Granted grants (.ok a) P := .inl ⟨a,rfl,h⟩

theorem Granted.check {p : Prop} [Decidable p] (h : grants → p) :
    Granted grants (check p) (fun _ => p) := by
  by_cases hp : p
  · exact .inl ⟨(),if_pos hp,hp⟩
  · exact .inr ⟨if_neg hp,fun hg => hp (h hg)⟩

theorem Granted.imp (h : Granted grants x P) (hP : ∀ a, P a → P' a) : Granted grants x P' :=
  h.imp_left (fun ⟨a,ha,hPa⟩ => ⟨a,ha,hP a hPa⟩)

/-- Granting more is enough too. -/
theorem Granted.mono (h : Granted grants x P) (hg : grants' → grants) : Granted grants' x P :=
  h.imp_right (fun ⟨hx,hn⟩ => ⟨hx,fun hg' => hn (hg hg')⟩)

theorem Granted.bind {f : α → Run β} {Q : β → Prop} (hx : Granted grants x P)
    (hf : ∀ a, P a → Granted grants (f a) Q) : Granted grants (x >>= f) Q := by
  rcases hx with ⟨a,rfl,ha⟩ | ⟨rfl,hn⟩
  · exact hf a ha
  · exact .inr ⟨rfl,hn⟩

/-- Where everything is granted there is a result. -/
theorem Granted.returns (h : Granted grants x P) (hg : grants) : ∃ a, x = .ok a ∧ P a :=
  h.resolve_right (fun hn => hn.2 hg)

theorem Granted.of_ok {a : α} (h : Granted grants x P) (hx : x = .ok a) : P a := by
  rcases h with ⟨b,hb,hP⟩ | ⟨herr,-⟩
  · exact Except.ok.inj (hx.symm.trans hb) ▸ hP
  · exact absurd (hx.symm.trans herr) (fun h => by cases h)

end CRun
