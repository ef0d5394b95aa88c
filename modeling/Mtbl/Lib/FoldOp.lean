import Mathlib.Tactic

/-! Folding a list by an operation without a neutral element. If the operation is associative and
commutative, the fold depends on the items alone, and a list may be folded part by part. -/
namespace FoldOp
variable {α : Type*} (op : α → α → α)

/-- The left fold, if there is an item. -/
def foldOp : List α → Option α
  | [] => none
  | v::vs => some (vs.foldl op v)

variable {op} {xs ys : List α}

@[simp] theorem foldOp_eq_none : foldOp op xs = none ↔ xs = [] := by
  cases xs <;> simp [foldOp]

theorem foldOp_append [Std.Associative op] {a b : α} (hx : foldOp op xs = some a)
    (hy : foldOp op ys = some b) : foldOp op (xs++ys) = some (op a b) := by
  cases xs with
  | nil => cases hx
  | cons x xs =>
    cases ys with
    | nil => cases hy
    | cons y ys =>
      obtain rfl := Option.some.inj hx
      obtain rfl := Option.some.inj hy
      simp [foldOp,List.foldl_append,List.foldl_assoc]

/-- Each part may be replaced by one with the same fold. -/
theorem foldOp_append_congr [Std.Associative op] {xs' ys' : List α}
    (hx : foldOp op xs = foldOp op xs') (hy : foldOp op ys = foldOp op ys') :
    foldOp op (xs++ys) = foldOp op (xs'++ys') := by
  cases hxs : foldOp op xs with
  | none =>
    rw [foldOp_eq_none.mp hxs,foldOp_eq_none.mp (hx.symm.trans hxs)]
    exact hy
  | some a =>
    cases hys : foldOp op ys with
    | none =>
      rw [foldOp_eq_none.mp hys,foldOp_eq_none.mp (hy.symm.trans hys),List.append_nil,
        List.append_nil]
      exact hx
    | some b => rw [foldOp_append hxs hys,foldOp_append (hx.symm.trans hxs) (hy.symm.trans hys)]

theorem foldOp_perm [Std.Associative op] [Std.Commutative op] (h : xs.Perm ys) :
    foldOp op xs = foldOp op ys := by
  induction h with
  | nil => rfl
  | cons x h ih => exact congrArg some (h.foldl_eq _)
  | swap x y l => simp only [foldOp,List.foldl_cons,Std.Commutative.comm x y]
  | trans _ _ ih1 ih2 => exact ih1.trans ih2

/-- Operations that agree on all partial folds fold alike. -/
theorem foldl_congr_partial {op' : α → α → α} {v : α} {vs : List α}
    (h : ∀ ws w, ws++[w] <+: vs → op' (ws.foldl op v) w = op (ws.foldl op v) w) :
    vs.foldl op' v = vs.foldl op v := by
  induction vs generalizing v with
  | nil => rfl
  | cons w vs ih =>
    have hfirst : op' v w = op v w := h [] w (List.prefix_iff_eq_append.mpr rfl)
    rw [List.foldl_cons,List.foldl_cons,hfirst]
    exact ih (fun ws x hx => h (w::ws) x (by simpa using hx))

end FoldOp
