import Mtbl.Lib.FoldOp
import Mtbl.Merge.Complete

/-! Merges with an associative and commutative function. What they make of a key depends on its values
alone, so there is one merge of given entries, and merging may go part by part. -/
namespace Mtbl
open CRun Cursor FoldOp

section
variable {g : Bytes → Bytes → Bytes → Bytes} {es es' out out' : List Entry}

theorem valuesOf_append (k : Bytes) (es es' : List Entry) :
    valuesOf k (es++es') = valuesOf k es++valuesOf k es' := by
  rw [valuesOf,List.filter_append,List.map_append]
  rfl

theorem Merged.perm (h : Merged g none es out) (hperm : es.Perm es') : Merged g none es' out where
  ascending := h.ascending
  keys k := (h.keys k).trans (hperm.map Entry.key).mem_iff
  value e he := by
    obtain ⟨v,vs,hvs,hfold,hdup⟩ := h.value e he
    exact ⟨v,vs,hvs.trans ((hperm.filter _).map _),hfold,hdup⟩

theorem valuesOf_ascending (hasc : out.Pairwise (fun a b => a.key < b.key)) {e : Entry}
    (he : e ∈ out) : valuesOf e.key out = [e.val] := by
  induction out with
  | nil => cases he
  | cons x out ih =>
    obtain ⟨hhead,hasc'⟩ := List.pairwise_cons.mp hasc
    rcases List.mem_cons.mp he with rfl | he
    · rw [valuesOf_cons_self,valuesOf_eq_nil hhead]
    · rw [valuesOf_cons,if_neg (hhead e he).ne,ih hasc' he]

theorem valuesOf_absent {k : Bytes} (h : k ∉ es.map Entry.key) : valuesOf k es = [] := by
  rw [valuesOf,List.filter_eq_nil_iff.mpr,List.map_nil]
  intro e he hk
  exact h (List.mem_map.mpr ⟨e,he,of_decide_eq_true hk⟩)

variable [hassoc : ∀ k, Std.Associative (g k)] [hcomm : ∀ k, Std.Commutative (g k)]

/-- The values of a key fold to the same in the merge. -/
theorem Merged.foldOp_eq (h : Merged g none es out) (k : Bytes) :
    foldOp (g k) (valuesOf k out) = foldOp (g k) (valuesOf k es) := by
  by_cases hk : k ∈ out.map Entry.key
  · obtain ⟨e,he,rfl⟩ := List.mem_map.mp hk
    obtain ⟨v,vs,hvs,hfold,-⟩ := h.value e he
    rw [valuesOf_ascending h.ascending he,← foldOp_perm hvs,hfold]
    rfl
  · rw [valuesOf_absent hk,valuesOf_absent (mt (h.keys k).mpr hk)]

theorem Merged.flatten {bs outs : List (List Entry)} (h : List.Forall₂ (Merged g none) bs outs)
    (k : Bytes) : foldOp (g k) (valuesOf k outs.flatten) = foldOp (g k) (valuesOf k bs.flatten) ∧
      (k ∈ outs.flatten.map Entry.key ↔ k ∈ bs.flatten.map Entry.key) := by
  induction h with
  | nil => exact ⟨rfl,Iff.rfl⟩
  | cons hb _ ih =>
    obtain ⟨hfold,hkeys⟩ := ih
    simp only [List.flatten_cons,valuesOf_append,List.map_append,List.mem_append]
    exact ⟨foldOp_append_congr (hb.foldOp_eq k) hfold,or_congr (hb.keys k) hkeys⟩

/-- The merge of the merges of parts is the merge of the whole. -/
theorem Merged.trans {bs outs : List (List Entry)} (h : List.Forall₂ (Merged g none) bs outs)
    (hout : Merged g none outs.flatten out) : Merged g none bs.flatten out where
  ascending := hout.ascending
  keys k := (hout.keys k).trans (Merged.flatten h k).2
  value e he := by
    have hfold := (hout.foldOp_eq e.key).trans (Merged.flatten h e.key).1
    rw [valuesOf_ascending hout.ascending he] at hfold
    cases hvals : valuesOf e.key bs.flatten with
    | nil =>
      rw [hvals] at hfold
      cases hfold
    | cons v vs =>
      rw [hvals] at hfold
      refine ⟨v,vs,.refl _,Option.some.inj hfold,fun d hd => ?_⟩
      cases hd

theorem Merged.mem (h : Merged g none es out) (h' : Merged g none es out') {e : Entry}
    (he : e ∈ out) : e ∈ out' := by
  have hkey := (h'.keys e.key).mpr ((h.keys e.key).mp (List.mem_map_of_mem he))
  obtain ⟨e',he',hkeys⟩ := List.mem_map.mp hkey
  have hfold : foldOp (g e.key) (valuesOf e.key out) = foldOp (g e.key) (valuesOf e.key out') :=
    (h.foldOp_eq e.key).trans (h'.foldOp_eq e.key).symm
  have hval : valuesOf e.key out' = [e'.val] := hkeys ▸ valuesOf_ascending h'.ascending he'
  rw [valuesOf_ascending h.ascending he,hval] at hfold
  have hsame : e = e' := by
    cases e
    cases e'
    exact congrArg₂ Entry.mk hkeys.symm (Option.some.inj hfold)
  exact hsame ▸ he'

/-- With an associative and commutative merge function there is one merge. -/
theorem Merged.unique (h : Merged g none es out) (h' : Merged g none es out') : out = out' := by
  have hnodup : ∀ {l : List Entry}, l.Pairwise (fun a b => a.key < b.key) → l.Nodup :=
    fun hl => hl.imp (fun hab heq => absurd (congrArg Entry.key heq) hab.ne)
  have hperm : out.Perm out' := (List.perm_ext_iff_of_nodup (hnodup h.ascending)
    (hnodup h'.ascending)).mpr (fun e => ⟨h.mem h',h'.mem h⟩)
  apply hperm.eq_of_pairwise _ h.ascending h'.ascending
  intro a b _ _ hab hba
  exact absurd hba hab.asymm

end

end Mtbl
