import Mtbl.Merge.Take

/-! The reference merge. Entries that come sorted by key are returned key by key, the values of a
key folded in the order in which they come. -/
namespace Mtbl
open CRun Cursor

def valuesOf (k : Bytes) (es : List Entry) : List Bytes :=
  (es.filter (fun e => e.key = k)).map Entry.val

/-- The left fold of the merge function over the values of a key, if it never declines. -/
def foldValues (f : MergeFunc) (k : Bytes) : List Bytes → Option Bytes
  | [] => none
  | v::vs => vs.foldlM (f k) v

abbrev KeySorted (es : List Entry) : Prop := es.Pairwise (fun a b => a.key ≤ b.key)

/-- The entries behind a key. -/
def after (k : Bytes) (es : List Entry) : List Entry := es.filter (fun e => k < e.key)

/-- Each key once, in ascending order, with its values folded in the order given. -/
structure Folded (f : MergeFunc) (es out : List Entry) : Prop where
  ascending : out.Pairwise (fun a b => a.key < b.key)
  keys : ∀ k, k ∈ out.map Entry.key ↔ k ∈ es.map Entry.key
  value : ∀ e ∈ out, foldValues f e.key (valuesOf e.key es) = some e.val

section
variable {f : MergeFunc} {k w : Bytes} {e : Entry} {es taken out : List Entry}

theorem valuesOf_cons (k : Bytes) (e : Entry) (es : List Entry) :
    valuesOf k (e::es) = if e.key = k then e.val::valuesOf k es else valuesOf k es := by
  unfold valuesOf
  split_ifs with h
  · rw [List.filter_cons_of_pos (by simpa using h),List.map_cons]
  · rw [List.filter_cons_of_neg (by simpa using h)]

theorem valuesOf_eq_nil (h : ∀ e ∈ es, k < e.key) : valuesOf k es = [] := by
  unfold valuesOf
  rw [List.filter_eq_nil_iff.mpr (fun e he => by simpa using (h e he).ne'),List.map_nil]

theorem after_eq_self (h : ∀ e ∈ es, k < e.key) : after k es = es :=
  List.filter_eq_self.mpr (fun e he => by simpa using h e he)

/-- The values of a key behind `k` are all behind `k`. -/
theorem valuesOf_after {k' : Bytes} (h : k < k') : valuesOf k' (after k es) = valuesOf k' es := by
  unfold valuesOf after
  rw [List.filter_filter]
  refine congrArg _ (List.filter_congr (fun e _ => ?_))
  rcases eq_or_ne e.key k' with rfl | hne
  · simpa using h
  · simp [hne]

/-- One key's values are folded and the others left, if no merge declines. -/
theorem collect_folds {v : Bytes} (hk : k ≠ []) (hsorted : KeySorted taken)
    (hle : ∀ e ∈ taken, k ≤ e.key) (hfold : (valuesOf k taken).foldlM (f k) v = some w) :
    collect (some f) k v taken = (.entry ⟨k,w⟩,after k taken) := by
  induction taken generalizing v with
  | nil =>
    obtain rfl : v = w := by simpa [valuesOf] using hfold
    rfl
  | cons e taken ih =>
    obtain ⟨hehead,hsorted'⟩ := List.pairwise_cons.mp hsorted
    rw [valuesOf_cons] at hfold
    rcases (hle e (List.mem_cons_self ..)).eq_or_lt with heq | hlt
    · rw [if_pos heq.symm,List.foldlM_cons] at hfold
      obtain ⟨u,hu,hfold⟩ := Option.bind_eq_some_iff.mp hfold
      rw [collect_merged hk heq hu,ih hsorted' (fun x hx => heq ▸ hehead x hx) hfold]
      rw [after,after,List.filter_cons_of_neg (by simp [heq])]
    · have hall : ∀ x ∈ e::taken, k < x.key := by
        intro x hx
        rcases List.mem_cons.mp hx with rfl | hx
        · exact hlt
        · exact hlt.trans_le (hehead x hx)
      rw [if_neg hlt.ne',valuesOf_eq_nil (fun x hx => hall x (List.mem_cons_of_mem _ hx))] at hfold
      obtain rfl : v = w := by simpa using hfold
      rw [collect_other hk hlt.ne,after_eq_self hall]

/-- The merge of one key's values declines. -/
theorem collect_declines {v : Bytes} (hk : k ≠ []) (hsorted : KeySorted taken)
    (hle : ∀ e ∈ taken, k ≤ e.key) (hfold : (valuesOf k taken).foldlM (f k) v = none) :
    (collect (some f) k v taken).1 = .declined := by
  induction taken generalizing v with
  | nil => simp [valuesOf] at hfold
  | cons e taken ih =>
    obtain ⟨hehead,hsorted'⟩ := List.pairwise_cons.mp hsorted
    rw [valuesOf_cons] at hfold
    rcases (hle e (List.mem_cons_self ..)).eq_or_lt with heq | hlt
    · rw [if_pos heq.symm,List.foldlM_cons] at hfold
      cases hu : f k v e.val with
      | none => rw [collect_declined hk heq hu]
      | some u =>
        rw [hu] at hfold
        rw [collect_merged hk heq hu]
        exact ih hsorted' (fun x hx => heq ▸ hehead x hx) hfold
    · rw [if_neg hlt.ne',valuesOf_eq_nil (fun x hx => hlt.trans_le (hehead x hx))] at hfold
      cases hfold

theorem valuesOf_cons_self (e : Entry) (es : List Entry) :
    valuesOf e.key (e::es) = e.val::valuesOf e.key es := by
  rw [valuesOf_cons,if_pos rfl]

theorem takeNext_folds (he : e.key ≠ []) (hsorted : KeySorted (e::taken))
    (hfold : foldValues f e.key (valuesOf e.key (e::taken)) = some w) :
    takeNext (some f) (e::taken) = (.entry ⟨e.key,w⟩,after e.key (e::taken)) := by
  obtain ⟨hhead,hsorted'⟩ := List.pairwise_cons.mp hsorted
  rw [valuesOf_cons_self] at hfold
  rw [takeNext,collect_folds he hsorted' hhead hfold,after,after,List.filter_cons_of_neg (by simp)]

theorem takeNext_declines (he : e.key ≠ []) (hsorted : KeySorted (e::taken))
    (hfold : foldValues f e.key (valuesOf e.key (e::taken)) = none) :
    (takeNext (some f) (e::taken)).1 = .declined := by
  obtain ⟨hhead,hsorted'⟩ := List.pairwise_cons.mp hsorted
  rw [valuesOf_cons_self] at hfold
  exact collect_declines he hsorted' hhead hfold

/-- The first key with its fold, then the others. -/
theorem Folded.cons (hsorted : KeySorted (e::taken))
    (hfold : foldValues f e.key (valuesOf e.key (e::taken)) = some w)
    (h : Folded f (after e.key (e::taken)) out) : Folded f (e::taken) (⟨e.key,w⟩::out) := by
  have hlt : ∀ o ∈ out, e.key < o.key := by
    intro o ho
    have hmem := (h.keys o.key).mp (List.mem_map_of_mem ho)
    obtain ⟨x,hx,hxk⟩ := List.mem_map.mp hmem
    exact hxk ▸ of_decide_eq_true (List.mem_filter.mp hx).2
  refine ⟨List.pairwise_cons.mpr ⟨hlt,h.ascending⟩,fun k => ?_,fun o ho => ?_⟩
  · rw [List.map_cons,List.mem_cons,h.keys]
    constructor
    · rintro (rfl | hk)
      · simp
      · obtain ⟨x,hx,rfl⟩ := List.mem_map.mp hk
        exact List.mem_map_of_mem (List.mem_filter.mp hx).1
    · intro hk
      obtain ⟨x,hx,rfl⟩ := List.mem_map.mp hk
      have hle : e.key ≤ x.key := by
        rcases List.mem_cons.mp hx with rfl | hx
        · exact le_rfl
        · exact (List.pairwise_cons.mp hsorted).1 x hx
      rcases hle.eq_or_lt with heq | hlt
      · exact .inl heq.symm
      · exact .inr (List.mem_map_of_mem (List.mem_filter.mpr ⟨hx,by simpa using hlt⟩))
  · rcases List.mem_cons.mp ho with rfl | ho
    · exact hfold
    · rw [← valuesOf_after (hlt o ho)]
      exact h.value o ho

/-- If no merge declines and no key is empty, the entries come to the reference merge. -/
theorem exists_returned (hsorted : KeySorted taken) (hkeys : ∀ e ∈ taken, e.key ≠ [])
    (hfold : ∀ e ∈ taken, (foldValues f e.key (valuesOf e.key taken)).isSome) :
    ∃ out, Returned (some f) taken out ∧ Folded f taken out := by
  generalize hn : taken.length = n
  induction n using Nat.strong_induction_on generalizing taken with
  | h n ih =>
    cases taken with
    | nil => exact ⟨[],.nil,.nil,fun k => Iff.rfl,fun e he => absurd he List.not_mem_nil⟩
    | cons e taken =>
      obtain ⟨w,hw⟩ := Option.isSome_iff_exists.mp (hfold e (List.mem_cons_self ..))
      have hnext := takeNext_folds (hkeys e (List.mem_cons_self ..)) hsorted hw
      have hshort := takeNext_length_le (some f) (e::taken)
      rw [hnext] at hshort
      have hmem : ∀ x ∈ after e.key (e::taken), x ∈ e::taken ∧ e.key < x.key := by
        intro x hx
        exact ⟨(List.mem_filter.mp hx).1,of_decide_eq_true (List.mem_filter.mp hx).2⟩
      have hsorted' : KeySorted (after e.key (e::taken)) := hsorted.filter _
      have hfold' : ∀ x ∈ after e.key (e::taken),
          (foldValues f x.key (valuesOf x.key (after e.key (e::taken)))).isSome := by
        intro x hx
        rw [valuesOf_after (hmem x hx).2]
        exact hfold x (hmem x hx).1
      obtain ⟨out,hret,hout⟩ := ih (after e.key (e::taken)).length
        (by simp only [List.length_cons] at hshort hn; omega) hsorted'
        (fun x hx => hkeys x (hmem x hx).1) hfold' rfl
      exact ⟨_,.cons hnext hret,hout.cons hsorted hw⟩

end

end Mtbl
