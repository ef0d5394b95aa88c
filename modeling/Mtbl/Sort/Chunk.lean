import Mtbl.Sort.Sorter

/-! What a chunk holds: each key of its batch once, with the values folded in the order in which
`qsort` leaves them. The loop does so by writing the merged entry into the next slot, so it works as
long as its 32-bit counter reaches every slot. -/
namespace Mtbl
open CRun Cursor

/-- The entries that the loop adds from the current one on, or `none` if a merge declines. -/
def chunkFrom (f : MergeFunc) (e : Entry) : List Entry → Option (List Entry)
  | [] => some [e]
  | e'::rest =>
    if e.key = e'.key then
      match f e.key e.val e'.val with
      | none => none
      | some v => chunkFrom f ⟨e.key,v⟩ rest
    else (chunkFrom f e' rest).map (fun out => e::out)

/-- The merge function with the length of its result stored in 32 bits. -/
def narrowMerge (f : MergeFunc) : MergeFunc := fun k a b => (f k a b).map narrowVal

section
variable {f : MergeFunc} {e : Entry} {rest out : List Entry}

/-- A merged pair has the keys of the two and their fold. -/
theorem foldValues_merged {v : Bytes} {e' : Entry} (hkey : e.key = e'.key)
    (hv : f e.key e.val e'.val = some v) (k : Bytes) :
    foldValues f k (valuesOf k (⟨e.key,v⟩::rest)) = foldValues f k (valuesOf k (e::e'::rest)) := by
  simp only [valuesOf_cons,← hkey]
  split_ifs with hk
  · subst hk
    simp [foldValues,hv]
  · rfl

theorem Folded.merged_pair {v : Bytes} {e' : Entry} (hkey : e.key = e'.key)
    (hv : f e.key e.val e'.val = some v) (h : Folded f (⟨e.key,v⟩::rest) out) :
    Folded f (e::e'::rest) out where
  ascending := h.ascending
  keys k := by
    rw [h.keys]
    simp [← hkey]
  value x hx := by
    rw [← foldValues_merged hkey hv]
    exact h.value x hx

/-- The chunk holds the fold of each key's values; if it declines, one of these folds does. -/
theorem chunkFrom_folded (hsorted : KeySorted (e::rest)) :
    (∀ out, chunkFrom f e rest = some out → Folded f (e::rest) out) ∧
      (chunkFrom f e rest = none →
        ∃ x ∈ e::rest, foldValues f x.key (valuesOf x.key (e::rest)) = none) := by
  induction rest generalizing e with
  | nil =>
    refine ⟨fun out hout => ?_,fun h => by cases h⟩
    obtain rfl := Option.some.inj hout
    refine ⟨List.pairwise_singleton ..,fun k => Iff.rfl,fun x hx => ?_⟩
    obtain rfl := List.mem_singleton.mp hx
    rw [valuesOf_cons_self]
    rfl
  | cons e' rest ih =>
    obtain ⟨hhead,hsorted'⟩ := List.pairwise_cons.mp hsorted
    rw [chunkFrom]
    split_ifs with hkey
    · cases hv : f e.key e.val e'.val with
      | none =>
        refine ⟨fun out hout => (by cases hout),fun _ => ⟨e,List.mem_cons_self ..,?_⟩⟩
        simp [valuesOf_cons,← hkey,foldValues,hv]
      | some v =>
        have hsorted'' : KeySorted (⟨e.key,v⟩::rest) :=
          List.pairwise_cons.mpr ⟨fun x hx => hhead x (List.mem_cons_of_mem _ hx),
            (List.pairwise_cons.mp hsorted').2⟩
        obtain ⟨hsome,hnone⟩ := ih hsorted''
        refine ⟨fun out hout => (hsome out hout).merged_pair hkey hv,fun h => ?_⟩
        obtain ⟨x,hx,hfold⟩ := hnone h
        rw [foldValues_merged hkey hv] at hfold
        rcases List.mem_cons.mp hx with rfl | hx
        · exact ⟨e,List.mem_cons_self ..,hfold⟩
        · exact ⟨x,by simp [hx],hfold⟩
    · have hlt : e.key < e'.key := lt_of_le_of_ne (hhead e' (List.mem_cons_self ..)) hkey
      have hall : ∀ x ∈ e'::rest, e.key < x.key := by
        intro x hx
        rcases List.mem_cons.mp hx with rfl | hx
        · exact hlt
        · exact hlt.trans_le ((List.pairwise_cons.mp hsorted').1 x hx)
      have hafter : after e.key (e::e'::rest) = e'::rest := by
        rw [after,List.filter_cons_of_neg (by simp)]
        exact after_eq_self hall
      have hown : foldValues f e.key (valuesOf e.key (e::e'::rest)) = some e.val := by
        rw [valuesOf_cons_self,valuesOf_eq_nil hall]
        rfl
      obtain ⟨hsome,hnone⟩ := ih hsorted'
      refine ⟨fun out hout => ?_,fun h => ?_⟩
      · obtain ⟨out',hout',rfl⟩ := Option.map_eq_some_iff.mp hout
        exact Folded.cons hsorted hown (hafter.symm ▸ hsome out' hout')
      · obtain ⟨x,hx,hfold⟩ := hnone (Option.map_eq_none_iff.mp h)
        refine ⟨x,List.mem_cons_of_mem _ hx,?_⟩
        rw [valuesOf_cons,if_neg (hall x hx).ne]
        exact hfold

end

/-! ### The loop -/

/-- The vector with the first slots freed. -/
def slotsFrom (i : ℕ) (entries : List Entry) : List (Option Entry) :=
  List.replicate i none++entries.map some

theorem slotsFrom_get (i j : ℕ) (entries : List Entry) :
    slotEntry (slotsFrom i entries) (i+j) = match entries[j]? with
      | none => .error .assertion
      | some e => .ok e := by
  simp only [slotEntry,slotsFrom]
  rw [List.getElem?_append_right (by simp),List.length_replicate,Nat.add_sub_cancel_left,
    List.getElem?_map]
  cases entries[j]? <;> rfl

theorem slotsFrom_freed {i j : ℕ} (hj : j < i) (entries : List Entry) :
    slotEntry (slotsFrom i entries) j = .error .useAfterFree := by
  simp only [slotEntry,slotsFrom]
  rw [List.getElem?_append_left (by simpa using hj),List.getElem?_replicate,if_pos hj]

@[simp] theorem slotsFrom_length (i : ℕ) (entries : List Entry) :
    (slotsFrom i entries).length = i+entries.length := by
  simp [slotsFrom]

theorem slotsFrom_set (i : ℕ) (e : Entry) (entries : List Entry) :
    (slotsFrom i (e::entries)).set i none = slotsFrom (i+1) entries := by
  simp only [slotsFrom,List.map_cons]
  rw [List.set_append_right _ _ (by simp),List.length_replicate,Nat.sub_self,List.set_cons_zero,
    List.replicate_succ',List.append_assoc]
  rfl

theorem slotsFrom_merge (i : ℕ) (e e' m : Entry) (entries : List Entry) :
    ((slotsFrom i (e::e'::entries)).set i none).set (i+1) (some m) =
      slotsFrom (i+1) (m::entries) := by
  rw [slotsFrom_set]
  simp only [slotsFrom,List.map_cons]
  rw [List.set_append_right _ _ (by simp),List.length_replicate,Nat.sub_self,List.set_cons_zero]

/-- The counter does not wrap. -/
theorem nextIndex_eq {i : ℕ} (h : i+1 < 2^32) : nextIndex i = i+1 := Nat.mod_eq_of_lt h

/-- The counter wraps to the first slot. -/
theorem nextIndex_wraps {i : ℕ} (h : i+1 = 2^32) : nextIndex i = 0 := by
  rw [nextIndex,h,Nat.mod_self]

section
variable {f : MergeFunc} {e e' : Entry} {rest written : List Entry} {i n : ℕ}

theorem nextSame_last (hi : i+1 < 2^32) :
    nextSame (slotsFrom i [e]) e (nextIndex i) = .ok none := by
  rw [nextIndex_eq hi]
  simp [nextSame]

theorem nextSame_cons (hi : i+1 < 2^32) :
    nextSame (slotsFrom i (e::e'::rest)) e (nextIndex i) =
      .ok (if e.key = e'.key then some e' else none) := by
  have hget : slotEntry (slotsFrom i (e::e'::rest)) (i+1) = .ok e' := by
    rw [slotsFrom_get]
    rfl
  have hlt : i+1 < (slotsFrom i (e::e'::rest)).length := by
    rw [slotsFrom_length,List.length_cons,List.length_cons]
    omega
  simp only [nextIndex_eq hi,nextSame,if_pos hlt,hget,ok_bind,bytesCompare_eq_zero,pure_eq_ok]

theorem slotEntry_head : slotEntry (slotsFrom i (e::rest)) i = .ok e := by
  have := slotsFrom_get i 0 (e::rest)
  rwa [Nat.add_zero] at this

/-- The current entry is added to the chunk. -/
theorem writeChunkLoop_add (hsame : nextSame (slotsFrom i (e::rest)) e (nextIndex i) = .ok none)
    (hwritten : ∀ x ∈ written, x.key < e.key) :
    writeChunkLoop (some f) (n+1) i (slotsFrom i (e::rest)) written =
      writeChunkLoop (some f) n (nextIndex i) (slotsFrom (i+1) rest) (written++[e]) := by
  have hlt : i < (slotsFrom i (e::rest)).length := by simp
  have haccepts : accepts (written.getLast?.map Entry.key) e.key = true := by
    cases hlast : written.getLast? with
    | none => rfl
    | some x => simpa [accepts] using hwritten x (List.mem_of_getLast? hlast)
  simp only [writeChunkLoop,if_pos hlt,slotEntry_head,ok_bind,hsame,haccepts,if_true,slotsFrom_set]

/-- The current entry is merged into the next one. -/
theorem writeChunkLoop_merge {v : Bytes} (hi : i+1 < 2^32) (hkey : e.key = e'.key)
    (hv : f e.key e.val e'.val = some v) :
    writeChunkLoop (some f) (n+1) i (slotsFrom i (e::e'::rest)) written =
      writeChunkLoop (some f) n (i+1) (slotsFrom (i+1) (⟨e.key,narrowVal v⟩::rest)) written := by
  have hlt : i < (slotsFrom i (e::e'::rest)).length := by simp
  rw [writeChunkLoop,if_pos hlt,slotEntry_head]
  simp only [ok_bind,nextSame_cons hi,if_pos hkey,hv]
  rw [nextIndex_eq hi,slotsFrom_merge]

/-- The loop over a batch whose slots the counter reaches. -/
theorem writeChunkLoop_spec (hsorted : KeySorted (e::rest)) (hi : i+(e::rest).length < 2^32)
    (hn : (e::rest).length < n) (hwritten : ∀ x ∈ written, x.key < e.key) :
    ∃ how out, writeChunkLoop (some f) n i (slotsFrom i (e::rest)) written = .ok (how,out) ∧
      match chunkFrom (narrowMerge f) e rest with
      | none => how = .declined
      | some es => how = .done ∧ out = written++es := by
  induction rest generalizing e i n written with
  | nil =>
    obtain ⟨n,rfl⟩ := Nat.exists_eq_add_of_lt hn
    have hi' : i+1 < 2^32 := hi
    refine ⟨.done,written++[e],?_,rfl,rfl⟩
    rw [show [e].length+n+1 = (n+1)+1 by simp; omega,
      writeChunkLoop_add (nextSame_last hi') hwritten,nextIndex_eq hi']
    simp [writeChunkLoop]
  | cons e' rest ih =>
    obtain ⟨hhead,hsorted'⟩ := List.pairwise_cons.mp hsorted
    obtain ⟨n,rfl⟩ := Nat.exists_eq_add_of_lt hn
    simp only [List.length_cons] at hi hn ih ⊢
    rw [chunkFrom]
    by_cases hkey : e.key = e'.key
    · rw [if_pos hkey]
      cases hv : f e.key e.val e'.val with
      | none =>
        have hlt : i < (slotsFrom i (e::e'::rest)).length := by simp
        refine ⟨.declined,written,?_,by simp [narrowMerge,hv]⟩
        rw [writeChunkLoop,if_pos hlt,slotEntry_head]
        simp only [ok_bind,nextSame_cons (show i+1 < 2^32 by omega),if_pos hkey,hv,pure_eq_ok]
      | some v =>
        have hsorted'' : KeySorted (⟨e.key,narrowVal v⟩::rest) :=
          List.pairwise_cons.mpr ⟨fun x hx => hhead x (List.mem_cons_of_mem _ hx),
            (List.pairwise_cons.mp hsorted').2⟩
        obtain ⟨how,out,hrun,hpost⟩ := ih (i := i+1) (n := rest.length+1+n+1) hsorted'' (by omega)
          (by omega) hwritten
        refine ⟨how,out,?_,by simpa [narrowMerge,hv] using hpost⟩
        rw [show rest.length+1+1+n+1 = (rest.length+1+n+1)+1 by omega,
          writeChunkLoop_merge (by omega) hkey hv,hrun]
    · have hlt : e.key < e'.key := lt_of_le_of_ne (hhead e' (List.mem_cons_self ..)) hkey
      have hwritten' : ∀ x ∈ written++[e], x.key < e'.key := by
        intro x hx
        rcases List.mem_append.mp hx with hx | hx
        · exact (hwritten x hx).trans hlt
        · exact List.mem_singleton.mp hx ▸ hlt
      have hsame : nextSame (slotsFrom i (e::e'::rest)) e (nextIndex i) = .ok none := by
        rw [nextSame_cons (show i+1 < 2^32 by omega),if_neg hkey]
      obtain ⟨how,out,hrun,hpost⟩ := ih (i := i+1) (n := rest.length+1+n+1) hsorted' (by omega)
        (by omega) hwritten'
      refine ⟨how,out,?_,?_⟩
      · rw [show rest.length+1+1+n+1 = (rest.length+1+n+1)+1 by omega,
          writeChunkLoop_add hsame hwritten,nextIndex_eq (show i+1 < 2^32 by omega),hrun]
      · rw [if_neg hkey]
        cases hfrom : chunkFrom (narrowMerge f) e' rest with
        | none => simpa [hfrom] using hpost
        | some es => simpa [hfrom] using hpost

end

end Mtbl
