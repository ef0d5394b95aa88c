import Mtbl.Fileset.Views

/-! `mtbl_fileset_partition`. It walks the entries as `fs_reinit_merger` does, but asks for the source of
every entry, also where loading the file gave no reader. -/
namespace Mtbl
open CRun

/-- `mtbl_reader_source` asserts that it is given a reader. -/
def filesetReaderSource (reader : Option ℕ) : Run ℕ :=
  match reader with
  | none => .error .assertion
  | some r => .ok r

/-- The walk, with the sources of the two mergers so far. -/
def partitionEntries (cb : Bytes → Bool) : List FilesetEntry → List ℕ → List ℕ →
    Run (List ℕ × List ℕ)
  | [],s1,s2 => .ok (s1,s2)
  | ent::es,s1,s2 =>
    if cb ent.fname then do
      let r ← filesetReaderSource ent.ptr
      partitionEntries cb es (s1++[r]) s2
    else do
      let r ← filesetReaderSource ent.ptr
      partitionEntries cb es s1 (s2++[r])

def mtblFilesetPartition (lib : StdLib) (w : World) (i : ℕ) (cb : Bytes → Bool) :
    Run (World × FilesetMerger × FilesetMerger) := do
  let w := mtblFilesetReload lib w i
  let (s1,s2) ← partitionEntries cb w.shared.myFs.entries [] []
  return ({ w with mergersCreated := w.mergersCreated+2 },⟨w.mergersCreated,s1⟩,
    ⟨w.mergersCreated+1,s2⟩)

/-! ### The walk -/

/-- The readers whose file names the predicate answers so. -/
def heldBy (cb : Bytes → Bool) (answer : Bool) (es : List FilesetEntry) : List ℕ :=
  held (es.filter (fun ent => cb ent.fname == answer))

theorem partitionEntries_spec (cb : Bytes → Bool) (es : List FilesetEntry) (s1 s2 : List ℕ) :
    ((∀ ent ∈ es, ent.ptr ≠ none) → partitionEntries cb es s1 s2 =
      .ok (s1++heldBy cb true es,s2++heldBy cb false es)) ∧
    ((∃ ent ∈ es, ent.ptr = none) → partitionEntries cb es s1 s2 = .error .assertion) := by
  induction es generalizing s1 s2 with
  | nil => exact ⟨fun _ => by simp [partitionEntries,heldBy,held],by simp⟩
  | cons ent es ih =>
    cases hptr : ent.ptr with
    | none =>
      refine ⟨fun h => absurd hptr (h ent List.mem_cons_self),fun _ => ?_⟩
      cases hcb : cb ent.fname <;> simp [partitionEntries,hcb,hptr,filesetReaderSource]
    | some r =>
      constructor
      · intro h
        have hrest : ∀ a ∈ es, a.ptr ≠ none := fun a ha => h a (List.mem_cons_of_mem ent ha)
        cases hcb : cb ent.fname <;>
          simp [partitionEntries,hcb,hptr,filesetReaderSource,(ih _ _).1 hrest,heldBy,held]
      · rintro ⟨a,ha,hnull⟩
        have hmem : a ∈ es := by
          rcases List.mem_cons.mp ha with rfl | ha
          · rw [hptr] at hnull
            cases hnull
          · exact ha
        cases hcb : cb ent.fname <;>
          simp only [partitionEntries,hcb,hptr,filesetReaderSource,ok_bind,if_true,Bool.false_eq_true,
            if_false] <;> exact (ih _ _).2 ⟨a,hmem,hnull⟩

theorem mem_heldBy {cb : Bytes → Bool} {answer : Bool} {es : List FilesetEntry} {r : ℕ} :
    r ∈ heldBy cb answer es ↔ ∃ ent ∈ es, ent.ptr = some r ∧ cb ent.fname = answer := by
  simp only [heldBy,held,List.mem_filterMap,List.mem_filter,beq_iff_eq]
  constructor
  · rintro ⟨ent,⟨hmem,hcb⟩,hptr⟩
    exact ⟨ent,hmem,hptr,hcb⟩
  · rintro ⟨ent,hmem,hptr,hcb⟩
    exact ⟨ent,⟨hmem,hcb⟩,hptr⟩

theorem heldBy_perm (cb : Bytes → Bool) (es : List FilesetEntry) :
    (heldBy cb true es++heldBy cb false es).Perm (held es) := by
  rw [heldBy,heldBy,← held_append]
  apply List.Perm.filterMap
  have hsplit := List.filter_append_perm (fun ent => cb ent.fname) es
  simpa using hsplit

/-! ### One name for each reader -/

/-- Entries with the same reader have the same name. -/
def OneName (es : List FilesetEntry) : Prop :=
  ∀ a ∈ es, ∀ b ∈ es, ∀ r, a.ptr = some r → b.ptr = some r → a.fname = b.fname

/-- The same over new and old entries, with readers that have been created. -/
structure ReloadState.Named (s : ReloadState) : Prop where
  oneName : OneName (s.newEntries++s.entries)
  lt : ∀ ent ∈ s.newEntries++s.entries, ∀ r ∈ ent.ptr, r < s.loads.created

theorem ReloadState.Named.missing {disk : Disk} {s : ReloadState} (h : s.Named) (fname : Bytes) :
    ReloadState.Named { s with
      newEntries := s.newEntries++[⟨false,fname,(fsLoad disk fname s.loads).2⟩]
      loads := (fsLoad disk fname s.loads).1 } := by
  obtain ⟨hcreated,hptr⟩ := @fsLoad_ptr disk fname s.loads
  have hmem : ∀ ent ∈ s.newEntries++[⟨false,fname,(fsLoad disk fname s.loads).2⟩]++s.entries,
      ent ∈ s.newEntries++s.entries ∨ ent = ⟨false,fname,(fsLoad disk fname s.loads).2⟩ := by
    intro ent hent
    simp only [List.mem_append,List.mem_singleton] at hent ⊢
    tauto
  constructor
  · intro a ha b hb r har hbr
    rcases hmem a ha with ha | rfl <;> rcases hmem b hb with hb | rfl
    · exact h.oneName a ha b hb r har hbr
    · -- a reader just created is in no other entry
      have hlt := h.lt a ha r har
      have heq := hptr r hbr
      omega
    · have hlt := h.lt b hb r hbr
      have heq := hptr r har
      omega
    · rfl
  · intro ent hent r hr
    simp only [hcreated]
    rcases hmem ent hent with hent | rfl
    · exact (h.lt ent hent r hr).trans_le (Nat.le_add_right _ _)
    · have hsome : (fsLoad disk fname s.loads).2 = some r := hr
      rw [hsome,hptr r hsome]
      exact Nat.lt_succ_self _

theorem ReloadState.Named.found {s : ReloadState} (h : s.Named) {i : ℕ} {ent : FilesetEntry}
    (hent : s.entries[i]? = some ent) : ReloadState.Named { s with
      entries := s.entries.set i { ent with keep := true }
      newEntries := s.newEntries++[⟨false,ent.fname,ent.ptr⟩] } := by
  have hold := List.mem_append_right s.newEntries (List.mem_of_getElem? hent)
  have hmem : ∀ a ∈ s.newEntries++[⟨false,ent.fname,ent.ptr⟩]++
      s.entries.set i { ent with keep := true },
      ∃ b ∈ s.newEntries++s.entries, a.fname = b.fname ∧ a.ptr = b.ptr := by
    intro a ha
    rcases List.mem_append.mp ha with ha | ha
    · rcases List.mem_append.mp ha with ha | ha
      · exact ⟨a,List.mem_append_left _ ha,rfl,rfl⟩
      · rw [List.mem_singleton.mp ha]
        exact ⟨ent,hold,rfl,rfl⟩
    · rcases List.mem_or_eq_of_mem_set ha with ha | rfl
      · exact ⟨a,List.mem_append_right _ ha,rfl,rfl⟩
      · exact ⟨ent,hold,rfl,rfl⟩
  constructor
  · intro a ha b hb r har hbr
    obtain ⟨a',ha',hna,hpa⟩ := hmem a ha
    obtain ⟨b',hb',hnb,hpb⟩ := hmem b hb
    rw [hna,hnb]
    exact h.oneName a' ha' b' hb' r (hpa ▸ har) (hpb ▸ hbr)
  · intro a ha r hr
    obtain ⟨a',ha',-,hpa⟩ := hmem a ha
    exact h.lt a' ha' r (hpa ▸ hr)

theorem addPaths_named {lib : StdLib} {disk : Disk} {s : ReloadState}
    (hsorted : s.names.Pairwise (· ≤ ·)) (h : s.Named) (paths : List Bytes) :
    (addPaths lib disk s paths).Named := by
  induction paths using List.reverseRecOn with
  | nil => exact h
  | append_singleton paths fname ih =>
    have hnames := (@addPaths_owners_le lib disk _ hsorted paths 0).1
    rw [addPaths_append]
    cases hfetch : fetchEntry lib (addPaths lib disk s paths).entries fname with
    | none =>
      rw [addPath_missing hfetch]
      exact ih.missing fname
    | some i =>
      obtain ⟨ent,hent,rfl⟩ := fetchEntry_some (hnames ▸ hsorted) hfetch
      rw [addPath_found hfetch hent]
      exact ih.found hent

theorem myFilesetReload_oneName {lib : StdLib} {disk : Disk} {fs : MyFileset} {loads : Loads}
    (h : WellKept fs loads) (hname : OneName fs.entries) :
    OneName (myFilesetReload lib disk fs loads).1.entries := by
  rcases @myFilesetReload_cases lib disk fs loads with
    ⟨hentries,-,-⟩ | ⟨lines,-,-,hentries,-⟩
  · rwa [hentries]
  · have hstart : (reloadStart fs loads).Named :=
      ⟨hname,fun ent hent r hr => h.lt r (List.mem_append_left _
        (List.mem_filterMap.mpr ⟨ent,hent,hr⟩))⟩
    have hnamed := @addPaths_named lib disk (reloadStart fs loads) h.sorted hstart
      (listedPaths disk fs.setdir lines)
    rw [hentries]
    intro a ha b hb
    exact hnamed.oneName a (List.mem_append_left _ ((lib.qsort_perm _).mem_iff.mp ha)) b
      (List.mem_append_left _ ((lib.qsort_perm _).mem_iff.mp hb))

/-! ### Runs -/

/-- What holds of the entries of a file set at any time. -/
structure EntriesOk (w : World) : Prop where
  kept : WellKept w.shared.myFs w.shared.loads
  oneName : OneName w.shared.myFs.entries

section
variable {lib : StdLib} {w w' : World} {i : ℕ}

theorem EntriesOk.frame (h : EntriesOk w) (hfs : w'.shared.myFs = w.shared.myFs)
    (hloads : w'.shared.loads = w.shared.loads) : EntriesOk w' := by
  constructor
  · rw [hfs,hloads]
    exact h.kept
  · rw [hfs]
    exact h.oneName

theorem reloadAndStamp_shared : (reloadAndStamp lib w i).shared =
    { reloadShared lib w.disk w.shared with fsLast := w.clock, reloadNeeded := false } := by
  simp only [reloadAndStamp,setFsLast,fsReinitMergerAt,fsReinitMerger]
  split_ifs <;> repeat' split
  all_goals rfl

theorem EntriesOk.reloadAndStamp (h : EntriesOk w) : EntriesOk (reloadAndStamp lib w i) := by
  have hkept : WellKept w.shared.myFs { w.shared.loads with nLoaded := 0, nUnloaded := 0 } :=
    ⟨h.kept.unmarked,h.kept.sorted,h.kept.lt⟩
  have hreloaded : EntriesOk { w with shared := reloadShared lib w.disk w.shared } :=
    ⟨(myFilesetReload_spec hkept).1,myFilesetReload_oneName hkept h.oneName⟩
  apply hreloaded.frame
  · rw [reloadAndStamp_shared]
  · rw [reloadAndStamp_shared]

theorem EntriesOk.reload (h : EntriesOk w) : EntriesOk (mtblFilesetReload lib w i) := by
  unfold mtblFilesetReload
  cases hf : w.filesets[i]? with
  | none => exact h
  | some f =>
    have hshared := (refresh_frame hf).1
    have hrefresh : EntriesOk (refresh w i f) := h.frame (by rw [hshared]) (by rw [hshared])
    simp only
    split_ifs
    · exact hrefresh
    · exact hrefresh
    · exact hrefresh.reloadAndStamp
    · exact hrefresh

theorem EntriesOk.step (h : EntriesOk w) {op : FilesetOp}
    (hstep : filesetStep lib w op = some (.ok w')) : EntriesOk w' := by
  cases op with
  | query i =>
    simp only [filesetStep] at hstep
    split_ifs at hstep
    obtain rfl := Except.ok.inj (Option.some.inj hstep)
    have hreload := @EntriesOk.reload lib w i h
    unfold filesetSourceQuery
    simp only
    split
    · exact hreload
    · exact hreload.frame rfl rfl
  | access j =>
    obtain ⟨it,-,haccess⟩ := Option.map_eq_some_iff.mp hstep
    unfold filesetIterAccess at haccess
    split_ifs at haccess
    obtain rfl := Except.ok.inj haccess
    exact h
  | destroyIter j =>
    obtain ⟨it,-,hfree⟩ := Option.map_eq_some_iff.mp hstep
    obtain rfl := Except.ok.inj hfree
    apply EntriesOk.reload
    exact h.frame rfl rfl
  | reload i =>
    simp only [filesetStep] at hstep
    split_ifs at hstep
    obtain rfl := Except.ok.inj (Option.some.inj hstep)
    exact h.reload
  | reloadNow i =>
    simp only [filesetStep] at hstep
    split_ifs at hstep
    obtain rfl := Except.ok.inj (Option.some.inj hstep)
    unfold mtblFilesetReloadNow
    split_ifs
    · exact h.frame rfl rfl
    · exact h.reloadAndStamp
  | dup opt =>
    obtain rfl := Except.ok.inj (Option.some.inj hstep)
    exact h.frame rfl rfl
  | tick clock =>
    obtain rfl := Except.ok.inj (Option.some.inj hstep)
    exact h.frame rfl rfl
  | change disk =>
    obtain rfl := Except.ok.inj (Option.some.inj hstep)
    exact h.frame rfl rfl

theorem EntriesOk.run {ops : List FilesetOp} (h : EntriesOk w) (hrun : FilesetRun lib w ops w') :
    EntriesOk w' := by
  induction hrun with
  | nil w => exact h
  | cons step _ ih => exact ih (h.step step)

theorem EntriesOk.init (disk : Disk) (clock : Timespec) (setdir : Bytes) (opt : FilesetOptions) :
    EntriesOk (World.init disk clock setdir opt) :=
  ⟨⟨by simp [World.init,myFilesetInit],by simp [World.init,myFilesetInit],
    by simp [World.init,myFilesetInit,held]⟩,by simp [World.init,myFilesetInit,OneName]⟩

end

/-! ### Entries without a reader -/

/-- The reload that a partition starts with does not stop at the clock or at open iterators. -/
def ReloadDue (w : World) (f : Fileset) : Prop :=
  ¬ (w.shared.reloadNeeded = false ∧ f.reloadInterval = reloadIntervalNever) ∧
    w.shared.nIters = 0 ∧
    (w.shared.reloadNeeded = true ∨ w.clock.sec-w.shared.fsLast.sec > f.reloadInterval)

instance (w : World) (f : Fileset) : Decidable (ReloadDue w f) := by
  unfold ReloadDue
  infer_instance

/-- The paths that this reload goes through, if it reads the setfile. -/
def duePaths (w : World) (i : ℕ) : Option (List Bytes) :=
  if ∃ f ∈ w.filesets[i]?, ReloadDue w f then newPaths w.disk w.shared.myFs else none

/-- The entry found under the path has a reader; where none is found the file can be opened. -/
def PathLoads (lib : StdLib) (disk : Disk) (entries : List FilesetEntry) (fname : Bytes) : Prop :=
  match fetchEntry lib entries fname with
  | none => disk.readable fname = true
  | some i => ∀ ent ∈ entries[i]?, ent.ptr ≠ none

/-- Every path that is to be gone through leads to a reader; where there are none to go through,
every entry has one. -/
def FilesLoad (lib : StdLib) (w : World) (i : ℕ) : Prop :=
  match duePaths w i with
  | none => ∀ ent ∈ w.shared.myFs.entries, ent.ptr ≠ none
  | some paths => ∀ fname ∈ paths, PathLoads lib w.disk w.shared.myFs.entries fname

theorem fsLoad_ne_none {disk : Disk} {fname : Bytes} {loads : Loads} :
    (fsLoad disk fname loads).2 ≠ none ↔ disk.readable fname = true := by
  simp only [fsLoad]
  split_ifs with h <;> simp [h]

theorem addPaths_loads {lib : StdLib} {disk : Disk} {s : ReloadState}
    (hsorted : s.names.Pairwise (· ≤ ·)) (hnew : s.newEntries = []) (paths : List Bytes) :
    (∀ ent ∈ (addPaths lib disk s paths).newEntries, ent.ptr ≠ none) ↔
      ∀ fname ∈ paths, PathLoads lib disk s.entries fname := by
  induction paths using List.reverseRecOn with
  | nil => simp [show addPaths lib disk s [] = s from rfl,hnew]
  | append_singleton paths fname ih =>
    have hnames := (@addPaths_owners_le lib disk _ hsorted paths 0).1
    have hsame : fetchEntry lib (addPaths lib disk s paths).entries fname =
        fetchEntry lib s.entries fname := congrArg (lib.bsearch · fname) hnames
    rw [addPaths_append]
    cases hfetch : fetchEntry lib s.entries fname with
    | none =>
      have hload : PathLoads lib disk s.entries fname ↔ disk.readable fname = true := by
        rw [PathLoads,hfetch]
      rw [addPath_missing (hsame.trans hfetch),List.forall_mem_append,List.forall_mem_append,ih,
        List.forall_mem_singleton,List.forall_mem_singleton,hload,fsLoad_ne_none]
    | some i =>
      obtain ⟨ent,hent,-⟩ := fetchEntry_some hsorted hfetch
      obtain ⟨keep,hget,-⟩ := @addPaths_entry lib disk _ hsorted paths _ _ hent
      have hload : PathLoads lib disk s.entries fname ↔ ent.ptr ≠ none := by
        rw [PathLoads,hfetch]
        simp [hent]
      rw [addPath_found (hsame.trans hfetch) hget,List.forall_mem_append,List.forall_mem_append,ih,
        List.forall_mem_singleton,List.forall_mem_singleton,hload]

/-- What the reload leaves, by what is found before it. -/
theorem filesLoad_iff {lib : StdLib} {w : World} (h : EntriesOk w) (i : ℕ) :
    (∀ ent ∈ (mtblFilesetReload lib w i).shared.myFs.entries, ent.ptr ≠ none) ↔
      FilesLoad lib w i := by
  have hkeep : ∀ w' : World, w'.shared = w.shared → duePaths w i = none →
      ((∀ ent ∈ w'.shared.myFs.entries, ent.ptr ≠ none) ↔ FilesLoad lib w i) := by
    intro w' hshared hnone
    rw [hshared,FilesLoad,hnone]
  cases hf : w.filesets[i]? with
  | none => exact hkeep _ (by simp [mtblFilesetReload,hf]) (by simp [duePaths,hf])
  | some f =>
    have hdue : duePaths w i = if ReloadDue w f then newPaths w.disk w.shared.myFs else none := by
      simp [duePaths,hf]
    obtain ⟨hshared,-,hclock,-⟩ := refresh_frame hf
    simp only [mtblFilesetReload,hf,hshared,hclock]
    split_ifs with hnever hopen hold
    · exact hkeep _ hshared (hdue.trans (if_neg (fun hd => hd.1 hnever)))
    · exact hkeep _ hshared (hdue.trans (if_neg (fun hd => hopen.ne' hd.2.1)))
    · have hclosed : w.shared.nIters = 0 := by omega
      rw [reloadAndStamp_shared,FilesLoad,hdue,if_pos ⟨hnever,hclosed,hold⟩,hshared,refresh_disk w i f]
      have hkept : WellKept w.shared.myFs { w.shared.loads with nLoaded := 0, nUnloaded := 0 } :=
        ⟨h.kept.unmarked,h.kept.sorted,h.kept.lt⟩
      cases hpaths : newPaths w.disk w.shared.myFs with
      | none => simp only [reloadShared,myFilesetReload_none hpaths]
      | some paths =>
        simp only [reloadShared,myFilesetReload_some hpaths,(lib.qsort_perm _).mem_iff]
        exact @addPaths_loads lib w.disk (reloadStart w.shared.myFs _) hkept.sorted rfl paths
    · exact hkeep _ hshared (hdue.trans (if_neg (fun hd => hold hd.2.2)))

/-- The partition completes. Every loaded reader's source is in one merger, by the answer for its file
name, and nothing else is in either. -/
def PartitionSplits (lib : StdLib) (w : World) (i : ℕ) (cb : Bytes → Bool) : Prop :=
  ∃ w' m1 m2, mtblFilesetPartition lib w i cb = .ok (w',m1,m2) ∧
    (∀ r, r ∈ m1.sources ↔
      ∃ ent ∈ w'.shared.myFs.entries, ent.ptr = some r ∧ cb ent.fname = true) ∧
    (∀ r, r ∈ m2.sources ↔
      ∃ ent ∈ w'.shared.myFs.entries, ent.ptr = some r ∧ cb ent.fname = false) ∧
    (∀ r ∈ m1.sources, r ∉ m2.sources) ∧
    (m1.sources++m2.sources).Perm (held w'.shared.myFs.entries)

/-- Whatever was done with file sets before, a partition splits the loaded readers exactly if every file
it comes to loads; otherwise an assertion fails. -/
theorem fileset_partition (lib : StdLib) {disk : Disk} {clock : Timespec} {setdir : Bytes}
    {opt : FilesetOptions} {ops : List FilesetOp} {w : World}
    (hrun : FilesetRun lib (World.init disk clock setdir opt) ops w) (i : ℕ) (cb : Bytes → Bool) :
    (PartitionSplits lib w i cb ↔ FilesLoad lib w i) ∧
    (¬ FilesLoad lib w i → mtblFilesetPartition lib w i cb = .error .assertion) := by
  have hbefore : EntriesOk w := (EntriesOk.init disk clock setdir opt).run hrun
  have hok : EntriesOk (mtblFilesetReload lib w i) := hbefore.reload
  have hwalk := partitionEntries_spec cb (mtblFilesetReload lib w i).shared.myFs.entries [] []
  rw [← filesLoad_iff hbefore]
  have hfails : (¬ ∀ ent ∈ (mtblFilesetReload lib w i).shared.myFs.entries, ent.ptr ≠ none) →
      mtblFilesetPartition lib w i cb = .error .assertion := by
    intro hnull
    push Not at hnull
    simp only [mtblFilesetPartition,hwalk.2 hnull,error_bind]
  refine ⟨⟨?_,fun hloaded => ?_⟩,hfails⟩
  · rintro ⟨w',m1,m2,hpart,-⟩
    by_contra hnull
    rw [hfails hnull] at hpart
    cases hpart
  · refine ⟨_,_,_,by simp only [mtblFilesetPartition,hwalk.1 hloaded,ok_bind]; rfl,?_,?_,?_,?_⟩
    · exact fun r => mem_heldBy
    · exact fun r => mem_heldBy
    · intro r hr1 hr2
      obtain ⟨a,ha,hra,hcba⟩ := mem_heldBy.mp hr1
      obtain ⟨b,hb,hrb,hcbb⟩ := mem_heldBy.mp hr2
      rw [hok.oneName a ha b hb r hra hrb,hcbb] at hcba
      cases hcba
    · exact heldBy_perm cb _

instance (lib : StdLib) (disk : Disk) (entries : List FilesetEntry) (fname : Bytes) :
    Decidable (PathLoads lib disk entries fname) := by
  unfold PathLoads
  split <;> infer_instance

instance (lib : StdLib) (w : World) (i : ℕ) : Decidable (FilesLoad lib w i) := by
  unfold FilesLoad
  split <;> infer_instance

/-- A setfile with a second file. -/
def twoListed : Disk := { oneFile with setfileLines := some [[47,97,10],[47,98,10]] }

/-- A query has loaded two files, which go into one merger each. -/
theorem fileset_partition_two : PartitionSplits simpleLib
    (filesetSourceQuery simpleLib (World.init twoListed ⟨1,0⟩ [] plainFileset) 0) 0
    (fun fname => fname == [47,97]) := by
  apply ((fileset_partition simpleLib (@FilesetRun.cons _ _ _ _ (.query 0) _ rfl (.nil _)) 0 _).1).mpr
  decide +kernel

/-- The setfile lists a file that exists and is no MTBL file. -/
def brokenFile : Disk := { oneFile with readable := fun _ => false }

/-- A file that could not be loaded stops the partition. -/
theorem fileset_partition_fails : ¬ PartitionSplits simpleLib
    (World.init brokenFile ⟨1,0⟩ [] plainFileset) 0 (fun _ => true) := by
  rintro ⟨w',m1,m2,hpart,-⟩
  have hstops : mtblFilesetPartition simpleLib (World.init brokenFile ⟨1,0⟩ [] plainFileset) 0
      (fun _ => true) = .error .assertion := rfl
  rw [hstops] at hpart
  cases hpart

end Mtbl
