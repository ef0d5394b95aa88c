import Mtbl.Fileset.Setfile

/-! Who owns a reader. Through a reload each reader passes from an old entry to the new ones or is
unloaded; counted over new entries, unmarked old entries and unloaded readers none gets lost, and
one is gained where a marked entry is found again. -/
namespace Mtbl

/-! ### One path -/

/-- A reader in the new entries, in an old entry still to be unloaded, or unloaded already. -/
def ReloadState.owners (s : ReloadState) : List ℕ :=
  held s.newEntries++(held (unkept s.entries)++s.loads.unloaded)

/-- What the old entries have been sorted by does not change. -/
def ReloadState.names (s : ReloadState) : List Bytes := s.entries.map FilesetEntry.fname

section
variable {lib : StdLib} {disk : Disk} {s : ReloadState} {fname : Bytes}

theorem addPath_found {i : ℕ} {ent : FilesetEntry} (hfetch : fetchEntry lib s.entries fname = some i)
    (hent : s.entries[i]? = some ent) :
    addPath lib disk s fname =
      { s with entries := s.entries.set i { ent with keep := true },
               newEntries := s.newEntries++[⟨false,fname,ent.ptr⟩] } := by
  simp [addPath,hfetch,hent]

theorem addPath_missing (hfetch : fetchEntry lib s.entries fname = none) :
    addPath lib disk s fname = { s with
      newEntries := s.newEntries++[⟨false,fname,(fsLoad disk fname s.loads).2⟩],
      loads := (fsLoad disk fname s.loads).1 } := by
  simp [addPath,hfetch]

/-- Sorted names are searched: a hit has the name, a miss excludes it. -/
theorem fetchEntry_some (hsorted : s.names.Pairwise (· ≤ ·)) {i : ℕ}
    (h : fetchEntry lib s.entries fname = some i) :
    ∃ ent, s.entries[i]? = some ent ∧ ent.fname = fname := by
  have hname := lib.bsearch_some _ _ _ hsorted h
  rw [ReloadState.names,List.getElem?_map] at hname
  exact Option.map_eq_some_iff.mp hname

theorem addPath_names (hsorted : s.names.Pairwise (· ≤ ·)) :
    (addPath lib disk s fname).names = s.names := by
  cases hfetch : fetchEntry lib s.entries fname with
  | none => rw [addPath_missing hfetch]; rfl
  | some i =>
    obtain ⟨ent,hent,-⟩ := fetchEntry_some hsorted hfetch
    have hname : s.names[i]? = some ent.fname := by
      rw [ReloadState.names,List.getElem?_map,hent,Option.map_some]
    rw [addPath_found hfetch hent,ReloadState.names,List.map_set]
    obtain ⟨hi,heq⟩ := List.getElem?_eq_some_iff.mp hname
    rw [← heq]
    exact List.set_getElem_self hi

theorem fsLoad_unloaded (loads : Loads) : (fsLoad disk fname loads).1.unloaded = loads.unloaded := by
  simp only [fsLoad]
  split_ifs <;> rfl

/-- A new reader is the next one in order. -/
theorem fsLoad_ptr (loads : Loads) : (fsLoad disk fname loads).1.created =
      loads.created+(fsLoad disk fname loads).2.toList.length ∧
    ∀ r ∈ (fsLoad disk fname loads).2, r = loads.created := by
  simp only [fsLoad]
  split_ifs <;> simp

/-- The owners of a reader after one path. -/
theorem addPath_owners_missing (hfetch : fetchEntry lib s.entries fname = none) (r : ℕ) :
    (addPath lib disk s fname).owners.count r =
      s.owners.count r+(fsLoad disk fname s.loads).2.toList.count r := by
  rw [addPath_missing hfetch]
  simp only [ReloadState.owners,held_append,held_singleton,List.count_append,fsLoad_unloaded]
  omega

theorem addPath_owners_found {i : ℕ} {ent : FilesetEntry}
    (hfetch : fetchEntry lib s.entries fname = some i) (hent : s.entries[i]? = some ent) (r : ℕ) :
    (addPath lib disk s fname).owners.count r =
      s.owners.count r+if ent.keep then ent.ptr.toList.count r else 0 := by
  rw [addPath_found hfetch hent]
  simp only [ReloadState.owners,held_append,held_singleton,List.count_append,unkept_set hent r]
  split_ifs <;> omega

/-- The loop over the paths. -/
def addPaths (lib : StdLib) (disk : Disk) (s : ReloadState) (paths : List Bytes) : ReloadState :=
  paths.foldl (addPath lib disk) s

theorem addPaths_append (paths : List Bytes) :
    addPaths lib disk s (paths++[fname]) = addPath lib disk (addPaths lib disk s paths) fname := by
  rw [addPaths,List.foldl_append]
  rfl

/-! ### All paths -/

theorem addPath_owners_le (hsorted : s.names.Pairwise (· ≤ ·)) (r : ℕ) :
    s.owners.count r ≤ (addPath lib disk s fname).owners.count r := by
  cases hfetch : fetchEntry lib s.entries fname with
  | none => exact (addPath_owners_missing hfetch r).symm ▸ Nat.le_add_right _ _
  | some i =>
    obtain ⟨ent,hent,-⟩ := fetchEntry_some hsorted hfetch
    exact (addPath_owners_found hfetch hent r).symm ▸ Nat.le_add_right _ _

/-- Names stay, and no owner of a reader is lost. -/
theorem addPaths_owners_le (hsorted : s.names.Pairwise (· ≤ ·)) (paths : List Bytes) (r : ℕ) :
    (addPaths lib disk s paths).names = s.names ∧
      s.owners.count r ≤ (addPaths lib disk s paths).owners.count r := by
  induction paths using List.reverseRecOn with
  | nil => exact ⟨rfl,le_rfl⟩
  | append_singleton paths fname ih =>
    obtain ⟨hnames,hle⟩ := ih
    rw [addPaths_append,addPath_names (hnames ▸ hsorted)]
    exact ⟨hnames,hle.trans (addPath_owners_le (hnames ▸ hsorted) r)⟩

/-- An old entry is marked when its name comes up, and otherwise stays as it is. -/
theorem addPaths_entry (hsorted : s.names.Pairwise (· ≤ ·)) (paths : List Bytes) {i : ℕ}
    {ent : FilesetEntry} (hent : s.entries[i]? = some ent) :
    ∃ keep, (addPaths lib disk s paths).entries[i]? = some { ent with keep := keep } ∧
      (keep = true ↔ ent.keep = true ∨ ∃ fname ∈ paths, fetchEntry lib s.entries fname = some i) := by
  induction paths using List.reverseRecOn with
  | nil => exact ⟨ent.keep,hent,by simp⟩
  | append_singleton paths fname ih =>
    obtain ⟨keep,hget,hkeep⟩ := ih
    have hnames := (@addPaths_owners_le lib disk _ hsorted paths 0).1
    have hsame : fetchEntry lib (addPaths lib disk s paths).entries fname =
        fetchEntry lib s.entries fname := congrArg (lib.bsearch · fname) hnames
    rw [addPaths_append]
    cases hfetch : fetchEntry lib s.entries fname with
    | none =>
      rw [addPath_missing (hsame.trans hfetch)]
      refine ⟨keep,hget,hkeep.trans (or_congr_right ?_)⟩
      simp [or_and_right,exists_or,hfetch]
    | some j =>
      obtain ⟨ent',hent',-⟩ := fetchEntry_some (hnames ▸ hsorted) (hsame.trans hfetch)
      rw [addPath_found (hsame.trans hfetch) hent']
      by_cases hij : j = i
      · subst hij
        obtain rfl := Option.some.inj (hget.symm.trans hent')
        have hj := (List.getElem?_eq_some_iff.mp hget).1
        refine ⟨true,by simp [hj],?_⟩
        simp only [true_iff]
        exact .inr ⟨fname,by simp,hfetch⟩
      · refine ⟨keep,by simp only [List.getElem?_set_ne hij,hget],hkeep.trans (or_congr_right ?_)⟩
        simp [or_and_right,exists_or,hfetch,hij]

/-- The reader of the entry found under the name, if there is one. -/
def readerOf (lib : StdLib) (entries : List FilesetEntry) (fname : Bytes) : Option ℕ :=
  (fetchEntry lib entries fname).bind (fun i => (entries[i]?).bind FilesetEntry.ptr)

/-- A path is listed twice under which an old entry with a reader is found. -/
def Relists (lib : StdLib) (entries : List FilesetEntry) (paths : List Bytes) : Prop :=
  ∃ fname r, readerOf lib entries fname = some r ∧ 2 ≤ paths.count fname

/-- Every reader has one owner at most, and none before it is created. -/
def ReloadState.Owned (s : ReloadState) : Prop :=
  ∀ r, s.owners.count r ≤ 1 ∧ (s.loads.created ≤ r → s.owners.count r = 0)

/-- The entry found under the name of a marked entry is that entry, so its name has come up. -/
theorem addPaths_marked (hsorted : s.names.Pairwise (· ≤ ·))
    (hunmarked : ∀ ent ∈ s.entries, ent.keep = false) (paths : List Bytes) {i : ℕ}
    {ent : FilesetEntry} (hfetch : fetchEntry lib s.entries fname = some i)
    (hent : s.entries[i]? = some ent) :
    (addPaths lib disk s paths).entries[i]? =
      some { ent with keep := decide (fname ∈ paths) } := by
  obtain ⟨keep,hget,hkeep⟩ := @addPaths_entry lib disk _ hsorted paths _ _ hent
  rw [hget,Option.some.injEq]
  congr 1
  rw [Bool.eq_iff_iff,hkeep,decide_eq_true_iff]
  constructor
  · rintro (h | ⟨fname',hmem,hfetch'⟩)
    · simp [hunmarked ent (List.mem_of_getElem? hent)] at h
    · obtain ⟨a,ha,rfl⟩ := fetchEntry_some hsorted hfetch
      obtain ⟨b,hb,rfl⟩ := fetchEntry_some hsorted hfetch'
      obtain rfl := Option.some.inj (ha.symm.trans hb)
      exact hmem
  · exact fun h => .inr ⟨fname,h,hfetch⟩

theorem readerOf_eq {i : ℕ} {ent : FilesetEntry} (hfetch : fetchEntry lib s.entries fname = some i)
    (hent : s.entries[i]? = some ent) : readerOf lib s.entries fname = ent.ptr := by
  rw [readerOf,hfetch,Option.bind_some,hent,Option.bind_some]

theorem addPath_owned_missing (h : s.Owned) (hfetch : fetchEntry lib s.entries fname = none) :
    (addPath lib disk s fname).Owned := by
  intro r
  have hr := h r
  have hloads : (addPath lib disk s fname).loads = (fsLoad disk fname s.loads).1 := by
    rw [addPath_missing hfetch]
  obtain ⟨hcreated,hptr⟩ := @fsLoad_ptr disk fname s.loads
  rw [addPath_owners_missing hfetch,hloads,hcreated]
  cases hload : (fsLoad disk fname s.loads).2 with
  | none => simpa using hr
  | some n =>
    obtain rfl : n = s.loads.created := hptr n hload
    simp only [Option.toList_some,List.length_singleton,List.count_singleton,beq_iff_eq]
    split_ifs <;> omega

/-- If no reader is found twice, each keeps its one owner. -/
theorem addPaths_owned (h : s.Owned) (hsorted : s.names.Pairwise (· ≤ ·))
    (hunmarked : ∀ ent ∈ s.entries, ent.keep = false) (paths : List Bytes)
    (hlist : ¬ Relists lib s.entries paths) : (addPaths lib disk s paths).Owned := by
  induction paths using List.reverseRecOn with
  | nil => exact h
  | append_singleton paths fname ih =>
    have hbefore := ih (fun ⟨f,r,hr,hcount⟩ => hlist ⟨f,r,hr,by
      rw [List.count_append]
      omega⟩)
    have hnames := (@addPaths_owners_le lib disk _ hsorted paths 0).1
    have hsame : fetchEntry lib (addPaths lib disk s paths).entries fname =
        fetchEntry lib s.entries fname := congrArg (lib.bsearch · fname) hnames
    rw [addPaths_append]
    cases hfetch : fetchEntry lib s.entries fname with
    | none => exact addPath_owned_missing hbefore (hsame.trans hfetch)
    | some i =>
      obtain ⟨ent,hent,-⟩ := fetchEntry_some hsorted hfetch
      have hmarked := @addPaths_marked lib disk _ _ hsorted hunmarked paths _ _ hfetch hent
      intro r
      have hr := hbefore r
      rw [addPath_owners_found (hsame.trans hfetch) hmarked,addPath_found (hsame.trans hfetch) hmarked]
      by_cases hmem : fname ∈ paths
      · have hnull : ent.ptr = none := by
          rw [← readerOf_eq hfetch hent,Option.eq_none_iff_forall_ne_some]
          intro r hreader
          refine hlist ⟨fname,r,hreader,?_⟩
          have := List.count_pos_iff.mpr hmem
          rw [List.count_append,List.count_singleton_self]
          omega
        simpa [hnull] using hr
      · simpa [hmem] using hr

/-- Before the first path every entry is to be unloaded. -/
theorem unkept_unmarked {es : List FilesetEntry} (h : ∀ ent ∈ es, ent.keep = false) :
    unkept es = es := by
  rw [unkept,List.filter_eq_self]
  intro ent hmem
  rw [h ent hmem]
  rfl

theorem mem_owners (hunmarked : ∀ ent ∈ s.entries, ent.keep = false) {ent : FilesetEntry}
    (hmem : ent ∈ s.entries) {r : ℕ} (hptr : ent.ptr = some r) : r ∈ s.owners := by
  have hheld : r ∈ held s.entries := List.mem_filterMap.mpr ⟨ent,hmem,hptr⟩
  rw [ReloadState.owners,unkept_unmarked hunmarked]
  simp [hheld]

/-- Owned readers have been created. -/
theorem addPaths_lt (hsorted : s.names.Pairwise (· ≤ ·))
    (hunmarked : ∀ ent ∈ s.entries, ent.keep = false) (h : ∀ r ∈ s.owners, r < s.loads.created)
    (paths : List Bytes) :
    ∀ r ∈ (addPaths lib disk s paths).owners, r < (addPaths lib disk s paths).loads.created := by
  induction paths using List.reverseRecOn with
  | nil => exact h
  | append_singleton paths fname ih =>
    intro r hr
    have hle := @addPaths_owners_le lib disk _ hsorted paths r
    have hsame : fetchEntry lib (addPaths lib disk s paths).entries fname =
        fetchEntry lib s.entries fname := congrArg (lib.bsearch · fname) hle.1
    rw [addPaths_append] at hr ⊢
    rw [← List.count_pos_iff] at hr
    by_cases hbefore : r ∈ (addPaths lib disk s paths).owners
    · refine (ih r hbefore).trans_le ?_
      cases hfetch : fetchEntry lib s.entries fname with
      | none =>
        rw [addPath_missing (hsame.trans hfetch)]
        exact (fsLoad_ptr _).1 ▸ Nat.le_add_right _ _
      | some i =>
        obtain ⟨ent,hent,-⟩ := fetchEntry_some hsorted hfetch
        rw [addPath_found (hsame.trans hfetch)
          (addPaths_marked hsorted hunmarked paths hfetch hent)]
    · cases hfetch : fetchEntry lib s.entries fname with
      | none =>
        rw [addPath_owners_missing (hsame.trans hfetch),List.count_eq_zero_of_not_mem hbefore,
          Nat.zero_add,List.count_pos_iff,Option.mem_toList] at hr
        obtain ⟨hcreated,hptr⟩ := @fsLoad_ptr disk fname
          (addPaths lib disk s paths).loads
        rw [addPath_missing (hsame.trans hfetch),hptr r hr]
        simp only [hcreated,Option.mem_def.mp hr,Option.toList_some,List.length_singleton]
        omega
      | some i =>
        obtain ⟨ent,hent,-⟩ := fetchEntry_some hsorted hfetch
        rw [addPath_owners_found (hsame.trans hfetch)
          (addPaths_marked hsorted hunmarked paths hfetch hent),
          List.count_eq_zero_of_not_mem hbefore,Nat.zero_add] at hr
        split_ifs at hr
        · rw [List.count_pos_iff,Option.mem_toList] at hr
          have hold := mem_owners hunmarked (List.mem_of_getElem? hent) (Option.mem_def.mp hr)
          exact absurd (List.count_pos_iff.mp
            ((List.count_pos_iff.mpr hold).trans_le hle.2)) hbefore
        · exact absurd hr (lt_irrefl 0)

/-- A reader that is found twice has two owners from then on. -/
theorem addPaths_shared (hsorted : s.names.Pairwise (· ≤ ·))
    (hunmarked : ∀ ent ∈ s.entries, ent.keep = false) {r : ℕ}
    (hreader : readerOf lib s.entries fname = some r) (paths : List Bytes)
    (hcount : 2 ≤ paths.count fname) : 2 ≤ (addPaths lib disk s paths).owners.count r := by
  induction paths using List.reverseRecOn with
  | nil => simp at hcount
  | append_singleton paths f ih =>
    have hle := @addPaths_owners_le lib disk _ hsorted paths r
    have hnames := hle.1
    rw [addPaths_append]
    by_cases hbefore : 2 ≤ paths.count fname
    · exact (ih hbefore).trans (addPath_owners_le (hnames ▸ hsorted) r)
    rw [List.count_append,List.count_singleton] at hcount
    obtain rfl : f = fname := by
      by_contra hne
      simp [hne] at hcount
      omega
    have hmem : f ∈ paths := List.count_pos_iff.mp (by
      rw [if_pos (beq_self_eq_true f)] at hcount
      omega)
    obtain ⟨i,hfetch,hptr⟩ := Option.bind_eq_some_iff.mp hreader
    obtain ⟨ent,hent,hptr⟩ := Option.bind_eq_some_iff.mp hptr
    have hsame : fetchEntry lib (addPaths lib disk s paths).entries f =
        fetchEntry lib s.entries f := congrArg (lib.bsearch · f) hnames
    have hmarked := @addPaths_marked lib disk _ _ hsorted hunmarked paths _ _ hfetch hent
    rw [addPath_owners_found (hsame.trans hfetch) hmarked]
    have hold : 0 < s.owners.count r :=
      List.count_pos_iff.mpr (mem_owners hunmarked (List.mem_of_getElem? hent) hptr)
    simp only [hmem,decide_true,if_true,hptr,Option.toList_some,List.count_singleton_self]
    exact Nat.succ_le_succ (Nat.lt_of_lt_of_le hold hle.2)

end

/-! ### One reload -/

/-- Between reloads no entry is marked, names are sorted and readers have been created. -/
structure WellKept (fs : MyFileset) (loads : Loads) : Prop where
  unmarked : ∀ ent ∈ fs.entries, ent.keep = false
  sorted : (fs.entries.map FilesetEntry.fname).Pairwise (· ≤ ·)
  lt : ∀ r ∈ held fs.entries++loads.unloaded, r < loads.created

/-- No entry holds an unloaded reader, no two entries hold the same one, and none was unloaded
twice. -/
def Sound (fs : MyFileset) (loads : Loads) : Prop := (held fs.entries++loads.unloaded).Nodup

/-- The paths that a reload goes through, where it reads a new version of the setfile. -/
def newPaths (disk : Disk) (fs : MyFileset) : Option (List Bytes) :=
  if (setfileUpdated disk fs).2 then disk.setfileLines.map (listedPaths disk fs.setdir) else none

/-- The reload reads a new version of the setfile which lists a path twice that an entry with a
reader has as its name. -/
def ReloadRelists (lib : StdLib) (disk : Disk) (fs : MyFileset) : Prop :=
  (setfileUpdated disk fs).2 = true ∧ ∃ lines ∈ disk.setfileLines,
    Relists lib fs.entries (listedPaths disk fs.setdir lines)

section
variable {lib : StdLib} {disk : Disk} {fs : MyFileset} {loads : Loads}

theorem setfileUpdated_entries :
    (setfileUpdated disk fs).1.entries = fs.entries ∧
      (setfileUpdated disk fs).1.setdir = fs.setdir := by
  unfold setfileUpdated
  split
  · exact ⟨rfl,rfl⟩
  · split_ifs <;> exact ⟨rfl,rfl⟩

/-- The state in which the loop over the lines is entered. -/
def reloadStart (fs : MyFileset) (loads : Loads) : ReloadState := ⟨fs.entries,[],loads⟩

/-- Without a new version entries and readers are left alone. -/
theorem myFilesetReload_none (h : newPaths disk fs = none) :
    (myFilesetReload lib disk fs loads).1.entries = fs.entries ∧
      (myFilesetReload lib disk fs loads).2 = loads := by
  have hsame := (@setfileUpdated_entries disk fs).1
  unfold newPaths at h
  unfold myFilesetReload
  rcases hup : setfileUpdated disk fs with ⟨fs',updated⟩
  rw [hup] at hsame h
  cases updated with
  | false => exact ⟨hsame,rfl⟩
  | true =>
    rw [if_pos rfl,Option.map_eq_none_iff] at h
    simp only [h]
    exact ⟨hsame,trivial⟩

/-- With one the reload runs through its paths. -/
theorem myFilesetReload_some {paths : List Bytes} (h : newPaths disk fs = some paths) :
    (myFilesetReload lib disk fs loads).1.entries =
        lib.qsort (addPaths lib disk (reloadStart fs loads) paths).newEntries ∧
      (myFilesetReload lib disk fs loads).2 =
        (addPaths lib disk (reloadStart fs loads) paths).entries.foldl unloadOld
          (addPaths lib disk (reloadStart fs loads) paths).loads := by
  have hsame := @setfileUpdated_entries disk fs
  unfold newPaths at h
  unfold myFilesetReload
  rcases hup : setfileUpdated disk fs with ⟨fs',updated⟩
  rw [hup] at hsame h
  obtain ⟨hentries,hsetdir⟩ : fs'.entries = fs.entries ∧ fs'.setdir = fs.setdir := hsame
  cases updated with
  | false => cases h
  | true =>
    rw [if_pos rfl] at h
    obtain ⟨lines,hlines,rfl⟩ := Option.map_eq_some_iff.mp h
    simp only [hlines,hentries,hsetdir]
    exact ⟨rfl,rfl⟩

theorem newPaths_eq_some {paths : List Bytes} : newPaths disk fs = some paths ↔
    (setfileUpdated disk fs).2 = true ∧
      ∃ lines ∈ disk.setfileLines, listedPaths disk fs.setdir lines = paths := by
  unfold newPaths
  split_ifs with hup
  · simp [hup,Option.map_eq_some_iff]
  · simp [hup]

/-- A reload either leaves entries and readers alone or runs through the paths of a version. -/
theorem myFilesetReload_cases :
    (((myFilesetReload lib disk fs loads).1.entries = fs.entries ∧
        (myFilesetReload lib disk fs loads).2 = loads ∧ ¬ ReloadRelists lib disk fs) ∨
      ∃ lines ∈ disk.setfileLines, (setfileUpdated disk fs).2 = true ∧
        (myFilesetReload lib disk fs loads).1.entries = lib.qsort (addPaths lib disk
          (reloadStart fs loads) (listedPaths disk fs.setdir lines)).newEntries ∧
        (myFilesetReload lib disk fs loads).2 = (addPaths lib disk (reloadStart fs loads)
          (listedPaths disk fs.setdir lines)).entries.foldl unloadOld (addPaths lib disk
            (reloadStart fs loads) (listedPaths disk fs.setdir lines)).loads) := by
  cases hpaths : newPaths disk fs with
  | none =>
    obtain ⟨hentries,hloads⟩ := @myFilesetReload_none lib disk fs loads hpaths
    refine .inl ⟨hentries,hloads,?_⟩
    rintro ⟨hup,lines,hlines,-⟩
    have := newPaths_eq_some.mpr ⟨hup,lines,hlines,rfl⟩
    rw [hpaths] at this
    cases this
  | some paths =>
    obtain ⟨hup,lines,hlines,rfl⟩ := newPaths_eq_some.mp hpaths
    exact .inr ⟨lines,hlines,hup,myFilesetReload_some hpaths⟩

theorem reloadStart_owners (h : WellKept fs loads) :
    (reloadStart fs loads).owners = held fs.entries++loads.unloaded := by
  rw [ReloadState.owners,reloadStart,unkept_unmarked h.unmarked]
  rfl

/-- Sorting the new entries and unloading the old ones changes no owner. -/
theorem reload_owners (s : ReloadState) :
    (held (lib.qsort s.newEntries)++(s.entries.foldl unloadOld s.loads).unloaded).Perm
      s.owners := by
  rw [foldl_unloadOld,foldl_fsUnload]
  exact ((lib.qsort_perm s.newEntries).filterMap _).append List.perm_append_comm

theorem addPaths_unmarked (s : ReloadState) (h : ∀ ent ∈ s.newEntries, ent.keep = false)
    (paths : List Bytes) :
    ∀ ent ∈ (addPaths lib disk s paths).newEntries, ent.keep = false := by
  induction paths generalizing s with
  | nil => exact h
  | cons fname paths ih =>
    apply ih
    intro ent hmem
    unfold addPath at hmem
    split at hmem <;>
    · rcases List.mem_append.mp hmem with hmem | hmem
      · exact h ent hmem
      · rw [List.mem_singleton.mp hmem]

theorem foldl_unloadOld_created (es : List FilesetEntry) (s : Loads) :
    (es.foldl unloadOld s).created = s.created := by
  induction es generalizing s with
  | nil => rfl
  | cons ent es ih =>
    rw [List.foldl_cons,ih,unloadOld]
    split_ifs <;> rfl

/-- A reload keeps the readers sound exactly if they were and no path is listed twice for which a
reader is loaded. -/
theorem myFilesetReload_spec (h : WellKept fs loads) :
    WellKept (myFilesetReload lib disk fs loads).1 (myFilesetReload lib disk fs loads).2 ∧
      (Sound (myFilesetReload lib disk fs loads).1 (myFilesetReload lib disk fs loads).2 ↔
        Sound fs loads ∧ ¬ ReloadRelists lib disk fs) := by
  rcases @myFilesetReload_cases lib disk fs loads with
    ⟨hentries,hloads,hnot⟩ | ⟨lines,hlines,hup,hentries,hloads⟩
  · refine ⟨⟨hentries ▸ h.unmarked,hentries ▸ h.sorted,?_⟩,?_⟩
    · rw [hentries,hloads]
      exact h.lt
    rw [Sound,Sound,hentries,hloads]
    exact (and_iff_left hnot).symm
  have howners := reloadStart_owners h
  generalize hpaths : listedPaths disk fs.setdir lines = paths at hentries hloads
  have hperm := @reload_owners lib (addPaths lib disk (reloadStart fs loads) paths)
  have hlt := @addPaths_lt lib disk (reloadStart fs loads) h.sorted
    h.unmarked (howners ▸ h.lt) paths
  refine ⟨⟨?_,?_,?_⟩,?_⟩
  · rw [hentries]
    intro ent hmem
    exact addPaths_unmarked (reloadStart fs loads) (by simp [reloadStart]) paths ent
      ((lib.qsort_perm _).mem_iff.mp hmem)
  · rw [hentries,List.pairwise_map]
    exact lib.qsort_sorted _
  · intro r hr
    rw [hentries,hloads,hperm.mem_iff] at hr
    rw [hloads,foldl_unloadOld_created]
    exact hlt r hr
  · rw [Sound,Sound,hentries,hloads,hperm.nodup_iff,← howners]
    constructor
    · intro hnodup
      have hcount := List.nodup_iff_count_le_one.mp hnodup
      refine ⟨List.nodup_iff_count_le_one.mpr (fun r => ?_),?_⟩
      · exact (addPaths_owners_le (s := reloadStart fs loads) h.sorted paths r).2.trans (hcount r)
      · rintro ⟨-,lines',hlines',fname,r,hreader,htwice⟩
        obtain rfl := Option.mem_unique hlines hlines'
        rw [hpaths] at htwice
        have := @addPaths_shared lib disk (reloadStart fs loads) _ h.sorted h.unmarked
          _ hreader paths htwice
        exact absurd (hcount r) (by omega)
    · rintro ⟨hnodup,hnot⟩
      have howned : (reloadStart fs loads).Owned := fun r =>
        ⟨List.nodup_iff_count_le_one.mp hnodup r,fun hge => List.count_eq_zero.mpr (fun hmem =>
          absurd (h.lt r (howners ▸ hmem)) (not_lt.mpr hge))⟩
      have := @addPaths_owned lib disk _ howned h.sorted h.unmarked paths
        (fun hrelists => hnot ⟨hup,lines,hlines,hpaths ▸ hrelists⟩)
      exact List.nodup_iff_count_le_one.mpr (fun r => (this r).1)

end

/-! ### Any number of reloads -/

/-- The file set and its readers after reloads of the setfile as these disks show it. -/
def afterReloads (lib : StdLib) (setdir : Bytes) (disks : List Disk) : MyFileset × Loads :=
  disks.foldl (fun p disk => myFilesetReload lib disk p.1 p.2) (myFilesetInit setdir,⟨0,0,0,[]⟩)

/-- After every reload no entry holds an unloaded reader, and once the file set is destroyed no
reader has been unloaded twice. -/
def LifecycleSafe (lib : StdLib) (setdir : Bytes) (disks : List Disk) : Prop :=
  (∀ ds, ds <+: disks → ∀ ent ∈ (afterReloads lib setdir ds).1.entries, ∀ r ∈ ent.ptr,
    r ∉ (afterReloads lib setdir ds).2.unloaded) ∧
  (myFilesetDestroy (afterReloads lib setdir disks).1
    (afterReloads lib setdir disks).2).unloaded.Nodup

section
variable {lib : StdLib} {setdir : Bytes}

theorem afterReloads_append (disks : List Disk) (disk : Disk) :
    afterReloads lib setdir (disks++[disk]) = myFilesetReload lib disk
      (afterReloads lib setdir disks).1 (afterReloads lib setdir disks).2 := by
  rw [afterReloads,List.foldl_append]
  rfl

theorem afterReloads_wellKept (disks : List Disk) :
    WellKept (afterReloads lib setdir disks).1 (afterReloads lib setdir disks).2 := by
  induction disks using List.reverseRecOn with
  | nil => exact ⟨by simp [afterReloads,myFilesetInit],by simp [afterReloads,myFilesetInit],
      by simp [afterReloads,myFilesetInit,held]⟩
  | append_singleton disks disk ih =>
    rw [afterReloads_append]
    exact (myFilesetReload_spec ih).1

/-- The readers are sound exactly if no reload so far has listed one twice. -/
theorem afterReloads_sound (disks : List Disk) :
    Sound (afterReloads lib setdir disks).1 (afterReloads lib setdir disks).2 ↔
      ∀ ds disk, ds++[disk] <+: disks → ¬ ReloadRelists lib disk (afterReloads lib setdir ds).1 := by
  induction disks using List.reverseRecOn with
  | nil =>
    refine iff_of_true (by simp [Sound,afterReloads,myFilesetInit,held]) ?_
    intro ds disk h
    have := h.length_le
    simp at this
  | append_singleton disks disk ih =>
    rw [afterReloads_append,(myFilesetReload_spec (afterReloads_wellKept disks)).2,ih]
    constructor
    · rintro ⟨hbefore,hlast⟩ ds d h
      rcases List.prefix_concat_iff.mp h with heq | hpre
      · obtain ⟨rfl,hd⟩ := List.append_inj' heq rfl
        obtain rfl := List.singleton_inj.mp hd
        exact hlast
      · exact hbefore ds d hpre
    · intro h
      exact ⟨fun ds d hpre => h ds d (hpre.trans (List.prefix_append _ _)),
        h disks disk List.prefix_rfl⟩

end

/-- Readers are handed from version to version safely exactly if no version that a reload reads
lists a path twice whose reader is loaded. -/
theorem reader_lifecycle (lib : StdLib) (setdir : Bytes) (disks : List Disk) :
    LifecycleSafe lib setdir disks ↔
      ∀ ds disk, ds++[disk] <+: disks → ¬ ReloadRelists lib disk (afterReloads lib setdir ds).1 := by
  rw [← afterReloads_sound]
  have hdestroy := foldl_fsUnload (afterReloads lib setdir disks).1.entries
    (afterReloads lib setdir disks).2
  constructor
  · rintro ⟨-,hnodup⟩
    rw [myFilesetDestroy,hdestroy] at hnodup
    exact List.perm_append_comm.nodup_iff.mp hnodup
  · intro hsound
    refine ⟨fun ds hpre ent hent r hr hmem => ?_,?_⟩
    · have hds : Sound (afterReloads lib setdir ds).1 (afterReloads lib setdir ds).2 :=
        (afterReloads_sound ds).mpr (fun ds' d h =>
          (afterReloads_sound disks).mp hsound ds' d (h.trans hpre))
      exact (List.disjoint_of_nodup_append hds)
        (List.mem_filterMap.mpr ⟨ent,hent,Option.mem_def.mp hr⟩) hmem
    · rw [myFilesetDestroy,hdestroy]
      exact List.perm_append_comm.nodup_iff.mp hsound

/-- Insertion sort and linear search. -/
def simpleLib : StdLib where
  qsort := List.insertionSort (fun a b => a.fname ≤ b.fname)
  qsort_perm := List.perm_insertionSort _
  qsort_sorted es := by
    have : Std.Total (fun a b : FilesetEntry => a.fname ≤ b.fname) := ⟨fun a b => le_total _ _⟩
    have : IsTrans FilesetEntry (fun a b => a.fname ≤ b.fname) := ⟨fun _ _ _ => le_trans⟩
    exact List.pairwise_insertionSort _ es
  bsearch names key := names.idxOf? key
  bsearch_some names key i _ h := by
    obtain ⟨hi,heq,-⟩ := List.idxOf?_eq_some_iff.mp h
    exact List.getElem?_eq_some_iff.mpr ⟨hi,heq⟩
  bsearch_none names key _ h := List.idxOf?_eq_none_iff.mp h

/-- The setfile at the given time, with one path on two lines. -/
def twiceListed (mtime : ℤ) : Disk where
  setfileStat := some (1,mtime)
  setfileLines := some [[47,97,10],[47,97,10]]
  pathExists _ := true
  readable _ := true

/-- The second reload hands the first reader to two entries and unloads the other; the end unloads
it twice. -/
theorem reader_lifecycle_fails : ¬ LifecycleSafe simpleLib [] [twiceListed 1,twiceListed 2] := by
  rintro ⟨-,hnodup⟩
  revert hnodup
  decide +kernel

end Mtbl
