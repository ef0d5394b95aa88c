import Mtbl.Fileset.Fileset
import Mtbl.Fileset.Lifecycle

/-! Views of a file set. While an iterator is open the readers are frozen, and between reloads a merger
whose time stamp is that of the shared part has the sources of the day. `mtbl_fileset_reload_now`
breaks the second when it stamps an out of date merger that it does not reinitialize. -/
namespace Mtbl
open CRun

/-! ### A reload of distinct paths -/

/-- The setfile lists no path twice. -/
def Disk.Distinct (disk : Disk) (setdir : Bytes) : Prop :=
  ∀ lines ∈ disk.setfileLines, (lines.map (resolve setdir)).Nodup

/-- A reload would read a version of the setfile that lists a path which no entry has as its name, or
leaves out the name of an entry. -/
def ListsOthers (disk : Disk) (fs : MyFileset) : Prop :=
  ∃ paths ∈ newPaths disk fs,
    (∃ fname ∈ paths, fname ∉ fs.entries.map FilesetEntry.fname) ∨
      ∃ ent ∈ fs.entries, ent.fname ∉ paths

section
variable {lib : StdLib} {disk : Disk} {s : ReloadState} {fs : MyFileset} {loads : Loads}

theorem Disk.Distinct.paths {setdir : Bytes} (h : disk.Distinct setdir) {lines : List Bytes}
    (hlines : lines ∈ disk.setfileLines) : (listedPaths disk setdir lines).Nodup :=
  (h lines hlines).filter _

theorem Disk.Distinct.not_relists (h : disk.Distinct fs.setdir) :
    ¬ ReloadRelists lib disk fs := by
  rintro ⟨-,lines,hlines,fname,r,-,hcount⟩
  have := List.nodup_iff_count_le_one.mp (h.paths hlines) fname
  omega

/-- The new entries have the names of the paths, in their order. -/
theorem addPaths_newNames (s : ReloadState) (paths : List Bytes) :
    (addPaths lib disk s paths).newEntries.map FilesetEntry.fname =
      s.newEntries.map FilesetEntry.fname++paths := by
  induction paths generalizing s with
  | nil => exact (List.append_nil _).symm
  | cons fname paths ih =>
    have hstep : (addPath lib disk s fname).newEntries.map FilesetEntry.fname =
        s.newEntries.map FilesetEntry.fname++[fname] := by
      unfold addPath
      split <;> simp
    rw [show addPaths lib disk s (fname::paths) =
      addPaths lib disk (addPath lib disk s fname) paths from rfl,ih,hstep,List.append_assoc]
    rfl

theorem myFilesetReload_names (hnames : (fs.entries.map FilesetEntry.fname).Nodup)
    (hdistinct : disk.Distinct fs.setdir) :
    ((myFilesetReload lib disk fs loads).1.entries.map FilesetEntry.fname).Nodup := by
  rcases @myFilesetReload_cases lib disk fs loads with
    ⟨hentries,-,-⟩ | ⟨lines,hlines,-,hentries,-⟩
  · rwa [hentries]
  · rw [hentries,((lib.qsort_perm _).map _).nodup_iff,addPaths_newNames]
    exact hdistinct.paths hlines

theorem myFilesetReload_setdir : (myFilesetReload lib disk fs loads).1.setdir = fs.setdir := by
  have hsame := @setfileUpdated_entries disk fs
  unfold myFilesetReload
  rcases hup : setfileUpdated disk fs with ⟨fs',updated⟩
  rw [hup] at hsame
  cases updated with
  | false => exact hsame.2
  | true =>
    cases disk.setfileLines with
    | none => exact hsame.2
    | some lines => exact hsame.2

theorem fetchEntry_iff (hsorted : s.names.Pairwise (· ≤ ·)) {fname : Bytes} :
    (∃ i, fetchEntry lib s.entries fname = some i) ↔ fname ∈ s.names := by
  constructor
  · rintro ⟨i,hfetch⟩
    obtain ⟨ent,hent,rfl⟩ := fetchEntry_some hsorted hfetch
    exact List.mem_map_of_mem (List.mem_of_getElem? hent)
  · intro hmem
    cases hfetch : fetchEntry lib s.entries fname with
    | none => exact absurd hmem (lib.bsearch_none _ _ hsorted hfetch)
    | some i => exact ⟨i,rfl⟩

/-- The counters of a reload: paths without an old entry, and old entries left unmarked. -/
theorem addPath_counters (hsorted : s.names.Pairwise (· ≤ ·)) (fname : Bytes) :
    (addPath lib disk s fname).loads.nUnloaded = s.loads.nUnloaded ∧
      (addPath lib disk s fname).loads.nLoaded =
        s.loads.nLoaded+if fname ∈ s.names then 0 else 1 := by
  have hiff := @fetchEntry_iff lib s hsorted fname
  cases hfetch : fetchEntry lib s.entries fname with
  | none =>
    rw [if_neg (by rw [← hiff,hfetch]; simp),addPath_missing hfetch]
    simp only [fsLoad]
    split_ifs <;> exact ⟨rfl,rfl⟩
  | some i =>
    obtain ⟨ent,hent,-⟩ := fetchEntry_some hsorted hfetch
    rw [if_pos (hiff.mp ⟨i,hfetch⟩),addPath_found hfetch hent]
    exact ⟨rfl,rfl⟩

theorem addPaths_counters (hsorted : s.names.Pairwise (· ≤ ·)) (paths : List Bytes) :
    (addPaths lib disk s paths).loads.nUnloaded = s.loads.nUnloaded ∧
      (addPaths lib disk s paths).loads.nLoaded =
        s.loads.nLoaded+paths.countP (fun fname => decide (fname ∉ s.names)) := by
  induction paths using List.reverseRecOn with
  | nil => exact ⟨rfl,rfl⟩
  | append_singleton paths fname ih =>
    have hnames := (@addPaths_owners_le lib disk _ hsorted paths 0).1
    obtain ⟨hun,hload⟩ := @addPath_counters lib disk
      (addPaths lib disk s paths) (hnames ▸ hsorted) fname
    rw [hnames] at hload
    rw [addPaths_append,hun,hload,ih.1,ih.2,List.countP_append,List.countP_singleton]
    refine ⟨rfl,?_⟩
    by_cases hmem : fname ∈ s.names <;> simp [hmem,Nat.add_assoc]

/-- The old entries that stay unmarked are those whose names do not come up. -/
theorem unkept_addPaths (hsorted : s.names.Pairwise (· ≤ ·)) (hnames : s.names.Nodup)
    (hunmarked : ∀ ent ∈ s.entries, ent.keep = false) (paths : List Bytes) :
    unkept (addPaths lib disk s paths).entries = [] ↔ ∀ ent ∈ s.entries, ent.fname ∈ paths := by
  have hlength : (addPaths lib disk s paths).entries.length = s.entries.length := by
    simpa [ReloadState.names] using
      congrArg List.length (@addPaths_owners_le lib disk _ hsorted paths 0).1
  have hmarked : ∀ (i : ℕ) (ent : FilesetEntry), s.entries[i]? = some ent →
      (addPaths lib disk s paths).entries[i]? =
        some { ent with keep := decide (ent.fname ∈ paths) } := by
    intro i ent hent
    have hmem := List.mem_map_of_mem (f := FilesetEntry.fname) (List.mem_of_getElem? hent)
    obtain ⟨j,hfetch⟩ := (@fetchEntry_iff lib s hsorted ent.fname).mpr hmem
    obtain ⟨ent',hent',hname⟩ := fetchEntry_some hsorted hfetch
    obtain rfl := List.inj_on_of_nodup_map hnames (List.mem_of_getElem? hent')
      (List.mem_of_getElem? hent) hname
    have hget := @addPaths_marked lib disk _ _ hsorted hunmarked paths _ _ hfetch hent'
    have hij : j = i := by
      have hnodup := List.Nodup.of_map _ hnames
      obtain ⟨hj,hj'⟩ := List.getElem?_eq_some_iff.mp hent'
      obtain ⟨hi,hi'⟩ := List.getElem?_eq_some_iff.mp hent
      exact (hnodup.getElem_inj_iff).mp (hj'.trans hi'.symm)
    rwa [hij] at hget
  rw [unkept,List.filter_eq_nil_iff]
  constructor
  · intro h ent hent
    obtain ⟨i,hi⟩ := List.getElem?_of_mem hent
    simpa using h _ (List.mem_of_getElem? (hmarked i ent hi))
  · intro h ent hent
    obtain ⟨i,hi⟩ := List.getElem?_of_mem hent
    have hlt := (List.getElem?_eq_some_iff.mp hi).1
    have hold := List.getElem?_eq_getElem (hlength ▸ hlt)
    have hget := hmarked i _ hold
    rw [hi,Option.some.injEq] at hget
    simp [hget,h _ (List.mem_of_getElem? hold)]

theorem foldl_unloadOld_counters (es : List FilesetEntry) (loads : Loads) :
    (es.foldl unloadOld loads).nLoaded = loads.nLoaded ∧
      (es.foldl unloadOld loads).nUnloaded = loads.nUnloaded+(unkept es).length := by
  induction es generalizing loads with
  | nil => exact ⟨rfl,rfl⟩
  | cons ent es ih =>
    obtain ⟨h1,h2⟩ := ih (unloadOld loads ent)
    rw [List.foldl_cons,h1,h2]
    cases hkeep : ent.keep with
    | true => simp [unloadOld,unkept,hkeep]
    | false =>
      simp only [unloadOld,hkeep,Bool.false_eq_true,if_false,fsUnload,unkept,List.filter_cons,
        Bool.not_false,if_true,List.length_cons,true_and]
      omega

/-- Found under their own names, old entries become new ones unchanged. -/
theorem addPaths_found (hsorted : s.names.Pairwise (· ≤ ·))
    (hunmarked : ∀ ent ∈ s.entries, ent.keep = false) (hnew : s.newEntries = [])
    (paths : List Bytes) (hall : ∀ fname ∈ paths, ∃ i, fetchEntry lib s.entries fname = some i) :
    ∀ ent ∈ (addPaths lib disk s paths).newEntries, ent ∈ s.entries := by
  induction paths using List.reverseRecOn with
  | nil =>
    intro ent hmem
    rw [show addPaths lib disk s [] = s from rfl,hnew] at hmem
    simp at hmem
  | append_singleton paths fname ih =>
    have hnames := (@addPaths_owners_le lib disk _ hsorted paths 0).1
    have hsame : fetchEntry lib (addPaths lib disk s paths).entries fname =
        fetchEntry lib s.entries fname := congrArg (lib.bsearch · fname) hnames
    obtain ⟨i,hfetch⟩ := hall fname (by simp)
    obtain ⟨old,hold,rfl⟩ := fetchEntry_some hsorted hfetch
    have hmarked := @addPaths_marked lib disk _ _ hsorted hunmarked paths _ _ hfetch hold
    have hmem := List.mem_of_getElem? hold
    rw [addPaths_append,addPath_found (hsame.trans hfetch) hmarked]
    intro ent hent
    rcases List.mem_append.mp hent with hent | hent
    · exact ih (fun f hf => hall f (by simp [hf])) ent hent
    · rw [List.mem_singleton.mp hent]
      have hfalse := hunmarked old hmem
      cases old
      obtain rfl := hfalse
      exact hmem

/-- A reload loads and unloads nothing exactly if the setfile lists what it did. -/
theorem myFilesetReload_counters (h : WellKept fs loads)
    (hnames : (fs.entries.map FilesetEntry.fname).Nodup) :
    ((myFilesetReload lib disk fs loads).2.nLoaded = loads.nLoaded ∧
      (myFilesetReload lib disk fs loads).2.nUnloaded = loads.nUnloaded) ↔
      ¬ ListsOthers disk fs := by
  unfold ListsOthers
  cases hpaths : newPaths disk fs with
  | none => simp [(@myFilesetReload_none lib disk fs loads hpaths).2]
  | some paths =>
    have hsorted : (reloadStart fs loads).names.Pairwise (· ≤ ·) := h.sorted
    obtain ⟨hun,hload⟩ := @addPaths_counters lib disk _ hsorted paths
    obtain ⟨hcount,hcount'⟩ := foldl_unloadOld_counters
      (addPaths lib disk (reloadStart fs loads) paths).entries
      (addPaths lib disk (reloadStart fs loads) paths).loads
    have hkept := @unkept_addPaths lib disk _ hsorted hnames h.unmarked paths
    rw [(@myFilesetReload_some lib disk fs loads _ hpaths).2,hcount,hcount',hun,hload]
    simp only [reloadStart,Nat.add_eq_left,List.length_eq_zero_iff,List.countP_eq_zero] at hkept ⊢
    rw [hkept]
    simp [ReloadState.names]

/-- It then leaves the entries as they are. -/
theorem myFilesetReload_unchanged (h : WellKept fs loads)
    (hnames : (fs.entries.map FilesetEntry.fname).Nodup) (hdistinct : disk.Distinct fs.setdir)
    (hothers : ¬ ListsOthers disk fs) :
    (myFilesetReload lib disk fs loads).1.entries = fs.entries := by
  cases hpaths : newPaths disk fs with
  | none => exact (myFilesetReload_none hpaths).1
  | some paths =>
    obtain ⟨-,lines,hlines,hlisted⟩ := newPaths_eq_some.mp hpaths
    have hnodupPaths := hlisted ▸ hdistinct.paths hlines
    have hsorted : (reloadStart fs loads).names.Pairwise (· ≤ ·) := h.sorted
    have hsame : (∀ fname ∈ paths, fname ∈ fs.entries.map FilesetEntry.fname) ∧
        ∀ ent ∈ fs.entries, ent.fname ∈ paths := by
      simpa [ListsOthers,hpaths,not_or] using hothers
    have hfound := @addPaths_found lib disk _ hsorted h.unmarked rfl paths
      (fun fname hmem => (fetchEntry_iff hsorted).mpr (hsame.1 fname hmem))
    have hnewNames := @addPaths_newNames lib disk (reloadStart fs loads) paths
    rw [(myFilesetReload_some hpaths).1]
    -- the same entries, sorted by names that are all different
    have hmem : ∀ ent ∈ fs.entries,
        ent ∈ (addPaths lib disk (reloadStart fs loads) paths).newEntries := by
      intro ent hent
      have hname : ent.fname ∈ (addPaths lib disk (reloadStart fs loads) paths).newEntries.map
          FilesetEntry.fname := by
        rw [hnewNames]
        exact List.mem_append_right _ (hsame.2 ent hent)
      obtain ⟨new,hnew,heq⟩ := List.mem_map.mp hname
      rwa [List.inj_on_of_nodup_map hnames (hfound new hnew) hent heq] at hnew
    have hnodup : (addPaths lib disk (reloadStart fs loads) paths).newEntries.Nodup := by
      apply List.Nodup.of_map FilesetEntry.fname
      rw [hnewNames]
      exact hnodupPaths
    have hperm : (lib.qsort (addPaths lib disk (reloadStart fs loads) paths).newEntries).Perm
        fs.entries := (lib.qsort_perm _).trans
      ((List.perm_ext_iff_of_nodup hnodup (List.Nodup.of_map _ hnames)).mpr
        (fun ent => ⟨hfound ent,hmem ent⟩))
    refine hperm.eq_of_pairwise ?_ (lib.qsort_sorted _) (List.pairwise_map.mp h.sorted)
    intro a b ha hb hab hba
    exact List.inj_on_of_nodup_map hnames (hperm.mem_iff.mp ha) hb (le_antisymm hab hba)

end


/-! ### The invariant -/

/-- Times of reloads are not zero and all different. -/
def ClockOk (w : World) : Prop := (Timespec.zero::w.reloads).Nodup

def openIters (w : World) : ℕ := w.iters.countP Option.isSome

/-- Mergers: each file set's own, created and not destroyed. -/
structure MergersOk (w : World) : Prop where
  lt : ∀ (j : ℕ) (f : Fileset), w.filesets[j]? = some f → f.merger.id < w.mergersCreated
  alive : ∀ (j : ℕ) (f : Fileset), w.filesets[j]? = some f → f.merger.id ∉ w.mergersDestroyed
  destroyed_lt : ∀ m ∈ w.mergersDestroyed, m < w.mergersCreated
  own : ∀ (j k : ℕ) (f g : Fileset), w.filesets[j]? = some f → w.filesets[k]? = some g →
    f.merger.id = g.merger.id → j = k

/-- Only the file sets and the mergers matter. -/
theorem MergersOk.frame {w w' : World} (h : MergersOk w) (hsets : w'.filesets = w.filesets)
    (hcreated : w'.mergersCreated = w.mergersCreated)
    (hdestroyed : w'.mergersDestroyed = w.mergersDestroyed) : MergersOk w' := by
  constructor
  · rw [hsets,hcreated]
    exact h.lt
  · rw [hsets,hdestroyed]
    exact h.alive
  · rw [hcreated,hdestroyed]
    exact h.destroyed_lt
  · rw [hsets]
    exact h.own

/-- A merger with the time stamp of the shared part has the sources of the day, and an open iterator
was made from such a merger. -/
structure ViewsOk (w : World) : Prop where
  kept : WellKept w.shared.myFs w.shared.loads
  sound : Sound w.shared.myFs w.shared.loads
  names : (w.shared.myFs.entries.map FilesetEntry.fname).Nodup
  distinct : w.disk.Distinct w.shared.myFs.setdir
  count : w.shared.nIters = openIters w
  mergers : MergersOk w
  stamp : w.shared.fsLast ∈ Timespec.zero::w.reloads
  stamps : ∀ (j : ℕ) (f : Fileset), w.filesets[j]? = some f → f.fsLast ∈ Timespec.zero::w.reloads
  empty : w.shared.fsLast = .zero → w.shared.myFs.entries = []
  current : ∀ (j : ℕ) (f : Fileset), w.filesets[j]? = some f → f.fsLast = w.shared.fsLast →
    f.merger.sources = f.sources w.shared.myFs.entries
  iters : ∀ it, some it ∈ w.iters → ∃ f : Fileset, w.filesets[it.fs]? = some f ∧ f.merger = it.merger ∧
    f.fsLast = w.shared.fsLast

section
variable {lib : StdLib} {w : World} {i : ℕ} {f : Fileset}

theorem Fileset.sources_subset {f : Fileset} {entries : List FilesetEntry} {r : ℕ}
    (h : r ∈ f.sources entries) : r ∈ held entries := by
  obtain ⟨ent,hent,hr⟩ := List.mem_filterMap.mp h
  exact List.mem_filterMap.mpr ⟨ent,hent,(Option.filter_eq_some_iff.mp hr).1⟩

/-- Open iterators may be used. -/
theorem ViewsOk.live (h : ViewsOk w) {it : FilesetIter} (hit : some it ∈ w.iters) :
    w.alive it = true := by
  obtain ⟨f,hf,hmerger,hstamp⟩ := h.iters it hit
  rw [World.alive,decide_eq_true_iff,← hmerger,h.current _ f hf hstamp]
  exact ⟨h.mergers.alive _ f hf,fun r hr =>
    List.disjoint_of_nodup_append h.sound (Fileset.sources_subset hr)⟩

theorem ViewsOk.closed (h : ViewsOk w) (hzero : w.shared.nIters = 0) (it : FilesetIter) :
    some it ∉ w.iters := by
  intro hit
  have hcount := h.count
  rw [hzero,openIters] at hcount
  have := List.countP_eq_zero.mp hcount.symm _ hit
  simp at this

theorem singleton_cases {α : Type*} {a b : α} {j : ℕ} (h : [a][j]? = some b) : j = 0 ∧ a = b := by
  rw [List.getElem?_singleton] at h
  split_ifs at h with hj
  exact ⟨hj,Option.some.inj h⟩

theorem ViewsOk.init (disk : Disk) (clock : Timespec) (setdir : Bytes) (opt : FilesetOptions)
    (hdistinct : disk.Distinct setdir) : ViewsOk (World.init disk clock setdir opt) where
  kept := ⟨by simp [World.init,myFilesetInit],by simp [World.init,myFilesetInit],
    by simp [World.init,myFilesetInit,held]⟩
  sound := by simp [World.init,myFilesetInit,held,Sound]
  names := by simp [World.init,myFilesetInit]
  distinct := hdistinct
  count := rfl
  mergers := by
    constructor
    · intro j f hf
      obtain ⟨-,rfl⟩ := singleton_cases hf
      exact Nat.zero_lt_one
    · simp [World.init]
    · simp [World.init]
    · intro j k f g hf hg _
      obtain ⟨rfl,-⟩ := singleton_cases hf
      obtain ⟨rfl,-⟩ := singleton_cases hg
      rfl
  stamp := List.mem_cons_self ..
  stamps := by
    intro j f hf
    obtain ⟨-,rfl⟩ := singleton_cases hf
    exact List.mem_cons_self ..
  empty := fun _ => rfl
  current := by
    intro j f hf _
    obtain ⟨-,rfl⟩ := singleton_cases hf
    rfl
  iters := by simp [World.init]

/-! ### Replacing one file set -/

theorem set_cases {α : Type*} {l : List α} {i j : ℕ} {a b : α} (h : (l.set i a)[j]? = some b) :
    (j = i ∧ b = a) ∨ (j ≠ i ∧ l[j]? = some b) := by
  by_cases hij : i = j
  · subst hij
    have hlt := (List.getElem?_eq_some_iff.mp h).1
    rw [List.length_set] at hlt
    rw [List.getElem?_set_self hlt] at h
    exact .inl ⟨rfl,(Option.some.inj h).symm⟩
  · rw [List.getElem?_set_ne hij] at h
    exact .inr ⟨fun he => hij he.symm,h⟩

/-- The file set with a new merger and the given time stamp. -/
def replaceMerger (w : World) (i : ℕ) (f : Fileset) (t : Timespec) : World :=
  { w with filesets := w.filesets.set i
             { f with merger := ⟨w.mergersCreated,f.sources w.shared.myFs.entries⟩, fsLast := t }
           mergersCreated := w.mergersCreated+1
           mergersDestroyed := w.mergersDestroyed++[f.merger.id] }

theorem setFsLast_reinit (hf : w.filesets[i]? = some f) (t : Timespec) :
    setFsLast (fsReinitMerger w i f) i t = replaceMerger w i f t := by
  have hi := (List.getElem?_eq_some_iff.mp hf).1
  simp [setFsLast,fsReinitMerger,replaceMerger,hi]

theorem MergersOk.replace (h : MergersOk w) (hf : w.filesets[i]? = some f) (t : Timespec) :
    MergersOk (replaceMerger w i f t) := by
  constructor
  · intro j g hg
    rcases set_cases hg with ⟨-,rfl⟩ | ⟨-,hold⟩
    · exact Nat.lt_succ_self _
    · exact (h.lt j g hold).trans (Nat.lt_succ_self _)
  · intro j g hg hmem
    rcases List.mem_append.mp hmem with hgone | hgone
    · rcases set_cases hg with ⟨-,rfl⟩ | ⟨-,hold⟩
      · exact lt_irrefl _ (h.destroyed_lt _ hgone)
      · exact h.alive j g hold hgone
    · have hid := List.mem_singleton.mp hgone
      rcases set_cases hg with ⟨-,rfl⟩ | ⟨hne,hold⟩
      · exact (h.lt i f hf).ne' hid
      · exact hne (h.own j i g f hold hf hid)
  · intro m hm
    rcases List.mem_append.mp hm with hm | hm
    · exact (h.destroyed_lt m hm).trans (Nat.lt_succ_self _)
    · rw [List.mem_singleton.mp hm]
      exact (h.lt i f hf).trans (Nat.lt_succ_self _)
  · intro j k g g' hg hg' hid
    rcases set_cases hg with ⟨hj,rfl⟩ | ⟨-,hold⟩
    · rcases set_cases hg' with ⟨hk,-⟩ | ⟨-,hold'⟩
      · rw [hj,hk]
      · exact absurd hid (h.lt k g' hold').ne'
    · rcases set_cases hg' with ⟨-,rfl⟩ | ⟨-,hold'⟩
      · exact absurd hid (h.lt j g hold).ne
      · exact h.own j k g g' hold hold' hid

/-- A time stamp says nothing about mergers. -/
theorem MergersOk.restamp (h : MergersOk w) (hf : w.filesets[i]? = some f) (t : Timespec) :
    MergersOk { w with filesets := w.filesets.set i { f with fsLast := t } } := by
  have hsame : ∀ (j : ℕ) (g : Fileset),
      (w.filesets.set i { f with fsLast := t })[j]? = some g →
      ∃ g', w.filesets[j]? = some g' ∧ g'.merger = g.merger := by
    intro j g hg
    rcases set_cases hg with ⟨rfl,rfl⟩ | ⟨-,hg⟩
    · exact ⟨f,hf,rfl⟩
    · exact ⟨g,hg,rfl⟩
  constructor
  · intro j g hg
    obtain ⟨g',hg',hm⟩ := hsame j g hg
    exact hm ▸ h.lt j g' hg'
  · intro j g hg
    obtain ⟨g',hg',hm⟩ := hsame j g hg
    exact hm ▸ h.alive j g' hg'
  · exact h.destroyed_lt
  · intro j k g k' hg hk hid
    obtain ⟨g',hg',hm⟩ := hsame j g hg
    obtain ⟨k'',hk',hm'⟩ := hsame k k' hk
    exact h.own j k g' k'' hg' hk' (by rw [hm,hm',hid])

/-! ### Reloading -/

/-- An out of date file set has no open iterators, so its merger may go. -/
theorem ViewsOk.refresh (h : ViewsOk w) (hf : w.filesets[i]? = some f) :
    ViewsOk (refresh w i f) ∧ ∃ g, (refresh w i f).filesets[i]? = some g ∧
      g.fsLast = w.shared.fsLast ∧ g.reloadInterval = f.reloadInterval := by
  unfold Mtbl.refresh
  by_cases hstale : f.fsLast = w.shared.fsLast
  · rw [if_neg (not_not.mpr hstale)]
    exact ⟨h,f,hf,hstale,rfl⟩
  rw [if_pos hstale,setFsLast_reinit hf]
  have hi := (List.getElem?_eq_some_iff.mp hf).1
  refine ⟨?_,_,List.getElem?_set_self hi,rfl,rfl⟩
  exact { h with
    mergers := h.mergers.replace hf _
    stamps := by
      intro j g hg
      rcases set_cases hg with ⟨rfl,rfl⟩ | ⟨-,hg⟩
      · exact h.stamp
      · exact h.stamps j g hg
    current := by
      intro j g hg hstamp
      rcases set_cases hg with ⟨rfl,rfl⟩ | ⟨-,hg⟩
      · rfl
      · exact h.current j g hg hstamp
    iters := by
      intro it hit
      obtain ⟨g,hg,hmerger,hstamp⟩ := h.iters it hit
      have hne : i ≠ it.fs := by
        rintro rfl
        obtain rfl := Option.some.inj (hf.symm.trans hg)
        exact hstale hstamp
      exact ⟨g,(List.getElem?_set_ne hne).trans hg,hmerger,hstamp⟩ }

theorem reloadAndStamp_eq (hf : w.filesets[i]? = some f) :
    reloadAndStamp lib w i =
      if changed (reloadShared lib w.disk w.shared) then
        replaceMerger { w with
          shared := { reloadShared lib w.disk w.shared with
            fsLast := w.clock, reloadNeeded := false }
          reloads := w.reloads++[w.clock] } i f w.clock
      else { w with
        shared := { reloadShared lib w.disk w.shared with fsLast := w.clock, reloadNeeded := false }
        reloads := w.reloads++[w.clock]
        filesets := w.filesets.set i { f with fsLast := w.clock } } := by
  obtain ⟨hi,rfl⟩ := List.getElem?_eq_some_iff.mp hf
  by_cases hchanged : changed (reloadShared lib w.disk w.shared) = true
  · rw [if_pos hchanged]
    simp [reloadAndStamp,fsReinitMergerAt,setFsLast,fsReinitMerger,replaceMerger,hi,hchanged]
  · rw [if_neg hchanged]
    simp [reloadAndStamp,setFsLast,hi,hchanged]

theorem ViewsOk.changed_iff (h : ViewsOk w) :
    changed (reloadShared lib w.disk w.shared) = true ↔ ListsOthers w.disk w.shared.myFs := by
  have hkept0 : WellKept w.shared.myFs { w.shared.loads with nLoaded := 0, nUnloaded := 0 } :=
    ⟨h.kept.unmarked,h.kept.sorted,h.kept.lt⟩
  rw [← not_iff_not,← @myFilesetReload_counters lib w.disk _ _ hkept0 h.names,changed,
    decide_eq_true_iff,not_or]
  simp only [reloadShared,gt_iff_lt,Nat.not_lt,Nat.le_zero_eq]

/-- A reload of distinct paths keeps what the invariant says of entries and readers. -/
theorem ViewsOk.reloadShared (h : ViewsOk w) :
    WellKept (reloadShared lib w.disk w.shared).myFs (reloadShared lib w.disk w.shared).loads ∧
      Sound (Mtbl.reloadShared lib w.disk w.shared).myFs
        (Mtbl.reloadShared lib w.disk w.shared).loads ∧
      ((Mtbl.reloadShared lib w.disk w.shared).myFs.entries.map FilesetEntry.fname).Nodup ∧
      w.disk.Distinct (Mtbl.reloadShared lib w.disk w.shared).myFs.setdir ∧
      (changed (Mtbl.reloadShared lib w.disk w.shared) = false →
        (Mtbl.reloadShared lib w.disk w.shared).myFs.entries = w.shared.myFs.entries) := by
  have hkept0 : WellKept w.shared.myFs { w.shared.loads with nLoaded := 0, nUnloaded := 0 } :=
    ⟨h.kept.unmarked,h.kept.sorted,h.kept.lt⟩
  obtain ⟨hkept,hsound⟩ := @myFilesetReload_spec lib w.disk _ _ hkept0
  refine ⟨hkept,hsound.mpr ⟨h.sound,h.distinct.not_relists⟩,
    myFilesetReload_names h.names h.distinct,?_,?_⟩
  · rw [Mtbl.reloadShared,myFilesetReload_setdir]
    exact h.distinct
  · intro hsame
    refine myFilesetReload_unchanged hkept0 h.names h.distinct (fun hothers => ?_)
    rw [h.changed_iff.mpr hothers] at hsame
    cases hsame

/-- Once nobody has an iterator readers may change. Mergers elsewhere fall out of date by the new time
stamp; the file set itself must have the sources of the day. -/
theorem ViewsOk.stamped (h : ViewsOk w) (hclosed : w.shared.nIters = 0)
    (hclock : w.clock ∉ Timespec.zero::w.reloads) {w' : World} (hdisk : w'.disk = w.disk)
    (hshared : w'.shared = { Mtbl.reloadShared lib w.disk w.shared with
      fsLast := w.clock, reloadNeeded := false })
    (hreloads : w'.reloads = w.reloads++[w.clock]) (hiters : w'.iters = w.iters)
    (hmergers : MergersOk w') (hsets : ∀ (j : ℕ) (g : Fileset), w'.filesets[j]? = some g →
      (g.fsLast = w.clock ∧ g.merger.sources =
        g.sources (Mtbl.reloadShared lib w.disk w.shared).myFs.entries) ∨
      w.filesets[j]? = some g) : ViewsOk w' := by
  obtain ⟨hkept,hsound,hnames,hdistinct,-⟩ := @reloadShared lib _ h
  have hold : ∀ (j : ℕ) (g : Fileset), w.filesets[j]? = some g → g.fsLast ≠ w.clock :=
    fun j g hg heq => hclock (heq ▸ h.stamps j g hg)
  constructor
  · rwa [hshared]
  · rwa [hshared]
  · rwa [hshared]
  · rwa [hshared,hdisk]
  · rw [hshared,openIters,hiters]
    exact h.count
  · exact hmergers
  · rw [hshared,hreloads]
    simp
  · intro j g hg
    rw [hreloads]
    rcases hsets j g hg with ⟨hstamp,-⟩ | hg
    · simp [hstamp]
    · rcases List.mem_cons.mp (h.stamps j g hg) with hzero | hmem
      · simp [hzero]
      · simp [hmem]
  · intro hzero
    rw [hshared] at hzero
    exact absurd (show w.clock = .zero from hzero) (fun he => hclock (by simp [he]))
  · intro j g hg hstamp
    rw [hshared] at hstamp ⊢
    rcases hsets j g hg with ⟨-,hsources⟩ | hg
    · exact hsources
    · exact absurd hstamp (hold j g hg)
  · intro it hit
    rw [hiters] at hit
    exact absurd hit (h.closed hclosed it)

/-- What both reload functions end with, on a file set that is up to date or that the reload
changes. -/
theorem ViewsOk.reloadAndStamp (h : ViewsOk w) (hf : w.filesets[i]? = some f)
    (hclosed : w.shared.nIters = 0) (hclock : w.clock ∉ Timespec.zero::w.reloads)
    (hfresh : f.fsLast = w.shared.fsLast ∨
      changed (Mtbl.reloadShared lib w.disk w.shared) = true) :
    ViewsOk (reloadAndStamp lib w i) ∧ (∃ g, (Mtbl.reloadAndStamp lib w i).filesets[i]? = some g ∧
      g.fsLast = (Mtbl.reloadAndStamp lib w i).shared.fsLast) ∧
      (Mtbl.reloadAndStamp lib w i).reloads = w.reloads++[w.clock] ∧
      (Mtbl.reloadAndStamp lib w i).iters = w.iters := by
  have hi := (List.getElem?_eq_some_iff.mp hf).1
  rw [reloadAndStamp_eq hf]
  by_cases hchanged : changed (Mtbl.reloadShared lib w.disk w.shared) = true
  · rw [if_pos hchanged]
    refine ⟨@ViewsOk.stamped lib _ h hclosed hclock _ rfl rfl rfl rfl ?_ ?_,
      ⟨_,List.getElem?_set_self hi,rfl⟩,rfl,rfl⟩
    · have hmergers : MergersOk { w with
          shared := { Mtbl.reloadShared lib w.disk w.shared with
            fsLast := w.clock, reloadNeeded := false }
          reloads := w.reloads++[w.clock] } := h.mergers.frame rfl rfl rfl
      exact hmergers.replace hf _
    · intro j g hg
      rcases set_cases hg with ⟨-,rfl⟩ | ⟨-,hold⟩
      · exact .inl ⟨rfl,rfl⟩
      · exact .inr hold
  · rw [if_neg hchanged]
    have hcurrent := h.current i f hf (hfresh.resolve_right hchanged)
    have hentries := (@reloadShared lib _ h).2.2.2.2 (Bool.eq_false_iff.mpr hchanged)
    refine ⟨@ViewsOk.stamped lib _ h hclosed hclock _ rfl rfl rfl rfl ?_ ?_,
      ⟨_,List.getElem?_set_self hi,rfl⟩,rfl,rfl⟩
    · have hmergers := h.mergers.restamp hf w.clock
      exact hmergers.frame rfl rfl rfl
    · intro j g hg
      rcases set_cases hg with ⟨-,rfl⟩ | ⟨-,hold⟩
      · exact .inl ⟨rfl,by rw [hentries]; exact hcurrent⟩
      · exact .inr hold

/-- What a reload of the `i`-th file set does: it is up to date afterwards, and where a reload was
asked for and nobody has an iterator, it has taken place. -/
structure Reloaded (w w' : World) (i : ℕ) : Prop where
  views : ViewsOk w'
  upToDate : ∃ g : Fileset, w'.filesets[i]? = some g ∧ g.fsLast = w'.shared.fsLast
  iters : w'.iters = w.iters
  count : w'.shared.nIters = w.shared.nIters
  reloads : (w'.reloads = w.reloads ∧ w'.shared.reloadNeeded = w.shared.reloadNeeded) ∨
    w'.reloads = w.reloads++[w.clock]
  needed : w.shared.reloadNeeded = true → w.shared.nIters = 0 → w'.reloads = w.reloads++[w.clock]

theorem refresh_disk (w : World) (i : ℕ) (f : Fileset) : (refresh w i f).disk = w.disk := by
  unfold refresh setFsLast
  split_ifs
  · split <;> rfl
  · rfl

theorem refresh_frame (hf : w.filesets[i]? = some f) :
    (refresh w i f).shared = w.shared ∧ (refresh w i f).reloads = w.reloads ∧
      (refresh w i f).clock = w.clock ∧ (refresh w i f).iters = w.iters := by
  unfold refresh
  split_ifs
  · rw [setFsLast_reinit hf]
    exact ⟨rfl,rfl,rfl,rfl⟩
  · exact ⟨rfl,rfl,rfl,rfl⟩

theorem ClockOk.fresh {reloads : List Timespec} {clock : Timespec}
    (h : (Timespec.zero::(reloads++[clock])).Nodup) : clock ∉ Timespec.zero::reloads := by
  rw [← List.cons_append] at h
  exact fun hmem => List.disjoint_of_nodup_append h hmem (List.mem_singleton_self _)

theorem reloadAndStamp_reloads (hf : w.filesets[i]? = some f) :
    (reloadAndStamp lib w i).reloads = w.reloads++[w.clock] ∧
      (reloadAndStamp lib w i).iters = w.iters ∧
      (reloadAndStamp lib w i).shared.nIters = w.shared.nIters := by
  rw [reloadAndStamp_eq hf]
  split_ifs <;> exact ⟨rfl,rfl,rfl⟩

theorem ViewsOk.reloadNow (h : ViewsOk w) (hf : w.filesets[i]? = some f)
    (hclosed : w.shared.nIters = 0) (hclock : ClockOk (Mtbl.reloadAndStamp lib w i))
    (hfresh : f.fsLast = w.shared.fsLast ∨
      changed (Mtbl.reloadShared lib w.disk w.shared) = true) :
    Reloaded w (Mtbl.reloadAndStamp lib w i) i := by
  obtain ⟨hreloads,hiters,hcount⟩ := @reloadAndStamp_reloads lib _ _ _ hf
  rw [ClockOk,hreloads] at hclock
  obtain ⟨hviews,hdate,-,-⟩ := h.reloadAndStamp hf hclosed (ClockOk.fresh hclock) hfresh
  exact ⟨hviews,hdate,hiters,hcount,.inr hreloads,fun _ _ => hreloads⟩

theorem ViewsOk.reload (h : ViewsOk w) (hf : w.filesets[i]? = some f)
    (hclock : ClockOk (mtblFilesetReload lib w i)) :
    Reloaded w (mtblFilesetReload lib w i) i := by
  obtain ⟨hviews,g,hg,hdate,hinterval⟩ := h.refresh hf
  obtain ⟨hshared,hreloads,hclk,hiters⟩ := refresh_frame hf
  have hkeep : w.shared.reloadNeeded = false ∨ 0 < w.shared.nIters →
      Reloaded w (Mtbl.refresh w i f) i := fun hidle => {
    views := hviews
    upToDate := ⟨g,hg,by rw [hdate,hshared]⟩
    iters := hiters
    count := by rw [hshared]
    reloads := .inl ⟨hreloads,by rw [hshared]⟩
    needed := by
      intro hneeded hzero
      rcases hidle with hidle | hidle
      · rw [hneeded] at hidle
        cases hidle
      · omega }
  unfold mtblFilesetReload at hclock ⊢
  simp only [hf,hshared] at hclock ⊢
  split_ifs at hclock ⊢ with hnever hopen hdue
  · exact hkeep (.inl hnever.1)
  · exact hkeep (.inr hopen)
  · have hzero : (Mtbl.refresh w i f).shared.nIters = 0 := by
      rw [hshared]
      omega
    have hdone := @reloadNow lib _ _ _ hviews hg hzero hclock (.inl (hdate.trans (by rw [hshared])))
    exact {
      views := hdone.views
      upToDate := hdone.upToDate
      iters := hdone.iters.trans hiters
      count := hdone.count.trans (by rw [hshared])
      reloads := .inr (by rw [← hreloads,← hclk]; exact (reloadAndStamp_reloads hg).1)
      needed := fun _ _ => by rw [← hreloads,← hclk]; exact (reloadAndStamp_reloads hg).1 }
  · refine hkeep (.inl ?_)
    rw [not_or] at hdue
    exact Bool.not_eq_true _ ▸ hdue.1

end


/-! ### Runs -/

/-- What is assumed of the surroundings: times of reloads are not zero and all different, and each
version of the setfile lists distinct paths. -/
def StepAssumed (w : World) (op : FilesetOp) (w' : World) : Prop :=
  ClockOk w' ∧
    match op with
    | .change disk => disk.Distinct w.shared.myFs.setdir
    | _ => True

/-- Where an explicit reload takes place, the file set is up to date or the reload finds files listed
that it does not have, or has files that are no longer listed. -/
def ReloadNowFresh (w : World) (op : FilesetOp) (_ : World) : Prop :=
  match op with
  | .reloadNow i => w.shared.nIters = 0 → ∀ f ∈ w.filesets[i]?,
      f.fsLast = w.shared.fsLast ∨ ListsOthers w.disk w.shared.myFs
  | _ => True

/-- A new iterator is made from exactly the loaded readers that pass the filters of its file set. -/
def NewView (w : World) (op : FilesetOp) (w' : World) : Prop :=
  match op with
  | .query i => ∃ f id, w'.filesets[i]? = some f ∧
      w'.iters = w.iters++[some ⟨i,⟨id,f.sources w'.shared.myFs.entries⟩⟩]
  | _ => True

/-- Besides, open iterators find their merger and its readers. -/
def StepViews (w : World) (op : FilesetOp) (w' : World) : Prop :=
  (∀ it, some it ∈ w'.iters → w'.alive it = true) ∧ NewView w op w'

/-- The three properties of a run: the views are alive and current at every step, and a reload that
is asked for while iterators are open has taken place once none is open. -/
structure FilesetViews (lib : StdLib) (w : World) (ops : List FilesetOp) : Prop where
  views : Along lib StepViews w ops
  notLost : ∀ ops1 i ops2 ops3 w1 w2 w3, ops = ops1++.reloadNow i::(ops2++ops3) →
    FilesetRun lib w ops1 w1 → filesetStep lib w1 (.reloadNow i) = some (.ok w2) →
    FilesetRun lib w2 ops2 w3 → (∃ it, some it ∈ w1.iters) → (∀ it, some it ∉ w3.iters) →
    w1.reloads.length < w3.reloads.length

section
variable {lib : StdLib} {w w' : World} {op : FilesetOp} {ops : List FilesetOp}

/-- A reload asked for is still to come and will come, or has taken place. -/
def Requested (n : ℕ) (w : World) : Prop :=
  n < w.reloads.length ∨ n ≤ w.reloads.length ∧ w.shared.reloadNeeded = true ∧ 0 < w.shared.nIters

theorem Reloaded.requested {i n : ℕ} (h : Reloaded w w' i) (hreq : Requested n w) :
    Requested n w' := by
  rcases h.reloads with ⟨hreloads,hneeded⟩ | hreloads
  · rwa [Requested,hreloads,hneeded,h.count]
  · left
    rw [hreloads,List.length_append,List.length_singleton]
    rcases hreq with hlt | ⟨hle,-⟩
    · omega
    · omega

theorem openIters_pos {it : FilesetIter} (h : some it ∈ w.iters) : 0 < openIters w :=
  List.countP_pos_iff.mpr ⟨_,h,rfl⟩

theorem ViewsOk.query {i : ℕ} (h : ViewsOk w) (hi : i < w.filesets.length)
    (hclock : ClockOk (filesetSourceQuery lib w i)) :
    ViewsOk (filesetSourceQuery lib w i) ∧ (∃ f id, (filesetSourceQuery lib w i).filesets[i]? =
        some f ∧ (filesetSourceQuery lib w i).iters =
          w.iters++[some ⟨i,⟨id,f.sources (filesetSourceQuery lib w i).shared.myFs.entries⟩⟩]) ∧
      ∀ n, Requested n w → Requested n (filesetSourceQuery lib w i) := by
  have hclock' : ClockOk (mtblFilesetReload lib w i) := by
    unfold filesetSourceQuery at hclock
    simp only at hclock
    split at hclock <;> exact hclock
  have hdone := @ViewsOk.reload lib _ _ _ h (List.getElem?_eq_getElem hi) hclock'
  obtain ⟨g,hg,hdate⟩ := hdone.upToDate
  have hsources := hdone.views.current i g hg hdate
  unfold filesetSourceQuery
  simp only [hg]
  refine ⟨?_,⟨g,g.merger.id,rfl,?_⟩,fun n hn => ?_⟩
  · exact { hdone.views with
      count := by
        have hcount := hdone.views.count
        simp only [openIters,List.countP_append,List.countP_singleton,Option.isSome_some,if_true]
        rw [hcount]
        rfl
      mergers := hdone.views.mergers.frame rfl rfl rfl
      iters := by
        intro it hit
        rcases List.mem_append.mp hit with hit | hit
        · exact hdone.views.iters it hit
        · obtain rfl := Option.some.inj (List.mem_singleton.mp hit)
          exact ⟨g,hg,rfl,hdate⟩ }
  · rw [hdone.iters,← hsources]
  · rcases hdone.requested hn with hlt | ⟨hle,hneeded,hpos⟩
    · exact .inl hlt
    · exact .inr ⟨hle,hneeded,Nat.lt_succ_of_lt hpos⟩

/-- Closing an iterator changes the invariant's count only. -/
theorem ViewsOk.close {j : ℕ} {it : FilesetIter} (h : ViewsOk w) (hj : w.iters[j]? = some (some it)) :
    ViewsOk { w with shared := { w.shared with nIters := w.shared.nIters-1 }
                     iters := w.iters.set j none } := by
  obtain ⟨hlt,hget⟩ := List.getElem?_eq_some_iff.mp hj
  exact { h with
    count := by
      have hcount := h.count
      have hsplit : w.iters = w.iters.take j++some it::w.iters.drop (j+1) := by
        rw [← hget,List.getElem_cons_drop,List.take_append_drop]
      have hset : w.iters.set j none = w.iters.take j++none::w.iters.drop (j+1) := by
        rw [List.set_eq_take_append_cons_drop,if_pos hlt]
      simp only [openIters,hset] at hcount ⊢
      rw [hcount]
      conv_lhs => rw [hsplit]
      simp only [List.countP_append,List.countP_cons,Option.isSome_some,if_true,Option.isSome_none,
        Bool.false_eq_true,if_false]
      omega
    mergers := h.mergers.frame rfl rfl rfl
    iters := by
      intro it' hit'
      exact h.iters it' (List.mem_or_eq_of_mem_set hit' |>.resolve_right (by simp)) }

theorem append_cases {α : Type*} {l : List α} {j : ℕ} {a b : α} (h : (l++[a])[j]? = some b) :
    l[j]? = some b ∨ (j = l.length ∧ b = a) := by
  rcases Nat.lt_or_ge j l.length with hlt | hge
  · rw [List.getElem?_append_left hlt] at h
    exact .inl h
  · rw [List.getElem?_append_right hge] at h
    obtain ⟨hj,rfl⟩ := singleton_cases h
    exact .inr ⟨by omega,rfl⟩

/-- A duplicate is out of date, unless nothing has been loaded yet. -/
theorem ViewsOk.dup (h : ViewsOk w) (opt : FilesetOptions) : ViewsOk (mtblFilesetDup w opt) := by
  have hnew : ∀ (j : ℕ) (g : Fileset), (mtblFilesetDup w opt).filesets[j]? = some g →
      w.filesets[j]? = some g ∨ (j = w.filesets.length ∧
        g = .ofOptions opt ⟨w.mergersCreated,[]⟩) := fun j g hg => append_cases hg
  exact { h with
    mergers := by
      constructor
      · intro j g hg
        rcases hnew j g hg with hold | ⟨-,rfl⟩
        · exact (h.mergers.lt j g hold).trans (Nat.lt_succ_self _)
        · exact Nat.lt_succ_self _
      · intro j g hg hmem
        rcases hnew j g hg with hold | ⟨-,rfl⟩
        · exact h.mergers.alive j g hold hmem
        · exact lt_irrefl _ (h.mergers.destroyed_lt _ hmem)
      · exact fun m hm => (h.mergers.destroyed_lt m hm).trans (Nat.lt_succ_self _)
      · intro j k g g' hg hg' hid
        rcases hnew j g hg with hold | ⟨hj,rfl⟩
        · rcases hnew k g' hg' with hold' | ⟨-,rfl⟩
          · exact h.mergers.own j k g g' hold hold' hid
          · exact absurd hid (h.mergers.lt j g hold).ne
        · rcases hnew k g' hg' with hold' | ⟨hk,-⟩
          · exact absurd hid (h.mergers.lt k g' hold').ne'
          · rw [hj,hk]
    stamps := by
      intro j g hg
      rcases hnew j g hg with hold | ⟨-,rfl⟩
      · exact h.stamps j g hold
      · exact List.mem_cons_self ..
    current := by
      intro j g hg hstamp
      rcases hnew j g hg with hold | ⟨-,rfl⟩
      · exact h.current j g hold hstamp
      · have hentries : (mtblFilesetDup w opt).shared.myFs.entries = [] := h.empty hstamp.symm
        rw [hentries]
        rfl
    iters := by
      intro it hit
      obtain ⟨g,hg,hrest⟩ := h.iters it hit
      have hlt := (List.getElem?_eq_some_iff.mp hg).1
      exact ⟨g,(List.getElem?_append_left hlt).trans hg,hrest⟩ }

/-- One step, by the kind of step. -/
theorem filesetStep_spec (h : ViewsOk w) (hstep : filesetStep lib w op = some (.ok w'))
    (hassumed : StepAssumed w op w') (hfresh : ReloadNowFresh w op w') :
    ViewsOk w' ∧ StepViews w op w' ∧ ∀ n, Requested n w → Requested n w' := by
  obtain ⟨hclock,hassumed⟩ := hassumed
  suffices hviews : ViewsOk w' ∧ NewView w op w' ∧ ∀ n, Requested n w → Requested n w' from
    ⟨hviews.1,⟨fun it hit => hviews.1.live hit,hviews.2.1⟩,hviews.2.2⟩
  cases op with
  | query i =>
    simp only [filesetStep] at hstep
    split_ifs at hstep with hi
    obtain rfl := Except.ok.inj (Option.some.inj hstep)
    exact h.query hi hclock
  | access j =>
    obtain ⟨it,-,haccess⟩ := Option.map_eq_some_iff.mp hstep
    rw [filesetIterAccess] at haccess
    split_ifs at haccess
    obtain rfl := Except.ok.inj haccess
    exact ⟨h,trivial,fun n hn => hn⟩
  | destroyIter j =>
    obtain ⟨it,hit,hfree⟩ := Option.map_eq_some_iff.mp hstep
    obtain rfl := Except.ok.inj hfree
    have hj : w.iters[j]? = some (some it) := Option.join_eq_some_iff.mp hit
    have hclosed := h.close hj
    obtain ⟨f,hf,-,-⟩ := h.iters it (List.mem_of_getElem? hj)
    have hdone := @ViewsOk.reload lib _ it.fs _ hclosed hf hclock
    refine ⟨hdone.views,trivial,fun n hn => ?_⟩
    rcases hn with hlt | ⟨hle,hneeded,hpos⟩
    · exact hdone.requested (.inl hlt)
    · by_cases hlast : w.shared.nIters-1 = 0
      · left
        rw [filesetIterFree,hdone.needed hneeded hlast,List.length_append,List.length_singleton]
        exact Nat.lt_succ_of_le hle
      · exact hdone.requested (.inr ⟨hle,hneeded,Nat.pos_of_ne_zero hlast⟩)
  | reload i =>
    simp only [filesetStep] at hstep
    split_ifs at hstep with hi
    obtain rfl := Except.ok.inj (Option.some.inj hstep)
    have hdone := @ViewsOk.reload lib _ _ _ h (List.getElem?_eq_getElem hi) hclock
    exact ⟨hdone.views,trivial,fun n hn => hdone.requested hn⟩
  | reloadNow i =>
    simp only [filesetStep] at hstep
    split_ifs at hstep with hi
    obtain rfl := Except.ok.inj (Option.some.inj hstep)
    unfold mtblFilesetReloadNow at hclock ⊢
    split_ifs at hclock ⊢ with hopen
    · refine ⟨{ h with mergers := h.mergers.frame rfl rfl rfl },trivial,fun n hn => ?_⟩
      rcases hn with hlt | ⟨hle,-,hpos⟩
      · exact .inl hlt
      · exact .inr ⟨hle,rfl,hpos⟩
    · have hzero : w.shared.nIters = 0 := by omega
      have hf := List.getElem?_eq_getElem hi
      have hdone := @ViewsOk.reloadNow lib _ _ _ h hf hzero hclock
        ((hfresh hzero _ hf).imp_right h.changed_iff.mpr)
      exact ⟨hdone.views,trivial,fun n hn => hdone.requested hn⟩
  | dup opt =>
    obtain rfl := Except.ok.inj (Option.some.inj hstep)
    exact ⟨h.dup opt,trivial,fun n hn => hn⟩
  | tick clock =>
    obtain rfl := Except.ok.inj (Option.some.inj hstep)
    exact ⟨{ h with mergers := h.mergers.frame rfl rfl rfl },
      trivial,fun n hn => hn⟩
  | change disk =>
    obtain rfl := Except.ok.inj (Option.some.inj hstep)
    exact ⟨{ h with
      distinct := hassumed
      mergers := h.mergers.frame rfl rfl rfl },
      trivial,fun n hn => hn⟩

/-- Part of a run leads to a state with the invariant, from which the rest goes on. -/
theorem FilesetRun.views {w1 : World} {rest : List FilesetOp} (hrun : FilesetRun lib w ops w1)
    (h : ViewsOk w) (hassumed : Along lib StepAssumed w (ops++rest))
    (hfresh : Along lib ReloadNowFresh w (ops++rest)) :
    ViewsOk w1 ∧ Along lib StepAssumed w1 rest ∧ Along lib ReloadNowFresh w1 rest ∧
      ∀ n, Requested n w → Requested n w1 := by
  induction hrun with
  | nil w => exact ⟨h,hassumed,hfresh,fun _ hn => hn⟩
  | cons step run ih =>
    obtain ⟨hassumed1,hassumed⟩ := hassumed _ step
    obtain ⟨hfresh1,hfresh⟩ := hfresh _ step
    obtain ⟨hviews,-,hreq⟩ := filesetStep_spec h step hassumed1 hfresh1
    obtain ⟨hviews',hassumed',hfresh',hreq'⟩ := ih hviews hassumed hfresh
    exact ⟨hviews',hassumed',hfresh',fun n hn => hreq' n (hreq n hn)⟩

theorem views_along (ops : List FilesetOp) (h : ViewsOk w)
    (hassumed : Along lib StepAssumed w ops) (hfresh : Along lib ReloadNowFresh w ops) :
    Along lib StepViews w ops := by
  induction ops generalizing w with
  | nil => trivial
  | cons op ops ih =>
    intro w' hstep
    obtain ⟨hassumed1,hassumed⟩ := hassumed _ hstep
    obtain ⟨hfresh1,hfresh⟩ := hfresh _ hstep
    obtain ⟨hviews,hstepViews,-⟩ := filesetStep_spec h hstep hassumed1 hfresh1
    exact ⟨hstepViews,ih hviews hassumed hfresh⟩

theorem reload_not_lost {ops1 ops2 ops3 : List FilesetOp} {i : ℕ} {w1 w2 w3 : World}
    (h : ViewsOk w) (hassumed : Along lib StepAssumed w (ops1++.reloadNow i::(ops2++ops3)))
    (hfresh : Along lib ReloadNowFresh w (ops1++.reloadNow i::(ops2++ops3)))
    (hrun1 : FilesetRun lib w ops1 w1) (hstep : filesetStep lib w1 (.reloadNow i) = some (.ok w2))
    (hrun2 : FilesetRun lib w2 ops2 w3) (hopen : ∃ it, some it ∈ w1.iters)
    (hclosed : ∀ it, some it ∉ w3.iters) : w1.reloads.length < w3.reloads.length := by
  obtain ⟨hviews1,hassumed,hfresh,-⟩ := hrun1.views h hassumed hfresh
  obtain ⟨hassumed1,hassumed⟩ := hassumed _ hstep
  obtain ⟨hfresh1,hfresh⟩ := hfresh _ hstep
  obtain ⟨hviews2,-,-⟩ := filesetStep_spec hviews1 hstep hassumed1 hfresh1
  obtain ⟨hviews3,-,-,hreq⟩ := hrun2.views hviews2 hassumed hfresh
  obtain ⟨it,hit⟩ := hopen
  have hpos : 0 < w1.shared.nIters := hviews1.count ▸ openIters_pos hit
  have hrequested : Requested w1.reloads.length w2 := by
    simp only [filesetStep,mtblFilesetReloadNow,if_pos hpos] at hstep
    split_ifs at hstep
    obtain rfl := Except.ok.inj (Option.some.inj hstep)
    exact .inr ⟨le_rfl,rfl,hpos⟩
  rcases hreq _ hrequested with hlt | ⟨-,-,hpos3⟩
  · exact hlt
  · rw [hviews3.count,openIters,List.countP_pos_iff] at hpos3
    obtain ⟨o,ho,hsome⟩ := hpos3
    obtain ⟨it,rfl⟩ := Option.isSome_iff_exists.mp hsome
    exact absurd ho (hclosed it)

end

/-- In every run of a file set and its duplicates whose explicit reloads find the file set up to
date, or the files listed to be others than it has, the views are alive and current and no reload is
lost. -/
theorem fileset_views (lib : StdLib) (disk : Disk) (clock : Timespec) (setdir : Bytes)
    (opt : FilesetOptions) (hdistinct : disk.Distinct setdir) (ops : List FilesetOp)
    (hassumed : Along lib StepAssumed (World.init disk clock setdir opt) ops)
    (hfresh : Along lib ReloadNowFresh (World.init disk clock setdir opt) ops) :
    FilesetViews lib (World.init disk clock setdir opt) ops where
  views := views_along ops (.init disk clock setdir opt hdistinct) hassumed hfresh
  notLost := by
    rintro ops1 i ops2 ops3 w1 w2 w3 rfl hrun1 hstep hrun2 hopen hclosed
    exact reload_not_lost (.init disk clock setdir opt hdistinct) hassumed hfresh hrun1 hstep hrun2
      hopen hclosed

/-! ### Given runs -/

instance (disk : Disk) (setdir : Bytes) : Decidable (disk.Distinct setdir) := by
  unfold Disk.Distinct
  infer_instance

instance (w : World) (op : FilesetOp) (w' : World) : Decidable (StepAssumed w op w') := by
  unfold StepAssumed ClockOk
  cases op <;> infer_instance

instance (disk : Disk) (fs : MyFileset) : Decidable (ListsOthers disk fs) :=
  decidable_of_iff ((newPaths disk fs).any fun paths =>
    (paths.any fun fname => !(fs.entries.map FilesetEntry.fname).contains fname) ||
      fs.entries.any fun ent => !paths.contains ent.fname) (by
    simp [ListsOthers,Option.any_eq_true])

instance (w : World) (op : FilesetOp) (w' : World) : Decidable (ReloadNowFresh w op w') := by
  unfold ReloadNowFresh
  cases op <;> infer_instance

/-- A setfile with one file. -/
def oneFile : Disk where
  setfileStat := some (1,1)
  setfileLines := some [[47,97,10]]
  pathExists _ := true
  readable _ := true

def plainFileset : FilesetOptions := ⟨60,none,none⟩

/-- A duplicate is queried and asked to reload while two iterators are open. -/
theorem fileset_views_two : FilesetViews simpleLib (World.init oneFile ⟨1,0⟩ [] plainFileset)
    [.query 0,.dup plainFileset,.query 1,.reloadNow 1,.tick ⟨2,0⟩,.destroyIter 0,
      .destroyIter 1] :=
  fileset_views simpleLib oneFile ⟨1,0⟩ [] plainFileset (by decide +kernel) _ (by decide +kernel)
    (by decide +kernel)

theorem Along.mono {lib : StdLib} {P Q : World → FilesetOp → World → Prop} (hPQ : ∀ w op w',
    P w op w' → Q w op w') {ops : List FilesetOp} {w : World} (h : Along lib P w ops) :
    Along lib Q w ops := by
  induction ops generalizing w with
  | nil => trivial
  | cons op ops ih => exact fun w' hstep => ⟨hPQ _ _ _ (h w' hstep).1,ih (h w' hstep).2⟩

/-- The sources of the newest iterator are those that its file set would have. -/
def LastView (_ : World) (op : FilesetOp) (w' : World) : Prop :=
  match op with
  | .query i => (w'.filesets[i]?).map (Fileset.sources · w'.shared.myFs.entries) =
      (w'.iters.getLast?).join.map (fun it => it.merger.sources)
  | _ => True

instance (w : World) (op : FilesetOp) (w' : World) : Decidable (LastView w op w') := by
  unfold LastView
  cases op <;> infer_instance

theorem StepViews.lastView {w : World} {op : FilesetOp} {w' : World} (h : StepViews w op w') :
    LastView w op w' := by
  cases op with
  | query i =>
    obtain ⟨f,id,hf,hiters⟩ := h.2
    simp [LastView,hf,hiters]
  | _ => trivial

/-- After an explicit reload that changes nothing the duplicate counts as up to date, without the
file that is loaded. -/
theorem fileset_views_fails :
    Along simpleLib StepAssumed (World.init oneFile ⟨1,0⟩ [] plainFileset)
      [.query 0,.destroyIter 0,.dup plainFileset,.tick ⟨2,0⟩,.reloadNow 1,.query 1] ∧
    ¬ FilesetViews simpleLib (World.init oneFile ⟨1,0⟩ [] plainFileset)
      [.query 0,.destroyIter 0,.dup plainFileset,.tick ⟨2,0⟩,.reloadNow 1,.query 1] := by
  refine ⟨by decide +kernel,fun h => ?_⟩
  have hlast := h.views.mono (fun _ _ _ => StepViews.lastView)
  revert hlast
  decide +kernel

end Mtbl
