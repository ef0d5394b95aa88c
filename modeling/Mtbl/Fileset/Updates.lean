import Mtbl.Fileset.Views

/-! Versions of the setfile. A reload notes a version's inode and modification time when `stat` shows
them and installs its entries only if `fopen` then succeeds, so what becomes of a version is decided
by the first call that sees it. -/
namespace Mtbl
open CRun

structure SetfileVersion where
  ino : ℕ
  mtime : ℤ
  lines : List Bytes
  pathExists : Bytes → Bool

/-- A call of `my_fileset_reload`: whether `stat` and `fopen` of the setfile succeed, and the files that
can be loaded. -/
structure ReloadCall where
  statOk : Bool
  fopenOk : Bool
  readable : Bytes → Bool

def SetfileVersion.pair (v : SetfileVersion) : ℕ × ℤ := (v.ino,v.mtime)

/-- The resolved paths are distinct. -/
def SetfileVersion.Distinct (setdir : Bytes) (v : SetfileVersion) : Prop :=
  (v.lines.map (resolve setdir)).Nodup

/-- What such a call sees while the version is current. -/
def SetfileVersion.disk (v : SetfileVersion) (c : ReloadCall) : Disk where
  setfileStat := if c.statOk then some v.pair else none
  setfileLines := if c.fopenOk then some v.lines else none
  pathExists := v.pathExists
  readable := c.readable

/-- The calls made while one version is current. -/
def reloadCalls (lib : StdLib) (v : SetfileVersion) (s : MyFileset × Loads) (cs : List ReloadCall) :
    MyFileset × Loads :=
  cs.foldl (fun s c => myFilesetReload lib (v.disk c) s.1 s.2) s

/-- A history of versions, each with its calls, from a new file set. -/
def reloadHistory (lib : StdLib) (setdir : Bytes) (hs : List (SetfileVersion × List ReloadCall)) :
    MyFileset × Loads :=
  hs.foldl (fun s h => reloadCalls lib h.1 s h.2) (myFilesetInit setdir,⟨0,0,0,[]⟩)

/-- The entries are the existing files that the version lists, in order. -/
def UpToDate (setdir : Bytes) (v : SetfileVersion) (es : List FilesetEntry) : Prop :=
  (es.map FilesetEntry.fname).Pairwise (· < ·) ∧
    (es.map FilesetEntry.fname).Perm ((v.lines.map (resolve setdir)).filter v.pathExists)

/-- A path in both keeps its reader. -/
def KeepsReaders (old new : List FilesetEntry) : Prop :=
  ∀ a ∈ old, ∀ b ∈ new, a.fname = b.fname → b.ptr = a.ptr

/-- The first call that sees the version also opens the setfile. -/
def firstOpens (cs : List ReloadCall) : Prop := ∃ c, cs.find? ReloadCall.statOk = some c ∧ c.fopenOk

def MyFileset.noted (fs : MyFileset) : ℕ × ℤ := (fs.lastIno,fs.lastMtime)

/-! ### One call -/

section
variable {lib : StdLib} {v : SetfileVersion} {c : ReloadCall} {fs : MyFileset} {loads : Loads}

theorem setfileUpdated_unseen (h : c.statOk = false) : setfileUpdated (v.disk c) fs = (fs,false) := by
  simp [setfileUpdated,SetfileVersion.disk,h]

theorem setfileUpdated_noted (h : fs.noted = v.pair) : setfileUpdated (v.disk c) fs = (fs,false) := by
  obtain ⟨hino,hmtime⟩ := Prod.mk.inj h
  cases hs : c.statOk <;>
    simp [setfileUpdated,SetfileVersion.disk,SetfileVersion.pair,hs,hino,hmtime]

theorem setfileUpdated_new (hs : c.statOk = true) (h : fs.noted ≠ v.pair) :
    setfileUpdated (v.disk c) fs = ({ fs with lastIno := v.ino, lastMtime := v.mtime },true) := by
  have hne : fs.lastIno ≠ v.ino ∨ fs.lastMtime ≠ v.mtime := by
    rw [← not_and_or]
    exact fun hsame => h (Prod.ext hsame.1 hsame.2)
  simp [setfileUpdated,SetfileVersion.disk,SetfileVersion.pair,hs,hne]

/-- A version that `stat` does not show, or that is noted already, changes nothing. -/
theorem reload_idle (h : c.statOk = false ∨ fs.noted = v.pair) :
    myFilesetReload lib (v.disk c) fs loads = (fs,loads) := by
  have hup : setfileUpdated (v.disk c) fs = (fs,false) :=
    h.elim setfileUpdated_unseen setfileUpdated_noted
  rw [myFilesetReload,hup]

theorem reload_noted (hs : c.statOk = true) (h : fs.noted ≠ v.pair) :
    (myFilesetReload lib (v.disk c) fs loads).1.noted = v.pair := by
  rw [myFilesetReload,setfileUpdated_new hs h]
  cases (v.disk c).setfileLines <;> rfl

/-- A new version that cannot be opened leaves the entries as they are. -/
theorem reload_unopened (ho : c.fopenOk = false) :
    (myFilesetReload lib (v.disk c) fs loads).1.entries = fs.entries := by
  have hlines : (v.disk c).setfileLines = none := by simp [SetfileVersion.disk,ho]
  have hsame := (@setfileUpdated_entries (v.disk c) fs).1
  rw [myFilesetReload]
  rcases hup : setfileUpdated (v.disk c) fs with ⟨fs',updated⟩
  rw [hup] at hsame
  cases updated <;> simp only [hlines] <;> exact hsame

/-- A new version that is opened is installed. -/
theorem reload_installs (hdistinct : v.Distinct fs.setdir) (hs : c.statOk = true)
    (ho : c.fopenOk = true) (h : fs.noted ≠ v.pair) :
    UpToDate fs.setdir v (myFilesetReload lib (v.disk c) fs loads).1.entries := by
  have hlines : (v.disk c).setfileLines = some v.lines := by simp [SetfileVersion.disk,ho]
  have hentries : (myFilesetReload lib (v.disk c) fs loads).1.entries = lib.qsort
      (addPaths lib (v.disk c) (reloadStart fs loads)
        (listedPaths (v.disk c) fs.setdir v.lines)).newEntries := by
    rw [myFilesetReload,setfileUpdated_new hs h]
    simp only [hlines]
    rfl
  have hperm : ((myFilesetReload lib (v.disk c) fs loads).1.entries.map FilesetEntry.fname).Perm
      (listedPaths (v.disk c) fs.setdir v.lines) := by
    rw [hentries]
    refine ((lib.qsort_perm _).map _).trans ?_
    rw [addPaths_newNames]
    rfl
  refine ⟨?_,hperm⟩
  have hsorted : ((myFilesetReload lib (v.disk c) fs loads).1.entries.map
      FilesetEntry.fname).Pairwise (· ≤ ·) := by
    rw [hentries,List.pairwise_map]
    exact lib.qsort_sorted _
  have hnodup := hperm.nodup_iff.mpr (hdistinct.filter _)
  exact hsorted.imp₂ (fun _ _ hle hne => lt_of_le_of_ne hle hne) hnodup

end

/-! ### Readers -/

theorem eq_of_fname {es : List FilesetEntry} (hnames : (es.map FilesetEntry.fname).Nodup)
    {a b : FilesetEntry} (ha : a ∈ es) (hb : b ∈ es) (hab : a.fname = b.fname) : a = b :=
  List.inj_on_of_nodup_map hnames ha hb hab

/-- What is found under an old entry's name is that entry. -/
theorem addPaths_keepsReaders {lib : StdLib} {disk : Disk} {s : ReloadState}
    (hsorted : s.names.Pairwise (· ≤ ·)) (hunmarked : ∀ ent ∈ s.entries, ent.keep = false)
    (hnames : s.names.Nodup) (hnew : s.newEntries = []) (paths : List Bytes) :
    KeepsReaders s.entries (addPaths lib disk s paths).newEntries := by
  induction paths using List.reverseRecOn with
  | nil =>
    intro a _ b hb
    rw [show addPaths lib disk s [] = s from rfl,hnew] at hb
    cases hb
  | append_singleton paths fname ih =>
    intro a ha b hb hab
    have hsame : fetchEntry lib (addPaths lib disk s paths).entries fname =
        fetchEntry lib s.entries fname :=
      congrArg (lib.bsearch · fname) (@addPaths_owners_le lib disk _ hsorted paths 0).1
    rw [addPaths_append] at hb
    cases hfetch : fetchEntry lib s.entries fname with
    | none =>
      rw [addPath_missing (hsame.trans hfetch)] at hb
      rcases List.mem_append.mp hb with hb | hb
      · exact ih a ha b hb hab
      · have hname : a.fname = fname := by rw [hab,List.mem_singleton.mp hb]
        exact absurd (hname ▸ List.mem_map_of_mem ha) (lib.bsearch_none _ _ hsorted hfetch)
    | some i =>
      obtain ⟨ent,hent,hname⟩ := fetchEntry_some hsorted hfetch
      rw [addPath_found (hsame.trans hfetch)
        (addPaths_marked hsorted hunmarked paths hfetch hent)] at hb
      rcases List.mem_append.mp hb with hb | hb
      · exact ih a ha b hb hab
      · rw [List.mem_singleton.mp hb] at hab ⊢
        rw [eq_of_fname hnames ha (List.mem_of_getElem? hent) (hab.trans hname.symm)]

theorem reload_keepsReaders {lib : StdLib} {disk : Disk} {fs : MyFileset} {loads : Loads}
    (h : WellKept fs loads) (hnames : (fs.entries.map FilesetEntry.fname).Nodup) :
    KeepsReaders fs.entries (myFilesetReload lib disk fs loads).1.entries := by
  rcases @myFilesetReload_cases lib disk fs loads with
    ⟨hentries,-,-⟩ | ⟨lines,-,-,hentries,-⟩
  · rw [hentries]
    intro a ha b hb hab
    rw [eq_of_fname hnames ha hb hab]
  · rw [hentries]
    intro a ha b hb hab
    exact addPaths_keepsReaders (s := reloadStart fs loads) h.sorted h.unmarked hnames rfl _ a ha b
      ((lib.qsort_perm _).mem_iff.mp hb) hab

/-! ### Histories -/

section
variable {lib : StdLib} {setdir : Bytes} {v : SetfileVersion} {s : MyFileset × Loads}

/-- The first call that sees a version does all that is done about it. -/
theorem reloadCalls_eq (cs : List ReloadCall) : reloadCalls lib v s cs =
    match cs.find? ReloadCall.statOk with
    | none => s
    | some c => myFilesetReload lib (v.disk c) s.1 s.2 := by
  induction cs using List.reverseRecOn with
  | nil => rfl
  | append_singleton cs c ih =>
    have hstep : reloadCalls lib v s (cs++[c]) = myFilesetReload lib (v.disk c)
        (reloadCalls lib v s cs).1 (reloadCalls lib v s cs).2 := by
      rw [reloadCalls,List.foldl_append]
      rfl
    rw [hstep,ih,List.find?_append]
    cases hfind : cs.find? ReloadCall.statOk with
    | none =>
      cases hs : c.statOk with
      | false => simp [hs,reload_idle (.inl hs)]
      | true => simp [hs]
    | some c0 =>
      have hs := List.find?_some hfind
      have hnoted : (myFilesetReload lib (v.disk c0) s.1 s.2).1.noted = v.pair := by
        by_cases h : s.1.noted = v.pair
        · rw [reload_idle (.inr h)]
          exact h
        · exact reload_noted hs h
      exact reload_idle (.inr hnoted)

/-- What holds between the calls of a history. -/
structure Settled (lib : StdLib) (setdir : Bytes) (s : MyFileset × Loads) : Prop where
  kept : WellKept s.1 s.2
  names : (s.1.entries.map FilesetEntry.fname).Nodup
  setdir_eq : s.1.setdir = setdir

theorem Settled.init (lib : StdLib) (setdir : Bytes) :
    Settled lib setdir (myFilesetInit setdir,⟨0,0,0,[]⟩) :=
  ⟨⟨by simp [myFilesetInit],by simp [myFilesetInit],by simp [myFilesetInit,held]⟩,
    by simp [myFilesetInit],rfl⟩

theorem Settled.reload (h : Settled lib setdir s) (hv : v.Distinct setdir) (c : ReloadCall) :
    Settled lib setdir (myFilesetReload lib (v.disk c) s.1 s.2) where
  kept := (myFilesetReload_spec h.kept).1
  names := by
    apply myFilesetReload_names h.names
    intro lines hlines
    simp only [SetfileVersion.disk,Option.mem_def,Option.ite_none_right_eq_some,
      Option.some.injEq] at hlines
    rw [← hlines.2,h.setdir_eq]
    exact hv
  setdir_eq := myFilesetReload_setdir.trans h.setdir_eq

theorem Settled.calls (h : Settled lib setdir s) (hv : v.Distinct setdir) (cs : List ReloadCall) :
    Settled lib setdir (reloadCalls lib v s cs) := by
  rw [reloadCalls_eq]
  cases cs.find? ReloadCall.statOk with
  | none => exact h
  | some c => exact h.reload hv c

theorem reloadCalls_noted (cs : List ReloadCall) :
    (reloadCalls lib v s cs).1.noted = s.1.noted ∨ (reloadCalls lib v s cs).1.noted = v.pair := by
  rw [reloadCalls_eq]
  cases hfind : cs.find? ReloadCall.statOk with
  | none => exact .inl rfl
  | some c =>
    by_cases h : s.1.noted = v.pair
    · exact .inl (congrArg (fun p => p.1.noted) (reload_idle (.inr h)))
    · exact .inr (reload_noted (List.find?_some hfind) h)

theorem reloadHistory_append (hs : List (SetfileVersion × List ReloadCall))
    (h : SetfileVersion × List ReloadCall) : reloadHistory lib setdir (hs++[h]) =
      reloadCalls lib h.1 (reloadHistory lib setdir hs) h.2 := by
  rw [reloadHistory,List.foldl_append]
  rfl

theorem reloadHistory_settled (hs : List (SetfileVersion × List ReloadCall))
    (hpaths : ∀ h ∈ hs, h.1.Distinct setdir) : Settled lib setdir (reloadHistory lib setdir hs) := by
  induction hs using List.reverseRecOn with
  | nil => exact .init lib setdir
  | append_singleton hs h ih =>
    rw [reloadHistory_append]
    exact (ih (fun g hg => hpaths g (List.mem_append_left _ hg))).calls (hpaths h (by simp)) h.2

/-- What is noted is the mark of a version before, or what a new file set starts with. -/
theorem reloadHistory_noted (hs : List (SetfileVersion × List ReloadCall)) :
    (reloadHistory lib setdir hs).1.noted ∈ (0,0)::hs.map (fun h => h.1.pair) := by
  induction hs using List.reverseRecOn with
  | nil => exact List.mem_cons_self
  | append_singleton hs h ih =>
    rw [reloadHistory_append]
    rcases @reloadCalls_noted lib h.1 (reloadHistory lib setdir hs) h.2 with heq | heq
    · rw [heq]
      rcases List.mem_cons.mp ih with h0 | hmem
      · exact List.mem_cons.mpr (.inl h0)
      · exact List.mem_cons_of_mem _ (by simp only [List.map_append,List.mem_append]; exact .inl hmem)
    · rw [heq]
      exact List.mem_cons_of_mem _ (by simp)

end

/-- The law for the last call of a history: a version that can be read is installed, paths that stay keep
their readers, and a call that fails changes no entry. -/
structure UpdateKept (lib : StdLib) (setdir : Bytes) (hs : List (SetfileVersion × List ReloadCall))
    (v : SetfileVersion) (cs : List ReloadCall) (c : ReloadCall) : Prop where
  installed : c.statOk = true → c.fopenOk = true →
    UpToDate setdir v (reloadHistory lib setdir (hs++[(v,cs++[c])])).1.entries
  readers : KeepsReaders (reloadHistory lib setdir (hs++[(v,cs)])).1.entries
    (reloadHistory lib setdir (hs++[(v,cs++[c])])).1.entries
  unchanged : c.statOk = false ∨ c.fopenOk = false →
    (reloadHistory lib setdir (hs++[(v,cs++[c])])).1.entries =
      (reloadHistory lib setdir (hs++[(v,cs)])).1.entries

/-- A version that can be read is installed exactly if the first call that saw it found its mark new and
opened it, or there was nothing to change. A mark of its own is new. -/
theorem setfile_update_kept (lib : StdLib) (setdir : Bytes)
    (hs : List (SetfileVersion × List ReloadCall)) (v : SetfileVersion) (cs : List ReloadCall)
    (c : ReloadCall) (hpaths : ∀ u ∈ hs.map Prod.fst++[v], u.Distinct setdir) :
    (UpdateKept lib setdir hs v cs c ↔ (c.statOk = true → c.fopenOk = true →
      ((reloadHistory lib setdir hs).1.noted ≠ v.pair ∧ firstOpens (cs++[c])) ∨
        UpToDate setdir v (reloadHistory lib setdir hs).1.entries)) ∧
    (v.pair ∉ (0,0)::hs.map (fun h => h.1.pair) →
      (reloadHistory lib setdir hs).1.noted ≠ v.pair) := by
  have hv : v.Distinct setdir := hpaths v (by simp)
  have hsettled : Settled lib setdir (reloadHistory lib setdir hs) :=
    reloadHistory_settled hs (fun h hh => hpaths h.1 (List.mem_append_left _ (List.mem_map_of_mem hh)))
  have hfirst := @reloadHistory_noted lib setdir hs
  refine ⟨?_,fun hnew heq => hnew (heq ▸ hfirst)⟩
  generalize hstart : reloadHistory lib setdir hs = s at hsettled
  have hbefore : reloadHistory lib setdir (hs++[(v,cs)]) = reloadCalls lib v s cs := by
    rw [reloadHistory_append,hstart]
  have hafter : reloadHistory lib setdir (hs++[(v,cs++[c])]) = reloadCalls lib v s (cs++[c]) := by
    rw [reloadHistory_append,hstart]
  have hlast : reloadCalls lib v s (cs++[c]) =
      myFilesetReload lib (v.disk c) (reloadCalls lib v s cs).1 (reloadCalls lib v s cs).2 := by
    rw [reloadCalls,List.foldl_append]
    rfl
  have hcalls := hsettled.calls hv cs
  -- either the first call that sees the version installs it, or no entry ever changes
  have heffect : (s.1.noted ≠ v.pair ∧ firstOpens (cs++[c]) ∧
        UpToDate setdir v (reloadCalls lib v s (cs++[c])).1.entries) ∨
      (¬ (s.1.noted ≠ v.pair ∧ firstOpens (cs++[c])) ∧
        (reloadCalls lib v s (cs++[c])).1.entries = s.1.entries) := by
    rw [reloadCalls_eq]
    cases hfind : (cs++[c]).find? ReloadCall.statOk with
    | none => exact .inr ⟨fun ⟨_,d,hd,_⟩ => (by rw [hfind] at hd; cases hd),rfl⟩
    | some d =>
      have hseen := List.find?_some hfind
      by_cases hnoted : s.1.noted = v.pair
      · exact .inr ⟨fun h => h.1 hnoted,congrArg (fun p => p.1.entries) (reload_idle (.inr hnoted))⟩
      · cases hopen : d.fopenOk with
        | true =>
          refine .inl ⟨hnoted,⟨d,hfind,hopen⟩,?_⟩
          have hinstalls := @reload_installs lib v d s.1 s.2 (hsettled.setdir_eq.symm ▸ hv) hseen
            hopen hnoted
          rwa [hsettled.setdir_eq] at hinstalls
        | false =>
          refine .inr ⟨fun ⟨_,e,he,heopen⟩ => ?_,reload_unopened hopen⟩
          obtain rfl := Option.some.inj (hfind.symm.trans he)
          rw [hopen] at heopen
          cases heopen
  constructor
  · intro hkept hs ho
    have hinstalled := hkept.installed hs ho
    rw [hafter] at hinstalled
    rcases heffect with ⟨hnew,hopens,-⟩ | ⟨-,hsame⟩
    · exact .inl ⟨hnew,hopens⟩
    · exact .inr (hsame ▸ hinstalled)
  · intro hwhen
    refine ⟨fun hs ho => ?_,?_,fun hfail => ?_⟩
    · rw [hafter]
      rcases heffect with ⟨-,-,hinstalled⟩ | ⟨hnot,hsame⟩
      · exact hinstalled
      · rw [hsame]
        exact (hwhen hs ho).resolve_left hnot
    · rw [hbefore,hafter,hlast]
      exact reload_keepsReaders hcalls.kept hcalls.names
    · rw [hbefore,hafter,hlast]
      rcases hfail with hs | ho
      · rw [reload_idle (.inl hs)]
      · exact reload_unopened ho

/-- A version of the setfile that lists one file. -/
def listsOne (ino : ℕ) (path : Bytes) : SetfileVersion := ⟨ino,1,[path],fun _ => true⟩

/-- Behind a version that was read, one whose first call fails to see it. -/
theorem setfile_update_kept_two :
    UpdateKept simpleLib [] [(listsOne 1 [47,97],[⟨true,true,fun _ => true⟩])] (listsOne 2 [47,98])
      [⟨false,true,fun _ => true⟩] ⟨true,true,fun _ => true⟩ := by
  obtain ⟨hkept,hnew⟩ := setfile_update_kept simpleLib []
    [(listsOne 1 [47,97],[⟨true,true,fun _ => true⟩])] (listsOne 2 [47,98])
    [⟨false,true,fun _ => true⟩] ⟨true,true,fun _ => true⟩
    (by intro u hu; simp at hu; rcases hu with rfl | rfl <;> exact List.nodup_singleton _)
  exact hkept.mpr (fun _ _ => .inl ⟨hnew (by decide),_,rfl,rfl⟩)

/-- A version that `stat` shows before it can be opened is never installed. -/
theorem setfile_update_kept_fails : ¬ UpdateKept simpleLib [] [] (listsOne 1 [47,97])
    [⟨true,false,fun _ => true⟩] ⟨true,true,fun _ => true⟩ := by
  intro hkept
  have hperm := (hkept.installed rfl rfl).2
  exact absurd hperm.length_eq (by decide +kernel)

end Mtbl
