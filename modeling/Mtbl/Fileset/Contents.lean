import Mtbl.Fileset.Views
import Mtbl.Merge.Complete
import Mtbl.Sort.SortedFile

/-! What a file set shows. To its users it is a listing: under each path of the setfile the contents
that the file had when the path came to be listed. Readers and their numbers, entries and mergers are
how the listing is kept; the queries of an iterator return the merge of the files in it. -/
namespace Mtbl
open CRun Cursor

/-- The disk with the contents of its files. -/
structure FileDisk where
  setfileStat : Option (ℕ × ℤ)
  setfileLines : Option (List Bytes)
  file : Bytes → Option Bytes

/-- Whether `mtbl_reader_init` makes a reader of these contents. -/
def opens (codec : Codec) (file : Bytes) : Bool :=
  match mtblReaderInitFd codec file ⟨false⟩ with
  | .ok (some _) => true
  | _ => false

def FileDisk.disk (codec : Codec) (d : FileDisk) : Disk where
  setfileStat := d.setfileStat
  setfileLines := d.setfileLines
  pathExists fname := (d.file fname).isSome
  readable fname := (d.file fname).any (opens codec)

/-- The listed paths, and the contents under each unless they could not be opened. -/
abbrev Listing := Bytes → Option (Option Bytes)

/-- A path that stays listed keeps its contents, whatever the file is now. -/
def Listing.contents (codec : Codec) (d : FileDisk) (L : Listing) (fname : Bytes) : Option Bytes :=
  match L fname with
  | some contents => contents
  | none => (d.file fname).filter (opens codec)

def Listing.update (codec : Codec) (d : FileDisk) (L : Listing) (paths : List Bytes) : Listing :=
  fun fname => if fname ∈ paths then some (L.contents codec d fname) else none

/-- What a reload makes of the listing. -/
def Listing.reload (codec : Codec) (d : FileDisk) (fs : MyFileset) (L : Listing) : Listing :=
  match (setfileUpdated (d.disk codec) fs).2,d.setfileLines with
  | true,some lines => L.update codec d (listedPaths (d.disk codec) fs.setdir lines)
  | _,_ => L

/-- The world with what is on its disk, and the listing that its last reload has left. -/
structure FileWorld where
  w : World
  d : FileDisk
  listing : Listing

inductive FileOp
  | call (op : FilesetOp)
  | change (d : FileDisk)

def FileOp.op (codec : Codec) : FileOp → FilesetOp
  | .call op => op
  | .change d => .change (d.disk codec)

/-- Files change by `change` only. -/
inductive FileStep (codec : Codec) (lib : StdLib) (s : FileWorld) : FileOp → FileWorld → Prop
  | call {op : FilesetOp} {w : World} (hop : ∀ disk, op ≠ .change disk)
      (step : filesetStep lib s.w op = some (.ok w)) :
      FileStep codec lib s (.call op) ⟨w,s.d,
        if w.reloads = s.w.reloads then s.listing else s.listing.reload codec s.d s.w.shared.myFs⟩
  | change (d : FileDisk) :
      FileStep codec lib s (.change d) ⟨{ s.w with disk := d.disk codec },d,s.listing⟩

inductive FileRun (codec : Codec) (lib : StdLib) : FileWorld → List FileOp → FileWorld → Prop
  | nil (s : FileWorld) : FileRun codec lib s [] s
  | cons {s s1 s2 : FileWorld} {op : FileOp} {ops : List FileOp} (step : FileStep codec lib s op s1)
      (run : FileRun codec lib s1 ops s2) : FileRun codec lib s (op::ops) s2

def FileWorld.init (codec : Codec) (d : FileDisk) (clock : Timespec) (setdir : Bytes)
    (opt : FilesetOptions) : FileWorld :=
  ⟨World.init (d.disk codec) clock setdir opt,d,fun _ => none⟩

/-! ### One reload -/

/-- The reader of an entry is one of those opened so far, on the contents that its path is listed
with. -/
def Right (opened : List Bytes) (contents : Option Bytes) (ptr : Option ℕ) : Prop :=
  (∀ r, ptr = some r → r < opened.length) ∧ ptr.bind (opened[·]?) = contents

/-- The entries show the listing: `opened` has the contents of the readers by their numbers. -/
structure Listing.ShownBy (L : Listing) (opened : List Bytes) (fs : MyFileset) (loads : Loads) : Prop where
  created : opened.length = loads.created
  entry : ∀ ent ∈ fs.entries, ∃ contents, L ent.fname = some contents ∧
    Right opened contents ent.ptr
  listed : ∀ fname contents, L fname = some contents → ∃ ent ∈ fs.entries, ent.fname = fname

section
variable {codec : Codec} {lib : StdLib} {d : FileDisk} {fs : MyFileset} {loads : Loads}
  {L : Listing} {opened : List Bytes}

theorem Right.more {contents : Option Bytes} {ptr : Option ℕ} (h : Right opened contents ptr)
    (new : List Bytes) : Right (opened++new) contents ptr := by
  refine ⟨fun r hr => (h.1 r hr).trans_le ?_,?_⟩
  · rw [List.length_append]
    exact Nat.le_add_right ..
  · rw [← h.2]
    cases ptr with
    | none => rfl
    | some r => exact List.getElem?_append_left (h.1 r rfl)

theorem fsLoad_contents (s : Loads) (fname : Bytes) (hopened : opened.length = s.created) :
    ∃ new : List Bytes, (∀ file ∈ new, opens codec file = true) ∧
      (fsLoad (d.disk codec) fname s).1.created = (opened++new).length ∧
      Right (opened++new) ((d.file fname).filter (opens codec))
        (fsLoad (d.disk codec) fname s).2 := by
  unfold fsLoad
  cases hfile : d.file fname with
  | none =>
    refine ⟨[],by simp,?_,?_⟩ <;> simp [FileDisk.disk,hfile,hopened,Right]
  | some file =>
    by_cases hopens : opens codec file = true
    · refine ⟨[file],by simpa using hopens,?_,?_⟩ <;>
        simp [FileDisk.disk,hfile,hopens,Option.filter,Right,← hopened]
    · refine ⟨[],by simp,?_,?_⟩ <;> simp [FileDisk.disk,hfile,hopens,Option.filter,hopened,Right]

/-- The loop over the paths: every new entry has the reader of its contents. -/
theorem addPaths_contents (hkept : WellKept fs loads) (h : L.ShownBy opened fs loads)
    (paths : List Bytes) : ∃ new : List Bytes, (∀ file ∈ new, opens codec file = true) ∧
      (addPaths lib (d.disk codec) (reloadStart fs loads) paths).loads.created =
        (opened++new).length ∧
      ∀ ent ∈ (addPaths lib (d.disk codec) (reloadStart fs loads) paths).newEntries,
        Right (opened++new) (L.contents codec d ent.fname) ent.ptr := by
  have hsorted : (reloadStart fs loads).names.Pairwise (· ≤ ·) := hkept.sorted
  induction paths using List.reverseRecOn with
  | nil =>
    refine ⟨[],by simp,?_,fun ent hent => by cases hent⟩
    rw [List.append_nil]
    exact h.created.symm
  | append_singleton paths fname ih =>
    obtain ⟨new,hnew,hcreated,hentries⟩ := ih
    have hnames := (@addPaths_owners_le lib (d.disk codec) _ hsorted paths 0).1
    have hsame : fetchEntry lib (addPaths lib (d.disk codec) (reloadStart fs loads) paths).entries
        fname = fetchEntry lib fs.entries fname := congrArg (lib.bsearch · fname) hnames
    rw [addPaths_append]
    cases hfetch : fetchEntry lib fs.entries fname with
    | none =>
      have hunlisted : L fname = none := by
        cases hL : L fname with
        | none => rfl
        | some contents =>
          obtain ⟨ent,hent,rfl⟩ := h.listed fname contents hL
          exact absurd (List.mem_map_of_mem hent) (lib.bsearch_none _ _ hkept.sorted hfetch)
      obtain ⟨more,hmore,hcount,hright⟩ := @fsLoad_contents codec d (opened++new) _ fname
        hcreated.symm
      rw [addPath_missing (hsame.trans hfetch)]
      refine ⟨new++more,?_,?_,?_⟩
      · intro file hfile
        exact (List.mem_append.mp hfile).elim (hnew file) (hmore file)
      · rw [← List.append_assoc]
        exact hcount
      · intro ent hent
        rw [← List.append_assoc]
        rcases List.mem_append.mp hent with hent | hent
        · exact (hentries ent hent).more more
        · rw [List.mem_singleton.mp hent]
          simp only [Listing.contents,hunlisted]
          exact hright
    | some i =>
      obtain ⟨old,hold,hname⟩ := fetchEntry_some hsorted hfetch
      obtain ⟨contents,hL,hright⟩ := h.entry old (List.mem_of_getElem? hold)
      rw [addPath_found (hsame.trans hfetch)
        (addPaths_marked hsorted hkept.unmarked paths hfetch hold)]
      refine ⟨new,hnew,hcreated,?_⟩
      intro ent hent
      rcases List.mem_append.mp hent with hent | hent
      · exact hentries ent hent
      · rw [List.mem_singleton.mp hent]
        simp only [Listing.contents,← hname,hL]
        exact hright.more new

theorem myFilesetReload_idle {disk : Disk}
    (hidle : (setfileUpdated disk fs).2 = false ∨ disk.setfileLines = none) :
    (myFilesetReload lib disk fs loads).1.entries = fs.entries ∧
      (myFilesetReload lib disk fs loads).2 = loads := by
  have hsame := (@setfileUpdated_entries disk fs).1
  unfold myFilesetReload
  rcases hup : setfileUpdated disk fs with ⟨fs',updated⟩
  rw [hup] at hsame hidle
  cases updated with
  | false => exact ⟨hsame,rfl⟩
  | true =>
    have hnone : disk.setfileLines = none := hidle.resolve_left (by simp)
    simp only [hnone]
    exact ⟨hsame,trivial⟩

theorem myFilesetReload_reads {disk : Disk} {lines : List Bytes}
    (hup : (setfileUpdated disk fs).2 = true) (hlines : disk.setfileLines = some lines) :
    (myFilesetReload lib disk fs loads).1.entries = lib.qsort (addPaths lib disk
        (reloadStart fs loads) (listedPaths disk fs.setdir lines)).newEntries ∧
      (myFilesetReload lib disk fs loads).2.created = (addPaths lib disk
        (reloadStart fs loads) (listedPaths disk fs.setdir lines)).loads.created := by
  obtain ⟨hentries,hsetdir⟩ := @setfileUpdated_entries disk fs
  unfold myFilesetReload
  rcases hupdate : setfileUpdated disk fs with ⟨fs',updated⟩
  rw [hupdate] at hup hentries hsetdir
  obtain rfl : updated = true := hup
  simp only at hentries hsetdir
  simp only [hlines,hentries,hsetdir]
  exact ⟨rfl,foldl_unloadOld_created _ _⟩

/-- A reload makes the entries show the new listing. -/
theorem Listing.ShownBy.reload (hkept : WellKept fs loads) (h : L.ShownBy opened fs loads) :
    ∃ new : List Bytes, (∀ file ∈ new, opens codec file = true) ∧
      (L.reload codec d fs).ShownBy (opened++new)
        (myFilesetReload lib (d.disk codec) fs loads).1
        (myFilesetReload lib (d.disk codec) fs loads).2 := by
  have hstays : (setfileUpdated (d.disk codec) fs).2 = false ∨ d.setfileLines = none →
      ∃ new : List Bytes, (∀ file ∈ new, opens codec file = true) ∧ L.ShownBy (opened++new)
        (myFilesetReload lib (d.disk codec) fs loads).1
        (myFilesetReload lib (d.disk codec) fs loads).2 := by
    intro hidle
    obtain ⟨hentries,hloads⟩ := @myFilesetReload_idle lib fs loads (d.disk codec) hidle
    refine ⟨[],by simp,?_⟩
    rw [List.append_nil,hloads]
    exact ⟨h.created,hentries ▸ h.entry,hentries ▸ h.listed⟩
  rw [Listing.reload]
  cases hup : (setfileUpdated (d.disk codec) fs).2 with
  | false => exact hstays (.inl hup)
  | true =>
    cases hlines : d.setfileLines with
    | none => exact hstays (.inr hlines)
    | some lines =>
      obtain ⟨hentries,hcreated⟩ := @myFilesetReload_reads lib fs loads _ _ hup hlines
      obtain ⟨new,hnew,hcount,hright⟩ := @addPaths_contents codec lib d _ _ _ _ hkept h
        (listedPaths (d.disk codec) fs.setdir lines)
      have hnames := @addPaths_newNames lib (d.disk codec) (reloadStart fs loads)
        (listedPaths (d.disk codec) fs.setdir lines)
      refine ⟨new,hnew,hcount.symm.trans hcreated.symm,?_,?_⟩
      · intro ent hent
        rw [hentries,(lib.qsort_perm _).mem_iff] at hent
        have hmem : ent.fname ∈ listedPaths (d.disk codec) fs.setdir lines := by
          have := List.mem_map_of_mem (f := FilesetEntry.fname) hent
          rwa [hnames] at this
        exact ⟨_,if_pos hmem,hright ent hent⟩
      · intro fname contents hL
        simp only [Listing.update] at hL
        split_ifs at hL with hmem
        have hname : fname ∈ (addPaths lib (d.disk codec) (reloadStart fs loads)
            (listedPaths (d.disk codec) fs.setdir lines)).newEntries.map FilesetEntry.fname := by
          rw [hnames]
          exact hmem
        obtain ⟨ent,hent,rfl⟩ := List.mem_map.mp hname
        exact ⟨ent,hentries ▸ (lib.qsort_perm _).mem_iff.mpr hent,rfl⟩

end

/-! ### Runs -/

section
variable {codec : Codec} {lib : StdLib} {w w' : World} {i : ℕ}

/-- What a call does to the entries: nothing, or one reload. -/
structure Kept (w w' : World) : Prop where
  disk : w'.disk = w.disk
  myFs : w'.shared.myFs = w.shared.myFs
  created : w'.shared.loads.created = w.shared.loads.created
  reloads : w'.reloads = w.reloads

structure ReloadedOnce (lib : StdLib) (w w' : World) : Prop where
  disk : w'.disk = w.disk
  myFs : w'.shared.myFs = (reloadShared lib w.disk w.shared).myFs
  created : w'.shared.loads.created = (reloadShared lib w.disk w.shared).loads.created
  reloads : w'.reloads = w.reloads++[w.clock]

theorem reloadAndStamp_once (w : World) (i : ℕ) : ReloadedOnce lib w (reloadAndStamp lib w i) := by
  constructor
  all_goals
    simp only [Mtbl.reloadAndStamp,setFsLast,fsReinitMergerAt,fsReinitMerger]
    split_ifs <;> repeat' split
    all_goals rfl

theorem mtblFilesetReload_effect (w : World) (i : ℕ) :
    Kept w (mtblFilesetReload lib w i) ∨ ReloadedOnce lib w (mtblFilesetReload lib w i) := by
  unfold mtblFilesetReload
  cases hf : w.filesets[i]? with
  | none => exact .inl ⟨rfl,rfl,rfl,rfl⟩
  | some f =>
    obtain ⟨hshared,hreloads,hclock,-⟩ := refresh_frame hf
    have hdisk := refresh_disk w i f
    have hkept : Kept w (refresh w i f) := ⟨hdisk,by rw [hshared],by rw [hshared],hreloads⟩
    simp only
    split_ifs
    · exact .inl hkept
    · exact .inl hkept
    · obtain ⟨hdisk',hfs,hcreated,hreloads'⟩ := @reloadAndStamp_once lib (refresh w i f) i
      rw [hdisk,hshared] at hfs hcreated
      rw [hreloads,hclock] at hreloads'
      exact .inr ⟨hdisk'.trans hdisk,hfs,hcreated,hreloads'⟩
    · exact .inl hkept

/-- Every call that leaves the disk alone. -/
theorem filesetStep_effect {op : FilesetOp} (hop : ∀ disk, op ≠ .change disk)
    (hstep : filesetStep lib w op = some (.ok w')) : Kept w w' ∨ ReloadedOnce lib w w' := by
  cases op with
  | query i =>
    simp only [filesetStep] at hstep
    split_ifs at hstep
    obtain rfl := Except.ok.inj (Option.some.inj hstep)
    have hreload := @mtblFilesetReload_effect lib w i
    unfold filesetSourceQuery
    simp only
    split
    · exact hreload
    · exact hreload.imp (fun h => ⟨h.disk,h.myFs,h.created,h.reloads⟩)
        (fun h => ⟨h.disk,h.myFs,h.created,h.reloads⟩)
  | access j =>
    obtain ⟨it,-,haccess⟩ := Option.map_eq_some_iff.mp hstep
    unfold filesetIterAccess at haccess
    split_ifs at haccess
    obtain rfl := Except.ok.inj haccess
    exact .inl ⟨rfl,rfl,rfl,rfl⟩
  | destroyIter j =>
    obtain ⟨it,-,hfree⟩ := Option.map_eq_some_iff.mp hstep
    obtain rfl := Except.ok.inj hfree
    have hreload := @mtblFilesetReload_effect lib { w with
      shared := { w.shared with nIters := w.shared.nIters-1 }
      iters := w.iters.set j none } it.fs
    exact hreload.imp (fun h => ⟨h.disk,h.myFs,h.created,h.reloads⟩)
      (fun h => ⟨h.disk,h.myFs,h.created,h.reloads⟩)
  | reload i =>
    simp only [filesetStep] at hstep
    split_ifs at hstep
    obtain rfl := Except.ok.inj (Option.some.inj hstep)
    exact mtblFilesetReload_effect w i
  | reloadNow i =>
    simp only [filesetStep] at hstep
    split_ifs at hstep
    obtain rfl := Except.ok.inj (Option.some.inj hstep)
    unfold mtblFilesetReloadNow
    split_ifs
    · exact .inl ⟨rfl,rfl,rfl,rfl⟩
    · exact .inr (reloadAndStamp_once w i)
  | dup opt =>
    obtain rfl := Except.ok.inj (Option.some.inj hstep)
    exact .inl ⟨rfl,rfl,rfl,rfl⟩
  | tick clock =>
    obtain rfl := Except.ok.inj (Option.some.inj hstep)
    exact .inl ⟨rfl,rfl,rfl,rfl⟩
  | change disk => exact absurd rfl (hop disk)

/-- The disk is what it is said to be, and the entries show the listing. -/
structure FileWorld.Shown (codec : Codec) (s : FileWorld) (opened : List Bytes) : Prop where
  disk : s.w.disk = s.d.disk codec
  shown : s.listing.ShownBy opened s.w.shared.myFs s.w.shared.loads
  opens : ∀ file ∈ opened, opens codec file = true

variable {s s' : FileWorld} {opened : List Bytes}

theorem FileWorld.Shown.step (h : s.Shown codec opened)
    (hkept : WellKept s.w.shared.myFs s.w.shared.loads) {op : FileOp}
    (hstep : FileStep codec lib s op s') : ∃ new, s'.Shown codec (opened++new) := by
  cases hstep with
  | change d =>
    refine ⟨[],rfl,?_,?_⟩
    · rw [List.append_nil]
      exact h.shown
    · rw [List.append_nil]
      exact h.opens
  | @call op w hop hstep =>
    rcases filesetStep_effect hop hstep with hsame | honce
    · refine ⟨[],hsame.disk.trans h.disk,?_,?_⟩
      · rw [List.append_nil,if_pos hsame.reloads]
        refine ⟨h.shown.created.trans hsame.created.symm,?_,?_⟩
        · rw [hsame.myFs]
          exact h.shown.entry
        · rw [hsame.myFs]
          exact h.shown.listed
      · rw [List.append_nil]
        exact h.opens
    · have hkept0 : WellKept s.w.shared.myFs
          { s.w.shared.loads with nLoaded := 0, nUnloaded := 0 } :=
        ⟨hkept.unmarked,hkept.sorted,hkept.lt⟩
      have hshown0 : s.listing.ShownBy opened s.w.shared.myFs
          { s.w.shared.loads with nLoaded := 0, nUnloaded := 0 } :=
        ⟨h.shown.created,h.shown.entry,h.shown.listed⟩
      obtain ⟨new,hnew,hshown⟩ := @Listing.ShownBy.reload codec lib s.d _ _ _ _ hkept0 hshown0
      have hne : w.reloads ≠ s.w.reloads := by
        rw [honce.reloads]
        simp
      refine ⟨new,honce.disk.trans h.disk,?_,?_⟩
      · rw [if_neg hne]
        have hfs := honce.myFs
        have hcreated := honce.created
        rw [reloadShared,h.disk] at hfs hcreated
        refine ⟨hshown.created.trans hcreated.symm,?_,?_⟩
        · rw [hfs]
          exact hshown.entry
        · rw [hfs]
          exact hshown.listed
      · intro file hfile
        exact (List.mem_append.mp hfile).elim (h.opens file) (hnew file)

theorem FileStep.filesetStep {op : FileOp} (hstep : FileStep codec lib s op s') :
    Mtbl.filesetStep lib s.w (op.op codec) = some (.ok s'.w) := by
  cases hstep with
  | change d => rfl
  | call _ step => exact step

theorem FileRun.shown {ops : List FileOp} (hrun : FileRun codec lib s ops s')
    (h : s.Shown codec opened) (hviews : ViewsOk s.w)
    (hassumed : Along lib StepAssumed s.w (ops.map (FileOp.op codec)))
    (hfresh : Along lib ReloadNowFresh s.w (ops.map (FileOp.op codec))) :
    ViewsOk s'.w ∧ ∃ new, s'.Shown codec (opened++new) := by
  induction hrun generalizing opened with
  | nil s => exact ⟨hviews,[],by rwa [List.append_nil]⟩
  | cons step _ ih =>
    obtain ⟨hassumed1,hassumed⟩ := hassumed _ step.filesetStep
    obtain ⟨hfresh1,hfresh⟩ := hfresh _ step.filesetStep
    obtain ⟨hviews1,-,-⟩ := filesetStep_spec hviews step.filesetStep hassumed1 hfresh1
    obtain ⟨new,hshown1⟩ := h.step hviews.kept step
    obtain ⟨hviews2,more,hshown2⟩ := ih hshown1 hviews1 hassumed hfresh
    exact ⟨hviews2,new++more,by rwa [← List.append_assoc]⟩

theorem FileWorld.Shown.init (codec : Codec) (d : FileDisk) (clock : Timespec) (setdir : Bytes)
    (opt : FilesetOptions) : (FileWorld.init codec d clock setdir opt).Shown codec [] where
  disk := rfl
  shown := ⟨rfl,fun ent hent => (by cases hent),fun fname contents hL => (by cases hL)⟩
  opens := fun file hfile => (by cases hfile)

end

/-! ### Queries -/

section
variable {codec : Codec} {s : FileWorld} {opened : List Bytes} {f : Fileset}

end

end Mtbl
