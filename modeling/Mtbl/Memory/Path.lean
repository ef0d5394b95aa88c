import Mathlib.Data.List.TakeWhile
import Mtbl.Fileset.Setfile
import Mtbl.Memory.Buffer

/-! The paths of a setfile's lines, put together in one buffer that serves every line. It is read as a
string, so that a zero byte ends it, and grown like any other vector. -/
namespace Mtbl
open CRun Memory

/-- What `strlen` counts. -/
def cstr (s : Bytes) : Bytes := s.takeWhile (· ≠ 0)

/-- Takes this byte off the end, where it is there. `ubuf_add_cstr` begins with the same for the zero
byte. -/
def ubufRstrip (u : Vec UInt8) (s : UInt8) : Run (Vec UInt8) :=
  if vecSize u > 0 then do
    let last ← vecValue u (vecSize u-1)
    return if last = s then vecClip u (vecSize u-1) else u
  else return u

section
variable (alloc : ℕ → Bool) (fuel : ℕ)

def ubufAddCstr (u : Vec UInt8) (s : Bytes) : Run (Vec UInt8) := do
  let u ← ubufRstrip u 0
  vecAppend alloc 1 fuel u (cstr s)

def ubufCterm (u : Vec UInt8) : Run (Vec UInt8) :=
  if vecSize u = 0 then vecAppend alloc 1 fuel u [0]
  else do
    let last ← vecValue u (vecSize u-1)
    if last ≠ 0 then vecAppend alloc 1 fuel u [0] else return u

/-- The string that the pointer to the elements is. -/
def ubufCstr (u : Vec UInt8) : Run (Vec UInt8 × Bytes) := do
  let u ← ubufCterm alloc fuel u
  let data ← loadAll u.v (vecSize u)
  return (u,cstr data)

/-- The setfile's directory in front of a path that is not absolute. -/
def addSetdir (setdir : Bytes) (u : Vec UInt8) (line : Bytes) : Run (Vec UInt8) :=
  if line.head? ≠ some 47 then do
    let u ← ubufAddCstr alloc fuel u setdir
    vecAdd alloc 1 fuel u 47
  else return u

/-- One round of the loop in `my_fileset_reload`, up to the path. -/
def linePath (setdir : Bytes) (u : Vec UInt8) (line : Bytes) : Run (Vec UInt8 × Bytes) := do
  let u ← addSetdir alloc fuel setdir (vecClip u 0) line
  let u ← ubufAddCstr alloc fuel u line
  let u ← ubufRstrip u 10
  ubufCstr alloc fuel u

end

/-- Each round is given the allocator as it is at that time. -/
def linePaths (fuel : ℕ) (setdir : Bytes) : Vec UInt8 → List (Bytes × (ℕ → Bool)) →
    Run (Vec UInt8 × List Bytes)
  | u,[] => .ok (u,[])
  | u,(line,alloc)::lines => do
    let (u,fname) ← linePath alloc fuel setdir u line
    let (u,fnames) ← linePaths fuel setdir u lines
    return (u,fname::fnames)

section
variable {alloc : ℕ → Bool} {fuel hint most bound : ℕ} {u : Vec UInt8} {items : Bytes}

theorem zero_notMem_cstr (s : Bytes) : 0 ∉ cstr s := by
  intro hmem
  have hne := List.mem_takeWhile_imp (p := fun b => decide (b ≠ 0)) (l := s) hmem
  exact of_decide_eq_true hne rfl

theorem decide_ne_zero {s : Bytes} (h : 0 ∉ s) : ∀ b ∈ s, decide (b ≠ 0) = true := by
  intro b hb
  rw [decide_eq_true_iff]
  rintro rfl
  exact h hb

theorem cstr_eq_self {s : Bytes} (h : 0 ∉ s) : cstr s = s :=
  List.takeWhile_eq_self_iff.mpr (decide_ne_zero h)

/-- A string in memory ends where its zero byte is. -/
theorem cstr_terminated {s : Bytes} (h : 0 ∉ s) : cstr (s++[0]) = s := by
  rw [cstr,List.takeWhile_append_of_pos (decide_ne_zero h)]
  simp

theorem cstr_length_le (s : Bytes) : (cstr s).length ≤ s.length :=
  (List.takeWhile_prefix _).length_le

/-- The string without this byte at the end. -/
def stripped (s : UInt8) (items : Bytes) : Bytes :=
  if items.getLast? = some s then items.dropLast else items

theorem stripped_sublist (s : UInt8) (items : Bytes) : (stripped s items).Sublist items := by
  rw [stripped]
  split_ifs
  · exact List.dropLast_sublist _
  · exact List.Sublist.refl _

theorem stripped_of_notMem {s : UInt8} (h : s ∉ items) : stripped s items = items :=
  if_neg (fun hlast => h (List.mem_of_getLast? hlast))

/-- What stands in front of a line. -/
def lineFront (setdir line : Bytes) : Bytes :=
  if line.head? ≠ some 47 then setdir++[47] else []

theorem zero_notMem_lineFront {setdir : Bytes} (h : 0 ∉ setdir) (line : Bytes) :
    0 ∉ lineFront setdir line := by
  rw [lineFront]
  split_ifs
  · simpa using h
  · exact List.not_mem_nil

theorem lineFront_length_le (setdir line : Bytes) :
    (lineFront setdir line).length ≤ setdir.length+1 := by
  rw [lineFront]
  split_ifs <;> simp

theorem resolve_eq (setdir line : Bytes) :
    resolve setdir line = stripped 10 (lineFront setdir line++cstr line) := by
  by_cases hrelative : line.head? ≠ some 47
  · simp only [resolve,lineFront,if_pos hrelative,List.append_assoc,List.singleton_append]
    rfl
  · simp only [resolve,lineFront,if_neg hrelative,List.nil_append]
    rfl

theorem Vec.Keeps.clip (h : u.Keeps 1 hint most items) (k : ℕ) :
    (vecClip u k).Keeps 1 hint most (items.take k) where
  holds := vecClip_holds h.holds k
  hint_eq := by
    rw [← h.hint_eq]
    unfold vecClip
    split_ifs <;> rfl
  capacity := by
    have hcap := h.capacity
    unfold vecClip
    split_ifs <;> exact hcap

/-- The last byte that the buffer has. -/
theorem Vec.Keeps.last (h : u.Keeps 1 hint most items) (hne : items ≠ []) :
    vecSize u ≠ 0 ∧ vecValue u (vecSize u-1) = .ok (items.getLast hne) := by
  have hpos := List.length_pos_of_ne_nil hne
  have hsize : vecSize u = items.length := h.holds.size
  rw [hsize,vecValue_spec h.holds (by omega),List.getLast_eq_getElem]
  exact ⟨hpos.ne',rfl⟩

theorem ubufRstrip_spec (h : u.Keeps 1 hint most items) (s : UInt8) :
    ∃ u', ubufRstrip u s = .ok u' ∧
      u'.Keeps 1 hint most (stripped s items) := by
  by_cases hne : items = []
  · subst hne
    have hsize : vecSize u = 0 := h.holds.size
    exact ⟨u,by simp [ubufRstrip,hsize],h⟩
  · obtain ⟨hsize,hlast⟩ := h.last hne
    have hlength : vecSize u = items.length := h.holds.size
    refine ⟨if items.getLast hne = s then vecClip u (vecSize u-1) else u,?_,?_⟩
    · rw [ubufRstrip,if_pos (Nat.pos_of_ne_zero hsize),hlast,ok_bind,pure_eq_ok]
    · have hsome := List.getLast?_eq_some_getLast hne
      rw [stripped]
      by_cases hs : items.getLast hne = s
      · rw [if_pos hs,if_pos (hs ▸ hsome),List.dropLast_eq_take,← hlength]
        exact h.clip _
      · rw [if_neg hs,if_neg (fun hlast => hs (Option.some.inj (hsome.symm.trans hlast)))]
        exact h

variable (hrefuses : Refuses alloc) (hfuel : 64 ≤ fuel) (hbound : max hint (2*most) ≤ bound)
include hrefuses hfuel hbound

theorem ubufAddCstr_spec (h : u.Keeps 1 hint most items) (hzero : 0 ∉ items) (s : Bytes)
    (hroom : items.length+s.length ≤ most) :
    Granted (GrantsUpTo alloc bound) (ubufAddCstr alloc fuel u s)
      (fun u' => u'.Keeps 1 hint most (items++cstr s)) := by
  obtain ⟨u',hstrip,hkeeps⟩ := ubufRstrip_spec h 0
  rw [stripped_of_notMem hzero] at hkeeps
  have hle := cstr_length_le s
  rw [ubufAddCstr,hstrip,ok_bind]
  exact hkeeps.append hrefuses Nat.one_pos hfuel (by omega) (by rwa [Nat.one_mul])

theorem ubufCstr_spec (h : u.Keeps 1 hint most items) (hzero : 0 ∉ items)
    (hroom : items.length+1 ≤ most) :
    Granted (GrantsUpTo alloc bound) (ubufCstr alloc fuel u)
      (fun r => r.1.Keeps 1 hint most (items++[0]) ∧ r.2 = items) := by
  have hterm : ubufCterm alloc fuel u = vecAppend alloc 1 fuel u [0] := by
    by_cases hne : items = []
    · subst hne
      have hsize : vecSize u = 0 := h.holds.size
      rw [ubufCterm,if_pos hsize]
    · obtain ⟨hsize,hlast⟩ := h.last hne
      have hend : items.getLast hne ≠ 0 := fun heq => hzero (heq ▸ List.getLast_mem hne)
      rw [ubufCterm,if_neg hsize,hlast,ok_bind,if_pos hend]
  rw [ubufCstr,hterm]
  have hfits : items.length+([0] : Bytes).length ≤ most := hroom
  apply (h.append hrefuses Nat.one_pos hfuel hfits (by rwa [Nat.one_mul])).bind
  intro u' hkeeps
  have hload : loadAll u'.v (vecSize u') = .ok (items++[0]) := by
    rw [vecSize,hkeeps.holds.size]
    exact hkeeps.holds.begins.loadAll
  rw [hload,ok_bind]
  exact .ok ⟨hkeeps,cstr_terminated hzero⟩

theorem addSetdir_spec {setdir : Bytes} (hsetdir : 0 ∉ setdir) (h : u.Keeps 1 hint most [])
    (line : Bytes) (hroom : setdir.length+1 ≤ most) :
    Granted (GrantsUpTo alloc bound) (addSetdir alloc fuel setdir u line)
      (fun u' => u'.Keeps 1 hint most (lineFront setdir line)) := by
  by_cases hrelative : line.head? ≠ some 47
  · rw [addSetdir,lineFront,if_pos hrelative,if_pos hrelative]
    have hfits : ([] : Bytes).length+setdir.length ≤ most := by
      rw [List.length_nil]
      omega
    apply (ubufAddCstr_spec hrefuses hfuel hbound h List.not_mem_nil setdir hfits).bind
    intro u' hkeeps
    rw [List.nil_append,cstr_eq_self hsetdir] at hkeeps
    exact hkeeps.add hrefuses Nat.one_pos hfuel hroom (by rwa [Nat.one_mul])
  · rw [addSetdir,lineFront,if_neg hrelative,if_neg hrelative]
    exact .ok h

/-- What the buffer held before does not matter. -/
theorem linePath_spec {setdir : Bytes} (hsetdir : 0 ∉ setdir) (h : u.Keeps 1 hint most items)
    (line : Bytes) (hroom : setdir.length+line.length+2 ≤ most) :
    Granted (GrantsUpTo alloc bound) (linePath alloc fuel setdir u line) (fun r =>
      (∃ items', r.1.Keeps 1 hint most items') ∧ r.2 = resolve setdir line) := by
  have hempty : (vecClip u 0).Keeps 1 hint most [] := h.clip 0
  have hline := cstr_length_le line
  apply (addSetdir_spec hrefuses hfuel hbound hsetdir hempty line (by omega)).bind
  intro u1 hkeeps
  have hfront := lineFront_length_le setdir line
  have hfrontZero := zero_notMem_lineFront hsetdir line
  apply (ubufAddCstr_spec hrefuses hfuel hbound hkeeps hfrontZero line (by omega)).bind
  intro u2 hkeeps2
  obtain ⟨u3,hstrip,hkeeps3⟩ := ubufRstrip_spec hkeeps2 10
  have hpath := stripped_sublist 10 (lineFront setdir line++cstr line)
  rw [← resolve_eq] at hkeeps3 hpath
  have hzero : 0 ∉ resolve setdir line := by
    intro hmem
    rcases List.mem_append.mp (hpath.subset hmem) with hmem | hmem
    · exact hfrontZero hmem
    · exact zero_notMem_cstr line hmem
  have hlength := hpath.length_le
  rw [List.length_append] at hlength
  rw [hstrip,ok_bind]
  apply (ubufCstr_spec hrefuses hfuel hbound hkeeps3 hzero (by omega)).imp
  rintro r ⟨hlast,hfname⟩
  exact ⟨⟨_,hlast⟩,hfname⟩

end

/-- The loop over the lines. -/
theorem linePaths_spec {fuel hint most bound : ℕ} (hfuel : 64 ≤ fuel) (hbound : max hint (2*most) ≤ bound)
    {setdir : Bytes} (hsetdir : 0 ∉ setdir) {lines : List (Bytes × (ℕ → Bool))}
    (hrefuses : ∀ l ∈ lines, Refuses l.2)
    (hroom : ∀ l ∈ lines, setdir.length+l.1.length+2 ≤ most) {u : Vec UInt8} {items : Bytes}
    (h : u.Keeps 1 hint most items) :
    Granted (∀ l ∈ lines, GrantsUpTo l.2 bound) (linePaths fuel setdir u lines) (fun r =>
      r.2 = lines.map (fun l => resolve setdir l.1)) := by
  induction lines generalizing u items with
  | nil => exact .ok rfl
  | cons l lines ih =>
    obtain ⟨hl,hrest⟩ := List.forall_mem_cons.mp hrefuses
    obtain ⟨hlroom,hrestroom⟩ := List.forall_mem_cons.mp hroom
    have hfirst := linePath_spec hl hfuel hbound hsetdir h l.1 hlroom
    apply (hfirst.mono (fun hg => hg l List.mem_cons_self)).bind
    rintro ⟨u1,fname⟩ ⟨⟨items1,hkeeps⟩,rfl⟩
    apply ((ih hrest hrestroom hkeeps).mono (fun hg x hx => hg x (List.mem_cons_of_mem _ hx))).bind
    rintro ⟨u2,fnames⟩ rfl
    exact .ok rfl

/-- Whatever the lines are, each path is that of its own line, and the reload goes through those that
exist: the buffer that they share leaves nothing of an earlier one behind and does not write outside
its memory. Otherwise the program stops where memory was refused. -/
theorem line_paths (fuel most : ℕ) (hfuel : 64 ≤ fuel) (setdir : Bytes) (hsetdir : 0 ∉ setdir)
    (alloc : ℕ → Bool) (hrefuses : Refuses alloc) (lines : List (Bytes × (ℕ → Bool)))
    (hlines : ∀ l ∈ lines, Refuses l.2)
    (hroom : ∀ l ∈ lines, setdir.length+l.1.length+2 ≤ most) :
    Granted (GrantsUpTo alloc (max 64 (2*most)) ∧
        ∀ l ∈ lines, GrantsUpTo l.2 (max 64 (2*most)))
      (do
        let u ← vecInit alloc 1 64
        linePaths fuel setdir u lines)
      (fun r => r.2 = lines.map (fun l => resolve setdir l.1) ∧ ∀ disk : Disk,
        r.2.filter disk.pathExists = listedPaths disk setdir (lines.map Prod.fst)) := by
  have hinit : Granted (GrantsUpTo alloc (max 64 (2*most))) (vecInit alloc 1 64)
      (fun u : Vec UInt8 => u.Keeps 1 (max 1 (64%2^32)) most [] ∧ u.nAlloced = max 1 (64%2^32)) :=
    vecInit_keeps hrefuses Nat.one_pos (by norm_num) 64 most (by omega) (by omega)
  apply (hinit.mono (fun hg => hg.1)).bind
  rintro u ⟨hkeeps,-⟩
  have hbound : max (max 1 (64%2^32)) (2*most) ≤ max 64 (2*most) := by omega
  have hpaths := linePaths_spec hfuel hbound hsetdir hlines hroom hkeeps
  apply Granted.imp (hpaths.mono (fun hg => hg.2))
  rintro ⟨u1,fnames⟩ rfl
  refine ⟨rfl,?_⟩
  intro disk
  rw [listedPaths,List.map_map]
  rfl

/-- A relative path behind an absolute one that is longer. -/
theorem line_paths_two : ∃ u, (do
    let u ← vecInit amply 1 64
    linePaths 64 [47,100] u [([47,108,111,110,103,10],amply),([97,10],amply)]) =
      .ok (u,[[47,108,111,110,103],[47,100,47,97]]) := by
  have h := line_paths 64 10 le_rfl [47,100] (by decide) amply refuses_amply
    [([47,108,111,110,103,10],amply),([97,10],amply)] (by simpa using refuses_amply) (by simp)
  obtain ⟨r,hr,hpaths,-⟩ := h.returns
    ⟨grantsUpTo_amply (by decide),by simpa using grantsUpTo_amply (by decide)⟩
  refine ⟨r.1,hr.trans ?_⟩
  rw [show r = (r.1,r.2) from rfl,hpaths]
  rfl

end Mtbl
