import Mtbl.Block.Reads

/-! Whether block iteration ends on arbitrary bytes. Each loop that parses entries comes closer to
the restart array unless it meets a header that decodes from no bytes, and ends with a result or a failed
assertion unless it reads other memory than that around the block. -/
namespace Mtbl
open CRun

/-! ### Loops that parse -/

/-- One round of a loop that parses an entry and goes on as long as `again` says so. -/
def parseRound (again : BlockIter → Bool) (bi : BlockIter) : Run (BlockIter ⊕ BlockIter) := do
  let (bi,more) ← parseNextKey bi
  return if more ∧ again bi then .inl bi else .inr bi

theorem parseWhileBelow_eq_loop (bound fuel : ℕ) (bi : BlockIter) :
    parseWhileBelow bound fuel bi =
      loop (parseRound (fun b => decide (b.next < bound))) fuel bi := by
  induction fuel generalizing bi with
  | zero => rfl
  | succ fuel ih =>
    rw [parseWhileBelow,loop,parseRound]
    rcases parseNextKey bi with e | ⟨b,more⟩
    · rfl
    · simp only [ok_bind,decide_eq_true_eq]
      split_ifs with h
      · exact ih b
      · rfl

theorem linearSearch_eq_loop (target : Bytes) (fuel : ℕ) (bi : BlockIter) :
    linearSearch target fuel bi =
      loop (parseRound (fun b => decide (bytesCompare b.key target < 0))) fuel bi := by
  induction fuel generalizing bi with
  | zero => rfl
  | succ fuel ih =>
    rw [linearSearch,loop,parseRound]
    rcases parseNextKey bi with e | ⟨b,more⟩
    · rfl
    · simp only [ok_bind,decide_eq_true_eq]
      cases more with
      | false => rfl
      | true =>
        simp only [Bool.true_eq_false,if_false,true_and]
        rcases lt_or_ge (bytesCompare b.key target) 0 with hlt | hge
        · rw [if_neg (by omega),if_pos hlt]
          exact ih b
        · rw [if_pos hge,if_neg (by omega)]
          rfl

variable {again : BlockIter → Bool} {bi b b' : BlockIter} {size : ℕ}

theorem parseRound_continues (h : Continues (parseRound again) b b') :
    parseNextKey b = .ok (b',true) ∧ again b' = true := by
  obtain ⟨⟨b1,more⟩,hparse,h⟩ := bind_eq_ok.mp h
  have h := Except.ok.inj h
  split_ifs at h with hmore
  obtain rfl := Sum.inl.inj h
  rw [hparse,hmore.1]
  exact ⟨rfl,hmore.2⟩

theorem parseRound_sameBlock (h : Rounds (parseRound again) bi b) : bi.SameBlock b :=
  h.invariant (.refl bi) (fun _ _ hs hc =>
    hs.trans (BlockIter.Moved.parse (parseRound_continues hc).1).sameBlock)

theorem parseRound_halts (hf : b.Framed size) : Halts (parseRound again b) ↔ b.Readable := by
  rw [parseRound,halts_bind,hf.parse_halts]
  exact and_iff_left fun r _ => Halts.ok _

/-- An iterator that parses is in front of the restart array. -/
theorem BlockIter.Parsed.position_lt (h : b.Parsed b') : b.position < b.restarts := by
  unfold BlockIter.position BlockIter.signed
  rcases h.room with hlt | hwraps
  · rw [if_neg (b.not_wraps hlt.le)]
    omega
  · have := hwraps.2.1
    rw [if_pos hwraps]
    omega

/-- Without such headers the distance to the restart array bounds the rounds. -/
theorem parseLoop_stops (hf : bi.Framed size) (hplace : bi.front.address+bi.restarts ≤ 2^63)
    (hover : ∀ b, Rounds (parseRound again) bi b → ¬ b.Overlong) :
    Stops (fun n => loop (parseRound again) n bi) ↔
      ∀ b, Rounds (parseRound again) bi b → b.Readable := by
  rw [loop_stops (fun b : BlockIter => ((bi.restarts : ℤ)-b.position).toNat)]
  · exact forall₂_congr fun b hb => parseRound_halts ((parseRound_sameBlock hb).framed hf)
  · intro b b' hb hc
    obtain ⟨hparse,-⟩ := parseRound_continues hc
    rcases parseNextKey_eq_ok hparse with ⟨hmore,-⟩ | ⟨-,hparsed⟩
    · cases hmore
    · have hsame := parseRound_sameBlock hb
      have hprogress := hparsed.progress (hsame.placed hplace) (hover b hb)
      have hroom := hparsed.position_lt
      rw [hsame.restarts] at hroom
      omega

/-- At such a header the loop goes round for ever, if it goes on at all. -/
theorem parseLoop_never_stops (hf : bi.Framed size) (hrounds : Rounds (parseRound again) bi b)
    (hover : b.Overlong)
    (hagain : ∀ b', bi.SameBlock b' → b'.next = b.next → b'.key = [] → again b' = true) (n : ℕ) :
    loop (parseRound again) n bi = .error .fuel := by
  have hsame := parseRound_sameBlock hrounds
  apply loop_never_stops
    (P := fun c => b.SameBlock c ∧ c.next = b.next) _ hrounds ⟨.refl b,rfl⟩
  rintro c ⟨hc,hnext⟩
  have hover' : c.Overlong := by
    rw [BlockIter.Overlong,hnext,hc.view]
    exact hover
  obtain ⟨c',hparse,hnext',hkey,hc'⟩ := hover'.parse ((hsame.trans hc).framed hf)
  refine ⟨c',?_,hc.trans hc',hnext'.trans hnext⟩
  rw [Continues,parseRound,hparse]
  simp [hagain c' (hsame.trans (hc.trans hc')) (hnext'.trans hnext) hkey]

/-! ### Loops over restart points -/

def gallopRound (bi : BlockIter) (target : Bytes) (s : ℕ × ℕ × ℕ × ℕ) :
    Run ((ℕ × ℕ × ℕ × ℕ) ⊕ (ℕ × ℕ)) := do
  let cmp ← compareRestartPoint bi s.2.2.1 target
  if cmp < 0 then
    let i := (s.2.2.1+s.2.2.2)%2^32
    if i > bi.numRestarts-1 then return .inr (s.2.2.1,bi.numRestarts-1)
    else return .inl (s.2.2.1,i,i,(s.2.2.2*2)%2^32)
  else return .inr (s.1,s.2.1)

theorem gallop_eq_loop (bi : BlockIter) (target : Bytes) (fuel left right i incr : ℕ) :
    gallop bi target fuel left right i incr =
      loop (gallopRound bi target) fuel (left,right,i,incr) := by
  induction fuel generalizing left right i incr with
  | zero => rfl
  | succ fuel ih =>
    rw [gallop,loop,gallopRound]
    rcases compareRestartPoint bi i target with e | cmp
    · rfl
    · simp only [ok_bind]
      split_ifs with hcmp hpast
      · rfl
      · exact ih _ _ _ _
      · rfl

def binaryRound (bi : BlockIter) (target : Bytes) (s : ℕ × ℕ) : Run ((ℕ × ℕ) ⊕ ℕ) :=
  if s.1 < s.2 then do
    let mid := ((s.1+s.2+1)%2^32)/2
    let cmp ← compareRestartPoint bi mid target
    if cmp < 0 then return .inl (mid,s.2) else return .inl (s.1,(mid+2^32-1)%2^32)
  else return .inr s.1

theorem binarySearch_eq_loop (bi : BlockIter) (target : Bytes) (fuel left right : ℕ) :
    binarySearch bi target fuel left right = loop (binaryRound bi target) fuel (left,right) := by
  induction fuel generalizing left right with
  | zero => rfl
  | succ fuel ih =>
    rw [binarySearch,loop,binaryRound]
    simp only
    split_ifs with hlr
    · rcases compareRestartPoint bi (((left+right+1)%2^32)/2) target with e | cmp
      · rfl
      · simp only [ok_bind]
        split_ifs with hcmp
        · exact ih _ _
        · exact ih _ _
    · rfl

/-- No sum of restart indexes that the search forms needs a 33rd bit. -/
structure SearchFits (bi : BlockIter) (target : Bytes) : Prop where
  gallop : bi.restartIndex ≠ 0 →
    ∀ s c, Rounds (gallopRound bi target) (0,bi.restartIndex,bi.restartIndex,1) s →
      compareRestartPoint bi s.2.2.1 target = .ok c → c < 0 → s.2.2.1+s.2.2.2 < 2^32
  binary : ∀ fuel p s, restartBounds fuel bi target = .ok p →
    Rounds (binaryRound bi target) p s → s.1+s.2+1 < 2^32

/-- What is read to compare with restart point `i` lies in memory. -/
def PointReads (bi : BlockIter) (target : Bytes) (i : ℕ) : Prop :=
  ∀ p, getRestartPoint bi i = .ok p → ¬ bi.FarPast p ∧ bi.Reads p 0 target.length

/-- All restart points that the search compares with the target can be read. -/
structure SearchReads (bi : BlockIter) (target : Bytes) : Prop where
  gallop : bi.numRestarts ≠ bi.restartIndex ∧ bi.restartIndex ≠ 0 →
    ∀ s, Rounds (gallopRound bi target) (0,bi.restartIndex,bi.restartIndex,1) s →
      PointReads bi target s.2.2.1
  binary : ∀ fuel p, restartBounds fuel bi target = .ok p → p.1+1 < p.2 →
    ∀ s, Rounds (binaryRound bi target) p s → s.1 < s.2 →
      PointReads bi target (((s.1+s.2+1)%2^32)/2)

theorem getRestartPoint_halts (hf : bi.Framed size) (idx : ℕ) : Halts (getRestartPoint bi idx) := by
  by_cases hidx : idx < bi.numRestarts
  · exact .inr (hf.restartPoint hidx)
  · rw [getRestartPoint]
    exact (Halts.check _).bind fun _ hcheck => absurd (check_eq_ok.mp hcheck) hidx

theorem seekToRestartPoint_halts (hf : bi.Framed size) (idx : ℕ) :
    Halts (seekToRestartPoint bi idx) :=
  (getRestartPoint_halts hf idx).bind fun _ _ => .ok _

/-- A comparison ends exactly if what it reads is in memory. -/
theorem compareRestartPoint_halts (hf : bi.Framed size) (i : ℕ) (target : Bytes) :
    Halts (compareRestartPoint bi i target) ↔ PointReads bi target i := by
  rw [compareRestartPoint,halts_bind,PointReads]
  simp only [getRestartPoint_halts hf i,true_and]
  refine forall₂_congr fun p _ => ?_
  rw [hf.decodeAt_halts .assertion]
  refine and_congr_right fun _ => forall_congr' fun _ => exists_congr fun h => and_congr_right fun _ =>
    forall₂_congr fun _ _ => ?_
  rw [halts_bind]
  simp only [Halts.check,check_eq_ok,true_and,Nat.le_zero]
  exact ⟨fun hrest hshared => (halts_bind.mp (hrest () hshared)).1,
    fun hread _ hshared => (hread hshared).bind fun _ _ => .ok _⟩

theorem gallopRound_halts (hf : bi.Framed size) {target : Bytes} (s : ℕ × ℕ × ℕ × ℕ) :
    Halts (gallopRound bi target s) ↔ PointReads bi target s.2.2.1 := by
  rw [gallopRound,halts_bind,compareRestartPoint_halts hf]
  exact and_iff_left fun _ _ => Halts.ite (fun _ => Halts.ite (fun _ => .ok _) (fun _ => .ok _))
    (fun _ => .ok _)

theorem binaryRound_halts (hf : bi.Framed size) {target : Bytes} (s : ℕ × ℕ) :
    Halts (binaryRound bi target s) ↔
      (s.1 < s.2 → PointReads bi target (((s.1+s.2+1)%2^32)/2)) := by
  unfold binaryRound
  by_cases hlr : s.1 < s.2
  · rw [if_pos hlr,halts_bind,compareRestartPoint_halts hf,forall_prop_of_true hlr]
    exact and_iff_left fun _ _ => Halts.ite (fun _ => .ok _) (fun _ => .ok _)
  · rw [if_neg hlr]
    exact iff_of_true (.ok _) (fun h => absurd h hlr)

theorem compareRestartPoint_lt {bi : BlockIter} {i : ℕ} {target : Bytes} {c : ℤ}
    (h : compareRestartPoint bi i target = .ok c) : i < bi.numRestarts := by
  obtain ⟨point,hpoint,-⟩ := bind_eq_ok.mp h
  obtain ⟨_,hcheck,-⟩ := bind_eq_ok.mp hpoint
  rwa [check_eq_ok] at hcheck

theorem gallopRound_continues {target : Bytes} {s s' : ℕ × ℕ × ℕ × ℕ}
    (h : Continues (gallopRound bi target) s s') :
    (∃ c, compareRestartPoint bi s.2.2.1 target = .ok c ∧ c < 0) ∧
      (s.2.2.1+s.2.2.2)%2^32 ≤ bi.numRestarts-1 ∧
      s' = (s.2.2.1,(s.2.2.1+s.2.2.2)%2^32,(s.2.2.1+s.2.2.2)%2^32,(s.2.2.2*2)%2^32) := by
  obtain ⟨c,hc,h⟩ := bind_eq_ok.mp h
  simp only at h
  split_ifs at h with hcmp hpast
  · cases h
  · exact ⟨⟨c,hc,hcmp⟩,not_lt.mp hpast,(Sum.inl.inj (Except.ok.inj h)).symm⟩
  · cases h

/-- While sums fit, galloping moves up and its stride stays between 1 and the index. -/
theorem gallop_invariant {target : Bytes} {s : ℕ × ℕ × ℕ × ℕ} (hri : bi.restartIndex ≠ 0)
    (hfits : ∀ s c, Rounds (gallopRound bi target) (0,bi.restartIndex,bi.restartIndex,1) s →
      compareRestartPoint bi s.2.2.1 target = .ok c → c < 0 → s.2.2.1+s.2.2.2 < 2^32)
    (h : Rounds (gallopRound bi target) (0,bi.restartIndex,bi.restartIndex,1) s) :
    1 ≤ s.2.2.2 ∧ s.2.2.2 ≤ s.2.2.1 := by
  induction h with
  | refl => exact ⟨le_rfl,by simp only; omega⟩
  | tail hrounds hc ih =>
    obtain ⟨⟨c,hcmp,hneg⟩,-,rfl⟩ := gallopRound_continues hc
    have hsum := hfits _ c hrounds hcmp hneg
    rw [Nat.mod_eq_of_lt hsum,Nat.mod_eq_of_lt (by omega)]
    simp only
    omega

theorem gallop_stops (hf : bi.Framed size) {target : Bytes} (hri : bi.restartIndex ≠ 0)
    (hfits : ∀ s c, Rounds (gallopRound bi target) (0,bi.restartIndex,bi.restartIndex,1) s →
      compareRestartPoint bi s.2.2.1 target = .ok c → c < 0 → s.2.2.1+s.2.2.2 < 2^32) :
    Stops (fun n => gallop bi target n 0 bi.restartIndex bi.restartIndex 1) ↔
      ∀ s, Rounds (gallopRound bi target) (0,bi.restartIndex,bi.restartIndex,1) s →
        PointReads bi target s.2.2.1 := by
  simp only [gallop_eq_loop]
  rw [loop_stops (fun s => bi.numRestarts-s.2.2.1)]
  · exact forall₂_congr fun s _ => gallopRound_halts hf s
  · intro s s' hs hc
    obtain ⟨hone,-⟩ := gallop_invariant hri hfits hs
    obtain ⟨⟨c,hcmp,hneg⟩,hle,rfl⟩ := gallopRound_continues hc
    have hlt := compareRestartPoint_lt hcmp
    have hsum := hfits s c hs hcmp hneg
    rw [Nat.mod_eq_of_lt hsum] at hle ⊢
    simp only
    omega

theorem binaryRound_continues {target : Bytes} {s s' : ℕ × ℕ}
    (h : Continues (binaryRound bi target) s s') :
    s.1 < s.2 ∧ (s' = (((s.1+s.2+1)%2^32)/2,s.2) ∨
      s' = (s.1,(((s.1+s.2+1)%2^32)/2+2^32-1)%2^32)) := by
  unfold Continues binaryRound at h
  split_ifs at h with hlr
  · obtain ⟨c,hc,h⟩ := bind_eq_ok.mp h
    split_ifs at h with hcmp
    · exact ⟨hlr,.inl (Sum.inl.inj (Except.ok.inj h)).symm⟩
    · exact ⟨hlr,.inr (Sum.inl.inj (Except.ok.inj h)).symm⟩
  · cases h

theorem binarySearch_stops (hf : bi.Framed size) {target : Bytes} {p : ℕ × ℕ}
    (hfits : ∀ s, Rounds (binaryRound bi target) p s → s.1+s.2+1 < 2^32) :
    Stops (fun n => binarySearch bi target n p.1 p.2) ↔
      ∀ s, Rounds (binaryRound bi target) p s → s.1 < s.2 →
        PointReads bi target (((s.1+s.2+1)%2^32)/2) := by
  simp only [binarySearch_eq_loop]
  rw [loop_stops (fun s => s.2-s.1)]
  · exact forall₂_congr fun s _ => binaryRound_halts hf s
  · intro s s' hs hc
    have hsum := hfits s hs
    obtain ⟨hlt,rfl | rfl⟩ := binaryRound_continues hc
    · rw [Nat.mod_eq_of_lt hsum]
      simp only
      omega
    · rw [Nat.mod_eq_of_lt hsum]
      simp only
      omega

theorem restartBounds_steady (bi : BlockIter) (target : Bytes) :
    Steady (fun n => restartBounds n bi target) := by
  unfold restartBounds
  split_ifs
  · simp only [gallop_eq_loop]
    exact loop_steady _ _
  · exact .const _

theorem narrowRestart_steady (bi : BlockIter) (target : Bytes) (left right : ℕ) :
    Steady (fun n => narrowRestart n bi target left right) := by
  unfold narrowRestart
  split_ifs
  · simp only [binarySearch_eq_loop]
    exact loop_steady _ _
  · exact .const _

theorem seekRestart_steady (bi : BlockIter) (target : Bytes) :
    Steady (fun n => seekRestart n bi target) :=
  (restartBounds_steady bi target).bind fun p => narrowRestart_steady bi target p.1 p.2

theorem restartBounds_stops (hf : bi.Framed size) {target : Bytes} (hfits : SearchFits bi target) :
    Stops (fun n => restartBounds n bi target) ↔
      (bi.numRestarts ≠ bi.restartIndex ∧ bi.restartIndex ≠ 0 →
        ∀ s, Rounds (gallopRound bi target) (0,bi.restartIndex,bi.restartIndex,1) s →
          PointReads bi target s.2.2.1) := by
  unfold restartBounds
  by_cases hg : bi.numRestarts ≠ bi.restartIndex ∧ bi.restartIndex ≠ 0
  · simp only [if_pos hg,forall_prop_of_true hg]
    exact gallop_stops hf hg.2 (hfits.gallop hg.2)
  · simp only [if_neg hg]
    exact iff_of_true (stops_const.mpr (.ok _)) (fun h => absurd h hg)

theorem narrowRestart_stops (hf : bi.Framed size) {target : Bytes} {p : ℕ × ℕ}
    (hfits : ∀ s, Rounds (binaryRound bi target) p s → s.1+s.2+1 < 2^32) :
    Stops (fun n => narrowRestart n bi target p.1 p.2) ↔
      (p.1+1 < p.2 → ∀ s, Rounds (binaryRound bi target) p s → s.1 < s.2 →
        PointReads bi target (((s.1+s.2+1)%2^32)/2)) := by
  unfold narrowRestart
  by_cases hb : p.1+1 < p.2
  · simp only [if_pos hb,forall_prop_of_true hb]
    exact binarySearch_stops hf hfits
  · simp only [if_neg hb]
    exact iff_of_true (stops_const.mpr (.ok _)) (fun h => absurd h hb)

/-- While its sums fit, the search ends exactly if what it reads is in memory. -/
theorem seekRestart_stops (hf : bi.Framed size) {target : Bytes} (hfits : SearchFits bi target) :
    Stops (fun n => seekRestart n bi target) ↔ SearchReads bi target := by
  have hbind : Stops (fun n => seekRestart n bi target) ↔
      Stops (fun n => restartBounds n bi target) ∧ ∀ n p, restartBounds n bi target = .ok p →
        Stops (fun m => narrowRestart m bi target p.1 p.2) :=
    stops_bind (restartBounds_steady bi target)
  rw [hbind,restartBounds_stops hf hfits]
  constructor
  · rintro ⟨hgallop,hbinary⟩
    exact ⟨hgallop,fun n p hp =>
      (narrowRestart_stops hf (fun s => hfits.binary n p s hp)).mp (hbinary n p hp)⟩
  · rintro ⟨hgallop,hbinary⟩
    exact ⟨hgallop,fun n p hp =>
      (narrowRestart_stops hf (fun s => hfits.binary n p s hp)).mpr (hbinary n p hp)⟩

theorem gallop_bounds {target : Bytes} {fuel left i incr : ℕ} {p : ℕ × ℕ}
    (hleft : left < bi.numRestarts) (h : gallop bi target fuel left i i incr = .ok p) :
    p.1 < bi.numRestarts ∧ p.2 < bi.numRestarts := by
  induction fuel generalizing left i incr with
  | zero => cases h
  | succ fuel ih =>
    obtain ⟨c,hcmp,h⟩ := bind_eq_ok.mp h
    have hlt := compareRestartPoint_lt hcmp
    simp only at h
    split_ifs at h with hneg hpast
    · obtain rfl := Except.ok.inj h
      exact ⟨hlt,by simp only; omega⟩
    · exact ih hlt h
    · obtain rfl := Except.ok.inj h
      exact ⟨hleft,hlt⟩

theorem restartBounds_lt (hpos : 0 < bi.numRestarts) {target : Bytes} {fuel : ℕ} {p : ℕ × ℕ}
    (hp : restartBounds fuel bi target = .ok p) : p.1 < bi.numRestarts ∧ p.2 < bi.numRestarts := by
  unfold restartBounds at hp
  split_ifs at hp
  · exact gallop_bounds hpos hp
  · obtain rfl := Except.ok.inj hp
    exact ⟨hpos,by simp only; omega⟩

/-- With at most 2^31 restart points the binary search stays among them. -/
theorem binaryRounds_lt (hn : bi.numRestarts ≤ 2^31) {target : Bytes} {p s : ℕ × ℕ}
    (hp : p.1 < bi.numRestarts ∧ p.2 < bi.numRestarts) (hs : Rounds (binaryRound bi target) p s) :
    s.1 < bi.numRestarts ∧ s.2 < bi.numRestarts := by
  refine hs.invariant (P := fun s => s.1 < bi.numRestarts ∧ s.2 < bi.numRestarts) hp ?_
  rintro t t' ⟨h1,h2⟩ hc
  obtain ⟨hlt,rfl | rfl⟩ := binaryRound_continues hc
  · simp only
    omega
  · simp only
    omega

/-- With at most 2^31 restart points no sum of two indexes reaches 2^32. -/
theorem searchFits_of_le (hn : bi.numRestarts ≤ 2^31) (hpos : 0 < bi.numRestarts)
    (target : Bytes) : SearchFits bi target := by
  constructor
  · intro hri s c hs hcmp _
    have hlt := compareRestartPoint_lt hcmp
    have hstride : s.2.2.2 ≤ s.2.2.1 := by
      refine hs.invariant (P := fun s => s.2.2.2 ≤ s.2.2.1) (by simp only; omega) ?_
      intro t t' ht hc
      obtain ⟨⟨c,hcmp,-⟩,-,rfl⟩ := gallopRound_continues hc
      have := compareRestartPoint_lt hcmp
      simp only
      omega
    omega
  · intro fuel p s hp hs
    have hbelow := binaryRounds_lt hn (restartBounds_lt hpos hp) hs
    omega

/-! ### The three operations -/

/-- One round of stepping through a block until `block_iter_next` fails. -/
def nextRound (bi : BlockIter) : Run (BlockIter ⊕ BlockIter) := do
  let (bi,more) ← blockIterNext bi
  return if more then .inl bi else .inr bi

/-- The iterators on which `block_iter_seek_to_last` calls `parse_next_key`. -/
def lastParses (bi b : BlockIter) : Prop :=
  ∃ b0, seekToRestartPoint bi (bi.numRestarts-1) = .ok b0 ∧
    Rounds (parseRound (fun b => decide (b.next < b0.restarts))) b0 b

/-- The iterators on which stepping calls `parse_next_key`. -/
def nextParses (bi b : BlockIter) : Prop := Rounds nextRound bi b ∧ blockIterValid b = true

/-- The iterators on which the linear search of `block_iter_seek` calls `parse_next_key`. -/
def seekParses (target : Bytes) (bi b : BlockIter) : Prop :=
  ∃ fuel left b0, seekRestart fuel bi target = .ok left ∧
    seekFrom bi target left = .ok (some b0) ∧
    Rounds (parseRound (fun b => decide (bytesCompare b.key target < 0))) b0 b

/-- Every successful parse of an operation moves the next entry's offset up, and the operation ends with
a result or a failed assertion. -/
def Ends {α : Type} (parses : BlockIter → Prop) (run : ℕ → Run α) : Prop :=
  (∀ b, parses b → ∀ b', parseNextKey b = .ok (b',true) → b.position < b'.position) ∧ Stops run

theorem ends_iff {α : Type} {parses : BlockIter → Prop} {run : ℕ → Run α} {reads : Prop}
    (hplace : bi.front.address+bi.restarts ≤ 2^63) (hf : bi.Framed size)
    (hsame : ∀ b, parses b → bi.SameBlock b)
    (hstops : (∀ b, parses b → ¬ b.Overlong) → (Stops run ↔ reads)) :
    Ends parses run ↔ (∀ b, parses b → ¬ b.Overlong) ∧ reads := by
  have hmoves : (∀ b, parses b → ∀ b', parseNextKey b = .ok (b',true) → b.position < b'.position) ↔
      ∀ b, parses b → ¬ b.Overlong :=
    forall₂_congr fun b hb => ((hsame b hb).framed hf).progress_iff ((hsame b hb).placed hplace)
  rw [Ends,hmoves]
  exact and_congr_right hstops

theorem lastParses_ends (hf : bi.Framed size) (hplace : bi.front.address+bi.restarts ≤ 2^63) :
    Ends (lastParses bi) (fun n => blockIterSeekToLastWithin n bi) ↔
      ∀ b, lastParses bi b → ¬ b.Overlong ∧ b.Readable := by
  rw [forall₂_and]
  apply ends_iff hplace hf
  · rintro b ⟨b0,hseek,hrounds⟩
    exact (BlockIter.seekToRestartPoint_sameBlock hseek).trans (parseRound_sameBlock hrounds)
  · intro hover
    have hbind : Stops (fun n => blockIterSeekToLastWithin n bi) ↔
        Stops (fun _ => seekToRestartPoint bi (bi.numRestarts-1)) ∧
          ∀ _ b0, seekToRestartPoint bi (bi.numRestarts-1) = .ok b0 →
            Stops (fun m => parseWhileBelow b0.restarts m b0) := stops_bind (.const _)
    rw [hbind,stops_const,and_iff_right (seekToRestartPoint_halts hf _)]
    simp only [parseWhileBelow_eq_loop]
    constructor
    · rintro h b ⟨b0,hseek,hrounds⟩
      have hsame := BlockIter.seekToRestartPoint_sameBlock hseek
      exact (parseLoop_stops (hsame.framed hf) (hsame.placed hplace)
        (fun b hb => hover b ⟨b0,hseek,hb⟩)).mp (h 0 b0 hseek) b hrounds
    · intro h _ b0 hseek
      have hsame := BlockIter.seekToRestartPoint_sameBlock hseek
      exact (parseLoop_stops (hsame.framed hf) (hsame.placed hplace)
        (fun b hb => hover b ⟨b0,hseek,hb⟩)).mpr (fun b hb => h b ⟨b0,hseek,hb⟩)

theorem nextRound_continues (h : Continues nextRound b b') :
    blockIterValid b = true ∧ blockIterValid b' = true ∧ b.Parsed b' := by
  obtain ⟨⟨b1,more⟩,hnext,h⟩ := bind_eq_ok.mp h
  have h := Except.ok.inj h
  split_ifs at h with hmore
  obtain rfl := Sum.inl.inj h
  unfold blockIterNext at hnext
  split_ifs at hnext with hvalid
  · obtain ⟨-,rfl⟩ := Prod.mk.inj (Except.ok.inj hnext)
    cases hmore
  · obtain ⟨⟨b2,more'⟩,hparse,hnext⟩ := bind_eq_ok.mp hnext
    obtain ⟨rfl,rfl⟩ := Prod.mk.inj (Except.ok.inj hnext)
    rcases parseNextKey_eq_ok hparse with ⟨-,rfl⟩ | ⟨-,hparsed⟩
    · simp [blockIterValid,BlockIter.invalidate] at hmore
    · exact ⟨by simpa using hvalid,hmore,hparsed⟩

theorem nextRound_sameBlock (h : Rounds nextRound bi b) : bi.SameBlock b :=
  h.invariant (.refl bi) (fun _ _ hs hc => hs.trans (nextRound_continues hc).2.2.sameBlock)

theorem nextRound_halts (hf : b.Framed size) :
    Halts (nextRound b) ↔ (blockIterValid b = true → b.Readable) := by
  unfold nextRound blockIterNext
  rw [halts_bind,and_iff_left (fun _ _ => .ok _)]
  cases hvalid : blockIterValid b with
  | false => exact iff_of_true (.ok _) (fun h => by cases h)
  | true =>
    rw [if_neg (by simp),halts_bind,and_iff_left (fun _ _ => .ok _),hf.parse_halts]
    exact ⟨fun h _ => h,fun h => h rfl⟩

theorem nextParses_ends (hf : bi.Framed size) (hplace : bi.front.address+bi.restarts ≤ 2^63) :
    Ends (nextParses bi) (fun n => loop nextRound n bi) ↔
      ∀ b, nextParses bi b → ¬ b.Overlong ∧ b.Readable := by
  rw [forall₂_and]
  apply ends_iff hplace hf
  · rintro b ⟨hrounds,-⟩
    exact nextRound_sameBlock hrounds
  · intro hover
    rw [loop_stops (fun b : BlockIter => ((bi.restarts : ℤ)-b.position).toNat)]
    · simp only [nextParses,and_imp]
      exact forall₂_congr fun b hb => nextRound_halts ((nextRound_sameBlock hb).framed hf)
    · intro b b' hb hc
      obtain ⟨hvalid,-,hparsed⟩ := nextRound_continues hc
      have hsame := nextRound_sameBlock hb
      have hprogress := hparsed.progress (hsame.placed hplace) (hover b ⟨hb,hvalid⟩)
      have hroom := hparsed.position_lt
      rw [hsame.restarts] at hroom
      omega

theorem seekFrom_sameBlock {target : Bytes} {left : ℕ} {b0 : BlockIter}
    (h : seekFrom bi target left = .ok (some b0)) : bi.SameBlock b0 := by
  unfold seekFrom at h
  simp only at h
  split_ifs at h with heq hlt
  · cases h
  · obtain rfl := Option.some.inj (Except.ok.inj h)
    exact .refl bi
  · obtain ⟨b1,hseek,h⟩ := bind_eq_ok.mp h
    obtain rfl := Option.some.inj (Except.ok.inj h)
    exact BlockIter.seekToRestartPoint_sameBlock hseek

theorem seekFrom_halts (hf : bi.Framed size) (target : Bytes) (left : ℕ) :
    Halts (seekFrom bi target left) :=
  Halts.ite (fun _ => .ok _) (fun _ => Halts.ite (fun _ => .ok _)
    (fun _ => (seekToRestartPoint_halts hf left).bind (fun _ _ => .ok _)))

theorem seekParses_ends (hf : bi.Framed size) (hplace : bi.front.address+bi.restarts ≤ 2^63)
    {target : Bytes} (hfits : SearchFits bi target) :
    Ends (seekParses target bi) (fun n => blockIterSeekWithin n n bi target) ↔
      SearchReads bi target ∧ ∀ b, seekParses target bi b → ¬ b.Overlong ∧ b.Readable := by
  rw [forall₂_and,and_left_comm]
  apply ends_iff hplace hf
  · rintro b ⟨fuel,left,b0,-,hfrom,hrounds⟩
    exact (seekFrom_sameBlock hfrom).trans (parseRound_sameBlock hrounds)
  · intro hover
    unfold blockIterSeekWithin
    rw [stops_bind (seekRestart_steady bi target),seekRestart_stops hf hfits]
    refine and_congr_right fun _ => ?_
    -- the linear search from where the restart points lead
    have hlinear : ∀ n left b0, seekRestart n bi target = .ok left →
        seekFrom bi target left = .ok (some b0) →
          (Stops (fun m => linearSearch target m b0) ↔
            ∀ b, Rounds (parseRound (fun b => decide (bytesCompare b.key target < 0))) b0 b →
              b.Readable) := by
      intro n left b0 hleft hfrom
      have hsame := seekFrom_sameBlock hfrom
      simp only [linearSearch_eq_loop]
      exact parseLoop_stops (hsame.framed hf) (hsame.placed hplace)
        (fun b hb => hover b ⟨n,left,b0,hleft,hfrom,hb⟩)
    constructor
    · rintro h b ⟨n,left,b0,hleft,hfrom,hrounds⟩
      have hstops := h n left hleft
      simp only [hfrom,ok_bind] at hstops
      exact (hlinear n left b0 hleft hfrom).mp hstops b hrounds
    · intro h n left hleft
      rw [stops_bind (.const _)]
      refine ⟨stops_const.mpr (seekFrom_halts hf target left),fun _ o hfrom => ?_⟩
      cases o with
      | none => exact stops_const.mpr (.ok _)
      | some b0 =>
        exact (hlinear n left b0 hleft hfrom).mpr fun b hb => h b ⟨n,left,b0,hleft,hfrom,hb⟩

/-- On any bytes that are accepted as a block, whatever the state of the iterator and the memory around:
an operation moves forward with every entry it parses and ends exactly if none of these starts with a
varint of more than five bytes and what is read of them is in memory. For `block_iter_seek`, that has to
hold of the restart points it compares too; this is while the sums of restart indexes fit into 32 bits. -/
theorem block_iteration_ends {front : Front} {data : Bytes} {size : ℕ} {B : Block}
    {bi0 bi : BlockIter} (hmem : size ≤ data.length) (hplace : front.address+data.length ≤ 2^63)
    (hinit : blockInit front data size = .ok B) (hiter : blockIterInit B = .ok bi0)
    (hsame : bi0.SameBlock bi) :
    (Ends (lastParses bi) (fun n => blockIterSeekToLastWithin n bi) ↔
      ∀ b, lastParses bi b → ¬ b.Overlong ∧ b.Readable) ∧
    (Ends (nextParses bi) (fun n => loop nextRound n bi) ↔
      ∀ b, nextParses bi b → ¬ b.Overlong ∧ b.Readable) ∧
    ∀ target, SearchFits bi target →
      (Ends (seekParses target bi) (fun n => blockIterSeekWithin n n bi target) ↔
        SearchReads bi target ∧ ∀ b, seekParses target bi b → ¬ b.Overlong ∧ b.Readable) := by
  obtain ⟨hf0,hdata,hfront⟩ := blockIterInit_framed hmem (by omega) hinit hiter
  have hplaced : bi.front.address+bi.restarts ≤ 2^63 := by
    have hlayout := hf0.layout
    rw [hsame.front,hsame.restarts,hfront]
    omega
  have hf := hsame.framed hf0
  exact ⟨lastParses_ends hf hplaced,nextParses_ends hf hplaced,
    fun _ hfits => seekParses_ends hf hplaced hfits⟩

theorem block_iteration_ends_one : ∃ bi,
    blockIterInit ⟨oneEntryBlock,13,5,⟨4096,[0,0]⟩⟩ = .ok bi ∧
    (Ends (lastParses bi) (fun n => blockIterSeekToLastWithin n bi) ↔
      ∀ b, lastParses bi b → ¬ b.Overlong ∧ b.Readable) ∧
    (Ends (nextParses bi) (fun n => loop nextRound n bi) ↔
      ∀ b, nextParses bi b → ¬ b.Overlong ∧ b.Readable) ∧
    ∀ target, (Ends (seekParses target bi) (fun n => blockIterSeekWithin n n bi target) ↔
      SearchReads bi target ∧ ∀ b, seekParses target bi b → ¬ b.Overlong ∧ b.Readable) := by
  have hiter : blockIterInit ⟨oneEntryBlock,13,5,⟨4096,[0,0]⟩⟩ =
      .ok ⟨oneEntryBlock,5,1,5,1,0,[],0,0,⟨4096,[0,0]⟩⟩ := by decide
  obtain ⟨hlast,hnext,hseek⟩ := @block_iteration_ends ⟨4096,[0,0]⟩ oneEntryBlock 13 _ _ _
    (by decide) (by decide) (by decide) hiter (.refl _)
  exact ⟨_,hiter,hlast,hnext,
    fun target => hseek target (searchFits_of_le (by decide) (by decide) target)⟩

theorem lastParses_never_stops (hf : bi.Framed size) (hb : lastParses bi b) (hover : b.Overlong)
    (hlow : b.next < b.restarts) (n : ℕ) : blockIterSeekToLastWithin n bi = .error .fuel := by
  obtain ⟨b0,hseek,hrounds⟩ := hb
  have hsame := BlockIter.seekToRestartPoint_sameBlock hseek
  rw [blockIterSeekToLastWithin,hseek,ok_bind,parseWhileBelow_eq_loop]
  apply parseLoop_never_stops (hsame.framed hf) hrounds hover
  intro b' hb' hnext _
  rw [(parseRound_sameBlock hrounds).restarts] at hlow
  rw [decide_eq_true_eq,hnext]
  exact hlow

/-- A header of five continued bytes. -/
def overlongBlock : Bytes := [128,128,128,128,128,0,0,0,0,1,0,0,0]

/-- The block is accepted. After `block_iter_seek_to_first` parsing succeeds without moving, and
`block_iter_seek_to_last` never returns. -/
theorem block_iteration_ends_fails :
    ∃ bi b, blockInit ⟨4096,[]⟩ overlongBlock 13 = .ok ⟨overlongBlock,13,5,⟨4096,[]⟩⟩ ∧
      blockIterInit ⟨overlongBlock,13,5,⟨4096,[]⟩⟩ = .ok bi ∧ blockIterSeekToFirst bi = .ok b ∧
      ¬ (∀ b', parseNextKey b = .ok (b',true) → b.position < b'.position) ∧
      ∀ n, blockIterSeekToLastWithin n bi = .error .fuel := by
  have hinit : blockInit ⟨4096,[]⟩ overlongBlock 13 = .ok ⟨overlongBlock,13,5,⟨4096,[]⟩⟩ := by decide
  have hiter : blockIterInit ⟨overlongBlock,13,5,⟨4096,[]⟩⟩ =
      .ok ⟨overlongBlock,5,1,5,1,0,[],0,0,⟨4096,[]⟩⟩ := by decide
  refine ⟨_,⟨overlongBlock,5,1,0,0,0,[],0,0,⟨4096,[]⟩⟩,hinit,hiter,by decide,fun h => ?_,fun n => ?_⟩
  · have hparse : parseNextKey ⟨overlongBlock,5,1,0,0,0,[],0,0,⟨4096,[]⟩⟩ =
        .ok (⟨overlongBlock,5,1,0,0,0,[],0,0,⟨4096,[]⟩⟩,true) := by decide
    exact absurd (h _ hparse) (lt_irrefl _)
  · have hf := (blockIterInit_framed (by decide) (by decide) hinit hiter).1
    have hparses : lastParses ⟨overlongBlock,5,1,5,1,0,[],0,0,⟨4096,[]⟩⟩
        ⟨overlongBlock,5,1,5,0,0,[],0,0,⟨4096,[]⟩⟩ := ⟨_,by decide,.refl⟩
    exact lastParses_never_stops hf hparses ⟨by decide,by decide +kernel⟩ (by decide) n

end Mtbl
