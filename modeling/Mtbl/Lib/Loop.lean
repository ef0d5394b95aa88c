import Mtbl.Lib.CRun

/-! Loops of C code and whether they end. A loop is run with fuel; it stops if some amount of fuel
is enough, and runs for ever if none is. An end is a result or a failed assertion, not a read of memory
that is not there. A measure that falls from round to round stops a loop whose rounds all end, a
property of states that each round hands on to the next keeps it running. -/
namespace CRun
universe u
variable {σ α β : Type u}

/-- The run ends, with a value or on a failed assertion. -/
def Halts (x : Run α) : Prop := x = .error .assertion ∨ ∃ a, x = .ok a

theorem Halts.ok (a : α) : Halts (.ok a : Run α) := .inr ⟨a,rfl⟩

theorem Halts.assertion : Halts (.error .assertion : Run α) := .inl rfl

theorem not_halts_error {e : Fault} (h : e ≠ .assertion) : ¬ Halts (.error e : Run α) := by
  rintro (he | ⟨a,ha⟩)
  · exact h (Except.error.inj he)
  · cases ha

theorem Halts.check (p : Prop) [Decidable p] : Halts (check p) := by
  by_cases h : p
  · exact .inr ⟨(),check_of h⟩
  · exact .inl (if_neg h)

theorem Halts.bind {x : Run α} {f : α → Run β} (hx : Halts x)
    (hf : ∀ a, x = .ok a → Halts (f a)) : Halts (x >>= f) := by
  rcases hx with rfl | ⟨a,rfl⟩
  · exact .assertion
  · exact hf a rfl

/-- A run ends exactly if every step that it reaches does. -/
theorem halts_bind {x : Run α} {f : α → Run β} :
    Halts (x >>= f) ↔ Halts x ∧ ∀ a, x = .ok a → Halts (f a) := by
  refine ⟨fun h => ⟨?_,?_⟩,fun h => h.1.bind h.2⟩
  · cases x with
    | ok a => exact .ok a
    | error e =>
      by_cases he : e = .assertion
      · exact .inl (congrArg Except.error he)
      · exact absurd h (not_halts_error he)
  · rintro a rfl
    exact h

theorem Halts.ite {p : Prop} [Decidable p] {x y : Run α} (hx : p → Halts x) (hy : ¬ p → Halts y) :
    Halts (if p then x else y) := by
  by_cases h : p
  · rw [if_pos h]
    exact hx h
  · rw [if_neg h]
    exact hy h

/-- A run that is given fuel does not use up every amount of it. -/
def Stops (run : ℕ → Run α) : Prop := ∃ n, ∀ m ≥ n, Halts (run m)

theorem stops_const {x : Run α} : Stops (fun _ => x) ↔ Halts x :=
  ⟨fun ⟨n,h⟩ => h n le_rfl,fun h => ⟨0,fun _ _ => h⟩⟩

/-- More fuel does not change a run that has enough. -/
def Steady (run : ℕ → Run α) : Prop := ∀ n m, n ≤ m → run n ≠ .error .fuel → run m = run n

theorem Steady.const (x : Run α) : Steady (fun _ => x) := fun _ _ _ _ => rfl

theorem Steady.bind {run : ℕ → Run α} {f : ℕ → α → Run β} (hrun : Steady run)
    (hf : ∀ a, Steady (fun m => f m a)) : Steady (fun m => run m >>= f m) := by
  intro n m hnm hne
  simp only at hne ⊢
  cases hn : run n with
  | ok a =>
    rw [hn] at hne
    rw [hrun n m hnm (by rw [hn]; exact fun h => by cases h),hn]
    exact hf a n m hnm hne
  | error e =>
    have he : (.error e : Run α) ≠ .error .fuel := fun h => hne (by
      rw [hn,Except.error.inj h,error_bind])
    rw [hrun n m hnm (hn ▸ he),hn]
    rfl

theorem Steady.stops {run : ℕ → Run α} (hrun : Steady run) {n : ℕ} {a : α} (h : run n = .ok a) :
    Stops run := by
  refine ⟨n,fun m hm => .inr ⟨a,?_⟩⟩
  rw [hrun n m hm (by rw [h]; exact fun hfuel => by cases hfuel),h]

/-- With enough fuel a run goes through its first part as with any that was enough. -/
theorem stops_bind {run : ℕ → Run α} {f : ℕ → α → Run β} (hrun : Steady run) :
    Stops (fun m => run m >>= f m) ↔
      Stops run ∧ ∀ n a, run n = .ok a → Stops (fun m => f m a) := by
  have hsame : ∀ n m a, n ≤ m → run n = .ok a → run m = .ok a := fun n m a hnm hn =>
    (hrun n m hnm (by rw [hn]; exact fun h => by cases h)).trans hn
  constructor
  · rintro ⟨k,hk⟩
    refine ⟨⟨k,fun m hm => (halts_bind.mp (hk m hm)).1⟩,fun n a hn => ⟨max k n,fun m hm => ?_⟩⟩
    exact (halts_bind.mp (hk m (le_of_max_le_left hm))).2 a (hsame n m a (le_of_max_le_right hm) hn)
  · rintro ⟨⟨k,hk⟩,hf⟩
    rcases hk k le_rfl with hstop | ⟨a,ha⟩
    · refine ⟨k,fun m hm => ?_⟩
      simp only
      rw [hrun k m hm (by rw [hstop]; exact fun h => by cases h),hstop]
      exact .assertion
    · obtain ⟨n,hn⟩ := hf k a ha
      refine ⟨max k n,fun m hm => ?_⟩
      simp only
      rw [hsame k m a (le_of_max_le_left hm) ha]
      exact hn m (le_of_max_le_right hm)

/-- The body of the loop goes on from a new state or leaves with a result. -/
def loop (body : σ → Run (σ ⊕ α)) : ℕ → σ → Run α
  | 0,_ => .error .fuel
  | fuel+1,s => do
    match ← body s with
    | .inl s => loop body fuel s
    | .inr a => return a

variable {body : σ → Run (σ ⊕ α)}

/-- One round that does not leave the loop. -/
def Continues (body : σ → Run (σ ⊕ α)) (s s' : σ) : Prop := body s = .ok (.inl s')

/-- `s'` is a state at the head of the loop that is entered with `s`. -/
abbrev Rounds (body : σ → Run (σ ⊕ α)) : σ → σ → Prop := Relation.ReflTransGen (Continues body)

theorem loop_continues {s s' : σ} (h : Continues body s s') (fuel : ℕ) :
    loop body (fuel+1) s = loop body fuel s' := by
  rw [loop,show body s = _ from h]
  rfl

theorem loop_steady (body : σ → Run (σ ⊕ α)) (s : σ) : Steady (fun n => loop body n s) := by
  intro n m hnm hne
  induction n generalizing m s with
  | zero => exact absurd rfl hne
  | succ n ih =>
    obtain ⟨m,rfl⟩ := Nat.exists_eq_succ_of_ne_zero (Nat.ne_of_gt ((Nat.succ_pos n).trans_le hnm))
    simp only [loop] at hne ⊢
    cases hs : body s with
    | error e => rfl
    | ok r =>
      rw [hs] at hne
      cases r with
      | inl s' => exact ih s' m (Nat.le_of_succ_le_succ hnm) hne
      | inr a => rfl

theorem Continues.unique {s s' s'' : σ} (h : Continues body s s') (h' : Continues body s s'') :
    s' = s'' := by
  rw [Continues] at h h'
  exact Sum.inl.inj (Except.ok.inj (h.symm.trans h'))

/-- A measure that every round lowers bounds the number of rounds. -/
theorem loop_halts (measure : σ → ℕ) (n : ℕ) (s : σ) (hbody : ∀ t, Rounds body s t → Halts (body t))
    (hdec : ∀ t t', Rounds body s t → Continues body t t' → measure t' < measure t)
    (hn : measure s < n) : Halts (loop body n s) := by
  induction n generalizing s with
  | zero => omega
  | succ n ih =>
    apply Halts.bind (hbody s .refl)
    rintro (s' | a) hs
    · have hstep : Continues body s s' := hs
      have hlt := hdec s s' .refl hstep
      apply ih s'
      · intro t ht
        exact hbody t (.head hstep ht)
      · intro t t' ht
        exact hdec t t' (.head hstep ht)
      · omega
    · exact Halts.ok a

/-- A round that does not end is the end of no loop. -/
theorem Stops.round {s t : σ} (h : Stops (fun n => loop body n s)) (ht : Rounds body s t) :
    Halts (body t) := by
  obtain ⟨n,hn⟩ := h
  induction ht using Relation.ReflTransGen.head_induction_on generalizing n with
  | refl => exact (halts_bind.mp (hn (n+1) (Nat.le_succ n))).1
  | head hcont _ ih =>
    refine ih n fun m hm => ?_
    have hmore := hn (m+1) (hm.trans (Nat.le_succ m))
    simp only [loop_continues hcont] at hmore
    exact hmore

/-- With a measure that every round lowers, the loop ends exactly if each of its rounds does. -/
theorem loop_stops (measure : σ → ℕ) (s : σ)
    (hdec : ∀ t t', Rounds body s t → Continues body t t' → measure t' < measure t) :
    Stops (fun n => loop body n s) ↔ ∀ t, Rounds body s t → Halts (body t) :=
  ⟨fun h _ ht => h.round ht,fun hbody =>
    ⟨measure s+1,fun m hm => loop_halts measure m s hbody hdec (by omega)⟩⟩

/-- Once a property holds that each round hands on, the loop never ends. -/
theorem loop_never_stops {P : σ → Prop} (hstep : ∀ s, P s → ∃ s', Continues body s s' ∧ P s')
    {s t : σ} (hrounds : Rounds body s t) (ht : P t) (n : ℕ) : loop body n s = .error .fuel := by
  induction n generalizing s t with
  | zero => rfl
  | succ n ih =>
    induction hrounds using Relation.ReflTransGen.head_induction_on with
    | refl =>
      obtain ⟨t',hcont,ht'⟩ := hstep t ht
      rw [loop_continues hcont]
      exact ih .refl ht'
    | head hcont hrest =>
      rw [loop_continues hcont]
      exact ih hrest ht

/-- The loop returns what a round that leaves it returns. -/
theorem loop_returns {s : σ} {a : α} :
    (∃ fuel, loop body fuel s = .ok a) ↔ ∃ t, Rounds body s t ∧ body t = .ok (.inr a) := by
  constructor
  · rintro ⟨fuel,h⟩
    induction fuel generalizing s with
    | zero => cases h
    | succ fuel ih =>
      obtain ⟨r,hr,h⟩ := bind_eq_ok.mp h
      cases r with
      | inl s' =>
        obtain ⟨t,ht,hleave⟩ := ih h
        exact ⟨t,.head hr ht,hleave⟩
      | inr b =>
        obtain rfl := Except.ok.inj h
        exact ⟨s,.refl,hr⟩
  · rintro ⟨t,hrounds,hleave⟩
    induction hrounds using Relation.ReflTransGen.head_induction_on with
    | refl => exact ⟨1,by rw [loop,hleave]; rfl⟩
    | head hcont _ ih =>
      obtain ⟨fuel,h⟩ := ih
      exact ⟨fuel+1,by rw [loop_continues hcont,h]⟩

/-- A loop that is known round by round, with any fuel that is enough. -/
theorem loop_after {t : ℕ → σ} {a : α} (n : ℕ) (hrounds : ∀ i < n, Continues body (t i) (t (i+1)))
    (hleave : body (t n) = .ok (.inr a)) {fuel : ℕ} (hfuel : n < fuel) :
    loop body fuel (t 0) = .ok a := by
  induction n generalizing t fuel with
  | zero =>
    obtain ⟨fuel,rfl⟩ := Nat.exists_eq_succ_of_ne_zero hfuel.ne'
    rw [loop,hleave]
    rfl
  | succ n ih =>
    obtain ⟨fuel,rfl⟩ := Nat.exists_eq_succ_of_ne_zero (Nat.ne_of_gt ((Nat.succ_pos n).trans hfuel))
    rw [loop_continues (hrounds 0 (Nat.succ_pos n))]
    exact ih (fun i hi => hrounds (i+1) (Nat.succ_lt_succ hi)) hleave (Nat.lt_of_succ_lt_succ hfuel)

/-- What a property hands on from round to round holds at the head of every round. -/
theorem Rounds.invariant {P : σ → Prop} {s t : σ} (h : Rounds body s t) (hs : P s)
    (hstep : ∀ t t', P t → Continues body t t' → P t') : P t := by
  induction h with
  | refl => exact hs
  | tail _ hcont ih => exact hstep _ _ ih hcont

end CRun
