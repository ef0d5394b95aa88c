import Mtbl.Lib.CRun

/-! Programs that write to a device. The device may take less than it is offered, be interrupted or
fail, and the program may be killed. Whatever happens, the device then holds a beginning of what the
same program writes where all of it is taken at once. -/
namespace CRun

/-- What comes of one call that offers bytes: some of them are taken, at most this many, or none. -/
inductive Reply
  | takes (most : ℕ)
  | interrupted
  | failed
  deriving DecidableEq, Repr

/-- What is left of a program that stopped: its fault, unless it was killed, and what was written. -/
structure Stopped (β : Type) where
  fault : Option Fault
  written : List β
  deriving DecidableEq, Repr

/-- The programs over the answers of a device. -/
abbrev Device (β α : Type) := StateT (List Reply) (Except (Stopped β)) α

/-- The answers bring a program through that writes so much: none is a failure, and each but the
interruptions takes something. -/
structure Serves (n : ℕ) (answers : List Reply) : Prop where
  unfailing : .failed ∉ answers
  taking : .takes 0 ∉ answers
  enough : n ≤ answers.countP (fun answer => answer ≠ .interrupted)

variable {α β γ : Type} {start : List β} {answers : List Reply} {n : ℕ}

theorem Serves.le {m : ℕ} (h : Serves n answers) (hle : m ≤ n) : Serves m answers :=
  ⟨h.unfailing,h.taking,hle.trans h.enough⟩

theorem Serves.interrupted (h : Serves n (.interrupted::answers)) : Serves n answers where
  unfailing hmem := h.unfailing (List.mem_cons_of_mem _ hmem)
  taking hmem := h.taking (List.mem_cons_of_mem _ hmem)
  enough := by simpa using h.enough

theorem Serves.takes {most : ℕ} (h : Serves (n+1) (.takes most::answers)) :
    0 < most ∧ Serves n answers := by
  constructor
  · apply Nat.pos_of_ne_zero
    rintro rfl
    exact h.taking List.mem_cons_self
  · exact {
      unfailing := fun hmem => h.unfailing (List.mem_cons_of_mem _ hmem)
      taking := fun hmem => h.taking (List.mem_cons_of_mem _ hmem)
      enough := by simpa using h.enough }

namespace Device

/-- A part of the program that writes nothing. -/
def lift (written : List β) (x : Run α) : Device β α := fun answers =>
  match x with
  | .ok a => .ok (a,answers)
  | .error e => .error ⟨some e,written⟩

/-- The program over a device does what the plain run does, which begins with `start` written and
ends with `written` of its result. -/
structure Follows (start : List β) (written : α → List β) (x : Device β α) (plain : Run α) :
    Prop where
  grows : ∀ a, plain = .ok a → start <+: written a
  returns : ∀ answers a rest, x.run answers = .ok (a,rest) → plain = .ok a
  stops : ∀ answers s, x.run answers = .error s → start <+: s.written ∧
    ∀ a, plain = .ok a → s.written <+: written a ∧ s.written.length < (written a).length
  serves : ∀ a, plain = .ok a → ∀ answers n, Serves ((written a).length-start.length+n) answers →
    ∃ rest, x.run answers = .ok (a,rest) ∧ Serves n rest

variable {x : Device β α} {plain : Run α} {written : α → List β}

theorem Follows.lift (written : α → List β) (hsame : ∀ a, plain = .ok a → written a = start) :
    Follows start written (Device.lift start plain) plain := by
  cases plain with
  | ok a =>
    have hwritten := hsame a rfl
    exact {
      grows := by
        rintro _ ⟨⟩
        rw [hwritten]
      returns := by
        rintro answers _ _ ⟨⟩
        rfl
      stops := by
        rintro answers s ⟨⟩
      serves := by
        rintro _ ⟨⟩ answers n h
        refine ⟨answers,rfl,h.le (Nat.le_add_left ..)⟩ }
  | error e =>
    exact {
      grows := by rintro _ ⟨⟩
      returns := by rintro answers _ _ ⟨⟩
      stops := by
        rintro answers _ ⟨⟩
        exact ⟨List.prefix_rfl,by rintro _ ⟨⟩⟩
      serves := by rintro _ ⟨⟩ }

theorem Follows.pure {a : α} (hsame : written a = start) :
    Follows start written (Pure.pure a) (.ok a) := by
  change Follows start written (Device.lift start (.ok a)) (.ok a)
  apply Follows.lift
  rintro _ ⟨⟩
  exact hsame

theorem run_bind_eq_ok {f : α → Device β γ} {answers : List Reply} {r : γ × List Reply} :
    (x >>= f).run answers = .ok r ↔ ∃ p, x.run answers = .ok p ∧ (f p.1).run p.2 = .ok r := by
  rw [StateT.run_bind]
  cases x.run answers with
  | ok p =>
    constructor
    · exact fun hrun => ⟨p,rfl,hrun⟩
    · rintro ⟨_,⟨⟩,hrun⟩
      exact hrun
  | error s =>
    constructor
    · rintro ⟨⟩
    · rintro ⟨_,⟨⟩,-⟩

/-- A program in two parts stops in the first or in the second. -/
theorem run_bind_eq_error {f : α → Device β γ} {answers : List Reply} {s : Stopped β} :
    (x >>= f).run answers = .error s ↔ x.run answers = .error s ∨
      ∃ p, x.run answers = .ok p ∧ (f p.1).run p.2 = .error s := by
  rw [StateT.run_bind]
  cases x.run answers with
  | ok p =>
    constructor
    · exact fun hrun => .inr ⟨p,rfl,hrun⟩
    · rintro (⟨⟨⟩⟩ | ⟨_,⟨⟩,hrun⟩)
      exact hrun
  | error s' =>
    constructor
    · intro hrun
      rw [Except.error.inj hrun]
      exact .inl rfl
    · rintro (hrun | ⟨_,⟨⟩,-⟩)
      rw [Except.error.inj hrun]
      rfl

/-- What the first part leaves is what the second begins with. -/
theorem Follows.bind {written' : γ → List β} {f : α → Device β γ} {plain' : α → Run γ}
    (hx : Follows start written x plain)
    (hf : ∀ a, plain = .ok a → Follows (written a) written' (f a) (plain' a)) :
    Follows start written' (x >>= f) (plain >>= plain') where
  grows c hc := by
    obtain ⟨a,ha,hc⟩ := bind_eq_ok.mp hc
    exact (hx.grows a ha).trans ((hf a ha).grows c hc)
  returns answers c rest hrun := by
    obtain ⟨p,hfirst,hrun⟩ := run_bind_eq_ok.mp hrun
    have ha := hx.returns answers p.1 p.2 hfirst
    exact bind_eq_ok.mpr ⟨p.1,ha,(hf _ ha).returns _ _ _ hrun⟩
  stops answers s hrun := by
    obtain hfirst | ⟨p,hfirst,hrun⟩ := run_bind_eq_error.mp hrun
    · obtain ⟨hstart,hrest⟩ := hx.stops answers s hfirst
      refine ⟨hstart,?_⟩
      intro c hc
      obtain ⟨a,ha,hc⟩ := bind_eq_ok.mp hc
      obtain ⟨hbegins,hlt⟩ := hrest a ha
      have hgrows := (hf a ha).grows c hc
      exact ⟨hbegins.trans hgrows,hlt.trans_le hgrows.length_le⟩
    · have ha := hx.returns answers p.1 p.2 hfirst
      obtain ⟨hstart,hrest⟩ := (hf _ ha).stops _ _ hrun
      refine ⟨(hx.grows _ ha).trans hstart,?_⟩
      intro c hc
      obtain ⟨a,ha',hc⟩ := bind_eq_ok.mp hc
      obtain rfl := Except.ok.inj (ha.symm.trans ha')
      exact hrest c hc
  serves c hc answers n hserves := by
    obtain ⟨a,ha,hc⟩ := bind_eq_ok.mp hc
    have hfirst := (hx.grows a ha).length_le
    have hsecond := ((hf a ha).grows c hc).length_le
    obtain ⟨rest,hrun,hrest⟩ := hx.serves a ha answers ((written' c).length-(written a).length+n)
      (hserves.le (by omega))
    obtain ⟨rest',hrun',hrest'⟩ := (hf a ha).serves c hc rest n hrest
    exact ⟨rest',run_bind_eq_ok.mpr ⟨(a,rest),hrun,hrun'⟩,hrest'⟩

end Device

end CRun
