import Mathlib.Tactic

/-! Code words that can be read off a text, whatever follows them, so that the text says what it was
made of. -/
namespace CodeWords
variable {α β γ : Type*}

/-- Of two words that begin one text neither is longer, and they stand for the same. -/
def PrefixFree (P : α → Prop) (word : α → List β) : Prop :=
  ∀ ⦃a b⦄, P a → P b → ∀ r s, word a++r = word b++s → a = b ∧ r = s

variable {P : α → Prop} {Q : γ → Prop} {word : α → List β} {word' : γ → List β}

/-- Words of one length. -/
theorem prefixFree_of_length {n : ℕ} (hlength : ∀ a, P a → (word a).length = n)
    (hinj : ∀ a b, P a → P b → word a = word b → a = b) : PrefixFree P word := by
  intro a b ha hb r s h
  obtain ⟨hwords,hrest⟩ := List.append_inj h ((hlength a ha).trans (hlength b hb).symm)
  exact ⟨hinj a b ha hb hwords,hrest⟩

/-- One word and another, with a separator behind each. -/
theorem PrefixFree.pair {δ : Type*} {fst : δ → α} {snd : δ → γ} (h : PrefixFree P word)
    (h' : PrefixFree Q word') (sep sep' : β) (hext : ∀ d e, fst d = fst e → snd d = snd e → d = e) :
    PrefixFree (fun d => P (fst d) ∧ Q (snd d))
      (fun d => word (fst d)++sep::(word' (snd d)++[sep'])) := by
  intro d e hd he r s heq
  simp only [List.append_assoc,List.cons_append] at heq
  obtain ⟨hfst,hrest⟩ := h hd.1 he.1 _ _ heq
  obtain ⟨hsnd,hrest⟩ := h' hd.2 he.2 _ _ (List.cons.inj hrest).2
  exact ⟨hext d e hfst hsnd,(List.cons.inj hrest).2⟩

/-- A text of words. -/
theorem PrefixFree.flatMap (h : PrefixFree P word) (hne : ∀ a, P a → word a ≠ []) {as bs : List α}
    (has : ∀ a ∈ as, P a) (hbs : ∀ b ∈ bs, P b) (heq : as.flatMap word = bs.flatMap word) :
    as = bs := by
  induction as generalizing bs with
  | nil =>
    cases bs with
    | nil => rfl
    | cons b bs =>
      rw [List.flatMap_nil,List.flatMap_cons] at heq
      exact absurd (List.append_eq_nil_iff.mp heq.symm).1 (hne b (hbs b List.mem_cons_self))
  | cons a as ih =>
    cases bs with
    | nil =>
      rw [List.flatMap_nil,List.flatMap_cons] at heq
      exact absurd (List.append_eq_nil_iff.mp heq).1 (hne a (has a List.mem_cons_self))
    | cons b bs =>
      rw [List.flatMap_cons,List.flatMap_cons] at heq
      obtain ⟨rfl,hrest⟩ := h (has a List.mem_cons_self) (hbs b List.mem_cons_self) _ _ heq
      rw [ih (fun x hx => has x (List.mem_cons_of_mem _ hx))
        (fun x hx => hbs x (List.mem_cons_of_mem _ hx)) hrest]

/-- A text of words with a mark at its end that begins none of them is a word itself. -/
theorem PrefixFree.marked (h : PrefixFree P word) {mark : β}
    (hmark : ∀ a, P a → ∃ c rest, word a = c::rest ∧ c ≠ mark) :
    PrefixFree (fun as : List α => ∀ a ∈ as, P a) (fun as => as.flatMap word++[mark]) := by
  intro as bs has hbs r s heq
  simp only [List.append_assoc,List.cons_append,List.nil_append] at heq
  induction as generalizing bs with
  | nil =>
    cases bs with
    | nil => exact ⟨rfl,(List.cons.inj heq).2⟩
    | cons b bs =>
      obtain ⟨c,rest,hc,hne⟩ := hmark b (hbs b List.mem_cons_self)
      rw [List.flatMap_nil,List.flatMap_cons,hc] at heq
      exact absurd (List.cons.inj heq).1.symm hne
  | cons a as ih =>
    cases bs with
    | nil =>
      obtain ⟨c,rest,hc,hne⟩ := hmark a (has a List.mem_cons_self)
      rw [List.flatMap_nil,List.flatMap_cons,hc] at heq
      exact absurd (List.cons.inj heq).1 hne
    | cons b bs =>
      simp only [List.flatMap_cons,List.append_assoc] at heq
      obtain ⟨rfl,hrest⟩ := h (has a List.mem_cons_self) (hbs b List.mem_cons_self) _ _ heq
      obtain ⟨rfl,hend⟩ := ih (fun x hx => has x (List.mem_cons_of_mem _ hx))
        (fun x hx => hbs x (List.mem_cons_of_mem _ hx)) hrest
      exact ⟨rfl,hend⟩

end CodeWords
