/-
  DiceMarkup.Proofs.Scan

  The attributes of a tag, read as one run over characters and tags with a count
  of open groups. The run forgets what was read and keeps where it ends, so that
  two lists of attributes that start at different places of one text can be
  compared. Main statement: a tag that is tried in vain within an opener that
  ends has no list of attributes that could have ended, so its attributes are
  raw.
-/
import DiceMarkup.Proofs.Rules

namespace DiceMarkup.Rules

open DiceMarkup.Bracket (Opening Closing AtWordEnd wordTail afterWord endsWord)
open Text (isBlank)

/-! ## One character -/

/-- What a character other than `[` does to a list of attributes. -/
inductive Step where
  /-- The list goes on, with so many open groups, and perhaps within a word. -/
  | go (groups : Nat) (inWord : Bool)
  | finish
  | fail

/-- A parenthesis opens a group where no word is under way, and everywhere in a group. -/
def step (groups : Nat) (inWord : Bool) (c : Char) : Step :=
  if isBlank c then .go groups false
  else if c = ']' then if groups = 0 then .finish else .fail
  else if c = ')' then if groups = 0 then .go 0 true else .go (groups - 1) false
  else if c = '(' then
    if groups = 0 && inWord then .go 0 true else .go (groups + 1) false
  else .go groups true

/-- A run that is within fewer groups, and that starts a word only where the other one does or is
    within a group. -/
def Flatter (groups : Nat) (inWord : Bool) (groups' : Nat) (inWord' : Bool) : Prop :=
  groups' ≤ groups ∧ (inWord' = false → inWord = false ∨ groups ≠ 0)

theorem step_flatter {n m n₁ : Nat} {mid mid' mid₁ : Bool} {c : Char}
    (h_flat : Flatter n mid m mid') (h_step : step n mid c = .go n₁ mid₁) :
    ∃ m₁ mid₁', step m mid' c = .go m₁ mid₁' ∧ Flatter n₁ mid₁ m₁ mid₁' := by
  obtain ⟨h_le, h_word⟩ := h_flat
  unfold step at h_step ⊢
  unfold Flatter
  -- The cases of `step`, in its order. Only a parenthesis depends on groups and words.
  by_cases h_blank : isBlank c = true
  · rw [if_pos h_blank] at h_step ⊢
    obtain ⟨rfl, rfl⟩ := Step.go.inj h_step
    exact ⟨m, false, rfl, h_le, fun _ => .inl rfl⟩
  rw [if_neg h_blank] at h_step ⊢
  by_cases h_close : c = ']'
  · rw [if_pos h_close] at h_step
    split at h_step <;> exact absurd h_step (by simp)
  rw [if_neg h_close] at h_step ⊢
  by_cases h_leave : c = ')'
  · rw [if_pos h_leave] at h_step ⊢
    by_cases h_m : m = 0
    · refine ⟨0, true, by rw [if_pos h_m], Nat.zero_le _, fun h => absurd h (by decide)⟩
    · rw [if_neg (by omega)] at h_step
      obtain ⟨rfl, rfl⟩ := Step.go.inj h_step
      exact ⟨m - 1, false, by rw [if_neg h_m], by omega, fun _ => .inl rfl⟩
  rw [if_neg h_leave] at h_step ⊢
  by_cases h_enter : c = '('
  · rw [if_pos h_enter] at h_step ⊢
    by_cases h_m : (m = 0 && mid') = true
    · exact ⟨0, true, by rw [if_pos h_m], Nat.zero_le _, fun h => absurd h (by decide)⟩
    -- The flatter run opens a group here, so the other one is not within a word outside groups.
    · have h_n : ¬ (n = 0 && mid) = true := by
        simp only [Bool.and_eq_true, decide_eq_true_eq] at h_m ⊢
        rintro ⟨rfl, rfl⟩
        cases mid' with
        | false => exact absurd (h_word rfl) (by simp)
        | true => exact h_m ⟨Nat.le_zero.1 h_le, rfl⟩
      rw [if_neg h_n] at h_step
      obtain ⟨rfl, rfl⟩ := Step.go.inj h_step
      exact ⟨m + 1, false, by rw [if_neg h_m], by omega, fun _ => .inl rfl⟩
  rw [if_neg h_enter] at h_step ⊢
  obtain ⟨rfl, rfl⟩ := Step.go.inj h_step
  exact ⟨m, true, rfl, h_le, fun h => absurd h (by decide)⟩

/-- Only a `]` outside all groups ends the list. -/
theorem step_eq_finish {n : Nat} {mid : Bool} {c : Char} (h_step : step n mid c = .finish) :
    c = ']' ∧ n = 0 := by
  unfold step at h_step
  repeat' split at h_step
  all_goals first
    | exact ⟨‹_›, ‹_›⟩
    | exact absurd h_step (by simp)

theorem step_bracket_zero (mid : Bool) : step 0 mid ']' = .finish := by
  cases mid <;> rfl

theorem step_bracket_succ (n : Nat) (mid : Bool) : step (n + 1) mid ']' = .fail := by
  simp [step, show isBlank ']' = false by decide]

theorem step_blank {c : Char} (h_blank : isBlank c = true) (n : Nat) (mid : Bool) :
    step n mid c = .go n false := by
  simp [step, h_blank]

/-- At the end of a word it does not matter that a word was under way. -/
theorem step_wordEnd {n : Nat} {c : Char} (h_end : endsWord (n ≠ 0) c = true) (h_open : c ≠ '[') :
    step n true c = step n false c := by
  unfold step
  simp only [endsWord, Bool.or_eq_true, beq_iff_eq, Bool.and_eq_true] at h_end
  rcases h_end with ((h_blank | h_close) | h_open') | ⟨h_n, h_paren⟩
  · rw [if_pos h_blank, if_pos h_blank]
  · subst h_close
    rfl
  · exact absurd h_open' h_open
  · have h_n : n ≠ 0 := by simpa using h_n
    simp [h_n]

/-- A character of a word leaves the run within the word. -/
theorem step_word {n : Nat} {mid : Bool} {c : Char} (h_word : endsWord (n ≠ 0) c = false)
    (h_start : mid = false → c ≠ '(') : step n mid c = .go n true := by
  simp only [endsWord, Bool.or_eq_false_iff, beq_eq_false_iff_ne, Bool.and_eq_false_iff] at h_word
  obtain ⟨⟨⟨h_blank, h_close⟩, h_open⟩, h_paren⟩ := h_word
  unfold step
  rw [if_neg (by simp [h_blank]), if_neg h_close]
  -- Outside of groups a parenthesis may stand within a word, and inside of one it never does.
  by_cases h_n : n = 0
  · subst h_n
    by_cases h_leave : c = ')'
    · rw [if_pos h_leave, if_pos rfl]
    rw [if_neg h_leave]
    by_cases h_enter : c = '('
    · have h_mid : mid = true := by
        cases mid with
        | false => exact absurd h_enter (h_start rfl)
        | true => rfl
      rw [if_pos h_enter, h_mid, if_pos (by decide)]
    · rw [if_neg h_enter]
  · have h_paren : c ≠ '(' ∧ c ≠ ')' := by simpa [h_n] using h_paren
    rw [if_neg h_paren.2, if_neg h_paren.1]

/-! ## Runs -/

/-- A run over attributes from a place within so many groups, perhaps within a word: what follows
    its end, or `none` if it comes to nothing. -/
inductive Run (opened : List Tag) : Nat → Bool → List Char → Option (List Char) → Prop
  | nil {n : Nat} {mid : Bool} : Run opened n mid [] none
  | go {n n' : Nat} {mid mid' : Bool} {c : Char} {text : List Char} {outcome : Option (List Char)}
      (h_char : c ≠ '[') (h_step : step n mid c = .go n' mid')
      (h_run : Run opened n' mid' text outcome) : Run opened n mid (c :: text) outcome
  | finish {n : Nat} {mid : Bool} {c : Char} {text : List Char} (h_char : c ≠ '[')
      (h_step : step n mid c = .finish) : Run opened n mid (c :: text) (some text)
  | fail {n : Nat} {mid : Bool} {c : Char} {text : List Char} (h_char : c ≠ '[')
      (h_step : step n mid c = .fail) : Run opened n mid (c :: text) none
  | closer {n : Nat} {mid : Bool} {text after : List Char} {tag : Tag}
      (h_closing : Closing text tag after) : Run opened n mid text none
  | word {calm : Bool} {l n : Nat} {mid : Bool} {text : List Char} {outcome : Option (List Char)}
      (h_closer : ∀ tag after, ¬ Closing ('[' :: text) tag after)
      (h_tag : TagAt calm l opened ('[' :: text) none) (h_run : Run opened n true text outcome) :
      Run opened n mid ('[' :: text) outcome
  | tag {calm : Bool} {l n : Nat} {mid : Bool} {text next : List Char} {node : Node}
      {outcome : Option (List Char)} (h_tag : TagAt calm l opened text (some (node, next)))
      (h_run : Run opened n false next outcome) : Run opened n mid text outcome

namespace Run

variable {opened : List Tag} {n m : Nat} {mid mid' : Bool} {text : List Char}
  {outcome : Option (List Char)}

theorem nil_iff : Run opened n mid [] outcome ↔ outcome = none := by
  constructor
  · intro h
    cases h with
    | nil | closer => rfl
    | tag h_tag => exact absurd h_tag not_tagAt_nil
  · rintro rfl
    exact .nil

/-- Away from brackets a run follows the steps of its characters. -/
theorem char_iff {c : Char} (h_char : c ≠ '[') :
    Run opened n mid (c :: text) outcome ↔
      match step n mid c with
      | .go n' mid' => Run opened n' mid' text outcome
      | .finish => outcome = some text
      | .fail => outcome = none := by
  constructor
  · intro h
    cases h with
    | go _ h_step h_run => rw [h_step]; exact h_run
    | finish _ h_step => rw [h_step]
    | fail _ h_step => rw [h_step]
    | closer h_closing => exact absurd h_closing (not_closing_of_ne h_char _ _)
    | word => exact absurd rfl h_char
    | tag h_tag => exact absurd h_tag (not_tagAt_of_ne h_char)
  · intro h
    cases h_step : step n mid c with
    | go n' mid' => rw [h_step] at h; exact .go h_char h_step h
    | finish => rw [h_step] at h; rw [h]; exact .finish h_char h_step
    | fail => rw [h_step] at h; rw [h]; exact .fail h_char h_step

theorem go_iff {c : Char} (h_char : c ≠ '[') (h_step : step n mid c = .go m mid') :
    Run opened n mid (c :: text) outcome ↔ Run opened m mid' text outcome := by
  rw [char_iff h_char, h_step]

theorem finish_iff {c : Char} (h_char : c ≠ '[') (h_step : step n mid c = .finish) :
    Run opened n mid (c :: text) outcome ↔ outcome = some text := by
  rw [char_iff h_char, h_step]

theorem fail_iff {c : Char} (h_char : c ≠ '[') (h_step : step n mid c = .fail) :
    Run opened n mid (c :: text) outcome ↔ outcome = none := by
  rw [char_iff h_char, h_step]

theorem closer_iff {tag : Tag} {after : List Char} (h_closing : Closing text tag after) :
    Run opened n mid text outcome ↔ outcome = none := by
  constructor
  · intro h
    cases h with
    | nil | fail | closer => rfl
    | go h_char | finish h_char => exact absurd h_closing (not_closing_of_ne h_char _ _)
    | word h_closer => exact absurd h_closing (h_closer _ _)
    | tag h_tag => exact absurd h_closing (h_tag.not_closing _ _)
  · rintro rfl
    exact .closer h_closing

theorem word_iff {calm : Bool} {l : Nat}
    (h_closer : ∀ tag after, ¬ Closing ('[' :: text) tag after)
    (h_tag : TagAt calm l opened ('[' :: text) none) :
    Run opened n mid ('[' :: text) outcome ↔ Run opened n true text outcome := by
  constructor
  · intro h
    cases h with
    | go h_char | finish h_char | fail h_char => exact absurd rfl h_char
    | closer h_closing => exact absurd h_closing (h_closer _ _)
    | word _ _ h_run => exact h_run
    | tag h_tag' => exact absurd (h_tag.functional _ _ _ h_tag') (by simp)
  · exact .word h_closer h_tag

theorem tag_iff {calm : Bool} {l : Nat} {node : Node} {next : List Char}
    (h_tag : TagAt calm l opened text (some (node, next))) :
    Run opened n mid text outcome ↔ Run opened n false next outcome := by
  constructor
  · intro h
    obtain ⟨taken, rfl⟩ := h_tag.split _ rfl
    cases h with
    | go h_char | finish h_char | fail h_char => exact absurd rfl h_char
    | closer h_closing => exact absurd h_closing (h_tag.not_closing _ _)
    | word _ h_tag' => exact absurd (h_tag.functional _ _ _ h_tag') (by simp)
    -- A text is read in one way only, so both runs pass the same tag.
    | tag h_tag' h_run =>
      obtain ⟨-, rfl⟩ := Prod.mk.inj (Option.some.inj (h_tag.functional _ _ _ h_tag'))
      exact h_run
  · exact .tag h_tag

theorem length_le {stop : List Char} (h : Run opened n mid text (some stop)) :
    stop.length ≤ text.length := by
  generalize h_outcome : some stop = outcome at h
  induction h with
  | nil | fail | closer => exact absurd h_outcome (by simp)
  | go _ _ _ ih | word _ _ _ ih =>
    have h_le := ih h_outcome
    rw [List.length_cons]
    omega
  | finish =>
    obtain rfl := Option.some.inj h_outcome
    exact Nat.le_succ _
  | tag h_tag _ ih =>
    exact (ih h_outcome).trans h_tag.length_lt.le

/-- A run that is within fewer groups does not come to nothing where another one ends. -/
theorem not_none {stop : List Char} (h : Run opened n mid text (some stop))
    (h_flat : Flatter n mid m mid') : ¬ Run opened m mid' text none := by
  -- By induction on the run that ends: character by character the other one stays flatter.
  generalize h_outcome : some stop = outcome at h
  induction h generalizing m mid' with
  | nil | fail | closer => exact absurd h_outcome (by simp)
  | go h_char h_step _ ih =>
    intro h'
    obtain ⟨m₁, mid₁', h_step', h_flat'⟩ := step_flatter h_flat h_step
    exact ih h_flat' h_outcome ((go_iff h_char h_step').1 h')
  | finish h_char h_step =>
    intro h'
    obtain ⟨rfl, rfl⟩ := step_eq_finish h_step
    obtain rfl := Nat.le_zero.1 h_flat.1
    exact absurd ((finish_iff h_char (step_bracket_zero mid')).1 h') (by simp)
  | word h_closer h_tag _ ih =>
    intro h'
    -- From here both runs are within a word, and behind a tag neither is.
    exact ih ⟨h_flat.1, fun h => absurd h (by decide)⟩ h_outcome
      ((word_iff h_closer h_tag).1 h')
  | tag h_tag _ ih =>
    intro h'
    exact ih ⟨h_flat.1, fun _ => .inl rfl⟩ h_outcome ((tag_iff h_tag).1 h')

/-- A word under way matters for the first character alone. -/
theorem of_step_eq
    (h_step : ∀ c rest, text = c :: rest → c ≠ '[' → step n mid c = step n mid' c)
    (h : Run opened n mid text outcome) : Run opened n mid' text outcome := by
  cases h with
  | nil => exact .nil
  | go h_char h_go h_run => exact .go h_char (h_step _ _ rfl h_char ▸ h_go) h_run
  | finish h_char h_go => exact .finish h_char (h_step _ _ rfl h_char ▸ h_go)
  | fail h_char h_go => exact .fail h_char (h_step _ _ rfl h_char ▸ h_go)
  | closer h_closing => exact .closer h_closing
  | word h_closer h_tag h_run => exact .word h_closer h_tag h_run
  | tag h_tag h_run => exact .tag h_tag h_run

/-- At the end of a word it does not matter that a word was under way. -/
theorem wordEnd_iff (h_end : AtWordEnd (n ≠ 0) text) :
    Run opened n true text outcome ↔ Run opened n false text outcome := by
  have h_step : ∀ c rest, text = c :: rest → c ≠ '[' → step n true c = step n false c :=
    fun c rest h_text h_open => step_wordEnd (h_end c rest h_text) h_open
  exact ⟨of_step_eq h_step, of_step_eq
    fun c rest h_text h_open => (h_step c rest h_text h_open).symm⟩

/-- The characters of a word leave the run within the word. -/
theorem append_iff {run rest : List Char} (inside : ∀ c ∈ run, endsWord (n ≠ 0) c = false) :
    Run opened n true (run ++ rest) outcome ↔ Run opened n true rest outcome := by
  induction run with
  | nil => rfl
  | cons c run ih =>
    have h_word := inside c List.mem_cons_self
    have h_step : step n true c = .go n true := step_word h_word (by simp)
    have h_open := ne_open_of_word h_word
    rw [List.cons_append, ← ih fun d hd => inside d (List.mem_cons_of_mem _ hd)]
    exact go_iff h_open h_step

theorem afterWord_iff :
    Run opened n true text outcome ↔ Run opened n false (afterWord (n ≠ 0) text) outcome := by
  have h_iff : Run opened n true (wordTail (n ≠ 0) text ++ afterWord (n ≠ 0) text) outcome ↔ _ :=
    append_iff Bracket.endsWord_of_mem_wordTail
  rw [Bracket.wordTail_append_afterWord] at h_iff
  rw [h_iff, wordEnd_iff (Bracket.atWordEnd_afterWord _ text)]

end Run

/-! ## Attributes as runs -/

/-- A run within `n` groups ends here if the innermost list has this outcome. -/
def Leaves (opened : List Tag) (n : Nat) (outcome : Option (List Node × List Char))
    (stop : Option (List Char)) : Prop :=
  match outcome, n with
  | none, _ => stop = none
  | some found, 0 => stop = some found.2
  | some found, n + 1 => Run opened n false found.2 stop

/-- The members of a list do not matter for where it ends. -/
theorem leaves_map_iff {opened : List Tag} {n : Nat} {found : Option (List Node × List Char)}
    {stop : Option (List Char)} (node : Node) :
    Leaves opened n (found.map fun f => (node :: f.1, f.2)) stop ↔ Leaves opened n found stop := by
  cases found with
  | none => exact Iff.rfl
  | some found => cases n <;> exact Iff.rfl

theorem step_closingOf_zero : step 0 false (closingOf false) = .finish :=
  step_bracket_zero false

theorem step_closingOf_succ (n : Nat) : step (n + 1) false (closingOf true) = .go n false := by
  simp [step, closingOf, show isBlank ')' = false by decide]

theorem step_enter (n : Nat) : step n false '(' = .go (n + 1) false := by
  simp [step, show isBlank '(' = false by decide]

mutual

/-- A list of attributes or members is a run. -/
theorem ItemsAt.run_iff {calm : Bool} {l : Nat} {inGroup : Bool} {opened : List Tag}
    {text : List Char} {outcome : Option (List Node × List Char)} :
    ItemsAt calm l inGroup opened text outcome → ∀ (n : Nat) (stop : Option (List Char)),
      inGroup = decide (n ≠ 0) →
        (Run opened n false text stop ↔ Leaves opened n outcome stop)
  | .nil => fun _ _ _ => Run.nil_iff
  | .blank h_blank h_items => by
    have ih := h_items.run_iff
    intro n stop h_group
    rw [Run.go_iff (ne_open_of_isBlank h_blank) (step_blank h_blank n false)]
    exact ih n stop h_group
  | .close h_closing => by
    intro n stop h_group
    -- The run is at its end outside of groups, and is within one group less otherwise.
    subst h_closing h_group
    cases n with
    | zero => exact Run.finish_iff (closingOf_ne_open _) step_closingOf_zero
    | succ n => exact Run.go_iff (closingOf_ne_open _) (step_closingOf_succ n)
  | .bracket => by
    intro n stop h_group
    cases n with
    | zero => exact absurd h_group (by decide)
    | succ n => exact Run.fail_iff (by decide) (step_bracket_succ n false)
  | .closer h_closing => fun _ _ _ => Run.closer_iff h_closing
  | .item h_item h_items h_outcome => by
    have ih_item := h_item.run_iff
    have ih_items := h_items.run_iff
    intro n stop h_group
    rw [h_outcome, leaves_map_iff, ih_item n stop h_group]
    exact ih_items n stop h_group
  | .itemFails h_item => fun n stop h_group => h_item.run_iff n stop h_group

theorem ItemAt.run_iff {calm : Bool} {l : Nat} {inGroup : Bool} {opened : List Tag}
    {text : List Char} {outcome : Option (Node × List Char)} :
    ItemAt calm l inGroup opened text outcome → ∀ (n : Nat) (stop : Option (List Char)),
      inGroup = decide (n ≠ 0) →
        (Run opened n false text stop ↔
          match outcome with
          | none => stop = none
          | some found => Run opened n false found.2 stop)
  | .word h_word h_paren => by
    intro n stop h_group
    subst h_group
    rw [Run.go_iff (ne_open_of_word h_word) (step_word h_word fun _ => h_paren)]
    exact Run.afterWord_iff
  | .bracket h_closer h_tag => by
    intro n stop h_group
    subst h_group
    rw [Run.word_iff h_closer h_tag]
    exact Run.afterWord_iff
  | .tag h_tag => fun _ _ _ => Run.tag_iff h_tag
  | .group h_items => by
    have ih := h_items.run_iff
    intro n stop _
    rw [Run.go_iff (by decide) (step_enter n)]
    exact ih (n + 1) stop (by simp)
  | .groupFails h_items => by
    have ih := h_items.run_iff
    intro n stop _
    rw [Run.go_iff (by decide) (step_enter n)]
    exact ih (n + 1) stop (by simp)

end

/-- A bracket that is tried in vain where the attributes around it come to their end has no list of
    attributes: it opens no tag, or its attributes are raw. -/
theorem Run.not_listed {calm : Bool} {l n : Nat} {mid : Bool} {opened : List Tag}
    {text after stop : List Char} {name : String}
    (h_run : Run opened n mid ('[' :: text) (some stop)) (h_open : Opening text name after)
    (h_tag : TagAt calm (l + 1) opened ('[' :: text) none) :
    keepsRaw (Tag.resolve? name) = true := by
  have h_closer : ∀ tag after, ¬ Closing ('[' :: text) tag after :=
    fun tag after h_closing => h_closing.not_opening _ _ h_open
  rw [Run.word_iff h_closer h_tag] at h_run
  obtain ⟨k, header, -, h_header, ⟨rfl, -⟩ | ⟨_, _, _, _, -, h_eq, -⟩⟩ := h_tag.of_opening h_open
  · cases h_raw : keepsRaw (Tag.resolve? name) with
    | true => rfl
    | false =>
      rw [h_raw] at h_header
      cases h_header with
      | listed h_items =>
        -- Both runs pass the name and go on from the same place.
        have h_inner : Run opened 0 false after none := (h_items.run_iff 0 none rfl).2 rfl
        have h_letters : ∀ c ∈ name.toList, endsWord (n ≠ 0) c = false :=
          fun c hc => Bracket.endsWord_of_isAlpha (h_open.letters c hc) _
        have h_end : AtWordEnd (n ≠ 0) after := by
          intro c rest h_after
          obtain ⟨c', rest', h_after', h_ends⟩ := h_open.ends
          obtain ⟨rfl, rfl⟩ := List.cons.inj (h_after.symm.trans h_after')
          rcases h_ends with rfl | h_blank
          · simp [endsWord]
          · simp [endsWord, h_blank]
        rw [h_open.split, Run.append_iff h_letters, Run.wordEnd_iff h_end] at h_run
        exact absurd h_inner (h_run.not_none ⟨Nat.zero_le n, fun _ => .inl rfl⟩)
  · exact absurd h_eq (by simp)

end DiceMarkup.Rules
