/-
  DiceMarkup.Proofs.Abreast

  Two texts that are read side by side: the same characters outside of tags,
  and tag for tag up to the closer that ends both. Main statement: a bracket
  that is tried in vain in the first text is tried in vain in the second one,
  at the same level of nesting.

  Pieces:
  * `Abreast` — the relation between the two texts
  * `Abreast.opening`, `Abreast.stored` — words are the same in both
  * `TagAt.abreast`, `ItemsAt.abreast` — what is tried goes the same way
-/
import DiceMarkup.Proofs.Alike

namespace DiceMarkup.Rules

open DiceMarkup.Bracket (Opening Closing RawOpening Stored openAfter wordTail afterWord endsWord)
open Text (isBlank)

/-- Nothing is read here: the text is at its end, or at a closer. -/
def Halts (text : List Char) : Prop :=
  text = [] ∨ ∃ tag after, Closing text tag after

theorem halts_cons {c : Char} {text : List Char} (h_char : c ≠ '[') : ¬ Halts (c :: text) := by
  rintro (h_nil | ⟨tag, after, h_closing⟩)
  · exact absurd h_nil (by simp)
  · exact not_closing_of_ne h_char tag after h_closing

/-- A tag is read here in neither text, or in both; tags may differ, but each way to read the first
    one is a way to read the second one. -/
inductive Abreast (opened : List Tag) : List Char → List Char → Prop
  | halt {text text' : List Char} (h_left : Halts text) (h_right : Halts text')
      (h_dice : ∀ after', Closing text' .dice after' → ∃ after, Closing text .dice after)
      (h_alike : Alike text text') : Abreast opened text text'
  | char {c : Char} {text text' : List Char} (h_char : c ≠ '[')
      (h_rest : Abreast opened text text') : Abreast opened (c :: text) (c :: text')
  | bracket {l : Nat} {text text' : List Char}
      (h_tag : TagAt false l opened ('[' :: text) none) (h_rest : Abreast opened text text') :
      Abreast opened ('[' :: text) ('[' :: text')
  | node {l : Nat} {text text' next next' : List Char} {node node' : Node}
      (h_tag : TagAt false l opened text (some (node, next)))
      (h_carry : ∀ k, TagAt false k opened text (some (node, next)) →
        TagAt false k opened text' (some (node', next')))
      (h_rest : Abreast opened next next') (h_alike : Alike text text') :
      Abreast opened text text'

namespace Abreast

variable {opened : List Tag} {text text' : List Char}

/-! ## Characters -/

theorem of_char_left {c : Char} (h_char : c ≠ '[') (h : Abreast opened (c :: text) text') :
    ∃ rest', text' = c :: rest' ∧ Abreast opened text rest' := by
  cases h with
  | halt h_left => exact absurd h_left (halts_cons h_char)
  | char _ h_rest => exact ⟨_, rfl, h_rest⟩
  | bracket => exact absurd rfl h_char
  | node h_tag => exact absurd h_tag (not_tagAt_of_ne h_char)

theorem of_char_right {c : Char} (h_char : c ≠ '[') (h : Abreast opened text (c :: text')) :
    ∃ rest, text = c :: rest ∧ Abreast opened rest text' := by
  cases h with
  | halt _ h_right => exact absurd h_right (halts_cons h_char)
  | char _ h_rest => exact ⟨_, rfl, h_rest⟩
  | bracket => exact absurd rfl h_char
  | node h_tag h_carry => exact absurd (h_carry _ h_tag) (not_tagAt_of_ne h_char)

theorem of_run_left {run : List Char} (h_run : ∀ c ∈ run, c ≠ '[')
    (h : Abreast opened (run ++ text) text') :
    ∃ rest', text' = run ++ rest' ∧ Abreast opened text rest' := by
  induction run generalizing text' with
  | nil => exact ⟨text', rfl, h⟩
  | cons c run ih =>
    obtain ⟨rest', rfl, h_rest⟩ := h.of_char_left (h_run c List.mem_cons_self)
    obtain ⟨rest'', rfl, h_rest'⟩ := ih (fun d hd => h_run d (List.mem_cons_of_mem c hd)) h_rest
    exact ⟨rest'', rfl, h_rest'⟩

theorem of_run_right {run : List Char} (h_run : ∀ c ∈ run, c ≠ '[')
    (h : Abreast opened text (run ++ text')) :
    ∃ rest, text = run ++ rest ∧ Abreast opened rest text' := by
  induction run generalizing text with
  | nil => exact ⟨text, rfl, h⟩
  | cons c run ih =>
    obtain ⟨rest, rfl, h_rest⟩ := h.of_char_right (h_run c List.mem_cons_self)
    obtain ⟨rest', rfl, h_rest'⟩ := ih (fun d hd => h_run d (List.mem_cons_of_mem c hd)) h_rest
    exact ⟨rest', rfl, h_rest'⟩

/-- A run that ends with a `]` is the same in both texts. -/
theorem of_close_right {run : List Char} (h_run : NoBracket run)
    (h : Abreast opened text (run ++ ']' :: text')) :
    ∃ rest, text = run ++ ']' :: rest ∧ Abreast opened rest text' := by
  obtain ⟨rest, rfl, h_rest⟩ := h.of_run_right fun c hc => (h_run c hc).1
  obtain ⟨rest', rfl, h_rest'⟩ := h_rest.of_char_right (by decide)
  exact ⟨rest', rfl, h_rest'⟩

theorem of_close_left {run : List Char} (h_run : NoBracket run)
    (h : Abreast opened (run ++ ']' :: text) text') :
    ∃ rest', text' = run ++ ']' :: rest' ∧ Abreast opened text rest' := by
  obtain ⟨rest', rfl, h_rest⟩ := h.of_run_left fun c hc => (h_run c hc).1
  obtain ⟨rest'', rfl, h_rest'⟩ := h_rest.of_char_left (by decide)
  exact ⟨rest'', rfl, h_rest'⟩

theorem alike (h : Abreast opened text text') : Alike text text' := by
  induction h with
  | halt _ _ _ h_alike | node _ _ _ h_alike => exact h_alike
  | char h_char _ ih => exact ih.char h_char
  -- Bracket for bracket, a closer that one text has stands in the other too.
  | bracket _ h_rest ih =>
    refine ih.bracket fun spelled after _ h_letters h_text => ?_
    subst h_text
    obtain ⟨rest, h_same, -⟩ := h_rest.of_close_right (noBracket_of_isAlpha h_letters).slash
    exact ⟨rest, h_same⟩

/-! ## Words -/

/-- A bracket starts a closer in both texts or in neither. -/
theorem closing_left {tag : Tag} {after : List Char} (h : Abreast opened text text')
    (h_closing : Closing ('[' :: text) tag after) :
    ∃ after', Closing ('[' :: text') tag after' := by
  obtain ⟨name, h_letters, h_text, h_tag⟩ := h_closing
  obtain rfl := (List.cons.inj h_text).2
  obtain ⟨rest', rfl, -⟩ := h.of_close_left (noBracket_of_isAlpha h_letters).slash
  exact ⟨rest', name, h_letters, rfl, h_tag⟩

theorem closing_right {tag : Tag} {after' : List Char} (h : Abreast opened text text')
    (h_closing : Closing ('[' :: text') tag after') : ∃ after, Closing ('[' :: text) tag after := by
  obtain ⟨name, h_letters, h_text, h_tag⟩ := h_closing
  obtain rfl := (List.cons.inj h_text).2
  obtain ⟨rest, rfl, -⟩ := h.of_close_right (noBracket_of_isAlpha h_letters).slash
  exact ⟨rest, name, h_letters, rfl, h_tag⟩

/-- Where the first text has a closer, nothing is read in the second one. -/
theorem halts (h : Abreast opened text text') (h_left : Halts text) : Halts text' := by
  rcases h_left with rfl | ⟨tag, after, h_closing⟩
  · cases h with
    | halt _ h_right => exact h_right
    | node h_tag => exact absurd h_tag not_tagAt_nil
  · cases h with
    | halt _ h_right => exact h_right
    | char h_char => exact absurd h_closing (not_closing_of_ne h_char _ _)
    | bracket _ h_rest =>
      obtain ⟨after', h_closing'⟩ := h_rest.closing_left h_closing
      exact .inr ⟨tag, after', h_closing'⟩
    | node h_tag => exact absurd h_closing (h_tag.not_closing _ _)

/-- A stored result in the second text is one in the first text. -/
theorem stored {value after' : List Char} (h : Abreast opened text text')
    (h_stored : Stored text' .dice value after') : ∃ after, Stored text .dice value after := by
  obtain ⟨rest', rfl, h_value, h_closing⟩ := h_stored
  have h_run : ∀ c ∈ value, c ≠ '[' := fun c hc => (noBracket_of_isResult h_value c hc).1
  obtain ⟨rest, rfl, h_rest⟩ := h.of_run_right h_run
  -- A closer of a dice is read as characters, unless the texts end there; then both have one.
  have h_closing_left : ∃ after, Closing rest .dice after := by
    cases h_rest with
    | halt _ _ h_dice => exact h_dice _ h_closing
    | char h_char => exact absurd h_closing (not_closing_of_ne h_char _ _)
    | bracket _ h_rest => exact h_rest.closing_right h_closing
    | node h_tag h_carry => exact absurd h_closing ((h_carry _ h_tag).not_closing _ _)
  obtain ⟨after, h_closing_left⟩ := h_closing_left
  exact ⟨after, rest, rfl, h_value, h_closing_left⟩

/-- The name of an opener is the same in both texts. -/
theorem opening_left {name : String} {after : List Char} (h : Abreast opened text text')
    (h_open : Opening text name after) :
    ∃ after', Opening text' name after' ∧ Abreast opened after after' := by
  obtain ⟨rfl, h_nonempty, h_letters, c, rest, rfl, h_ends⟩ := h_open
  obtain ⟨rest', rfl, h_rest⟩ := h.of_run_left fun d hd =>
    (noBracket_of_isAlpha h_letters d hd).1
  have h_rest' := h_rest
  obtain ⟨rest'', rfl, -⟩ := h_rest'.of_char_left (ne_open_of_ends h_ends)
  exact ⟨_, ⟨rfl, h_nonempty, h_letters, c, rest'', rfl, h_ends⟩, h_rest⟩

theorem opening_right {name : String} {after' : List Char} (h : Abreast opened text text')
    (h_open : Opening text' name after') : ∃ after, Opening text name after := by
  obtain ⟨rfl, h_nonempty, h_letters, c, rest', rfl, h_ends⟩ := h_open
  obtain ⟨rest, rfl, h_rest⟩ := h.of_run_right fun d hd =>
    (noBracket_of_isAlpha h_letters d hd).1
  obtain ⟨rest'', rfl, -⟩ := h_rest.of_char_right (ne_open_of_ends h_ends)
  exact ⟨_, rfl, h_nonempty, h_letters, c, rest'', rfl, h_ends⟩

/-- A bracket or the end of the text ends a word. -/
theorem afterWord_of_halts (inGroup : Bool) (h : Halts text) :
    wordTail inGroup text = [] ∧ afterWord inGroup text = text := by
  rcases h with rfl | ⟨tag, after, h_closing⟩
  · exact ⟨rfl, rfl⟩
  · obtain ⟨rest, rfl⟩ := closing_starts h_closing
    simp [wordTail, afterWord, endsWord]

theorem afterWord_of_open (inGroup : Bool) {rest : List Char} (h : text = '[' :: rest) :
    wordTail inGroup text = [] ∧ afterWord inGroup text = text := by
  rw [h]
  simp [wordTail, afterWord, endsWord]

/-- A word goes on for the same characters in both texts. -/
theorem word (h : Abreast opened text text') (inGroup : Bool) :
    wordTail inGroup text' = wordTail inGroup text ∧
      Abreast opened (afterWord inGroup text) (afterWord inGroup text') := by
  have h_self := h
  induction h with
  -- A word stops at once where the texts halt, and at every bracket.
  | halt h_left h_right =>
    obtain ⟨h_tail, h_after⟩ := afterWord_of_halts inGroup h_left
    obtain ⟨h_tail', h_after'⟩ := afterWord_of_halts inGroup h_right
    rw [h_tail, h_tail', h_after, h_after']
    exact ⟨rfl, h_self⟩
  | @char c text text' _ h_rest ih =>
    obtain ⟨h_tail, h_after⟩ := ih h_rest
    unfold wordTail afterWord at *
    cases h_end : endsWord inGroup c with
    | false =>
      rw [List.takeWhile_cons_of_pos (by simp [h_end]),
        List.takeWhile_cons_of_pos (by simp [h_end]),
        List.dropWhile_cons_of_pos (by simp [h_end]), List.dropWhile_cons_of_pos (by simp [h_end]),
        h_tail]
      exact ⟨rfl, h_after⟩
    | true =>
      rw [List.takeWhile_cons_of_neg (by simp [h_end]),
        List.takeWhile_cons_of_neg (by simp [h_end]),
        List.dropWhile_cons_of_neg (by simp [h_end]), List.dropWhile_cons_of_neg (by simp [h_end])]
      exact ⟨rfl, h_self⟩
  | bracket =>
    obtain ⟨h_tail, h_after⟩ := afterWord_of_open inGroup (rfl : '[' :: _ = _)
    obtain ⟨h_tail', h_after'⟩ := afterWord_of_open inGroup (rfl : '[' :: _ = _)
    rw [h_tail, h_tail', h_after, h_after']
    exact ⟨rfl, h_self⟩
  | node h_tag h_carry =>
    obtain ⟨taken, h_text⟩ := h_tag.split _ rfl
    obtain ⟨taken', h_text'⟩ := (h_carry _ h_tag).split _ rfl
    obtain ⟨h_tail, h_after⟩ := afterWord_of_open inGroup h_text
    obtain ⟨h_tail', h_after'⟩ := afterWord_of_open inGroup h_text'
    rw [h_tail, h_tail', h_after, h_after']
    exact ⟨rfl, h_self⟩

/-! ## Tags -/

/-- A tag that is read in the first text is read in the second one. -/
theorem of_tag {l : Nat} {node : Node} {next : List Char} (h : Abreast opened text text')
    (h_tag : TagAt false l opened text (some (node, next))) :
    ∃ node' next', TagAt false l opened text' (some (node', next')) ∧
      Abreast opened next next' := by
  cases h with
  -- At the end of the text, at a closer and at other characters no tag is read.
  | halt h_left =>
    rcases h_left with rfl | ⟨tag, after, h_closing⟩
    · exact absurd h_tag not_tagAt_nil
    · exact absurd h_closing (h_tag.not_closing _ _)
  | char h_char => exact absurd h_tag (not_tagAt_of_ne h_char)
  | bracket h_none => exact absurd (h_none.functional _ _ _ h_tag) (by simp)
  | node h_some h_carry h_rest =>
    obtain ⟨rfl, rfl⟩ := Prod.mk.inj (Option.some.inj (h_some.functional _ _ _ h_tag))
    exact ⟨_, _, h_carry l h_tag, h_rest⟩

/-- Where a bracket is no tag, the texts go on side by side after it. -/
theorem of_bracket {calm : Bool} {l : Nat} (h : Abreast opened ('[' :: text) text')
    (h_closer : ∀ tag after, ¬ Closing ('[' :: text) tag after)
    (h_tag : TagAt calm l opened ('[' :: text) none) :
    ∃ rest', text' = '[' :: rest' ∧ Abreast opened text rest' := by
  cases h with
  | halt h_left =>
    rcases h_left with h_nil | ⟨tag, after, h_closing⟩
    · exact absurd h_nil (by simp)
    · exact absurd h_closing (h_closer tag after)
  | char h_char => exact absurd rfl h_char
  | bracket _ h_rest => exact ⟨_, rfl, h_rest⟩
  | node h_some => exact absurd (h_tag.functional _ _ _ h_some) (by simp)

/-- Raw attributes that do not come to an end in the first text do not in the second one. -/
theorem not_rawOpening {c : Char} (h : Abreast opened (c :: text) text') (h_char : c ≠ '[')
    (h_raw : ∀ raw openEnd, ¬ RawOpening (c :: text) raw openEnd) (raw openEnd : List Char) :
    ¬ RawOpening text' raw openEnd := by
  obtain ⟨rest', rfl, h_rest⟩ := h.of_char_left h_char
  intro h_raw'
  cases h_raw' with
  | bare => exact h_raw _ _ (.bare text)
  | spaced h_space balanced =>
    -- Raw text ends where the brackets balance, which can be told from afar.
    have h_none : openAfter 0 text = none := by
      rw [← h_rest.alike.brackets]
      exact Bracket.openAfter_eq_none_iff.2 ⟨raw, openEnd, rfl, balanced⟩
    obtain ⟨raw', openEnd', rfl, balanced'⟩ := Bracket.openAfter_eq_none_iff.1 h_none
    exact h_raw _ _ (.spaced h_space balanced' openEnd')

end Abreast

/-! ## What is tried -/

/-- Two lists or items that end where the texts go on side by side, or that both come to nothing. -/
def Tallies (opened : List Tag) {α : Type} (outcome outcome' : Option (α × List Char)) : Prop :=
  Option.Rel (fun found found' => Abreast opened found.2 found'.2) outcome outcome'

mutual

/-- A bracket that is tried in vain in the first text is tried in vain in the second one. -/
theorem TagAt.abreast {l : Nat} {opened : List Tag} {text : List Char}
    {outcome : Option (Node × List Char)} :
    TagAt false l opened text outcome → ∀ rest rest', text = '[' :: rest → outcome = none →
      Abreast opened rest rest' → TagAt false l opened ('[' :: rest') none
  -- An opener in the second text would be one in the first.
  | .noOpener h_open => by
    intro rest rest' h_text _ h
    obtain rfl := (List.cons.inj h_text).2
    refine .noOpener fun name after' h_open' => ?_
    obtain ⟨after, h_opening⟩ := h.opening_right h_open'
    exact h_open name after h_opening
  | .unended h_calm h_open h_header => by
    have ih := h_header.abreast
    intro rest rest' h_text _ h
    obtain rfl := (List.cons.inj h_text).2
    obtain ⟨after', h_open', h_after⟩ := h.opening_left h_open
    obtain ⟨c, rest, h_char, h_ne⟩ := opening_starts h_open
    exact .unended h_calm h_open' (ih c rest h_char h_ne rfl after' h_after)
  | .unknown _ _ _ _ _ _ => by
    intro _ _ _ h_none
    exact absurd h_none (by simp)
  | .known _ _ _ _ => by
    intro _ _ _ h_none
    exact absurd h_none (by simp)

theorem HeaderAt.abreast {l : Nat} {opened : List Tag} {raw : Bool} {text : List Char}
    {outcome : Option (List Node × List Char)} :
    HeaderAt false l opened raw text outcome → ∀ c rest, text = c :: rest → c ≠ '[' →
      outcome = none → ∀ text', Abreast opened text text' →
        HeaderAt false l opened raw text' none
  -- The texts differ from the next bracket on, so raw text is compared by its brackets alone.
  | .raw _ => by
    intro _ _ _ _ h_none
    exact absurd h_none (by simp)
  | .rawFails h_raw => by
    rintro c rest rfl h_char _ text' h
    exact .rawFails (h.not_rawOpening h_char h_raw)
  | .listed h_items => by
    have ih := h_items.abreast
    intro _ _ _ _ h_none text' h
    obtain ⟨outcome', h_items', h_tallies⟩ := ih text' h
    rw [h_none] at h_tallies
    cases h_tallies with
    | none => exact .listed h_items'

theorem ItemsAt.abreast {l : Nat} {inGroup : Bool} {opened : List Tag} {text : List Char}
    {outcome : Option (List Node × List Char)} :
    ItemsAt false l inGroup opened text outcome → ∀ text', Abreast opened text text' →
      ∃ outcome', ItemsAt false l inGroup opened text' outcome' ∧ Tallies opened outcome outcome'
  | .nil => by
    intro text' h
    rcases h.halts (.inl rfl) with rfl | ⟨tag, after, h_closing⟩
    · exact ⟨none, .nil, .none⟩
    · exact ⟨none, .closer h_closing, .none⟩
  | .blank h_blank h_items => by
    have ih := h_items.abreast
    intro text' h
    obtain ⟨rest', rfl, h_rest⟩ := h.of_char_left (ne_open_of_isBlank h_blank)
    obtain ⟨outcome', h_items', h_tallies⟩ := ih rest' h_rest
    exact ⟨outcome', .blank h_blank h_items', h_tallies⟩
  | .close h_closing => by
    intro text' h
    obtain ⟨rest', rfl, h_rest⟩ := h.of_char_left (h_closing ▸ closingOf_ne_open _)
    exact ⟨_, .close h_closing, .some h_rest⟩
  | .bracket => by
    intro text' h
    obtain ⟨rest', rfl, -⟩ := h.of_char_left (by decide)
    exact ⟨none, .bracket, .none⟩
  -- A closer in one text may be the end of the other; the list is broken off at both.
  | .closer h_closing => by
    intro text' h
    rcases h.halts (.inr ⟨_, _, h_closing⟩) with rfl | ⟨tag, after, h_closing'⟩
    · exact ⟨none, .nil, .none⟩
    · exact ⟨none, .closer h_closing', .none⟩
  | .item h_item h_items h_outcome => by
    have ih_item := h_item.abreast
    have ih_items := h_items.abreast
    intro text' h
    obtain ⟨item', h_item', h_tallies⟩ := ih_item text' h
    cases h_tallies with
    | @some _ found' h_next =>
      obtain ⟨node', next'⟩ := found'
      obtain ⟨items', h_items', h_found⟩ := ih_items next' h_next
      refine ⟨_, .item h_item' h_items' rfl, ?_⟩
      rw [h_outcome]
      cases h_found with
      | none => exact .none
      | some h_stop => exact .some h_stop
  | .itemFails h_item => by
    have ih_item := h_item.abreast
    intro text' h
    obtain ⟨item', h_item', h_tallies⟩ := ih_item text' h
    cases h_tallies with
    | none => exact ⟨none, .itemFails h_item', .none⟩

theorem ItemAt.abreast {l : Nat} {inGroup : Bool} {opened : List Tag} {text : List Char}
    {outcome : Option (Node × List Char)} :
    ItemAt false l inGroup opened text outcome → ∀ text', Abreast opened text text' →
      ∃ outcome', ItemAt false l inGroup opened text' outcome' ∧ Tallies opened outcome outcome'
  | .word h_word h_group => by
    intro text' h
    obtain ⟨rest', rfl, h_rest⟩ := h.of_char_left (ne_open_of_word h_word)
    exact ⟨_, .word h_word h_group, .some (h_rest.word _).2⟩
  | .bracket h_closer h_tag => by
    have ih_tag := h_tag.abreast
    intro text' h
    obtain ⟨rest', rfl, h_rest⟩ := h.of_bracket h_closer h_tag
    refine ⟨_, .bracket (fun tag after' h_closing => ?_) (ih_tag _ rest' rfl rfl h_rest),
      .some (h_rest.word _).2⟩
    obtain ⟨after, h_closing_left⟩ := h_rest.closing_right h_closing
    exact h_closer tag after h_closing_left
  | .tag h_tag => by
    intro text' h
    obtain ⟨node', next', h_tag', h_next⟩ := h.of_tag h_tag
    exact ⟨_, .tag h_tag', .some h_next⟩
  | .group h_items => by
    have ih_items := h_items.abreast
    intro text' h
    obtain ⟨rest', rfl, h_rest⟩ := h.of_char_left (by decide)
    obtain ⟨items', h_items', h_tallies⟩ := ih_items rest' h_rest
    cases h_tallies with
    | some h_stop => exact ⟨_, .group h_items', .some h_stop⟩
  | .groupFails h_items => by
    have ih_items := h_items.abreast
    intro text' h
    obtain ⟨rest', rfl, h_rest⟩ := h.of_char_left (by decide)
    obtain ⟨items', h_items', h_tallies⟩ := ih_items rest' h_rest
    cases h_tallies with
    | none => exact ⟨none, .groupFails h_items', .none⟩

end

end DiceMarkup.Rules
