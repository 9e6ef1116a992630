/-
  DiceMarkup.Proofs.Limit

  Texts that are read within the nesting limit. Where the limit is met inside of
  a tag that is tried, the tag is plain text for want of room and not for its
  form; a text within the limit never gets there, in vain or not. A bracket
  that has been tried in vain is not tried again; within the limit this saves
  work and changes nothing, and at the limit it does.

  Pieces:
  * `Document.WithinLimit` — the limit is never met
  * `Document.withinLimit_of_openings` — few brackets and parentheses keep to it
  * `Document.parseAnew` — reading without the memory of brackets tried in vain
-/
import DiceMarkup.Proofs.Follows

namespace DiceMarkup

/-- The text is read with levels to spare, tags that are tried in vain included. -/
def Document.WithinLimit (source : String) : Prop :=
  ∃ pieces, Rules.PiecesAt false nestingLimit [] source.toList pieces false []

namespace Rules

open DiceMarkup.Bracket (Opening Closing RawOpening Stored endsWord)
open Text (isBlank)

/-- How often the text could go one level down. -/
def openings (text : List Char) : Nat :=
  text.countP fun c => c == '[' || c == '('

theorem openings_append (before text : List Char) :
    openings (before ++ text) = openings before + openings text :=
  List.countP_append

/-- What is left of a text has no more openings than the text. -/
theorem openings_le_append (before text : List Char) :
    openings text ≤ openings (before ++ text) := by
  rw [openings_append]
  exact Nat.le_add_left _ _

theorem openings_cons_le (c : Char) (text : List Char) : openings text ≤ openings (c :: text) :=
  openings_le_append [c] text

theorem openings_open (text : List Char) : openings ('[' :: text) = openings text + 1 := by
  simp [openings]

theorem openings_enter (text : List Char) : openings ('(' :: text) = openings text + 1 := by
  simp [openings]

/-- All texts shorter than `bound` have a reading at as many levels as they have openings. -/
def Covers (bound : Nat) : Prop :=
  ∀ (text : List Char) (l : Nat) (opened : List Tag), text.length < bound → openings text ≤ l →
    (∀ inGroup, ∃ outcome, ItemsAt false l inGroup opened text outcome) ∧
      ∃ ps closed stop, PiecesAt false l opened text ps closed stop

section Step

variable {l : Nat} (opened : List Tag) {text : List Char}

theorem exists_headerAt {bound : Nat} (h_covers : Covers bound) (raw : Bool)
    (h_length : text.length < bound) (h_level : openings text ≤ l) :
    ∃ outcome, HeaderAt false l opened raw text outcome := by
  cases raw with
  | false =>
    obtain ⟨outcome, h_items⟩ := (h_covers text l opened h_length h_level).1 false
    exact ⟨outcome, .listed h_items⟩
  | true =>
    by_cases h_raw : ∃ raw openEnd, RawOpening text raw openEnd
    · obtain ⟨raw, openEnd, h_raw⟩ := h_raw
      exact ⟨_, .raw h_raw⟩
    · exact ⟨none, .rawFails fun raw openEnd h => h_raw ⟨raw, openEnd, h⟩⟩

theorem exists_bodyAt {bound : Nat} (h_covers : Covers bound) (tag : Tag)
    (h_length : text.length < bound) (h_level : openings text ≤ l) :
    ∃ children stop, BodyAt false l opened tag text children stop := by
  cases h_kind : tag.kind with
  | container =>
    obtain ⟨-, ps, closed, stop, h_pieces⟩ := h_covers text l (tag :: opened) h_length h_level
    exact ⟨_, _, .inside h_kind h_pieces (by simp)⟩
  | selfClosing =>
    by_cases h_stored : tag.storesResult = true ∧ ∃ value stop, Stored text tag value stop
    · obtain ⟨h_stores, value, stop, h_stored⟩ := h_stored
      exact ⟨_, _, .stored h_kind h_stores h_stored⟩
    · exact ⟨[], text, .bare h_kind fun h_stores value stop h =>
        h_stored ⟨h_stores, value, stop, h⟩⟩

theorem exists_tagAt (h_covers : Covers ('[' :: text).length)
    (h_level : openings ('[' :: text) ≤ l) :
    ∃ outcome, TagAt false l opened ('[' :: text) outcome := by
  -- The bracket pays for the level that its tag takes.
  rw [openings_open] at h_level
  obtain ⟨k, rfl⟩ : ∃ k, l = k + 1 := ⟨l - 1, by omega⟩
  by_cases h_open : ∃ name after, Opening text name after
  · obtain ⟨name, after, h_open⟩ := h_open
    have h_after := h_open.length_lt
    have h_inner : openings after ≤ k := by
      have h_le := openings_le_append name.toList after
      rw [← h_open.split] at h_le
      omega
    obtain ⟨header, h_header⟩ := exists_headerAt opened h_covers
      (keepsRaw (Tag.resolve? name)) (by rw [List.length_cons]; omega) h_inner
    cases header with
    | none => exact ⟨none, .unended rfl h_open h_header⟩
    | some found =>
      obtain ⟨attributes, openEnd⟩ := found
      obtain ⟨inside, h_inside⟩ := h_header.split _ rfl
      cases h_name : Tag.resolve? name with
      | none =>
        rw [h_name] at h_header
        obtain ⟨taken, h_taken⟩ := Bracket.unknownEnd_split name openEnd
        have h_text : '[' :: text = '[' :: (name.toList ++ (inside ++ ']' :: taken)) ++
            Bracket.unknownEnd name openEnd := by
          rw [h_open.split, h_inside, List.cons_append, List.append_assoc, List.append_assoc,
            List.cons_append, ← h_taken]
        exact ⟨_, .unknown rfl h_open h_name h_header rfl h_text⟩
      | some meaning =>
        rw [h_name] at h_header
        have h_close := openings_cons_le ']' openEnd
        have h_count := openings_le_append inside (']' :: openEnd)
        rw [← h_inside] at h_count
        have h_length := h_header.length_lt
        obtain ⟨children, stop, h_body⟩ := exists_bodyAt opened h_covers meaning.tag
          (by rw [List.length_cons]; omega) (show openings openEnd ≤ k by omega)
        exact ⟨_, .known h_open h_name h_header h_body⟩
  · exact ⟨none, .noOpener fun name after h => h_open ⟨name, after, h⟩⟩

theorem exists_itemAt {c : Char} {inGroup : Bool} (h_covers : Covers (c :: text).length)
    (h_level : openings (c :: text) ≤ l) (h_at : AtItem inGroup c text) :
    ∃ outcome, ItemAt false l inGroup opened (c :: text) outcome := by
  by_cases h_group : c = '('
  · subst h_group
    rw [openings_enter] at h_level
    obtain ⟨k, rfl⟩ : ∃ k, l = k + 1 := ⟨l - 1, by omega⟩
    obtain ⟨members, h_members⟩ := (h_covers text k opened (Nat.lt_succ_self _) (by omega)).1 true
    cases members with
    | none => exact ⟨none, .groupFails h_members⟩
    | some found => exact ⟨_, .group h_members⟩
  by_cases h_open : c = '['
  · subst h_open
    obtain ⟨outcome, h_tag⟩ := exists_tagAt opened h_covers h_level
    cases outcome with
    | none => exact ⟨_, .bracket h_at.not_closer h_tag⟩
    | some found => exact ⟨_, .tag h_tag⟩
  · refine ⟨_, .word ?_ h_group⟩
    have h_close := h_at.ne_closing
    cases inGroup <;> simp_all [endsWord, h_at.not_blank, h_at.ne_bracket, closingOf]

theorem exists_itemsAt (h_covers : Covers text.length) (h_level : openings text ≤ l)
    (inGroup : Bool) : ∃ outcome, ItemsAt false l inGroup opened text outcome := by
  cases text with
  | nil => exact ⟨none, .nil⟩
  | cons c text =>
    have h_rest := openings_cons_le c text
    by_cases h_blank : isBlank c = true
    · obtain ⟨outcome, h_items⟩ :=
        (h_covers text l opened (Nat.lt_succ_self _) (by omega)).1 inGroup
      exact ⟨outcome, .blank h_blank h_items⟩
    by_cases h_closing : c = closingOf inGroup
    · exact ⟨_, .close h_closing⟩
    by_cases h_close : c = ']'
    · cases inGroup with
      | false => exact absurd h_close h_closing
      | true => exact ⟨none, h_close ▸ .bracket⟩
    by_cases h_closer : ∃ tag after, Closing (c :: text) tag after
    · obtain ⟨tag, after, h_closer⟩ := h_closer
      exact ⟨none, .closer h_closer⟩
    -- What is left is the start of an item, and the list goes on behind it.
    have h_at : AtItem inGroup c text :=
      ⟨by simpa using h_blank, h_close, h_closing, fun tag after h => h_closer ⟨tag, after, h⟩⟩
    obtain ⟨item, h_item⟩ := exists_itemAt opened h_covers h_level h_at
    cases item with
    | none => exact ⟨none, .itemFails h_item⟩
    | some found =>
      obtain ⟨node, next⟩ := found
      obtain ⟨d, taken, h_split⟩ := h_item.split _ rfl
      have h_count := openings_le_append (d :: taken) next
      rw [List.cons_append, ← h_split] at h_count
      obtain ⟨outcome, h_items⟩ :=
        (h_covers next l opened h_item.length_lt (h_count.trans h_level)).1 inGroup
      exact ⟨_, .item h_item h_items rfl⟩

theorem exists_piecesAt (h_covers : Covers text.length) (h_level : openings text ≤ l) :
    ∃ ps closed stop, PiecesAt false l opened text ps closed stop := by
  cases text with
  | nil => exact ⟨[], false, [], .nil⟩
  | cons c text =>
    have h_rest := openings_cons_le c text
    obtain ⟨-, ps, closed, stop, h_pieces⟩ :=
      h_covers text l opened (Nat.lt_succ_self _) (by omega)
    by_cases h_char : c = '['
    · subst h_char
      by_cases h_closer : ∃ tag after, Closing ('[' :: text) tag after ∧ tag ∈ opened
      · obtain ⟨tag, after, h_closing, h_opened⟩ := h_closer
        by_cases h_own : opened.head? = some tag
        · exact ⟨[], true, after, .own h_closing h_own⟩
        · exact ⟨[], false, _, .outer h_closing h_own h_opened⟩
      have h_ending : NoEnding opened ('[' :: text) := fun tag after h_closing h_opened =>
        h_closer ⟨tag, after, h_closing, h_opened⟩
      obtain ⟨outcome, h_tag⟩ := exists_tagAt opened h_covers h_level
      cases outcome with
      | none => exact ⟨_, closed, stop, .bracket h_ending h_tag h_pieces⟩
      | some found =>
        obtain ⟨node, next⟩ := found
        obtain ⟨taken, h_split⟩ := h_tag.split _ rfl
        have h_count := openings_le_append ('[' :: taken) next
        rw [List.cons_append, ← h_split] at h_count
        obtain ⟨-, ps, closed, stop, h_pieces⟩ :=
          h_covers next l opened h_tag.length_lt (h_count.trans h_level)
        exact ⟨_, closed, stop, .node h_tag h_pieces⟩
    · exact ⟨_, closed, stop, .char h_char h_pieces⟩

end Step

/-- Every text has a reading if there are enough levels. -/
theorem covers (bound : Nat) : Covers bound := by
  induction bound with
  | zero => exact fun text l opened h_length => absurd h_length (by omega)
  | succ bound ih =>
    intro text l opened h_length h_level
    -- Whatever is read in the text is read from a later place of it, which is shorter.
    have h_shorter : Covers text.length := by
      intro text' l' opened' h_length' h_level'
      exact ih text' l' opened' (by omega) h_level'
    exact ⟨exists_itemsAt opened h_shorter h_level, exists_piecesAt opened h_shorter h_level⟩

/-- Where no tag is open, only the end of the text ends the pieces. -/
theorem PiecesAt.of_closed {calm : Bool} {l : Nat} {opened : List Tag} {text stop : List Char}
    {ps : List Piece} {closed : Bool} :
    PiecesAt calm l opened text ps closed stop → opened = [] → closed = false ∧ stop = []
  | .nil => fun _ => ⟨rfl, rfl⟩
  | .char _ h_pieces => h_pieces.of_closed
  | .bracket _ _ h_pieces => h_pieces.of_closed
  | .node _ h_pieces => h_pieces.of_closed
  | .own _ h_own => by
    rintro rfl
    exact absurd h_own (by simp)
  | .outer _ _ h_outer => by
    rintro rfl
    exact absurd h_outer (by simp)

end Rules

/-- A text with few brackets and parentheses stays within the limit. -/
theorem Document.withinLimit_of_openings {source : String}
    (h : Rules.openings source.toList ≤ nestingLimit) : Document.WithinLimit source := by
  obtain ⟨-, ps, closed, stop, h_pieces⟩ :=
    Rules.covers (source.toList.length + 1) source.toList nestingLimit [] (Nat.lt_succ_self _) h
  obtain ⟨rfl, rfl⟩ := h_pieces.of_closed rfl
  exact ⟨ps, h_pieces⟩

/-! ## Brackets tried in vain -/

namespace Document

/-- The tree of a text where every bracket is tried anew each time that it is reached. -/
def parseAnew (source : String) : Document :=
  (Reader.run .forgetful source.toList).nodes

/-- Within the limit, brackets that were tried in vain need not be tried again. -/
theorem parse_eq_parseAnew {source : String} (h_limit : WithinLimit source) :
    parse source = parseAnew source := by
  obtain ⟨pieces, h_pieces⟩ := h_limit
  obtain ⟨notes, h_anew, -⟩ := Rules.run_eq Rules.not_failed_forgetful h_pieces
  rw [Rules.parse_eq h_pieces, parseAnew, h_anew]

/-- Openers without an end, in one another, in a group and in an unknown tag: the brackets in them
    are reached again and again. -/
theorem parse_eq_parseAnew_unended :
    let source := "[b [i (x [u [foo ([s [hr]y"
    WithinLimit source ∧ parse source = parseAnew source := by
  have h_limit : WithinLimit "[b [i (x [u [foo ([s [hr]y" :=
    withinLimit_of_openings (by decide +kernel)
  exact ⟨h_limit, parse_eq_parseAnew h_limit⟩

set_option maxRecDepth 20000 in
/-- At the limit they have to be. The tag `[b` is tried first with a tag and 61 groups around it:
    `[hr]` is too deep for a tag there, and its `]` ends the group of `[b` in vain. So `[b` is
    remembered to have failed, and opens no tag either where it is reached again with room for
    it. -/
theorem parse_ne_parseAnew :
    let source := String.ofList ("[u ".toList ++ List.replicate 61 '(' ++ "[b ([hr])]".toList)
    parse source ≠ parseAnew source := by
  intro source h_same
  -- A text, a tag and a text, against a text and a tag that takes the rest.
  have h_remembered : (parse source).length = 3 := by
    subst source
    cbv
  have h_anew : (parseAnew source).length = 2 := by decide +kernel
  rw [h_same, h_anew] at h_remembered
  exact absurd h_remembered (by decide)

end Document

end DiceMarkup
