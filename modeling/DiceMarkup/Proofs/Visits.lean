/-
  DiceMarkup.Proofs.Visits

  The brackets of a text that its reading comes by, and the tags that are open
  at each of them. A bracket may be tried more than once: as an attribute of a
  tag that comes to nothing, and again on its own. Main statement: it is always
  tried with the same tags open, so it is always read in the same way.
-/
import DiceMarkup.Proofs.Scan

namespace DiceMarkup.Rules

open DiceMarkup.Bracket (Opening Closing)

/-! ## Brackets on the way -/

/-- Reading on from `text` comes by the bracket at the start of `place`, where other tags may be
    open. -/
inductive Visits : (opened : List Tag) → (text : List Char) → (opened' : List Tag) →
    (place : List Char) → Prop
  | char {opened opened' : List Tag} {c : Char} {text place : List Char} (h_char : c ≠ '[')
      (h_visits : Visits opened text opened' place) : Visits opened (c :: text) opened' place
  | here {opened : List Tag} {text : List Char} (h_ending : NoEnding opened ('[' :: text)) :
      Visits opened ('[' :: text) opened ('[' :: text)
  | skip {calm : Bool} {l : Nat} {opened opened' : List Tag} {text place : List Char}
      (h_ending : NoEnding opened ('[' :: text)) (h_tag : TagAt calm l opened ('[' :: text) none)
      (h_visits : Visits opened text opened' place) : Visits opened ('[' :: text) opened' place
  | after {calm : Bool} {l : Nat} {opened opened' : List Tag} {text next place : List Char}
      {node : Node} (h_tag : TagAt calm l opened text (some (node, next)))
      (h_visits : Visits opened next opened' place) : Visits opened text opened' place
  /-- The place is among the attributes of a tag. -/
  | header {calm : Bool} {l : Nat} {opened opened' : List Tag}
      {text after openEnd place : List Char} {name : String} {attributes : List Node}
      (h_open : Opening text name after) (h_raw : keepsRaw (Tag.resolve? name) = false)
      (h_items : ItemsAt calm l false opened after (some (attributes, openEnd)))
      (h_before : openEnd.length < place.length)
      (h_visits : Visits opened after opened' place) : Visits opened ('[' :: text) opened' place
  /-- The place is among the children of a tag, where the tag is open. -/
  | child {calm : Bool} {l : Nat} {opened opened' : List Tag}
      {text after openEnd stop place : List Char} {name : String} {meaning : Tag.Resolved}
      {attributes : List Node} {pieces : List Piece} {closed : Bool}
      (h_open : Opening text name after) (h_name : Tag.resolve? name = some meaning)
      (h_header : HeaderAt calm l opened meaning.tag.rawAttribute after
        (some (attributes, openEnd)))
      (h_kind : meaning.tag.kind = .container)
      (h_pieces : PiecesAt calm l (meaning.tag :: opened) openEnd pieces closed stop)
      (h_before : stop.length < place.length)
      (h_visits : Visits (meaning.tag :: opened) openEnd opened' place) :
      Visits opened ('[' :: text) opened' place

namespace Visits

variable {opened opened' : List Tag} {text place : List Char}

/-- A place on the way starts with a bracket, and the text ends with it. -/
theorem split (h : Visits opened text opened' place) :
    (∃ taken, text = taken ++ place) ∧ ∃ rest, place = '[' :: rest := by
  induction h with
  | char _ _ ih | skip _ _ _ ih =>
    obtain ⟨⟨taken, rfl⟩, h_place⟩ := ih
    exact ⟨⟨_ :: taken, rfl⟩, h_place⟩
  | here => exact ⟨⟨[], rfl⟩, _, rfl⟩
  | after h_tag _ ih =>
    obtain ⟨⟨taken, rfl⟩, h_place⟩ := ih
    obtain ⟨first, rfl⟩ := h_tag.split _ rfl
    exact ⟨⟨'[' :: (first ++ taken), by simp⟩, h_place⟩
  | @header _ _ _ _ _ _ _ _ name _ h_open _ _ _ _ ih =>
    obtain ⟨⟨taken, rfl⟩, h_place⟩ := ih
    refine ⟨⟨'[' :: (name.toList ++ taken), ?_⟩, h_place⟩
    rw [h_open.split]
    simp
  | @child _ _ _ _ _ _ _ _ _ name _ _ _ _ h_open _ h_header _ _ _ _ ih =>
    obtain ⟨⟨taken, rfl⟩, h_place⟩ := ih
    obtain ⟨attributes, rfl⟩ := h_header.split _ rfl
    refine ⟨⟨'[' :: (name.toList ++ (attributes ++ ']' :: taken)), ?_⟩, h_place⟩
    rw [h_open.split]
    simp

theorem length_le (h : Visits opened text opened' place) : place.length ≤ text.length := by
  obtain ⟨⟨taken, rfl⟩, -⟩ := h.split
  rw [List.length_append]
  omega

end Visits

/-! ## One bracket -/

section Inversion

variable {calm : Bool} {l : Nat} {opened opened' : List Tag} {text place : List Char}

/-- Where children end, reading comes by no bracket. -/
theorem Visits.noEnding (h : Visits opened text opened' place) : NoEnding opened text := by
  intro tag after h_closing
  cases h with
  | char h_char => exact absurd h_closing (not_closing_of_ne h_char _ _)
  | here h_ending | skip h_ending => exact h_ending _ _ h_closing
  | after h_tag => exact absurd h_closing (h_tag.not_closing _ _)
  | header h_open | child h_open => exact absurd h_open (h_closing.not_opening _ _)

theorem Visits.of_char {c : Char} (h_char : c ≠ '[')
    (h : Visits opened (c :: text) opened' place) : Visits opened text opened' place := by
  cases h with
  | char _ h_visits => exact h_visits
  | here | skip | header | child => exact absurd rfl h_char
  | after h_tag => exact absurd h_tag (not_tagAt_of_ne h_char)

/-- The characters of a name are no brackets. -/
theorem Visits.letters {letters : List Char} (h_letters : ∀ c ∈ letters, c ≠ '[')
    (h : Visits opened text opened' place) : Visits opened (letters ++ text) opened' place := by
  induction letters with
  | nil => exact h
  | cons c letters ih =>
    have h_char := h_letters c List.mem_cons_self
    exact .char h_char (ih fun d hd => h_letters d (List.mem_cons_of_mem _ hd))

theorem ne_open_of_opening {name : String} {after : List Char} (h_open : Opening text name after) :
    ∀ c ∈ name.toList, c ≠ '[' :=
  fun c hc => Bracket.ne_of_isAlpha (h_open.letters c hc) (by decide)

/-- A tag whose opener ends is not tried in vain. -/
theorem HeaderAt.not_none {after : List Char} {name : String} {raw calm' : Bool} {l' : Nat}
    {found : List Node × List Char} (h_header : HeaderAt calm' l' opened raw after (some found))
    (h_open : Opening text name after) (h_raw : keepsRaw (Tag.resolve? name) = raw) :
    ¬ TagAt calm l opened ('[' :: text) none := by
  intro h_tag
  obtain ⟨_, _, -, h_header', ⟨rfl, -⟩ | ⟨_, _, _, _, -, h_eq, -⟩⟩ := h_tag.of_opening h_open
  · rw [h_raw] at h_header'
    exact absurd (h_header'.functional _ _ _ h_header) nofun
  · exact absurd h_eq nofun

/-- A bracket that opens no tag is passed, and nothing in it is left out. -/
theorem Visits.of_none (h_tag : TagAt calm l opened ('[' :: text) none)
    (h : Visits opened ('[' :: text) opened' place) :
    (opened' = opened ∧ place = '[' :: text) ∨
      (NoEnding opened ('[' :: text) ∧ Visits opened text opened' place) := by
  cases h with
  | char h_char => exact absurd rfl h_char
  | here => exact .inl ⟨rfl, rfl⟩
  | skip h_ending _ h_visits => exact .inr ⟨h_ending, h_visits⟩
  | after h_tag' => exact absurd (h_tag.functional _ _ _ h_tag') (by simp)
  | header h_open h_raw h_items =>
    exact absurd h_tag ((HeaderAt.listed h_items).not_none h_open h_raw)
  | child h_open h_name h_header =>
    exact absurd h_tag (h_header.not_none h_open (keepsRaw_eq h_name))

/-- The attributes of a tag end before what follows the tag. -/
theorem TagAt.length_le {node : Node} {stop after openEnd : List Char} {name : String}
    {calm' : Bool} {l' : Nat} {attributes : List Node} {raw : Bool}
    (h_tag : TagAt calm l opened ('[' :: text) (some (node, stop)))
    (h_open : Opening text name after) (h_raw : keepsRaw (Tag.resolve? name) = raw)
    (h_header : HeaderAt calm' l' opened raw after (some (attributes, openEnd))) :
    stop.length ≤ openEnd.length := by
  obtain ⟨k, header, -, h_header', ⟨-, h_eq⟩ | ⟨_, _, _, _, rfl, h_eq, ⟨taken, h_taken⟩, -⟩⟩ :=
    h_tag.of_opening h_open
  · exact absurd h_eq (by simp)
  · rw [h_raw] at h_header'
    obtain ⟨-, rfl⟩ := Prod.mk.inj (Option.some.inj (h_header'.functional _ _ _ h_header))
    obtain ⟨-, rfl⟩ := Prod.mk.inj (Option.some.inj h_eq)
    rw [h_taken, List.length_append]
    omega

/-- The children of a tag end where the tag ends. -/
theorem TagAt.stop_eq {node : Node} {stop stop' after openEnd : List Char} {name : String}
    {calm' : Bool} {l' : Nat} {attributes : List Node} {meaning : Tag.Resolved}
    {pieces : List Piece} {closed : Bool}
    (h_tag : TagAt calm l opened ('[' :: text) (some (node, stop)))
    (h_open : Opening text name after) (h_name : Tag.resolve? name = some meaning)
    (h_header : HeaderAt calm' l' opened meaning.tag.rawAttribute after
      (some (attributes, openEnd)))
    (h_kind : meaning.tag.kind = .container)
    (h_pieces : PiecesAt calm' l' (meaning.tag :: opened) openEnd pieces closed stop') :
    stop = stop' := by
  obtain ⟨k, header, -, h_header', ⟨-, h_eq⟩ | ⟨_, _, _, _, rfl, h_eq, -, h_body⟩⟩ :=
    h_tag.of_opening h_open
  · exact absurd h_eq (by simp)
  · obtain ⟨children, h_body⟩ := h_body meaning h_name
    rw [h_name] at h_header'
    obtain ⟨-, rfl⟩ := Prod.mk.inj (Option.some.inj (h_header'.functional _ _ _ h_header))
    obtain ⟨-, rfl⟩ := Prod.mk.inj (Option.some.inj h_eq)
    cases h_body with
    | bare h_kind' | stored h_kind' =>
      rw [h_kind] at h_kind'
      exact absurd h_kind' (by decide)
    | inside _ h_pieces' => exact (h_pieces'.functional _ _ _ _ _ h_pieces).2.2

end Inversion

/-! ## One way only -/

section Unique

variable {calm : Bool} {l : Nat} {opened opened' : List Tag} {text place : List Char}

/-- The places on the way past a tag that is read: the tag itself, those behind it, those among its
    attributes and those among its children. -/
theorem Visits.of_some {node : Node} {stop : List Char}
    (h_tag : TagAt calm l opened ('[' :: text) (some (node, stop)))
    (h : Visits opened ('[' :: text) opened' place) :
    (opened' = opened ∧ place = '[' :: text) ∨ Visits opened stop opened' place ∨
      (∃ calm' l' name after attributes openEnd, Opening text name after ∧
        keepsRaw (Tag.resolve? name) = false ∧
        ItemsAt calm' l' false opened after (some (attributes, openEnd)) ∧
        openEnd.length < place.length ∧ Visits opened after opened' place) ∨
      ∃ calm' l' name after meaning attributes openEnd pieces closed, Opening text name after ∧
        Tag.resolve? name = some meaning ∧
        HeaderAt calm' l' opened meaning.tag.rawAttribute after (some (attributes, openEnd)) ∧
        meaning.tag.kind = .container ∧
        PiecesAt calm' l' (meaning.tag :: opened) openEnd pieces closed stop ∧
        stop.length < place.length ∧ Visits (meaning.tag :: opened) openEnd opened' place := by
  cases h with
  | char h_char => exact absurd rfl h_char
  | here => exact .inl ⟨rfl, rfl⟩
  | skip _ h_tag' => exact absurd (h_tag.functional _ _ _ h_tag') (by simp)
  | after h_tag' h_visits =>
    obtain ⟨-, rfl⟩ := Prod.mk.inj (Option.some.inj (h_tag.functional _ _ _ h_tag'))
    exact .inr (.inl h_visits)
  | header h_open h_raw h_items h_before h_visits =>
    exact .inr (.inr (.inl ⟨_, _, _, _, _, _, h_open, h_raw, h_items, h_before, h_visits⟩))
  | child h_open h_name h_header h_kind h_pieces h_before h_visits =>
    obtain rfl := h_tag.stop_eq h_open h_name h_header h_kind h_pieces
    exact .inr (.inr (.inr ⟨_, _, _, _, _, _, _, _, _, h_open, h_name, h_header, h_kind, h_pieces,
      h_before, h_visits⟩))

/-- A list of attributes and the tag around it are read from the same opener. -/
theorem attributes_before {name : String} {meaning : Tag.Resolved}
    {after openEnd openEnd' stop : List Char} {calm' : Bool} {l' : Nat}
    {attributes attributes' : List Node} {pieces : List Piece} {closed : Bool}
    (h_raw : keepsRaw (Tag.resolve? name) = false)
    (h_items : ItemsAt calm l false opened after (some (attributes, openEnd)))
    (h_name : Tag.resolve? name = some meaning)
    (h_header : HeaderAt calm' l' opened meaning.tag.rawAttribute after
      (some (attributes', openEnd')))
    (h_pieces : PiecesAt calm' l' (meaning.tag :: opened) openEnd' pieces closed stop) :
    openEnd' = openEnd ∧ stop.length ≤ openEnd.length := by
  have h_header' : HeaderAt calm l opened meaning.tag.rawAttribute after
      (some (attributes, openEnd)) := by
    rw [← keepsRaw_eq h_name, h_raw]
    exact .listed h_items
  obtain ⟨-, rfl⟩ := Prod.mk.inj (Option.some.inj (h_header.functional _ _ _ h_header'))
  obtain ⟨taken, h_taken⟩ := h_pieces.split
  refine ⟨rfl, ?_⟩
  rw [h_taken, List.length_append]
  omega

/-- The bracket at the start of a text is come by before anything is read, and not again. -/
theorem Visits.of_start (h : Visits opened ('[' :: text) opened' ('[' :: text)) :
    opened' = opened := by
  -- Every other way leads to a place with fewer characters behind it.
  cases h with
  | char h_char => exact absurd rfl h_char
  | here => rfl
  | skip _ _ h_visits =>
    have h_length := h_visits.length_le
    rw [List.length_cons] at h_length
    omega
  | after h_tag h_visits =>
    have h_length := h_visits.length_le
    have h_lt := h_tag.length_lt
    omega
  | header h_open _ _ _ h_visits =>
    have h_length := h_visits.length_le
    have h_lt := h_open.length_lt
    rw [List.length_cons] at h_length
    omega
  | child h_open _ h_header _ _ _ h_visits =>
    have h_length := h_visits.length_le
    have h_lt := h_open.length_lt
    have h_lt' := h_header.length_lt
    rw [List.length_cons] at h_length
    omega

/-- The tags that are open at a place do not depend on the way there. -/
theorem Visits.unique {opened₁ opened₂ : List Tag} (h₁ : Visits opened text opened₁ place)
    (h₂ : Visits opened text opened₂ place) : opened₁ = opened₂ := by
  -- At each bracket the two ways take the same step: any other leads to places that are too short.
  induction h₁ with
  | char h_char _ ih => exact ih (h₂.of_char h_char)
  | here => exact h₂.of_start.symm
  | skip h_ending h_tag h_visits ih =>
    rcases h₂.of_none h_tag with ⟨rfl, rfl⟩ | ⟨-, h_visits'⟩
    · exact (Visits.skip h_ending h_tag h_visits).of_start
    · exact ih h_visits'
  | after h_tag h_visits ih =>
    obtain ⟨taken, rfl⟩ := h_tag.split _ rfl
    rcases h₂.of_some h_tag with ⟨rfl, rfl⟩ | h_visits' |
      ⟨_, _, _, _, _, _, h_open, h_raw, h_items, h_before, -⟩ |
      ⟨_, _, _, _, _, _, _, _, _, -, -, -, -, -, h_before, -⟩
    · exact (Visits.after h_tag h_visits).of_start
    · exact ih h_visits'
    -- What stands in the tag stands before its end, and the first way has passed that.
    · have h_le := h_tag.length_le h_open h_raw (.listed h_items)
      have h_length := h_visits.length_le
      omega
    · have h_length := h_visits.length_le
      omega
  | header h_open h_raw h_items h_before h_visits ih =>
    cases h₂ with
    | char h_char => exact absurd rfl h_char
    | here => exact (Visits.header h_open h_raw h_items h_before h_visits).of_start
    | skip _ h_tag => exact absurd h_tag ((HeaderAt.listed h_items).not_none h_open h_raw)
    | after h_tag h_visits' =>
      obtain ⟨taken, h_text⟩ := h_tag.split _ rfl
      obtain rfl := (List.cons.inj h_text).2
      have h_le := h_tag.length_le h_open h_raw (.listed h_items)
      have h_length := h_visits'.length_le
      omega
    | header h_open' _ _ _ h_visits' =>
      obtain ⟨-, rfl⟩ := h_open.unique h_open'
      exact ih h_visits'
    | child h_open' h_name h_header _ h_pieces h_before' h_visits' =>
      obtain ⟨rfl, rfl⟩ := h_open.unique h_open'
      obtain ⟨rfl, -⟩ := attributes_before h_raw h_items h_name h_header h_pieces
      have h_length := h_visits'.length_le
      omega
  | child h_open h_name h_header h_kind h_pieces h_before h_visits ih =>
    cases h₂ with
    | char h_char => exact absurd rfl h_char
    | here =>
      exact (Visits.child h_open h_name h_header h_kind h_pieces h_before h_visits).of_start
    | skip _ h_tag => exact absurd h_tag (h_header.not_none h_open (keepsRaw_eq h_name))
    | after h_tag h_visits' =>
      obtain ⟨taken, h_text⟩ := h_tag.split _ rfl
      obtain rfl := (List.cons.inj h_text).2
      obtain rfl := h_tag.stop_eq h_open h_name h_header h_kind h_pieces
      have h_length := h_visits'.length_le
      omega
    | header h_open' h_raw h_items h_before' h_visits' =>
      obtain ⟨rfl, rfl⟩ := h_open.unique h_open'
      obtain ⟨rfl, -⟩ := attributes_before h_raw h_items h_name h_header h_pieces
      have h_length := h_visits.length_le
      omega
    | child h_open' h_name' h_header' _ h_pieces' _ h_visits' =>
      obtain ⟨rfl, rfl⟩ := h_open.unique h_open'
      obtain rfl := Option.some.inj (h_name.symm.trans h_name')
      obtain ⟨-, rfl⟩ := Prod.mk.inj (Option.some.inj (h_header.functional _ _ _ h_header'))
      exact ih h_visits'

end Unique

/-- Every place on the way through the pieces stands before their end. -/
theorem PiecesAt.visits_before {calm : Bool} {l : Nat} {opened : List Tag}
    {text stop : List Char} {pieces : List Piece} {closed : Bool}
    (h : PiecesAt calm l opened text pieces closed stop) (opened' : List Tag) (place : List Char)
    (h_visits : Visits opened text opened' place) : stop.length < place.length := by
  induction pieces generalizing text with
  | nil =>
    cases h with
    | nil =>
      obtain ⟨⟨taken, h_text⟩, rest, rfl⟩ := h_visits.split
      exact absurd h_text (by simp)
    | own h_closing h_own =>
      exact absurd (List.mem_of_head? h_own) (h_visits.noEnding _ _ h_closing)
    | outer h_closing _ h_opened => exact absurd h_opened (h_visits.noEnding _ _ h_closing)
  | cons piece pieces ih =>
    cases h with
    | char h_char h_pieces => exact ih h_pieces (h_visits.of_char h_char)
    | bracket h_ending h_tag h_pieces =>
      rcases h_visits.of_none h_tag with ⟨-, rfl⟩ | ⟨-, h_visits⟩
      · exact Nat.lt_succ_of_le h_pieces.length_le
      · exact ih h_pieces h_visits
    | node h_tag h_pieces =>
      have h_le := h_pieces.length_le
      have h_lt := h_tag.length_lt
      obtain ⟨first, h_text⟩ := h_tag.split _ rfl
      subst h_text
      rcases h_visits.of_some h_tag with ⟨-, rfl⟩ | h_visits |
        ⟨_, _, _, _, _, _, h_open, h_raw, h_items, h_before, -⟩ |
        ⟨_, _, _, _, _, _, _, _, _, -, -, -, -, -, h_before, -⟩
      · omega
      · exact ih h_pieces h_visits
      · have h_end := h_tag.length_le h_open h_raw (.listed h_items)
        omega
      · omega

end DiceMarkup.Rules
