/-
  DiceMarkup.Proofs.Follows

  The reader follows the rules of reading. The reader remembers brackets that it
  has tried in vain, while other tags were open or at another level of nesting,
  and does not try them again. This changes nothing: a bracket is always tried
  with the same tags open, so one that came to nothing always does. Main
  statement: a text with a derivation is read as the derivation says, with or
  without the memory, and a calm derivation leaves no note.
-/
import DiceMarkup.Proofs.Steps
import DiceMarkup.Proofs.Visits

namespace DiceMarkup.Rules

open DiceMarkup.Bracket (Opening Closing wordTail afterWord endsWord)
open Reader (openers)
open Text (Cursor isBlank byteLength)

/-! ## What is remembered -/

/-- A bracket before so many bytes is remembered as one that opens no tag. -/
def Failed (notes : Notes) (size : Nat) : Prop :=
  (notes.failed.any fun places => places.contains size) = true

/-- Only the bracket that failed is remembered anew. -/
theorem failed_of_fail {notes : Notes} {c : Cursor} {size : Nat} (h : Failed (notes.fail c) size) :
    size = c.left ∨ Failed notes size := by
  unfold Failed Notes.fail at h
  unfold Failed
  cases h_failed : notes.failed with
  | none =>
    rw [h_failed] at h
    exact absurd h (by simp)
  | some places =>
    rw [h_failed] at h
    have h_contains : (places.insert c.left).contains size = true := h
    rw [Std.HashSet.contains_insert, Bool.or_eq_true] at h_contains
    rcases h_contains with h_eq | h_old
    · exact .inl (by simpa using h_eq.symm : c.left = size).symm
    · exact .inr h_old

/-- The bracket opens no tag, whatever the level. -/
def Fails (opened : List Tag) (text : List Char) : Prop :=
  ∃ calm l, TagAt calm l opened text none

/-- What is remembered of the places ahead, as far as the last `b` characters of the text, is
    true. -/
def Sound (opened : List Tag) (text : List Char) (b : Nat) (notes : Notes) : Prop :=
  ∀ opened' place, Visits opened text opened' place → b < place.length →
    Failed notes (byteLength place) → Fails opened' place

/-- What is remembered anew is true, and about places ahead. -/
def Learns (opened : List Tag) (text : List Char) (b : Nat) (notes notes' : Notes) : Prop :=
  ∀ size, Failed notes' size → Failed notes size ∨
    ∃ opened' place, Visits opened text opened' place ∧ b < place.length ∧ Fails opened' place ∧
      byteLength place = size

/-- The places ahead here are among the places ahead there. -/
def Within (opened₁ : List Tag) (text₁ : List Char) (b₁ : Nat) (opened : List Tag)
    (text : List Char) (b : Nat) : Prop :=
  ∀ opened' place, Visits opened₁ text₁ opened' place → b₁ < place.length →
    Visits opened text opened' place ∧ b < place.length

section Memory

variable {opened opened₁ : List Tag} {text text₁ : List Char} {b b₁ : Nat}
  {notes notes' notes'' : Notes}

theorem Sound.mono (h : Sound opened text b notes)
    (h_within : Within opened₁ text₁ b₁ opened text b) :
    Sound opened₁ text₁ b₁ notes := by
  intro opened' place h_visits h_before
  obtain ⟨h_visits', h_before'⟩ := h_within opened' place h_visits h_before
  exact h opened' place h_visits' h_before'

theorem Learns.refl : Learns opened text b notes notes :=
  fun _ h => .inl h

theorem Learns.mono (h : Learns opened₁ text₁ b₁ notes notes')
    (h_within : Within opened₁ text₁ b₁ opened text b) : Learns opened text b notes notes' := by
  intro size h_failed
  rcases h size h_failed with h_old | ⟨opened', place, h_visits, h_before, h_new⟩
  · exact .inl h_old
  · obtain ⟨h_visits', h_before'⟩ := h_within opened' place h_visits h_before
    exact .inr ⟨opened', place, h_visits', h_before', h_new⟩

theorem Learns.trans (h : Learns opened text b notes notes')
    (h' : Learns opened text b notes' notes'') : Learns opened text b notes notes'' := by
  intro size h_failed
  rcases h' size h_failed with h_old | h_new
  · exact h size h_old
  · exact .inr h_new

/-- A part that leaves the memory as it is, or learns of places ahead. -/
theorem Learns.of_part {P : Prop} (h : notes' = notes ∨ P ∧ Learns opened₁ text₁ b₁ notes notes')
    (h_within : P → Within opened₁ text₁ b₁ opened text b) : Learns opened text b notes notes' := by
  rcases h with rfl | ⟨h_part, h_learns⟩
  · exact .refl
  · exact h_learns.mono (h_within h_part)

theorem eq_of_suffix {place place' : List Char} (h : place <:+ place')
    (h_size : byteLength place = byteLength place') : place = place' := by
  -- Every character takes a byte at least, so an end of a text that takes as many bytes is whole.
  obtain ⟨first, rfl⟩ := h
  rw [Text.byteLength_append] at h_size
  have h_zero : byteLength first = 0 := by omega
  rw [Text.byteLength_eq_zero_iff.1 h_zero, List.nil_append]

/-- Two ends of a text that take as many bytes are the same. -/
theorem eq_of_byteLength_eq {place place' : List Char} (h : ∃ taken, text = taken ++ place)
    (h' : ∃ taken, text = taken ++ place') (h_size : byteLength place = byteLength place') :
    place = place' := by
  obtain ⟨taken, h_text⟩ := h
  obtain ⟨taken', h_text'⟩ := h'
  rcases List.suffix_or_suffix_of_suffix (⟨taken, h_text.symm⟩ : place <:+ text)
    ⟨taken', h_text'.symm⟩ with h_suffix | h_suffix
  · exact eq_of_suffix h_suffix h_size
  · exact (eq_of_suffix h_suffix h_size.symm).symm

/-- What is learned on the way leaves the memory sound: a place on the way is tried with the same
    tags open each time. -/
theorem Sound.learns (h : Sound opened text b notes)
    (h_learns : Learns opened text b₁ notes notes') :
    Sound opened text b notes' := by
  intro opened' place h_visits h_before h_failed
  rcases h_learns _ h_failed with h_old | ⟨opened₂, place₂, h_visits₂, -, h_fails, h_size⟩
  · exact h opened' place h_visits h_before h_old
  · obtain rfl := eq_of_byteLength_eq h_visits₂.split.1 h_visits.split.1 h_size
    -- The memory keeps a place without its tags; the tags are those of the only visit.
    rw [h_visits.unique h_visits₂]
    exact h_fails

theorem Within.trans {opened₂ : List Tag} {text₂ : List Char} {b₂ : Nat}
    (h : Within opened₂ text₂ b₂ opened₁ text₁ b₁) (h' : Within opened₁ text₁ b₁ opened text b) :
    Within opened₂ text₂ b₂ opened text b := by
  intro opened' place h_visits h_before
  obtain ⟨h_visits, h_before⟩ := h opened' place h_visits h_before
  exact h' opened' place h_visits h_before

theorem Within.le (h_le : b ≤ b₁) : Within opened text b₁ opened text b :=
  fun _ _ h_visits h_before => ⟨h_visits, Nat.lt_of_le_of_lt h_le h_before⟩

theorem Within.char {c : Char} (h_char : c ≠ '[') : Within opened text b opened (c :: text) b :=
  fun _ _ h_visits h_before => ⟨.char h_char h_visits, h_before⟩

theorem Within.letters {letters : List Char} (h_letters : ∀ c ∈ letters, c ≠ '[') :
    Within opened text b opened (letters ++ text) b :=
  fun _ _ h_visits h_before => ⟨h_visits.letters h_letters, h_before⟩

theorem Within.skip {calm : Bool} {l : Nat} (h_ending : NoEnding opened ('[' :: text))
    (h_tag : TagAt calm l opened ('[' :: text) none) :
    Within opened text b opened ('[' :: text) b :=
  fun _ _ h_visits h_before => ⟨.skip h_ending h_tag h_visits, h_before⟩

theorem Within.after {calm : Bool} {l : Nat} {node : Node} {next : List Char}
    (h_tag : TagAt calm l opened text (some (node, next))) : Within opened next b opened text b :=
  fun _ _ h_visits h_before => ⟨.after h_tag h_visits, h_before⟩

/-- What follows the rest of a word is ahead of the word. -/
theorem Within.afterWord {inGroup : Bool} :
    Within opened (afterWord inGroup text) b opened text b := by
  have h_letters : ∀ c ∈ wordTail inGroup text, c ≠ '[' := fun c hc =>
    ne_open_of_word (Bracket.endsWord_of_mem_wordTail c hc)
  have h_within : Within opened (Bracket.afterWord inGroup text) b opened _ b :=
    .letters h_letters
  rwa [Bracket.wordTail_append_afterWord] at h_within

/-- What follows the name of a tag that is tried in vain is ahead of the tag. -/
theorem Within.name {calm : Bool} {l : Nat} {name : String} {after : List Char}
    (h_open : Opening text name after) (h_ending : NoEnding opened ('[' :: text))
    (h_tag : TagAt calm l opened ('[' :: text) none) :
    Within opened after b opened ('[' :: text) b := by
  have h_letters : Within opened after b opened _ b := .letters (ne_open_of_opening h_open)
  rw [← h_open.split] at h_letters
  exact h_letters.trans (.skip h_ending h_tag)

/-- The attributes of a tag are ahead of the tag. -/
theorem Within.header {calm : Bool} {l : Nat} {name : String} {after openEnd : List Char}
    {attributes : List Node} {raw : Bool} (h_open : Opening text name after)
    (h_name : keepsRaw (Tag.resolve? name) = raw)
    (h_header : HeaderAt calm l opened raw after (some (attributes, openEnd)))
    (h_raw : raw = false) (h_le : b ≤ openEnd.length) :
    Within opened after openEnd.length opened ('[' :: text) b := by
  intro opened' place h_visits h_before
  subst h_raw
  cases h_header with
  | listed h_items =>
    exact ⟨.header h_open h_name h_items h_before h_visits, Nat.lt_of_le_of_lt h_le h_before⟩

/-- The children of a tag are ahead of the tag. -/
theorem Within.child {calm : Bool} {l : Nat} {name : String} {after openEnd stop : List Char}
    {meaning : Tag.Resolved} {attributes : List Node} {pieces : List Piece} {closed : Bool}
    (h_open : Opening text name after) (h_name : Tag.resolve? name = some meaning)
    (h_header : HeaderAt calm l opened meaning.tag.rawAttribute after
      (some (attributes, openEnd)))
    (h_kind : meaning.tag.kind = .container)
    (h_pieces : PiecesAt calm l (meaning.tag :: opened) openEnd pieces closed stop) :
    Within (meaning.tag :: opened) openEnd 0 opened ('[' :: text) stop.length := by
  intro opened' place h_visits _
  -- However far a try among the children looks ahead, the places that count are before their end.
  have h_before := h_pieces.visits_before _ _ h_visits
  exact ⟨.child h_open h_name h_header h_kind h_pieces h_before h_visits, h_before⟩

theorem noEnding_of_opening {name : String} {after : List Char} (h_open : Opening text name after) :
    NoEnding opened ('[' :: text) :=
  noEnding_of_not_closing fun _ _ h_closing => h_closing.not_opening _ _ h_open

end Memory

mutual

/-- What follows a list of attributes or members is ahead of it. -/
theorem ItemsAt.within {calm : Bool} {l : Nat} {inGroup : Bool} {opened : List Tag}
    {text : List Char} {outcome : Option (List Node × List Char)} :
    ItemsAt calm l inGroup opened text outcome →
      ∀ found ∈ outcome, ∀ b, Within opened found.2 b opened text b
  | .nil => fun _ h_found => absurd h_found (by simp)
  | .blank h_blank h_items => fun found h_found b =>
    (h_items.within found h_found b).trans (.char (ne_open_of_isBlank h_blank))
  | .close h_closing => by
    rintro _ ⟨⟩ b
    exact .char (h_closing ▸ closingOf_ne_open _)
  | .bracket => fun _ h_found => absurd h_found (by simp)
  | .closer _ => fun _ h_found => absurd h_found (by simp)
  | .item h_item h_items h_outcome => by
    have ih_item := h_item.within
    have ih_items := h_items.within
    intro found h_found b
    rw [h_outcome] at h_found
    obtain ⟨inner, h_inner, rfl⟩ := Option.map_eq_some_iff.1 h_found
    exact (ih_items inner h_inner b).trans (ih_item _ rfl b)
  | .itemFails _ => fun _ h_found => absurd h_found (by simp)

theorem ItemAt.within {calm : Bool} {l : Nat} {inGroup : Bool} {opened : List Tag}
    {text : List Char} {outcome : Option (Node × List Char)} :
    ItemAt calm l inGroup opened text outcome →
      ∀ found ∈ outcome, ∀ b, Within opened found.2 b opened text b
  | .word h_word _ => by
    rintro _ ⟨⟩ b
    exact Within.afterWord.trans (.char (ne_open_of_word h_word))
  | .bracket h_closer h_tag => by
    rintro _ ⟨⟩ b
    exact Within.afterWord.trans (.skip (noEnding_of_not_closing h_closer) h_tag)
  | .tag h_tag => by
    rintro _ ⟨⟩ b
    exact .after h_tag
  | .group h_items => by
    have ih := h_items.within
    rintro _ ⟨⟩ b
    exact (ih _ rfl b).trans (.char (by decide))
  | .groupFails _ => fun _ h_found => absurd h_found (by simp)

end

/-! ## Where a list of attributes ends -/

/-- Places are told apart from the end of the list on if the list, and every group around this
    place, is known to end there; otherwise from the end of the text on. -/
def Horizon (opened : List Tag) (n : Nat) (b : Nat) (text : List Char) : Prop :=
  b = 0 ∨ ∃ stop, Run opened n false text (some stop) ∧ b = stop.length

section Horizon

variable {calm : Bool} {l n b : Nat} {inGroup : Bool} {opened : List Tag} {text next : List Char}

theorem Horizon.le (h : Horizon opened n b text) : b ≤ text.length := by
  rcases h with rfl | ⟨stop, h_run, rfl⟩
  · exact Nat.zero_le _
  · exact h_run.length_le

theorem Horizon.imp {m : Nat} (h : Horizon opened n b text)
    (h_run : ∀ stop, Run opened n false text (some stop) → Run opened m false next (some stop)) :
    Horizon opened m b next := by
  rcases h with rfl | ⟨stop, h_stop, rfl⟩
  · exact .inl rfl
  · exact .inr ⟨stop, h_run stop h_stop, rfl⟩

theorem Horizon.enter {text : List Char} (h : Horizon opened n b ('(' :: text)) :
    Horizon opened (n + 1) b text :=
  h.imp fun stop => (Run.go_iff (by decide) (step_enter n)).1

theorem Horizon.item {node : Node} (h : Horizon opened n b text)
    (h_item : ItemAt calm l inGroup opened text (some (node, next)))
    (h_group : inGroup = decide (n ≠ 0)) : Horizon opened n b next :=
  h.imp fun stop => (h_item.run_iff n (some stop) h_group).1

end Horizon

/-! ## The reader follows the rules -/

/-- What was read, and the place after it. -/
def toPlace {α : Type} (found : α × List Char) : α × Cursor :=
  (found.1, Cursor.ofList found.2)

/-- The characters after what was read. -/
def remaining {α : Type} : Option (α × List Char) → Nat
  | none => 0
  | some found => found.2.length

section Tag

variable {calm : Bool} {l : Nat} {opened : List Tag} {text after : List Char} {name : String}
  {notes notes' : Notes}

/-- A remembered bracket is passed, and rightly so. -/
theorem TagAt.follows_failed {outcome : Option (Node × List Char)}
    (h_tag : TagAt calm l opened ('[' :: text) outcome) (h_ending : NoEnding opened ('[' :: text))
    (h_sound : Sound opened ('[' :: text) (remaining outcome) notes)
    (h_failed : notes.hasFailed (Cursor.ofList ('[' :: text)) = true) : outcome = none := by
  cases outcome with
  | none => rfl
  | some found =>
    have h_before : remaining (some found) < ('[' :: text).length := h_tag.length_lt
    -- What is remembered of this bracket is true, and the rules give a bracket one outcome only.
    obtain ⟨calm', l', h_none⟩ := h_sound _ _ (.here h_ending) h_before h_failed
    exact h_tag.functional _ _ _ h_none

/-- An opener that does not end is remembered. -/
theorem tag_unended (h_open : Opening text name after)
    (h_failed : notes.hasFailed (Cursor.ofList ('[' :: text)) = false)
    (h_header : Reader.header (openers l) (keepsRaw (Tag.resolve? name)) opened
      (Cursor.ofList after) notes = (none, notes')) :
    ∃ notes'', (openers (l + 1)).tag opened (Cursor.ofList ('[' :: text)) notes = (none, notes'') ∧
      ∀ size, Failed notes'' size → size = byteLength ('[' :: text) ∨ Failed notes' size := by
  cases h_name : Tag.resolve? name with
  | none =>
    rw [h_name] at h_header
    refine ⟨_, (Reader.tag_unknown l h_failed h_open h_name).trans
      (Reader.unknownTag_none h_header), fun size h_size => ?_⟩
    exact failed_of_fail h_size
  | some meaning =>
    rw [h_name] at h_header
    refine ⟨_, (Reader.tag_known l h_failed h_open h_name).trans
      (Reader.knownTag_none h_header), fun size h_size => ?_⟩
    exact failed_of_fail h_size

/-- Among attributes that come to their end, a bracket is tried in vain without a look at what
    follows: it opens no tag, or its attributes are raw. -/
theorem TagAt.follows_inside {n : Nat} {mid : Bool} {stop : List Char}
    (h_tag : TagAt calm l opened ('[' :: text) none)
    (h_closer : ∀ tag after, ¬ Closing ('[' :: text) tag after)
    (h_run : Run opened n mid ('[' :: text) (some stop)) :
    ∃ notes', (openers l).tag opened (Cursor.ofList ('[' :: text)) notes = (none, notes') ∧
      Learns opened ('[' :: text) stop.length notes notes' ∧ (calm = true → notes' = notes) := by
  have h_tag' := h_tag
  cases h_tag with
  | noOpener h_open => exact ⟨notes, Reader.tag_noOpener l h_open, .refl, fun _ => rfl⟩
  | unended h_calm h_open h_header =>
    -- Had it listed attributes, they would have ended with those around them.
    have h_raw := h_run.not_listed h_open h_tag'
    rw [h_raw] at h_header
    cases h_header with
    | rawFails h_none =>
      cases h_failed : notes.hasFailed (Cursor.ofList ('[' :: text)) with
      | true => exact ⟨notes, Reader.tag_hasFailed _ h_failed, .refl, fun _ => rfl⟩
      | false =>
        rename_i k after name
        have h_header : Reader.header (openers k) (keepsRaw (Tag.resolve? name)) opened
            (Cursor.ofList after) notes = (none, notes) := by
          rw [h_raw]
          exact Prod.ext (Bracket.rawAttribute?_eq_none_iff.2 h_none) rfl
        obtain ⟨notes', h_read, h_new⟩ := tag_unended h_open h_failed h_header
        refine ⟨notes', h_read, fun size h_size => ?_, fun h => ?_⟩
        · rcases h_new size h_size with h_here | h_old
          · have h_le := ((Run.word_iff h_closer h_tag').1 h_run).length_le
            refine .inr ⟨_, _, .here (noEnding_of_opening h_open), ?_, ⟨_, _, h_tag'⟩, h_here.symm⟩
            rw [List.length_cons]
            omega
          · exact .inl h_old
        · rw [h] at h_calm
          exact absurd h_calm (by decide)

end Tag

theorem byteLength_lt {text next : List Char} (h : ∃ c taken, text = c :: (taken ++ next)) :
    byteLength next < byteLength text := by
  obtain ⟨c, taken, rfl⟩ := h
  have h_pos := c.utf8Size_pos
  rw [Text.byteLength_cons, Text.byteLength_append]
  omega

/-- The children of a tag that holds children are pieces. -/
theorem BodyAt.inside_of {calm : Bool} {l : Nat} {opened : List Tag} {tag : Tag}
    {text stop : List Char} {children : List Node}
    (h : BodyAt calm l opened tag text children stop) (h_kind : tag.kind = .container) :
    ∃ pieces closed, PiecesAt calm l (tag :: opened) text pieces closed stop := by
  cases h with
  | bare h_kind' | stored h_kind' =>
    rw [h_kind] at h_kind'
    exact absurd h_kind' (by decide)
  | inside _ h_pieces => exact ⟨_, _, h_pieces⟩

mutual

/-- A tag is read as the rules say. -/
theorem TagAt.follows {calm : Bool} {l : Nat} {opened : List Tag} {text : List Char}
    {outcome : Option (Node × List Char)} :
    TagAt calm l opened text outcome → NoEnding opened text → ∀ notes : Notes,
      Sound opened text (remaining outcome) notes →
        ∃ notes', (openers l).tag opened (Cursor.ofList text) notes =
            (outcome.map toPlace, notes') ∧
          Learns opened text (remaining outcome) notes notes' ∧ (calm = true → notes' = notes)
  | .noOpener h_open => fun _ notes _ =>
    ⟨notes, Reader.tag_noOpener _ h_open, .refl, fun _ => rfl⟩
  | @TagAt.unended _ _ _ text _ _ h_calm h_open h_header => by
    have ih := h_header.follows
    intro h_ending notes h_sound
    have h_tag := TagAt.unended h_calm h_open h_header
    cases h_failed : notes.hasFailed (Cursor.ofList ('[' :: text)) with
    | true => exact ⟨notes, Reader.tag_hasFailed _ h_failed, .refl, fun _ => rfl⟩
    | false =>
      -- What the header learns is kept, and the bracket itself is learned.
      have h_within := Within.name (b := 0) h_open h_ending h_tag
      obtain ⟨notes₁, h_read₁, h_new₁, -⟩ := ih notes fun _ => h_sound.mono h_within
      have h_learns₁ : Learns opened ('[' :: text) 0 notes notes₁ :=
        .of_part h_new₁ fun _ => h_within
      obtain ⟨notes₂, h_read₂, h_new₂⟩ := tag_unended h_open h_failed h_read₁
      refine ⟨notes₂, h_read₂, fun size h_size => ?_, fun h => ?_⟩
      · rcases h_new₂ size h_size with h_here | h_old
        · exact .inr ⟨_, _, .here h_ending, Nat.succ_pos _, ⟨_, _, h_tag⟩, h_here.symm⟩
        · exact h_learns₁ size h_old
      · rw [h] at h_calm
        exact absurd h_calm (by decide)
  | @TagAt.unknown _ _ _ text _ _ _ _ name _ h_calm h_open h_name h_header h_stop h_text => by
    have ih := h_header.follows
    intro h_ending notes h_sound
    have h_tag := TagAt.unknown h_calm h_open h_name h_header h_stop h_text
    have h_raw : keepsRaw (Tag.resolve? name) = false := by rw [h_name]; rfl
    cases h_failed : notes.hasFailed (Cursor.ofList ('[' :: text)) with
    | true => exact absurd (h_tag.follows_failed h_ending h_sound h_failed) (by simp)
    | false =>
      have h_within := Within.header h_open h_raw h_header rfl
        (h_tag.length_le h_open h_raw h_header)
      obtain ⟨notes₁, h_read₁, h_new₁, -⟩ := ih notes fun _ => h_sound.mono h_within
      -- The tag is noted, which is no memory of a bracket.
      have h_learns : Learns opened ('[' :: text) _ notes notes₁ :=
        .of_part h_new₁ fun _ => h_within
      refine ⟨_, (Reader.tag_unknown _ h_failed h_open h_name).trans
        (Reader.unknownTag_some h_read₁ h_stop h_text), h_learns, fun h => ?_⟩
      rw [h] at h_calm
      exact absurd h_calm (by decide)
  | @TagAt.known _ _ _ text _ _ stop name meaning _ _ h_open h_name h_header h_body => by
    have ih_header := h_header.follows
    have ih_body := h_body.follows
    intro h_ending notes h_sound
    have h_tag := TagAt.known h_open h_name h_header h_body
    have h_raw := keepsRaw_eq h_name
    cases h_failed : notes.hasFailed (Cursor.ofList ('[' :: text)) with
    | true => exact absurd (h_tag.follows_failed h_ending h_sound h_failed) (by simp)
    | false =>
      have h_le := h_tag.length_le h_open h_raw h_header
      have h_within := fun h_listed => Within.header h_open h_raw h_header h_listed h_le
      -- The header is read with the memory as it is, the body with what the header has learned.
      obtain ⟨notes₁, h_read₁, h_new₁, h_calm₁⟩ := ih_header notes fun h_listed =>
        h_sound.mono (h_within h_listed)
      have h_learns₁ : Learns opened ('[' :: text) stop.length notes notes₁ :=
        .of_part h_new₁ h_within
      have h_sound₁ := h_sound.learns h_learns₁
      obtain ⟨notes₂, h_read₂, h_new₂, h_calm₂⟩ := ih_body notes₁ name
        (meaning.implied.map .text ++ _) (Cursor.ofList ('[' :: text)) fun h_kind => by
          obtain ⟨pieces, closed, h_pieces⟩ := h_body.inside_of h_kind
          exact h_sound₁.mono (Within.child h_open h_name h_header h_kind h_pieces)
      refine ⟨notes₂, (Reader.tag_known _ h_failed h_open h_name).trans
        (Reader.knownTag_some h_read₁ h_read₂), ?_, fun h => ?_⟩
      · rcases h_new₂ with rfl | ⟨h_kind, pieces, closed, h_pieces, h_learns⟩
        · exact h_learns₁
        · exact h_learns₁.trans
            (h_learns.mono (Within.child h_open h_name h_header h_kind h_pieces))
      · rw [h_calm₂ h, h_calm₁ h]

/-- What follows the name of a tag is read as the rules say. -/
theorem HeaderAt.follows {calm : Bool} {l : Nat} {opened : List Tag} {raw : Bool}
    {text : List Char} {outcome : Option (List Node × List Char)} :
    HeaderAt calm l opened raw text outcome → ∀ notes : Notes,
      (raw = false → Sound opened text (remaining outcome) notes) →
        ∃ notes', Reader.header (openers l) raw opened (Cursor.ofList text) notes =
            (outcome.map toPlace, notes') ∧
          (notes' = notes ∨ raw = false ∧ Learns opened text (remaining outcome) notes notes') ∧
          (calm = true → notes' = notes)
  | .raw h_raw => fun notes _ =>
    ⟨notes, Prod.ext (Bracket.rawAttribute?_of_rawOpening h_raw) rfl, .inl rfl, fun _ => rfl⟩
  | .rawFails h_raw => fun notes _ =>
    ⟨notes, Prod.ext (Bracket.rawAttribute?_eq_none_iff.2 h_raw) rfl, .inl rfl, fun _ => rfl⟩
  | @HeaderAt.listed _ _ _ after outcome h_items => by
    have ih := h_items.follows
    intro notes h_sound
    -- Attributes that end are told apart from their end on, others from the end of the text on.
    have h_horizon : Horizon opened 0 (remaining outcome) after := by
      have h_iff := h_items.run_iff 0
      cases outcome with
      | none => exact .inl rfl
      | some found => exact .inr ⟨found.2, (h_iff (some found.2) rfl).2 rfl, rfl⟩
    obtain ⟨notes', h_read, h_learns, h_calm⟩ :=
      ih notes 0 _ [] [] rfl h_horizon (h_sound rfl) nofun
    refine ⟨notes', ?_, .inr ⟨rfl, h_learns⟩, h_calm⟩
    exact h_read

/-- Attributes and members are read as the rules say. -/
theorem ItemsAt.follows {calm : Bool} {l : Nat} {inGroup : Bool} {opened : List Tag}
    {text : List Char} {outcome : Option (List Node × List Char)} :
    ItemsAt calm l inGroup opened text outcome →
      ∀ (notes : Notes) (n b : Nat) (found : List Node) (blanks : List Char),
        inGroup = decide (n ≠ 0) → Horizon opened n b text → Sound opened text b notes →
          (∀ c ∈ blanks, isBlank c = true) →
            ∃ notes', Reader.items (closingOf inGroup) (Reader.item (openers l) inGroup opened)
                found (Cursor.ofList (blanks ++ text)) notes =
                (outcome.map fun f => (found.reverse ++ f.1, Cursor.ofList f.2), notes') ∧
              Learns opened text b notes notes' ∧ (calm = true → notes' = notes)
  | .nil => by
    intro notes n b found blanks _ _ _ h_blanks
    have h_skip := Reader.skipBlank_blanks h_blanks
    rw [List.append_nil]
    exact ⟨notes, Reader.items_nil h_skip, .refl, fun _ => rfl⟩
  | .blank (c := c) h_blank h_items => by
    have ih := h_items.follows
    intro notes n b found blanks h_group h_horizon h_sound h_blanks
    have h_char := ne_open_of_isBlank h_blank
    have h_next := h_horizon.imp fun stop =>
      (Run.go_iff h_char (step_blank h_blank n false)).1
    obtain ⟨notes', h_read, h_learns, h_calm⟩ := ih notes n b found (blanks ++ [c]) h_group h_next
      (h_sound.mono (.char h_char)) (by simpa [or_imp, forall_and] using ⟨h_blanks, h_blank⟩)
    refine ⟨notes', ?_, h_learns.mono (.char h_char), h_calm⟩
    rw [← h_read, List.append_assoc]
    rfl
  | .close h_closing => by
    intro notes n b found blanks h_group _ _ h_blanks
    subst h_closing
    have h_skip := Reader.skipBlank_append h_blanks (isBlank_closingOf inGroup)
    refine ⟨notes, ?_, .refl, fun _ => rfl⟩
    rw [Reader.items_close (h_skip _), Option.map_some, List.append_nil]
  | .bracket => by
    intro notes n b found blanks _ _ _ h_blanks
    have h_skip := Reader.skipBlank_append h_blanks (c := ']') (by decide)
    exact ⟨notes, Reader.items_bracket (h_skip _) (by decide), .refl, fun _ => rfl⟩
  | .closer h_closing => by
    intro notes n b found blanks _ _ _ h_blanks
    obtain ⟨rest, rfl⟩ := closing_starts h_closing
    have h_skip := Reader.skipBlank_append h_blanks (c := '[') (by decide)
    exact ⟨notes, Reader.items_fail (h_skip _) (closingOf_ne_open _).symm (by decide)
      (Reader.item_closer h_closing), .refl, fun _ => rfl⟩
  | @ItemsAt.item _ _ _ _ _ _ node _ _ h_item h_items h_outcome => by
    have ih_item := h_item.follows
    have ih_items := h_items.follows
    -- The rest of the list is read with what its first item has learned.
    have h_ahead := h_item.within _ rfl
    intro notes n b found blanks h_group h_horizon h_sound h_blanks
    obtain ⟨c, rest, h_text, h_at⟩ := h_item.atItem
    obtain ⟨notes₁, h_read₁, h_learns₁, h_calm₁⟩ := ih_item notes n b h_group h_horizon h_sound
    have h_sound₁ := (h_sound.learns h_learns₁).mono (h_ahead b)
    obtain ⟨notes₂, h_read₂, h_learns₂, h_calm₂⟩ := ih_items notes₁ n b (node :: found) [] h_group
      (h_horizon.item h_item h_group) h_sound₁ nofun
    have h_lt := byteLength_lt (h_item.split _ rfl)
    subst h_text
    have h_skip := Reader.skipBlank_append h_blanks h_at.not_blank rest
    refine ⟨notes₂, ?_, h_learns₁.trans (h_learns₂.mono (h_ahead b)), fun h => ?_⟩
    · rw [Reader.items_item h_skip h_at.ne_closing h_at.ne_bracket h_read₁ h_lt]
      refine h_read₂.trans (Prod.ext ?_ rfl)
      rw [h_outcome, Option.map_map]
      refine Option.map_congr fun f _ => ?_
      simp
    · rw [h_calm₂ h, h_calm₁ h]
  | .itemFails h_item => by
    have ih_item := h_item.follows
    intro notes n b found blanks h_group h_horizon h_sound h_blanks
    obtain ⟨c, rest, h_text, h_at⟩ := h_item.atItem
    obtain ⟨notes', h_read, h_learns, h_calm⟩ := ih_item notes n b h_group h_horizon h_sound
    subst h_text
    have h_skip := Reader.skipBlank_append h_blanks h_at.not_blank rest
    exact ⟨notes', Reader.items_fail h_skip h_at.ne_closing h_at.ne_bracket h_read, h_learns,
      h_calm⟩

/-- An attribute or a member is read as the rules say. -/
theorem ItemAt.follows {calm : Bool} {l : Nat} {inGroup : Bool} {opened : List Tag}
    {text : List Char} {outcome : Option (Node × List Char)} :
    ItemAt calm l inGroup opened text outcome → ∀ (notes : Notes) (n b : Nat),
      inGroup = decide (n ≠ 0) → Horizon opened n b text → Sound opened text b notes →
        ∃ notes', Reader.item (openers l) inGroup opened (Cursor.ofList text) notes =
            (outcome.map toPlace, notes') ∧
          Learns opened text b notes notes' ∧ (calm = true → notes' = notes)
  | .word h_word h_paren => by
    intro notes n b _ _ _
    refine ⟨notes, ?_, .refl, fun _ => rfl⟩
    rw [Reader.item_word (ne_open_of_word h_word) h_paren, Bracket.word_ofList_cons]
    rfl
  | @ItemAt.bracket _ _ _ _ text h_closer h_tag => by
    have ih := h_tag.follows
    intro notes n b h_group h_horizon h_sound
    -- Where the list is known to end, the try may look past its end; then only raw text is tried.
    have h_try : ∃ notes', (openers l).tag opened (Cursor.ofList ('[' :: text)) notes =
        (none, notes') ∧ Learns opened ('[' :: text) b notes notes' ∧
          (calm = true → notes' = notes) := by
      rcases h_horizon with rfl | ⟨stop, h_run, rfl⟩
      · exact ih (noEnding_of_not_closing h_closer) notes h_sound
      · exact h_tag.follows_inside h_closer h_run
    obtain ⟨notes', h_read, h_learns, h_calm⟩ := h_try
    refine ⟨notes', ?_, h_learns, h_calm⟩
    rw [Reader.item_bracket h_closer h_read, Bracket.word_ofList_cons]
    rfl
  | @ItemAt.tag _ _ _ _ _ next _ h_tag => by
    have ih := h_tag.follows
    intro notes n b h_group h_horizon h_sound
    have h_closer := h_tag.not_closing
    -- The tag ends before the list does, so places up to the end of the tag are told apart here.
    have h_le : b ≤ next.length :=
      (h_horizon.imp fun stop => (Run.tag_iff h_tag).1 : Horizon opened n b next).le
    obtain ⟨notes', h_read, h_learns, h_calm⟩ :=
      ih (noEnding_of_not_closing h_closer) notes (h_sound.mono (.le h_le))
    obtain ⟨taken, h_text⟩ := h_tag.split _ rfl
    refine ⟨notes', ?_, h_learns.mono (.le h_le), h_calm⟩
    subst h_text
    exact Reader.item_tag h_closer h_read
  | .group h_items => by
    have ih := h_items.follows
    intro notes n b h_group h_horizon h_sound
    have h_char : '(' ≠ '[' := by decide
    obtain ⟨notes', h_read, h_learns, h_calm⟩ :=
      ih notes (n + 1) b [] [] (by simp) h_horizon.enter (h_sound.mono (.char h_char)) nofun
    refine ⟨notes', ?_, h_learns.mono (.char h_char), h_calm⟩
    exact (Reader.item_group rfl).trans (Reader.group_some h_read)
  | .groupFails h_items => by
    have ih := h_items.follows
    intro notes n b h_group h_horizon h_sound
    have h_char : '(' ≠ '[' := by decide
    obtain ⟨notes', h_read, h_learns, h_calm⟩ :=
      ih notes (n + 1) b [] [] (by simp) h_horizon.enter (h_sound.mono (.char h_char)) nofun
    refine ⟨notes', ?_, h_learns.mono (.char h_char), h_calm⟩
    exact (Reader.item_group rfl).trans (Reader.group_none h_read)

/-- What follows the opener of a tag is read as the rules say. -/
theorem BodyAt.follows {calm : Bool} {l : Nat} {opened : List Tag} {tag : Tag}
    {text stop : List Char} {children : List Node} :
    BodyAt calm l opened tag text children stop →
      ∀ (notes : Notes) (name : String) (attributes : List Node) (c : Cursor),
        (tag.kind = .container → Sound (tag :: opened) text 0 notes) →
          ∃ notes', Reader.body (openers l) opened name tag attributes c (Cursor.ofList text)
              notes = ((.element tag.name attributes children, Cursor.ofList stop), notes') ∧
            (notes' = notes ∨ tag.kind = .container ∧
              ∃ pieces closed, PiecesAt calm l (tag :: opened) text pieces closed stop ∧
                Learns (tag :: opened) text 0 notes notes') ∧
            (calm = true → notes' = notes)
  | .bare h_kind h_stored => fun notes _ _ _ _ =>
    ⟨notes, Reader.body_bare h_kind h_stored, .inl rfl, fun _ => rfl⟩
  | .stored h_kind h_stores h_stored => fun notes _ _ _ _ =>
    ⟨notes, Reader.body_stored h_kind h_stores h_stored, .inl rfl, fun _ => rfl⟩
  | .inside h_kind h_pieces h_closed => by
    have ih := h_pieces.follows
    intro notes name attributes c h_sound
    obtain ⟨notes₁, h_read, h_learns, h_calm⟩ := ih notes [] [] (h_sound h_kind)
    refine ⟨_, Reader.body_inside h_kind h_read, .inr ⟨h_kind, _, _, h_pieces, ?_⟩, fun h => ?_⟩
    -- A note on a missing closer is no memory of a bracket.
    · dsimp only
      split
      · exact h_learns
      · exact fun size h_size => h_learns size h_size
    · dsimp only
      rw [if_pos (h_closed h), h_calm h]

/-- Pieces are read as the rules say. -/
theorem PiecesAt.follows {calm : Bool} {l : Nat} {opened : List Tag} {text stop : List Char}
    {pieces : List Piece} {closed : Bool} :
    PiecesAt calm l opened text pieces closed stop →
      ∀ (notes : Notes) (found : List Node) (plain : List Char), Sound opened text 0 notes →
        ∃ notes', Reader.siblings (openers l).tag opened found plain (Cursor.ofList text) notes =
            ⟨found.reverse ++ assemble plain.reverse pieces, closed, Cursor.ofList stop, notes'⟩ ∧
          Learns opened text 0 notes notes' ∧ (calm = true → notes' = notes)
  | .nil => fun notes found plain _ => by
    refine ⟨notes, ?_, .refl, fun _ => rfl⟩
    rw [Reader.siblings_nil, Reader.withPlain_reverse]
    rfl
  | .char h_char h_pieces => by
    have ih := h_pieces.follows
    intro notes found plain h_sound
    obtain ⟨notes', h_read, h_learns, h_calm⟩ := ih notes found (_ :: plain)
      (h_sound.mono (.char h_char))
    refine ⟨notes', ?_, h_learns.mono (.char h_char), h_calm⟩
    rw [Reader.siblings_char h_char, h_read, List.reverse_cons]
    rfl
  | .own h_closing h_own => fun notes found plain _ => by
    refine ⟨notes, ?_, .refl, fun _ => rfl⟩
    rw [Reader.siblings_own h_closing h_own, Reader.withPlain_reverse]
    rfl
  | .outer h_closing h_own h_outer => fun notes found plain _ => by
    refine ⟨notes, ?_, .refl, fun _ => rfl⟩
    rw [Reader.siblings_outer h_closing h_own h_outer, Reader.withPlain_reverse]
    rfl
  | @PiecesAt.bracket _ _ _ text _ _ _ h_ending h_tag h_pieces => by
    have ih_tag := h_tag.follows
    have ih_pieces := h_pieces.follows
    intro notes found plain h_sound
    have h_within := Within.skip (b := 0) h_ending h_tag
    obtain ⟨notes₁, h_read₁, h_learns₁, h_calm₁⟩ := ih_tag h_ending notes h_sound
    obtain ⟨notes₂, h_read₂, h_learns₂, h_calm₂⟩ := ih_pieces notes₁ found ('[' :: plain)
      ((h_sound.learns h_learns₁).mono h_within)
    refine ⟨notes₂, ?_, h_learns₁.trans (h_learns₂.mono h_within), fun h => ?_⟩
    · rw [Reader.siblings_bracket h_ending h_read₁, h_read₂, List.reverse_cons]
      rfl
    · rw [h_calm₂ h, h_calm₁ h]
  | @PiecesAt.node _ _ _ _ _ _ node _ _ h_tag h_pieces => by
    have ih_tag := h_tag.follows
    have ih_pieces := h_pieces.follows
    intro notes found plain h_sound
    have h_ending : NoEnding opened _ := noEnding_of_not_closing h_tag.not_closing
    have h_within := Within.after (b := 0) h_tag
    obtain ⟨notes₁, h_read₁, h_learns₁, h_calm₁⟩ := ih_tag h_ending notes
      (h_sound.mono (.le (Nat.zero_le _)))
    have h_learns₁ := h_learns₁.mono (.le (Nat.zero_le _))
    obtain ⟨notes₂, h_read₂, h_learns₂, h_calm₂⟩ := ih_pieces notes₁
      (node :: Reader.withPlain found plain) [] ((h_sound.learns h_learns₁).mono h_within)
    obtain ⟨taken, h_text⟩ := h_tag.split _ rfl
    have h_lt := byteLength_lt ⟨'[', taken, h_text⟩
    refine ⟨notes₂, ?_, h_learns₁.trans (h_learns₂.mono h_within), fun h => ?_⟩
    · subst h_text
      rw [Reader.siblings_tag h_ending h_read₁ h_lt]
      refine h_read₂.trans ?_
      rw [List.reverse_cons, Reader.withPlain_reverse]
      simp [assemble]
    · rw [h_calm₂ h, h_calm₁ h]

end

/-! ## Whole texts -/

/-- Nothing is remembered at the start of a text. -/
theorem not_failed_remembering (size : Nat) : ¬ Failed .remembering size := by
  simp [Failed, Notes.remembering]

theorem not_failed_forgetful (size : Nat) : ¬ Failed .forgetful size := by
  simp [Failed, Notes.forgetful]

/-- A text with a derivation is read as the derivation says, from any notes that remember
    nothing. -/
theorem run_eq {calm : Bool} {text : List Char} {pieces : List Piece} {start : Notes}
    (h_start : ∀ size, ¬ Failed start size)
    (h : PiecesAt calm nestingLimit [] text pieces false []) :
    ∃ notes, Reader.run start text = ⟨assemble [] pieces, false, Cursor.ofList [], notes⟩ ∧
      (calm = true → notes = start) := by
  have h_sound : Sound [] text 0 start :=
    fun _ _ _ _ h_failed => absurd h_failed (h_start _)
  obtain ⟨notes, h_read, -, h_calm⟩ := h.follows start [] [] h_sound
  exact ⟨notes, h_read, h_calm⟩

theorem parse_eq {calm : Bool} {source : String} {pieces : List Piece}
    (h : PiecesAt calm nestingLimit [] source.toList pieces false []) :
    Document.parse source = assemble [] pieces := by
  obtain ⟨notes, h_read, -⟩ := run_eq not_failed_remembering h
  rw [Document.parse, h_read]

/-- A text that is read calmly has no issue. -/
theorem diagnose_eq_nil {source : String} {pieces : List Piece}
    (h : PiecesAt true nestingLimit [] source.toList pieces false []) :
    Document.diagnose source = [] := by
  obtain ⟨notes, h_read, h_calm⟩ := run_eq not_failed_remembering h
  rw [Document.diagnose, Document.issues, h_read, h_calm rfl]
  rfl

end DiceMarkup.Rules
