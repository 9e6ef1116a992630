/-
  DiceMarkup.Proofs.Rereading

  The written form of a revised tree. A tree that was read from a text, revised
  and written, is read from the written text as it was revised, if its attributes
  are tidy. The text itself is alike to the written one, so that the step can be
  taken inside of a text as well as for the whole of it.

  The induction is on the length of the text that was read first. One step is
  `TagAt.rereads_step`; within it, lists and pieces are met by induction on their
  derivations.
-/
import DiceMarkup.Proofs.Locality
import DiceMarkup.Proofs.Revision

namespace DiceMarkup.Rules

open DiceMarkup.Bracket (Opening Closing RawOpening Stored IsResult openAfter rawText wordTail
  afterWord endsWord)
open Node (tidy tidyAll endsInCloser isUnrolled isRolled keepsText startsWithResult write writeAll
  writeSpaced opener closer)
open Text (isBlank)

/-! ## Runs without brackets -/

theorem noBracket_singleton {c : Char} (h_open : c ≠ '[') (h_close : c ≠ ']') : NoBracket [c] := by
  intro d hd
  rw [List.mem_singleton.1 hd]
  exact ⟨h_open, h_close⟩

theorem noBracket_blank {c : Char} (h_blank : isBlank c = true) : NoBracket [c] := by
  refine noBracket_singleton (ne_open_of_isBlank h_blank) ?_
  rintro rfl
  exact absurd h_blank (by decide)

theorem noBracket_of_endsWord {inGroup : Bool} {run : List Char}
    (h : ∀ c ∈ run, endsWord inGroup c = false) : NoBracket run := by
  intro c hc
  refine ⟨ne_open_of_word (h c hc), ?_⟩
  rintro rfl
  exact absurd (h _ hc) (by simp [endsWord])

theorem noBracket_nil : NoBracket [] :=
  fun _ h_mem => absurd h_mem (by simp)

theorem Alike.skip {run text text' : List Char} (h_run : NoBracket run) (h : Alike text text') :
    Alike (run ++ text) text' :=
  h.replace h_run noBracket_nil

theorem Alike.insert {run text text' : List Char} (h_run : NoBracket run) (h : Alike text text') :
    Alike text (run ++ text') :=
  h.replace noBracket_nil h_run

theorem Alike.run {run text text' : List Char} (h_run : NoBracket run) (h : Alike text text') :
    Alike (run ++ text) (run ++ text') :=
  h.replace h_run h_run

/-- The space before a written item makes no difference. -/
theorem Alike.of_space {text text' : List Char} (h : Alike text (' ' :: text')) :
    Alike text text' :=
  h.trans ((Alike.refl text').skip (noBracket_blank (by decide)))

/-! ## Words -/

theorem writeSpaced_append (as bs : List Node) :
    writeSpaced (as ++ bs) = writeSpaced as ++ writeSpaced bs := by
  induction as with
  | nil => rfl
  | cons a as ih =>
    rw [List.cons_append, writeSpaced, writeSpaced, ih]
    simp

theorem noBracket_of_isWord {inGroup : Bool} {word : List Char}
    (h : Place.isWord inGroup word = true) : NoBracket word :=
  noBracket_of_endsWord (isWord_iff.1 h).2.2

theorem noBracket_writeSpaced {words : List String}
    (h : ∀ word ∈ words, Place.isWord false word.toList = true) :
    NoBracket (writeSpaced (words.map .text)) := by
  induction words with
  | nil => exact noBracket_nil
  | cons word words ih =>
    have h_word := noBracket_of_isWord (h word List.mem_cons_self)
    have h_words := ih fun w hw => h w (List.mem_cons_of_mem _ hw)
    have h_space : NoBracket [' '] := noBracket_blank (by decide)
    rw [List.map_cons, writeSpaced, write]
    exact h_space.append (h_word.append h_words)

/-- Words before the items of a list are read as items too. -/
theorem itemsAt_words {l : Nat} {opened : List Tag} {words : List String} {nodes : List Node}
    {text : List Char} (h_words : ∀ word ∈ words, Place.isWord false word.toList = true)
    (h_items : ItemsAt false l false opened (writeSpaced nodes ++ ']' :: text)
      (some (nodes, text))) :
    ItemsAt false l false opened (writeSpaced (words.map .text ++ nodes) ++ ']' :: text)
      (some (words.map .text ++ nodes, text)) := by
  induction words with
  | nil => exact h_items
  | cons word words ih =>
    have h_rest := ih fun w hw => h_words w (List.mem_cons_of_mem _ hw)
    have h_end : IsItemEnd false (writeSpaced (words.map .text ++ nodes) ++ ']' :: text) :=
      isItemEnd_writeSpaced false _ text
    have h_item : ItemAt false l false opened _ _ :=
      itemAt_word (h_words word List.mem_cons_self) h_end.atWordEnd
    rw [List.map_cons, List.cons_append, writeSpaced, write, List.cons_append, List.append_assoc]
    exact .blank (by decide) (.item h_item h_rest rfl)

/-- Where an item is written, the characters up to the first end of a word are the item. -/
theorem eq_of_itemEnd {inGroup : Bool} {tail tail' run rest : List Char} {c : Char}
    (h_tail : ∀ d ∈ tail, endsWord inGroup d = false) (h_end : IsItemEnd inGroup tail')
    (h_run : ∀ d ∈ run, endsWord inGroup d = false) (h_char : endsWord inGroup c = true)
    (h : tail ++ tail' = run ++ c :: rest) : tail = run ∧ tail' = c :: rest := by
  have h_wordEnd := h_end.atWordEnd
  obtain ⟨d, rest', rfl, -⟩ := h_end
  have h_d : endsWord inGroup d = true := h_wordEnd _ _ rfl
  obtain ⟨h_same, rfl, rfl⟩ := Bracket.run_unique (p := fun x => !endsWord inGroup x)
    (fun x hx => by simp [h_tail x hx]) (by simp [h_d]) (fun x hx => by simp [h_run x hx])
    (by simp [h_char]) h
  exact ⟨h_same, rfl⟩

section Word

variable {inGroup : Bool} {tail tail' : List Char}

/-- A bracket and a written word after it are an opener only if they are one without its end. -/
theorem not_opening_word (h_tail : ∀ d ∈ tail, endsWord inGroup d = false)
    (h_end : IsItemEnd inGroup tail') (h_word : Place.isOpenerWord ('[' :: tail) = false)
    (name : String) (after : List Char) : ¬ Opening (tail ++ tail') name after := by
  rintro ⟨h_text, h_nonempty, h_letters, c, rest, rfl, h_ends⟩
  have h_char : endsWord inGroup c = true := by
    rcases h_ends with rfl | h_blank
    · simp [endsWord]
    · simp [endsWord, h_blank]
  obtain ⟨rfl, -⟩ := eq_of_itemEnd h_tail h_end
    (fun d hd => Bracket.endsWord_of_isAlpha (h_letters d hd) inGroup) h_char h_text
  have h_opener : Place.isOpenerWord ('[' :: name.toList) = true := by
    simp only [Place.isOpenerWord, Bool.and_eq_true, Bool.not_eq_true', List.isEmpty_eq_false_iff,
      List.all_eq_true]
    exact ⟨h_nonempty, h_letters⟩
  rw [h_word] at h_opener
  exact absurd h_opener (by decide)

/-- They are a closer only if a `]` is written next. -/
theorem not_closer_word (h_tail : ∀ d ∈ tail, endsWord inGroup d = false)
    (h_end : IsItemEnd inGroup tail')
    (h_word : ∀ rest, tail' = ']' :: rest → Place.isCloserWord ('[' :: tail) = false)
    {spelled rest : List Char} (h_nonempty : spelled ≠ [])
    (h_letters : ∀ c ∈ spelled, c.isAlpha = true) :
    tail ++ tail' ≠ '/' :: (spelled ++ ']' :: rest) := by
  intro h_text
  have h_run : ∀ d ∈ '/' :: spelled, endsWord inGroup d = false := by
    intro d hd
    rcases List.mem_cons.1 hd with rfl | h_mem
    · cases inGroup <;> decide
    · exact Bracket.endsWord_of_isAlpha (h_letters d h_mem) inGroup
  obtain ⟨rfl, h_close⟩ := eq_of_itemEnd h_tail h_end h_run (by simp [endsWord]) h_text
  have h_closer : Place.isCloserWord ('[' :: '/' :: spelled) = true := by
    simp only [Place.isCloserWord, Bool.and_eq_true, Bool.not_eq_true', List.isEmpty_eq_false_iff,
      List.all_eq_true]
    exact ⟨h_nonempty, h_letters⟩
  rw [h_word rest h_close] at h_closer
  exact absurd h_closer (by decide)

/-- The name in a closer is not empty. -/
theorem ne_nil_of_closing {name : List Char} {tag : Tag}
    (h : (Tag.resolve? (String.ofList name)).map Tag.Resolved.tag = some tag) : name ≠ [] := by
  rintro rfl
  have h_none : Tag.resolve? (String.ofList []) = none := by decide +kernel
  rw [h_none] at h
  exact absurd h (by simp)

theorem not_closing_word (h_tail : ∀ d ∈ tail, endsWord inGroup d = false)
    (h_end : IsItemEnd inGroup tail')
    (h_word : ∀ rest, tail' = ']' :: rest → Place.isCloserWord ('[' :: tail) = false)
    (tag : Tag) (after : List Char) : ¬ Closing ('[' :: (tail ++ tail')) tag after := by
  rintro ⟨name, h_letters, h_text, h_tag⟩
  exact not_closer_word h_tail h_end h_word (ne_nil_of_closing h_tag) h_letters
    (List.cons.inj h_text).2

end Word

theorem keepsText_name (tag : Tag) : keepsText tag.name = tag.rawAttribute := by
  rw [keepsText, Tag.ofName?_name, Option.any_some]

/-! ## One step of the induction -/

/-- A tag at this text, revised and written before a text that is alike, is read again. -/
def TagRereads (text : List Char) : Prop :=
  ∀ (l : Nat) (opened : List Tag) (node : Node) (next : List Char), Tag.dice ∉ opened →
    TagAt false l opened text (some (node, next)) →
      ∀ (place : Place) (node' : Node) (next' : List Char), tidy place node = true →
        Revises false node node' → Alike next next' →
          (isUnrolled node' = true → ∀ value after, ¬ Stored next' .dice value after) →
            Alike text (write node' ++ next') ∧
              TagAt false l opened (write node' ++ next') (some (node', next'))

/-- The tags of all texts that are shorter than `bound` are read again. -/
def Rereads (bound : Nat) : Prop :=
  ∀ text : List Char, text.length < bound → TagRereads text

section Step

variable {bound : Nat}

/-- A word is the same word before the end of its item. -/
theorem word_rereads {l : Nat} {inGroup : Bool} {opened : List Tag} {c : Char}
    {text tail' : List Char} (h_word : endsWord inGroup c = false) (h_group : c ≠ '(')
    (h_alike : Alike (afterWord inGroup text) tail') (h_end : IsItemEnd inGroup tail') :
    let node := Node.text (String.ofList (c :: wordTail inGroup text))
    Alike (c :: text) (write node ++ tail') ∧
      ItemAt false l inGroup opened (write node ++ tail') (some (node, tail')) := by
  intro node
  have h_inside : ∀ d ∈ c :: wordTail inGroup text, endsWord inGroup d = false :=
    List.forall_mem_cons.2 ⟨h_word, Bracket.endsWord_of_mem_wordTail⟩
  have h_split : c :: text = (c :: wordTail inGroup text) ++ afterWord inGroup text :=
    congrArg (c :: ·) (Bracket.wordTail_append_afterWord inGroup text).symm
  have h_isWord : Place.isWord inGroup
      (String.ofList (c :: wordTail inGroup text)).toList = true := by
    rw [String.toList_ofList]
    exact isWord_iff.2 ⟨by simp, by simpa using h_group, h_inside⟩
  rw [write]
  refine ⟨?_, itemAt_word h_isWord h_end.atWordEnd⟩
  rw [String.toList_ofList, h_split]
  exact h_alike.run (noBracket_of_endsWord h_inside)

/-- A word that starts with a bracket is the same word where it is tidy: the bracket opened nothing
    before what followed it, and opens nothing before the space or the `]` that is written there. -/
theorem bracketWord_rereads {l : Nat} {inGroup : Bool} {opened : List Tag} {text tail' : List Char}
    (h_tidy : tidy (placeOf inGroup) (.text (String.ofList ('[' :: wordTail inGroup text))) = true)
    (h_alike : Alike (afterWord inGroup text) tail') (h_end : IsItemEnd inGroup tail')
    (h_last : ∀ rest, tail' = ']' :: rest →
      Place.isCloserWord ('[' :: wordTail inGroup text) = false) :
    let node := Node.text (String.ofList ('[' :: wordTail inGroup text))
    Alike ('[' :: text) (write node ++ tail') ∧
      ItemAt false l inGroup opened (write node ++ tail') (some (node, tail')) := by
  intro node
  have h_tail : ∀ d ∈ wordTail inGroup text, endsWord inGroup d = false :=
    Bracket.endsWord_of_mem_wordTail
  have h_opener : Place.isOpenerWord ('[' :: wordTail inGroup text) = false := by
    have h_place : (placeOf inGroup == .child) = false := by cases inGroup <;> rfl
    rw [tidy, h_place, Bool.false_or, String.toList_ofList] at h_tidy
    simpa using h_tidy
  have h_rest : Alike text (wordTail inGroup text ++ tail') := by
    have h_run := h_alike.run (noBracket_of_endsWord h_tail)
    rwa [Bracket.wordTail_append_afterWord] at h_run
  rw [write, String.toList_ofList]
  refine ⟨h_rest.bracket fun spelled after h_nonempty h_letters h_eq => ?_, ?_⟩
  · exact absurd h_eq (not_closer_word h_tail h_end h_last h_nonempty h_letters)
  · obtain ⟨h_same, h_after⟩ := Bracket.wordTail_append h_tail h_end.atWordEnd
    have h_item : ItemAt false l inGroup opened ('[' :: (wordTail inGroup text ++ tail')) _ :=
      .bracket (not_closing_word h_tail h_end h_last)
        (.noOpener (not_opening_word h_tail h_end h_opener))
    rw [h_same, h_after] at h_item
    exact h_item

/-- A word like `[/b` is a closer only where a `]` is written next, that is, behind the last
    attribute. -/
theorem not_isCloserWord_of_last {inGroup : Bool} {value : String} {rest rest' : List Node}
    {next' tail : List Char} (h_last : inGroup = false → endsInCloser (.text value :: rest) = false)
    (h_nodes : RevisesAll false rest rest')
    (h_close : writeSpaced rest' ++ closingOf inGroup :: next' = ']' :: tail) :
    Place.isCloserWord value.toList = false := by
  cases h_nodes with
  | cons =>
    rw [writeSpaced] at h_close
    exact absurd (List.cons.inj h_close).1 (by decide)
  | nil =>
    cases inGroup with
    | false => exact h_last rfl
    | true => exact absurd (List.cons.inj h_close).1 (by decide)

mutual

theorem ItemsAt.rereads {l : Nat} {inGroup : Bool} {opened : List Tag} {text : List Char}
    {outcome : Option (List Node × List Char)} :
    ItemsAt false l inGroup opened text outcome → Rereads bound → Tag.dice ∉ opened →
      ∀ (items items' : List Node) (next next' : List Char), outcome = some (items, next) →
        text.length < bound → tidyAll (placeOf inGroup) items = true →
          (inGroup = false → endsInCloser items = false) → RevisesAll false items items' →
            Alike next next' →
              Alike text (writeSpaced items' ++ closingOf inGroup :: next') ∧
                ItemsAt false l inGroup opened (writeSpaced items' ++ closingOf inGroup :: next')
                  (some (items', next'))
  | .nil => fun _ _ _ _ _ _ h_none => absurd h_none (by simp)
  | .bracket => fun _ _ _ _ _ _ h_none => absurd h_none (by simp)
  | .closer _ => fun _ _ _ _ _ _ h_none => absurd h_none (by simp)
  | .itemFails _ => fun _ _ _ _ _ _ h_none => absurd h_none (by simp)
  | .blank h_blank h_items => by
    have ih := h_items.rereads
    intro h_rereads h_dice items items' next next' h_outcome h_length h_tidy h_last
      h_revises h_alike
    rw [List.length_cons] at h_length
    obtain ⟨h_text, h_items'⟩ := ih h_rereads h_dice items items' next next' h_outcome (by omega)
      h_tidy h_last h_revises h_alike
    exact ⟨h_text.skip (noBracket_blank h_blank), h_items'⟩
  | .close h_closing => by
    intro _ _ items items' next next' h_outcome _ _ _ h_revises h_alike
    obtain ⟨rfl, rfl⟩ := Prod.mk.inj (Option.some.inj h_outcome)
    cases h_revises
    rw [h_closing]
    exact ⟨h_alike.char (closingOf_ne_open inGroup), .close rfl⟩
  | @ItemsAt.item _ _ inGroup _ _ _ piece _ _ h_item h_items h_outcome => by
    have ih_item := h_item.rereads
    have ih_items := h_items.rereads
    intro h_rereads h_dice items items' next next' h_some h_length h_tidy h_last h_revises h_alike
    rw [h_outcome] at h_some
    obtain ⟨⟨rest, stop⟩, rfl, h_eq⟩ := Option.map_eq_some_iff.1 h_some
    obtain ⟨rfl, rfl⟩ := Prod.mk.inj h_eq
    rw [tidyAll, Bool.and_eq_true] at h_tidy
    have h_lt := h_item.length_lt
    cases h_revises with
    | @cons _ _ node' _ rest' h_node h_nodes =>
      have h_last' : inGroup = false → endsInCloser rest = false := by
        intro h_group
        have h_closer := h_last h_group
        cases rest with
        | nil => rfl
        | cons next rest => rwa [Node.endsInCloser_cons] at h_closer
      obtain ⟨h_next, h_items'⟩ := ih_items h_rereads h_dice rest rest' _ next' rfl (by omega)
        h_tidy.2 h_last' h_nodes h_alike
      have h_end := isItemEnd_writeSpaced inGroup rest' next'
      have h_closer : ∀ value tail, piece = .text value →
          writeSpaced rest' ++ closingOf inGroup :: next' = ']' :: tail →
            Place.isCloserWord value.toList = false := by
        rintro value tail rfl h_close
        exact not_isCloserWord_of_last h_last h_nodes h_close
      obtain ⟨h_alike', h_item'⟩ := ih_item h_rereads h_dice _ node' _ _ rfl h_length h_tidy.1
        h_node h_next h_end h_closer
      rw [writeSpaced, List.cons_append, List.append_assoc]
      exact ⟨h_alike'.insert (noBracket_blank (c := ' ') (by decide)),
        .blank (by decide) (.item h_item' h_items' rfl)⟩

theorem ItemAt.rereads {l : Nat} {inGroup : Bool} {opened : List Tag} {text : List Char}
    {outcome : Option (Node × List Char)} :
    ItemAt false l inGroup opened text outcome → Rereads bound → Tag.dice ∉ opened →
      ∀ (node node' : Node) (next tail' : List Char), outcome = some (node, next) →
        text.length < bound → tidy (placeOf inGroup) node = true → Revises false node node' →
          Alike next tail' → IsItemEnd inGroup tail' →
            (∀ value rest, node = .text value → tail' = ']' :: rest →
              Place.isCloserWord value.toList = false) →
              Alike text (write node' ++ tail') ∧
                ItemAt false l inGroup opened (write node' ++ tail') (some (node', tail'))
  | .word h_word h_group => by
    intro _ _ node node' next tail' h_outcome _ _ h_revises h_alike h_end _
    obtain ⟨rfl, rfl⟩ := Prod.mk.inj (Option.some.inj h_outcome)
    cases h_revises
    exact word_rereads h_word h_group h_alike h_end
  | .bracket _ _ => by
    intro _ _ node node' next tail' h_outcome _ h_tidy h_revises h_alike h_end h_last
    obtain ⟨rfl, rfl⟩ := Prod.mk.inj (Option.some.inj h_outcome)
    cases h_revises
    refine bracketWord_rereads h_tidy h_alike h_end fun rest h_close => ?_
    have h_word := h_last _ rest rfl h_close
    rwa [String.toList_ofList] at h_word
  | .tag h_tag => by
    intro h_rereads h_dice node node' next tail' h_outcome h_length h_tidy h_revises h_alike h_end _
    obtain ⟨rfl, rfl⟩ := Prod.mk.inj (Option.some.inj h_outcome)
    obtain ⟨h_text, h_tag'⟩ := h_rereads text h_length l opened _ _ h_dice h_tag _ node' tail'
      h_tidy h_revises h_alike fun _ => h_end.not_stored .dice
    exact ⟨h_text, .tag h_tag'⟩
  | .group h_items => by
    have ih := h_items.rereads
    intro h_rereads h_dice node node' next tail' h_outcome h_length h_tidy h_revises h_alike _ _
    obtain ⟨rfl, rfl⟩ := Prod.mk.inj (Option.some.inj h_outcome)
    rw [List.length_cons] at h_length
    rw [tidy] at h_tidy
    cases h_revises with
    | @group _ _ items' h_revises =>
      obtain ⟨h_text, h_items'⟩ := ih h_rereads h_dice _ items' _ tail' rfl (by omega) h_tidy
        (fun h => absurd h (by decide)) h_revises h_alike
      cases items' with
      | nil => exact ⟨h_text.char (by decide), .group h_items'⟩
      | cons item items' =>
        -- The first member is written without the space that the others have before them.
        rw [writeSpaced] at h_text h_items'
        have h_write : write (.group (item :: items')) ++ tail' =
            '(' :: ((write item ++ writeSpaced items') ++ closingOf true :: tail') := by
          rw [write]
          simp [closingOf]
        rw [h_write]
        exact ⟨h_text.of_space.char (by decide), .group (h_items'.of_blank (by decide))⟩
  | .groupFails _ => fun _ _ _ _ _ _ h_none => absurd h_none (by simp)

end

/-- The text of a formula is kept, or there is another one in its place that is alike. -/
theorem RevisesAll.of_rawText {raw : List Char} {as' : List Node} (h_some : raw ≠ [])
    (h : RevisesAll true (rawText raw) as') :
    ∃ value : String, as' = [.text value] ∧ Alike raw value.toList ∧ value.toList ≠ [] := by
  rw [rawText, if_neg h_some] at h
  cases h with
  | cons h_node h_nodes =>
    cases h_nodes
    cases h_node with
    | text =>
      refine ⟨_, rfl, ?_⟩
      rw [String.toList_ofList]
      exact ⟨Alike.refl raw, h_some⟩
    | formula h_alike h_nonempty =>
      rw [String.toList_ofList] at h_alike h_nonempty
      exact ⟨_, rfl, h_alike, h_nonempty h_some⟩

/-- The text of a formula is read again, or the text that has taken its place. -/
theorem headerAt_formula {l : Nat} {opened : List Tag} {after raw openEnd openEnd' : List Char}
    {as' : List Node} (h_raw : RawOpening after raw openEnd)
    (h_ends : ∃ c rest, after = c :: rest ∧ (c = ']' ∨ isBlank c = true))
    (h_revises : RevisesAll true (rawText raw) as') (h_alike : Alike openEnd openEnd') :
    Alike after (writeSpaced as' ++ ']' :: openEnd') ∧
      HeaderAt false l opened true (writeSpaced as' ++ ']' :: openEnd') (some (as', openEnd')) := by
  have h_space : NoBracket [' '] := noBracket_blank (by decide)
  have h_first : ∀ x rest, x ≠ ']' → after = x :: rest → NoBracket [x] := by
    rintro x rest h_close rfl
    obtain ⟨c, rest, h_after, h_char⟩ := h_ends
    obtain ⟨rfl, -⟩ := List.cons.inj h_after
    exact noBracket_blank (h_char.resolve_left h_close)
  -- Without a formula no space is written, though one may have been spelled.
  by_cases h_nil : raw = []
  · rw [rawText, if_pos h_nil] at h_revises
    cases h_revises
    have h_header : HeaderAt false l opened true (']' :: openEnd') _ := .raw (.bare openEnd')
    refine ⟨?_, h_header⟩
    cases h_raw with
    | bare => exact h_alike.close
    | spaced h_close =>
      have h_x := h_first _ _ h_close rfl
      subst h_nil
      exact h_alike.close.skip h_x
  · obtain ⟨value, rfl, h_same, h_nonempty⟩ := h_revises.of_rawText h_nil
    cases h_raw with
    | bare => exact absurd rfl h_nil
    | spaced h_close balanced =>
      -- A formula in the place of another ends at the same `]`: as texts alike they count brackets
      -- alike.
      have balanced' : openAfter 0 value.toList = some 0 := by rw [h_same.brackets, balanced]
      have h_header : HeaderAt false l opened true (' ' :: (value.toList ++ ']' :: openEnd')) _ :=
        .raw (.spaced (by decide) balanced' openEnd')
      rw [rawText, if_neg h_nonempty, String.ofList_toList] at h_header
      rw [writeSpaced, write, writeSpaced, List.append_nil]
      refine ⟨?_, h_header⟩
      have h_inner := h_same.append_balanced balanced h_alike.close
      have h_right : Alike _ ([' '] ++ (value.toList ++ ']' :: openEnd')) := h_inner.insert h_space
      exact h_right.skip (h_first _ _ h_close rfl)

theorem HeaderAt.rereads {l : Nat} {opened : List Tag} {text after openEnd openEnd' : List Char}
    {name : String} {meaning : Tag.Resolved} {attributes as' : List Node}
    (h_rereads : Rereads bound) (h_dice : Tag.dice ∉ opened) (h_length : after.length < bound)
    (h_open : Opening text name after) (h_name : Tag.resolve? name = some meaning)
    (h_tidy : (meaning.tag.rawAttribute ||
      tidyAll .listed (meaning.implied.map .text ++ attributes) &&
        !endsInCloser (meaning.implied.map .text ++ attributes)) = true)
    (h_revises : RevisesAll meaning.tag.rawAttribute (meaning.implied.map .text ++ attributes) as')
    (h_alike : Alike openEnd openEnd')
    (h : HeaderAt false l opened meaning.tag.rawAttribute after (some (attributes, openEnd))) :
    Alike after (writeSpaced as' ++ ']' :: openEnd') ∧
      HeaderAt false l opened meaning.tag.rawAttribute (writeSpaced as' ++ ']' :: openEnd')
        (some (as', openEnd')) := by
  obtain ⟨h_none, h_words⟩ := implied_words h_name
  generalize h_kind : meaning.tag.rawAttribute = raw at h h_tidy h_revises
  cases h with
  | raw h_raw =>
    rw [h_none h_kind] at h_revises
    exact headerAt_formula h_raw h_open.ends h_revises h_alike
  | listed h_items =>
    rw [Bool.false_or, Bool.and_eq_true, Bool.not_eq_true', Node.tidyAll_append,
      Bool.and_eq_true] at h_tidy
    obtain ⟨⟨-, h_tidy⟩, h_last⟩ := h_tidy
    -- What the older spelling implies stands in front, so the last attribute is the one that was
    -- read.
    have h_last' : endsInCloser attributes = false := by
      by_cases h_nil : attributes = []
      · rw [h_nil]
        rfl
      · rwa [Node.endsInCloser_append h_nil] at h_last
    obtain ⟨rest, rfl, h_rest⟩ := h_revises.of_texts
    obtain ⟨h_after, h_items'⟩ := h_items.rereads h_rereads h_dice attributes rest openEnd openEnd'
      rfl h_length h_tidy (fun _ => h_last') h_rest h_alike
    refine ⟨?_, .listed (itemsAt_words h_words h_items')⟩
    rw [writeSpaced_append, List.append_assoc]
    exact h_after.insert (noBracket_writeSpaced h_words)

/-! ## Children -/

/-- The text of the children of a tag and of its closer. -/
def bodyText (tag : Tag) (children : List Node) : List Char :=
  if children.isEmpty && Tag.selfCloses tag.name then [] else writeAll children ++ closer tag.name

theorem selfCloses_name (tag : Tag) : Tag.selfCloses tag.name = (tag.kind == .selfClosing) := by
  rw [Tag.selfCloses, Tag.ofName?_name, Option.any_some]

/-- A tag without children, or a dice with a result. -/
theorem bodyAt_selfClosing {l : Nat} {opened : List Tag} {tag : Tag} {openEnd next' : List Char}
    {cs' : List Node} (h_kind : tag.kind = .selfClosing)
    (h_children : cs' = [] ∨ tag = .dice ∧ RevisesResult cs') (h_alike : Alike openEnd next')
    (h_next : tag = .dice → cs' = [] → ∀ value after, ¬ Stored next' .dice value after) :
    Alike openEnd (bodyText tag cs' ++ next') ∧
      BodyAt false l opened tag (bodyText tag cs' ++ next') cs' next' := by
  have h_empty : cs' = [] → Alike openEnd (bodyText tag cs' ++ next') ∧
      BodyAt false l opened tag (bodyText tag cs' ++ next') cs' next' := by
    rintro rfl
    have h_text : bodyText tag [] = [] := by
      rw [bodyText, selfCloses_name, h_kind]
      rfl
    rw [h_text, List.nil_append]
    refine ⟨h_alike, .bare h_kind fun h_stores => ?_⟩
    obtain rfl := storesResult_eq_true_iff.1 h_stores
    exact h_next rfl rfl
  rcases h_children with h_nil | ⟨rfl, h_nil | ⟨value, h_value, rfl⟩⟩
  · exact h_empty h_nil
  · exact h_empty h_nil
  -- A result is written between the opener and a closer, though a dice has no children otherwise.
  · have h_text : bodyText .dice [.text value] ++ next' =
        value.toList ++ (closer Tag.dice.name ++ next') := by
      rw [bodyText, List.isEmpty_cons, Bool.false_and, if_neg (by decide), writeAll, write,
        writeAll]
      simp
    have h_stored : Stored (value.toList ++ (closer Tag.dice.name ++ next')) .dice value.toList
        next' := ⟨_, rfl, h_value, Bracket.closing_closer .dice next'⟩
    have h_body : BodyAt false l opened .dice _ _ _ := .stored h_kind rfl h_stored
    rw [String.ofList_toList] at h_body
    rw [h_text]
    exact ⟨(h_alike.closer .dice).insert (noBracket_of_isResult h_value), h_body⟩

/-- Where the pieces of both texts end, the texts are side by side. -/
theorem abreast_of_isEnd {opened : List Tag} {text tail' : List Char} (h_left : Halts text)
    (h_end : IsEnd tail') (h_alike : Alike text tail') : Abreast opened text tail' := by
  rcases h_end with rfl | ⟨tag, after, h_tag, h_closing⟩
  · refine .halt h_left (.inl rfl) (fun after' h_dice => ?_) h_alike
    exact absurd h_dice (not_closing_nil _ _)
  · refine .halt h_left (.inr ⟨tag, after, h_closing⟩) (fun after' h_dice => ?_) h_alike
    exact absurd (h_closing.unique h_dice).1 h_tag

/-- Characters other than brackets are pieces of their own. -/
theorem PiecesAt.of_run {l : Nat} {opened : List Tag} {run text stop : List Char}
    {ps : List Piece} {closed : Bool} (h_run : ∀ c ∈ run, c ≠ '[')
    (h : PiecesAt false l opened (run ++ text) ps closed stop) :
    ∃ rest, ps = run.map .plain ++ rest ∧ PiecesAt false l opened text rest closed stop := by
  induction run generalizing ps with
  | nil => exact ⟨ps, rfl, h⟩
  | cons c run ih =>
    obtain ⟨rest, rfl, h_rest⟩ := h.of_char (h_run c List.mem_cons_self)
    obtain ⟨rest', rfl, h_rest'⟩ := ih (fun d hd => h_run d (List.mem_cons_of_mem c hd)) h_rest
    exact ⟨rest', rfl, h_rest'⟩

/-- The characters so far start the first text. -/
theorem assemble_starts {pending : List Char} (ps : List Piece) (h : pending ≠ []) :
    ∃ more nodes, assemble pending ps = .text (String.ofList (pending ++ more)) :: nodes := by
  induction ps generalizing pending with
  | nil => exact ⟨[], [], by rw [assemble, flush, if_neg h, List.append_nil]⟩
  | cons p ps ih =>
    cases p with
    | plain c =>
      have h_some : pending ++ [c] ≠ [] := by simp
      obtain ⟨more, nodes, h_nodes⟩ := ih h_some
      exact ⟨c :: more, nodes, by rw [assemble, h_nodes, List.append_assoc]; rfl⟩
    | node n =>
      exact ⟨[], n :: assemble [] ps, by rw [assemble, flush, if_neg h, List.append_nil]; rfl⟩

/-- A result and the closer of a dice are characters of the first text. -/
theorem PiecesAt.result_first {l : Nat} {opened : List Tag} {text stop value after : List Char}
    {ps : List Piece} {closed : Bool} (h_dice : Tag.dice ∉ opened)
    (h_stored : Stored text .dice value after)
    (h : PiecesAt false l opened text ps closed stop) :
    startsWithResult (assemble [] ps) = true := by
  obtain ⟨closing, rfl, h_value, h_closing⟩ := h_stored
  obtain ⟨rest, rfl, h_rest⟩ := h.of_run fun c hc => (noBracket_of_isResult h_value c hc).1
  have h_closing' := h_closing
  obtain ⟨name, h_letters, rfl, h_tag⟩ := h_closing'
  have h_ending : NoEnding opened ('[' :: '/' :: (name ++ ']' :: after)) := by
    intro tag after' h_other h_mem
    obtain ⟨rfl, -⟩ := h_closing.unique h_other
    exact h_dice h_mem
  -- No dice is open, so the closer ends nothing and is read character by character.
  rcases h_rest.of_bracket h_ending with ⟨-, rest', rfl, h_rest'⟩ | ⟨_, _, _, h_node, -, -⟩
  · have h_name : ∀ c ∈ '/' :: (name ++ [']']), c ≠ '[' := by
      intro c hc
      rcases List.mem_append.1 (show c ∈ ('/' :: name) ++ [']'] from hc) with h_mem | h_mem
      · exact ((noBracket_of_isAlpha h_letters).slash c h_mem).1
      · rw [List.mem_singleton.1 h_mem]
        decide
    have h_assoc : '/' :: (name ++ ']' :: after) = '/' :: (name ++ [']']) ++ after := by simp
    rw [h_assoc] at h_rest'
    obtain ⟨rest'', rfl, -⟩ := h_rest'.of_run h_name
    have h_plain : value.map Piece.plain ++ .plain '[' ::
        (('/' :: (name ++ [']'])).map .plain ++ rest'') =
          (value ++ '[' :: '/' :: (name ++ [']'])).map .plain ++ rest'' := by simp
    have h_some : value ++ '[' :: '/' :: (name ++ [']']) ≠ [] := by simp
    obtain ⟨more, nodes, h_nodes⟩ := assemble_starts rest'' h_some
    rw [h_plain, assemble_plain, List.nil_append, h_nodes, Node.startsWithResult,
      String.toList_ofList]
    have h_found : Stored (value ++ '[' :: '/' :: (name ++ [']']) ++ more) .dice value more :=
      ⟨_, by simp, h_value, name, h_letters, rfl, h_tag⟩
    rw [Bracket.storedResult?_of_stored h_found, Option.isSome_some]
  · exact absurd h_closing (h_node.not_closing _ _)

/-- After a dice that was read without a result no result follows. -/
theorem TagAt.not_stored {l : Nat} {opened : List Tag} {text next : List Char} {node : Node}
    (h_unrolled : isUnrolled node = true) (h : TagAt false l opened text (some (node, next)))
    (value after : List Char) : ¬ Stored next .dice value after := by
  generalize h_outcome : some (node, next) = outcome at h
  cases h with
  | noOpener | unended => exact absurd h_outcome (by simp)
  | unknown =>
    obtain ⟨rfl, -⟩ := Prod.mk.inj (Option.some.inj h_outcome)
    exact absurd h_unrolled (by simp [isUnrolled])
  | @known _ _ _ _ _ _ _ meaning _ children _ _ _ h_body =>
    obtain ⟨rfl, rfl⟩ := Prod.mk.inj (Option.some.inj h_outcome)
    -- Only a dice can be without a result, and one is read so only where none is written behind it.
    have h_tag : meaning.tag = .dice ∧ children = [] := by
      cases children with
      | nil => exact ⟨Tag.name_injective (by simpa [isUnrolled] using h_unrolled), rfl⟩
      | cons => exact absurd h_unrolled (by simp [isUnrolled])
    rw [h_tag.1, h_tag.2] at h_body
    generalize h_nil : ([] : List Node) = none at h_body
    cases h_body with
    | bare _ h_stored => exact h_stored rfl value after
    | stored => exact absurd h_nil (by simp)
    | inside h_kind => exact absurd h_kind (by decide)

/-- After a dice that is written without a result no result follows. -/
theorem PiecesAt.not_stored {l : Nat} {opened : List Tag} {text next next' stop : List Char}
    {node node' : Node} {ps : List Piece} {closed : Bool} (h_dice : Tag.dice ∉ opened)
    (h_tag : TagAt false l opened text (some (node, next)))
    (h_pieces : PiecesAt false l opened next ps closed stop) (h_node : Revises false node node')
    (h_dropped : isRolled node = true → isUnrolled node' = true →
      startsWithResult (assemble [] ps) = false)
    (h_abreast : Abreast opened next next') (h_unrolled : isUnrolled node' = true)
    (value after : List Char) : ¬ Stored next' .dice value after := by
  intro h_stored
  obtain ⟨after', h_left⟩ := h_abreast.stored h_stored
  -- A dice that has lost its result, or one that was read without.
  rcases h_node.isRolled_or h_unrolled with h_rolled | h_fresh
  · have h_start := h_pieces.result_first h_dice h_left
    rw [h_dropped h_rolled h_unrolled] at h_start
    exact absurd h_start (by decide)
  · exact h_tag.not_stored h_fresh value after' h_left

theorem PiecesAt.rereads {l : Nat} {opened : List Tag} {text stop : List Char} {ps : List Piece}
    {closed : Bool} (h : PiecesAt false l opened text ps closed stop) (h_rereads : Rereads bound)
    (h_dice : Tag.dice ∉ opened) (h_length : text.length < bound) (pending : List Char)
    (ps' : List Piece) (tail' stop' : List Char) (closed' : Bool)
    (h_tidy : tidyAll .child (assemble pending ps) = true) (h_revises : RevisesPieces ps ps')
    (h_end : IsEnd tail') (h_tail : PiecesAt false l opened tail' [] closed' stop')
    (h_alike : ∀ text, PiecesAt false l opened text [] closed stop → Alike text tail') :
    Abreast opened text (writePieces ps' ++ tail') ∧
      PiecesAt false l opened (writePieces ps' ++ tail') ps' closed' stop' := by
  induction ps generalizing text pending ps' with
  | nil =>
    have h_ended := h_alike text h
    cases h_revises
    cases h with
    | nil => exact ⟨abreast_of_isEnd (.inl rfl) h_end h_ended, h_tail⟩
    | own h_closing => exact ⟨abreast_of_isEnd (.inr ⟨_, _, h_closing⟩) h_end h_ended, h_tail⟩
    | outer h_closing => exact ⟨abreast_of_isEnd (.inr ⟨_, _, h_closing⟩) h_end h_ended, h_tail⟩
  | cons piece ps ih =>
    cases h with
    | char h_char h_pieces =>
      rw [List.length_cons] at h_length
      cases h_revises with
      | plain h_rest =>
        obtain ⟨h_abreast, h_pieces'⟩ := ih h_pieces (by omega) _ _ h_tidy h_rest
        exact ⟨.char h_char h_abreast, .char h_char h_pieces'⟩
    | bracket h_ending h_tag h_pieces =>
      rw [List.length_cons] at h_length
      cases h_revises with
      | @plain _ _ ps' h_rest =>
        obtain ⟨h_abreast, h_pieces'⟩ := ih h_pieces (by omega) _ _ h_tidy h_rest
        -- A closer in the second text is one in the first, where the bracket is none.
        have h_ending' : NoEnding opened ('[' :: (writePieces ps' ++ tail')) := by
          intro tag after h_closing
          obtain ⟨after', h_left⟩ := h_abreast.closing_right h_closing
          exact h_ending tag after' h_left
        exact ⟨.bracket h_tag h_abreast,
          .bracket h_ending' (h_tag.abreast _ _ rfl rfl h_abreast) h_pieces'⟩
    | node h_tag h_pieces =>
      rw [assemble, Node.tidyAll_append, Bool.and_eq_true, tidyAll, Bool.and_eq_true] at h_tidy
      have h_lt := h_tag.length_lt
      cases h_revises with
      | @node _ node' _ ps' h_node h_rest h_dropped =>
        -- What follows the tag is settled first: the tag is read before it is known where it ends.
        obtain ⟨h_abreast, h_pieces'⟩ := ih h_pieces (by omega) [] ps' h_tidy.2.2 h_rest
        have h_next := h_pieces.not_stored h_dice h_tag h_node h_dropped h_abreast
        have h_reread := fun k h_k => h_rereads text h_length k opened _ _ h_dice h_k .child node'
          (writePieces ps' ++ tail') h_tidy.2.1 h_node h_abreast.alike h_next
        obtain ⟨h_alike', h_tag'⟩ := h_reread l h_tag
        rw [writePieces, List.append_assoc]
        exact ⟨.node h_tag (fun k h_k => (h_reread k h_k).2) h_abreast h_alike',
          .node h_tag' h_pieces'⟩

/-- The opener of a tag is read again, with its bounds completed if it is a dice. -/
theorem HeaderAt.rereads_bounds {l : Nat} {opened : List Tag}
    {text after openEnd openEnd' : List Char} {name : String} {meaning : Tag.Resolved}
    {attributes as' : List Node} (h_rereads : Rereads bound) (h_dice : Tag.dice ∉ opened)
    (h_length : after.length < bound) (h_open : Opening text name after)
    (h_name : Tag.resolve? name = some meaning) (h_tag : meaning.tag = .dice)
    (h_tidy : (meaning.tag.rawAttribute ||
      tidyAll .listed (meaning.implied.map .text ++ attributes) &&
        !endsInCloser (meaning.implied.map .text ++ attributes)) = true)
    (h_bounds : RevisesBounds (meaning.implied.map .text ++ attributes) as')
    (h_alike : Alike openEnd openEnd')
    (h : HeaderAt false l opened meaning.tag.rawAttribute after (some (attributes, openEnd))) :
    Alike after (writeSpaced as' ++ ']' :: openEnd') ∧
      HeaderAt false l opened meaning.tag.rawAttribute (writeSpaced as' ++ ']' :: openEnd')
        (some (as', openEnd')) := by
  have h_same := h.rereads h_rereads h_dice h_length h_open h_name h_tidy
    (RevisesAll.refl _ _) h_alike
  rcases h_bounds with rfl | ⟨value, words, h_value, h_plain, rfl, h_words⟩
  · exact h_same
  · obtain ⟨h_after, -⟩ := h_same
    rw [h_value, writeSpaced, write, writeSpaced, List.append_nil] at h_after
    have h_space : NoBracket ([' '] ++ value.toList) :=
      (noBracket_blank (by decide)).append h_plain
    -- The bounds are words, and what they complete is a word too: none of it has a bracket.
    have h_words' : Alike ((' ' :: value.toList) ++ ']' :: openEnd')
        (writeSpaced (words.map .text) ++ ']' :: openEnd') :=
      (Alike.refl _).replace h_space (noBracket_writeSpaced h_words)
    refine ⟨h_after.trans h_words', ?_⟩
    rw [h_tag]
    have h_none : ItemsAt false l false opened (writeSpaced [] ++ ']' :: openEnd')
        (some ([], openEnd')) := .close rfl
    have h_listed := itemsAt_words h_words h_none
    rw [List.append_nil] at h_listed
    exact .listed h_listed

theorem BodyAt.rereads {l : Nat} {opened : List Tag} {tag : Tag} {openEnd next next' : List Char}
    {cs cs' : List Node} (h_rereads : Rereads bound) (h_dice : Tag.dice ∉ opened)
    (h_length : openEnd.length < bound) (h_tidy : tidyAll .child cs = true)
    (h_children : RevisesAll false cs cs' ∨ tag = .dice ∧ RevisesResult cs')
    (h_alike : Alike next next')
    (h_next : tag = .dice → cs' = [] → ∀ value after, ¬ Stored next' .dice value after)
    (h : BodyAt false l opened tag openEnd cs next) :
    Alike openEnd (bodyText tag cs' ++ next') ∧
      BodyAt false l opened tag (bodyText tag cs' ++ next') cs' next' := by
  cases h with
  | bare h_kind =>
    refine bodyAt_selfClosing h_kind ?_ h_alike h_next
    rcases h_children with h_children | h_result
    · cases h_children
      exact .inl rfl
    · exact .inr h_result
  | stored h_kind h_stores h_stored =>
    obtain ⟨rest, rfl, h_value, h_closing⟩ := h_stored
    have h_left := (Alike.of_closing h_closing h_alike).skip (noBracket_of_isResult h_value)
    refine bodyAt_selfClosing h_kind (.inr ⟨storesResult_eq_true_iff.1 h_stores, ?_⟩) h_left h_next
    rcases h_children with h_children | h_result
    · rw [h_children.of_text]
      exact .inr ⟨_, by rwa [String.toList_ofList], rfl⟩
    · exact h_result.2
  | @inside _ _ _ _ _ ps closed h_kind h_pieces =>
    have h_tag := ne_dice_of_container h_kind
    obtain ⟨ps', h_revises, rfl⟩ :=
      (h_children.resolve_right fun h_result => h_tag h_result.1).pieces
    have h_closing := Bracket.closing_closer tag next'
    have h_dice' : Tag.dice ∉ tag :: opened := by
      rw [List.mem_cons, not_or]
      exact ⟨fun h_eq => h_tag h_eq.symm, h_dice⟩
    have h_ends : ∀ text, PiecesAt false l (tag :: opened) text [] closed next →
        Alike text (closer tag.name ++ next') := by
      intro text h_ended
      cases h_ended with
      | nil => exact h_alike.closer tag
      | own h_own => exact (Alike.of_closing h_own h_alike).closer tag
      | outer => exact h_alike.closer tag
    obtain ⟨h_abreast, h_pieces'⟩ := h_pieces.rereads h_rereads h_dice' h_length [] ps'
      (closer tag.name ++ next') next' true h_tidy h_revises (.inr ⟨tag, next', h_tag, h_closing⟩)
      (.own h_closing List.head?_cons) h_ends
    have h_text : bodyText tag (assemble [] ps') ++ next' =
        writePieces ps' ++ (closer tag.name ++ next') := by
      rw [bodyText, selfCloses_name, h_kind, writeAll_assemble]
      simp
    rw [h_text]
    exact ⟨h_abreast.alike, .inside h_kind h_pieces' (by simp)⟩

theorem write_element (tag : Tag) (as cs : List Node) (text : List Char) :
    write (.element tag.name as cs) ++ text =
      '[' :: (tag.name.toList ++ (writeSpaced as ++ ']' :: (bodyText tag cs ++ text))) := by
  rw [write, opener, bodyText]
  simp

/-- The bracket of an opener, before its name in the old and in the new spelling. -/
theorem Alike.opener {text after text' : List Char} {name : String} (tag : Tag)
    (h_open : Opening text name after) (h : Alike after text') :
    Alike ('[' :: text) ('[' :: (tag.name.toList ++ text')) := by
  have h_letters := Bracket.isAlpha_of_mem_name tag
  have h_rest := h.replace (noBracket_of_isAlpha h_open.letters) (noBracket_of_isAlpha h_letters)
  rw [← h_open.split] at h_rest
  refine h_rest.bracket fun spelled rest _ _ h_eq => ?_
  obtain ⟨c, letters, h_name⟩ := List.exists_cons_of_ne_nil (Bracket.name_toList_ne_nil tag)
  have h_letter := h_letters c (h_name ▸ List.mem_cons_self)
  rw [h_name] at h_eq
  rw [(List.cons.inj h_eq).1] at h_letter
  exact absurd h_letter (by decide)

theorem TagAt.rereads_step {text : List Char} (h_rereads : Rereads text.length) :
    TagRereads text := by
  intro l opened node next h_dice h place node' next' h_tidy h_revises h_alike h_next
  generalize h_outcome : some (node, next) = outcome at h
  cases h with
  | noOpener | unended => exact absurd h_outcome (by simp)
  | @unknown k _ text _ _ passed _ _ _ _ h_open h_name h_header h_stop h_passed =>
    obtain ⟨rfl, rfl⟩ := Prod.mk.inj (Option.some.inj h_outcome)
    cases h_revises
    -- An unknown tag is kept as it is spelled; the texts differ only behind it.
    have h_settles : Settles next next' ('[' :: text).length := fun shorter _ =>
      tagLocal h_alike shorter
    have h_end : EndsClosed [']'] := ⟨[], rfl⟩
    obtain ⟨passed', h_split, h_closed, h_tag⟩ := TagAt.local_unknown h_settles h_alike
      (Nat.lt_succ_of_lt h_open.length_lt) h_open h_name h_header
      (show _ = [] ++ next from h_stop) h_end
    rw [h_passed] at h_split
    obtain rfl := List.append_cancel_right h_split
    rw [h_passed, write, String.toList_ofList]
    exact ⟨h_alike.append h_closed, h_tag⟩
  | @known k _ text after openEnd _ name meaning attributes children h_open h_name h_header
      h_body =>
    obtain ⟨rfl, rfl⟩ := Prod.mk.inj (Option.some.inj h_outcome)
    obtain ⟨as', cs', rfl, h_changes⟩ := h_revises.of_element
    rw [tidy, keepsText_name, Bool.and_eq_true] at h_tidy
    have h_after := h_open.length_lt
    have h_openEnd := h_header.length_lt
    have h_length : after.length < ('[' :: text).length := by
      rw [List.length_cons]
      omega
    have h_result : RevisesAll false children cs' ∨ meaning.tag = .dice ∧ RevisesResult cs' := by
      rcases h_changes with ⟨-, h_children⟩ | ⟨h_name, -, h_result⟩
      · exact .inl h_children
      · exact .inr ⟨Tag.name_injective h_name, h_result⟩
    have h_next' : meaning.tag = .dice → cs' = [] →
        ∀ value after, ¬ Stored next' .dice value after := by
      rintro h_tag rfl
      exact h_next (by rw [h_tag]; rfl)
    -- From the far end to the near one: the body before what follows, the header before the body.
    obtain ⟨h_alike', h_body'⟩ := h_body.rereads h_rereads h_dice (by omega) h_tidy.2 h_result
      h_alike h_next'
    have h_opener : Alike after (writeSpaced as' ++ ']' :: (bodyText meaning.tag cs' ++ next')) ∧
        HeaderAt false k opened meaning.tag.rawAttribute
          (writeSpaced as' ++ ']' :: (bodyText meaning.tag cs' ++ next'))
          (some (as', bodyText meaning.tag cs' ++ next')) := by
      rcases h_changes with ⟨h_attributes, -⟩ | ⟨h_dice_name, h_bounds, -⟩
      · rw [keepsText_name] at h_attributes
        exact h_header.rereads h_rereads h_dice h_length h_open h_name h_tidy.1
          h_attributes h_alike'
      · exact h_header.rereads_bounds h_rereads h_dice h_length h_open h_name
          (Tag.name_injective h_dice_name) h_tidy.1 h_bounds h_alike'
    rw [write_element]
    exact ⟨h_opener.1.opener meaning.tag h_open,
      .known (opening_write _ _ _) (Tag.resolve?_name meaning.tag) h_opener.2 h_body'⟩

end Step

/-! ## Documents -/

/-- A tag that was read, revised and written is read again. -/
theorem tagRereads (text : List Char) : TagRereads text := by
  induction h_length : text.length using Nat.strongRecOn generalizing text with
  | ind n ih =>
    refine TagAt.rereads_step fun shorter h_shorter => ?_
    rw [h_length] at h_shorter
    exact ih shorter.length h_shorter shorter rfl

/-- So is a whole text, and the written text is alike to it. -/
theorem PiecesAt.rereads_all {l : Nat} {text : List Char} {ps : List Piece} {nodes' : List Node}
    (h : PiecesAt false l [] text ps false []) (h_tidy : tidyAll .child (assemble [] ps) = true)
    (h_revises : RevisesAll false (assemble [] ps) nodes') :
    Alike text (writeAll nodes') ∧
      ∃ ps', PiecesAt false l [] (writeAll nodes') ps' false [] ∧ assemble [] ps' = nodes' := by
  obtain ⟨ps', h_pieces, rfl⟩ := h_revises.pieces
  have h_ends : ∀ text, PiecesAt false l [] text [] false [] → Alike text [] := by
    intro text h_ended
    cases h_ended with
    | nil => exact Alike.refl []
    | outer _ _ h_outer => exact absurd h_outer (by simp)
  have h_rereads : Rereads (text.length + 1) := fun shorter _ => tagRereads shorter
  obtain ⟨h_abreast, h_pieces'⟩ := h.rereads h_rereads (by simp) (Nat.lt_succ_self _) [] ps' [] []
    false h_tidy h_pieces (.inl rfl) .nil h_ends
  rw [List.append_nil] at h_abreast h_pieces'
  rw [writeAll_assemble, List.nil_append]
  exact ⟨h_abreast.alike, ps', h_pieces', rfl⟩

end DiceMarkup.Rules
