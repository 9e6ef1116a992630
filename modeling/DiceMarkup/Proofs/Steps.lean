/-
  DiceMarkup.Proofs.Steps

  The reader, one step at a time. Each loop of the reader is met here by an
  equation for every way in which the next character decides what it does, so
  that later proofs follow the rules of reading and never open a loop. For what
  is read without a loop there is the way back, `…_eq_some`: whatever was read
  was read in one of these ways.
-/
import DiceMarkup.Node.Reader
import DiceMarkup.Proofs.Rules

namespace DiceMarkup.Reader

open DiceMarkup.Bracket (Opening Closing drop_ofList drop_length_takeWhile)
open Rules (NoEnding assemble flush)
open Text (Cursor isBlank byteLength)

/-! ## Lists of attributes and members -/

section Items

variable {closing : Char} {read : Cursor → Notes → Option (Node × Cursor) × Notes}
  {found : List Node} {notes : Notes} {text : List Char}

theorem skipBlank_ofList (text : List Char) :
    (Cursor.ofList text).skipBlank = Cursor.ofList (text.dropWhile isBlank) := by
  rw [Cursor.skipBlank, drop_ofList, Cursor.rest_ofList, drop_length_takeWhile]

/-- White space before an item is passed. -/
theorem skipBlank_append {blanks : List Char} (h_blanks : ∀ c ∈ blanks, isBlank c = true)
    {c : Char} (h_char : isBlank c = false) (text : List Char) :
    (Cursor.ofList (blanks ++ c :: text)).skipBlank = Cursor.ofList (c :: text) := by
  rw [skipBlank_ofList, Bracket.dropWhile_run h_blanks h_char]

theorem skipBlank_blanks {blanks : List Char} (h_blanks : ∀ c ∈ blanks, isBlank c = true) :
    (Cursor.ofList blanks).skipBlank = Cursor.ofList [] := by
  rw [skipBlank_ofList, List.dropWhile_eq_nil_iff.2 h_blanks]

theorem left_ofList (text : List Char) : (Cursor.ofList text).left = byteLength text := rfl

theorem items_nil {c : Cursor} (h_skip : c.skipBlank = Cursor.ofList []) :
    items closing read found c notes = (none, notes) := by
  unfold items
  rw [h_skip, Cursor.next?_ofList_nil]

/-- What is done at the next character that is no white space. -/
theorem items_some {c after : Cursor} {x : Char} (h_next : c.skipBlank.next? = some (x, after)) :
    items closing read found c notes =
      if x = closing then (some (found.reverse, after), notes)
      else if x = ']' then (none, notes)
      else
        match read c.skipBlank notes with
        | (none, notes) => (none, notes)
        | (some (node, next), notes) =>
          if next.left < c.left then items closing read (node :: found) next notes
          else (none, notes) := by
  rw [items]
  split
  · rename_i h_none
    exact absurd (h_next.symm.trans h_none) (by simp)
  · rename_i h_some
    obtain ⟨rfl, rfl⟩ := Prod.mk.inj (Option.some.inj (h_next.symm.trans h_some))
    rfl

theorem items_close {c : Cursor} (h_skip : c.skipBlank = Cursor.ofList (closing :: text)) :
    items closing read found c notes = (some (found.reverse, Cursor.ofList text), notes) := by
  rw [items_some (by rw [h_skip, Cursor.next?_ofList_cons]), if_pos rfl]

theorem items_bracket {c : Cursor} (h_skip : c.skipBlank = Cursor.ofList (']' :: text))
    (h_closing : ']' ≠ closing) : items closing read found c notes = (none, notes) := by
  rw [items_some (by rw [h_skip, Cursor.next?_ofList_cons]), if_neg h_closing, if_pos rfl]

theorem items_fail {c : Cursor} {x : Char} {notes' : Notes}
    (h_skip : c.skipBlank = Cursor.ofList (x :: text)) (h_closing : x ≠ closing)
    (h_bracket : x ≠ ']') (h_read : read (Cursor.ofList (x :: text)) notes = (none, notes')) :
    items closing read found c notes = (none, notes') := by
  rw [items_some (by rw [h_skip, Cursor.next?_ofList_cons]), if_neg h_closing, if_neg h_bracket,
    h_skip, h_read]

theorem items_item {c : Cursor} {x : Char} {notes' : Notes} {node : Node} {next : Cursor}
    (h_skip : c.skipBlank = Cursor.ofList (x :: text)) (h_closing : x ≠ closing)
    (h_bracket : x ≠ ']')
    (h_read : read (Cursor.ofList (x :: text)) notes = (some (node, next), notes'))
    (h_next : next.left < byteLength (x :: text)) :
    items closing read found c notes = items closing read (node :: found) next notes' := by
  -- The reader compares with the place before the white space, the rules with the one behind it.
  have h_left : next.left < c.left := by
    have h_le := c.left_skipBlank_le
    rw [h_skip, left_ofList] at h_le
    omega
  rw [items_some (by rw [h_skip, Cursor.next?_ofList_cons]), if_neg h_closing, if_neg h_bracket,
    h_skip, h_read]
  dsimp only
  rw [if_pos h_left]

/-- A group that ends. -/
theorem group_some {inner : Openers} {opened : List Tag} {members : List Node} {stop : Cursor}
    {notes' : Notes}
    (h_items : items ')' (item inner true opened) [] (Cursor.ofList text) notes =
      (some (members, stop), notes')) :
    group inner opened (Cursor.ofList ('(' :: text)) notes =
      (some (.group members, stop), notes') := by
  unfold group
  rw [drop_ofList, List.drop_one, List.tail_cons, h_items]

theorem group_none {inner : Openers} {opened : List Tag} {notes' : Notes}
    (h_items : items ')' (item inner true opened) [] (Cursor.ofList text) notes =
      (none, notes')) :
    group inner opened (Cursor.ofList ('(' :: text)) notes = (none, notes') := by
  unfold group
  rw [drop_ofList, List.drop_one, List.tail_cons, h_items]

/-- A group that was read ends with its members. -/
theorem group_eq_some {inner : Openers} {opened : List Tag} {node : Node} {stop : Cursor}
    {notes' : Notes}
    (h : group inner opened (Cursor.ofList ('(' :: text)) notes = (some (node, stop), notes')) :
    ∃ members, node = .group members ∧
      items ')' (item inner true opened) [] (Cursor.ofList text) notes =
        (some (members, stop), notes') := by
  rcases h_items : items ')' (item inner true opened) [] (Cursor.ofList text) notes with
    ⟨_ | ⟨members, stop'⟩, notes₁⟩
  · rw [group_none h_items] at h
    exact absurd h (by simp)
  · rw [group_some h_items] at h
    obtain ⟨h_found, rfl⟩ := Prod.mk.inj h
    obtain ⟨rfl, rfl⟩ := Prod.mk.inj (Option.some.inj h_found)
    exact ⟨members, rfl, rfl⟩

end Items

/-! ## One attribute or member -/

section Item

variable {inner : Openers} {inGroup : Bool} {opened : List Tag} {notes : Notes}
  {text : List Char}

theorem item_closer {tag : Tag} {after : List Char} (h_closing : Closing text tag after) :
    item inner inGroup opened (Cursor.ofList text) notes = (none, notes) := by
  have h_closer := (Bracket.closer?_eq_some_iff (c := Cursor.ofList after)).2 h_closing
  unfold item
  rw [h_closer, Option.isSome_some, if_pos rfl]

theorem item_group {group : Attempt} (h_group : inner.group = some group) :
    item inner inGroup opened (Cursor.ofList ('(' :: text)) notes =
      group opened (Cursor.ofList ('(' :: text)) notes := by
  -- A closer is asked for before the character is looked at, so each case rules it out first.
  have h_closer : Bracket.closer? (Cursor.ofList ('(' :: text)) = none :=
    Bracket.closer?_eq_none_iff.2 (Rules.not_closing_of_ne (by decide))
  unfold item
  rw [h_closer, Cursor.next?_ofList_cons]
  simp only [Option.isSome_none, Bool.false_eq_true, if_false, h_group]

theorem item_tag {node : Node} {next : Cursor} {notes' : Notes}
    (h_closer : ∀ tag after, ¬ Closing ('[' :: text) tag after)
    (h_tag : inner.tag opened (Cursor.ofList ('[' :: text)) notes = (some (node, next), notes')) :
    item inner inGroup opened (Cursor.ofList ('[' :: text)) notes =
      (some (node, next), notes') := by
  unfold item
  rw [Bracket.closer?_eq_none_iff.2 h_closer, Cursor.next?_ofList_cons]
  simp only [Option.isSome_none, Bool.false_eq_true, if_false, h_tag]

theorem item_bracket {notes' : Notes} (h_closer : ∀ tag after, ¬ Closing ('[' :: text) tag after)
    (h_tag : inner.tag opened (Cursor.ofList ('[' :: text)) notes = (none, notes')) :
    item inner inGroup opened (Cursor.ofList ('[' :: text)) notes =
      (some (Bracket.word inGroup (Cursor.ofList ('[' :: text))), notes') := by
  unfold item
  rw [Bracket.closer?_eq_none_iff.2 h_closer, Cursor.next?_ofList_cons]
  simp only [Option.isSome_none, Bool.false_eq_true, if_false, h_tag]

theorem item_word {c : Char} (h_open : c ≠ '[') (h_group : c ≠ '(') :
    item inner inGroup opened (Cursor.ofList (c :: text)) notes =
      (some (Bracket.word inGroup (Cursor.ofList (c :: text))), notes) := by
  unfold item
  rw [Bracket.closer?_eq_none_iff.2 (Rules.not_closing_of_ne h_open), Cursor.next?_ofList_cons]
  simp only [Option.isSome_none, Bool.false_eq_true, if_false]
  split
  · rename_i h_eq
    exact absurd (Prod.mk.inj (Option.some.inj h_eq)).1 h_group
  · rename_i h_eq
    exact absurd (Prod.mk.inj (Option.some.inj h_eq)).1 h_open
  · rfl

/-- What was read here is a group, a tag or a word. A word may start with the parenthesis of a group
    that is too deep, or with a bracket that was tried in vain. -/
theorem item_eq_some {node : Node} {stop : Cursor} {notes' : Notes}
    (h : item inner inGroup opened (Cursor.ofList text) notes = (some (node, stop), notes')) :
    (∃ rest group, text = '(' :: rest ∧ inner.group = some group ∧
        group opened (Cursor.ofList text) notes = (some (node, stop), notes')) ∨
      (∃ rest, text = '[' :: rest ∧
        inner.tag opened (Cursor.ofList text) notes = (some (node, stop), notes')) ∨
      Bracket.word inGroup (Cursor.ofList text) = (node, stop) ∧
        (notes' = notes ∨
          (∃ rest, text = '(' :: rest ∧
            notes' = notes.add .groupTooDeep (Cursor.ofList text) (Cursor.ofList rest)) ∨
          ∃ rest, text = '[' :: rest ∧
            inner.tag opened (Cursor.ofList text) notes = (none, notes')) := by
  unfold item at h
  -- A closer ends the list, and is no item of it.
  split at h
  · exact absurd h (by simp)
  split at h
  · rename_i after h_next
    have h_text : text = '(' :: after.rest := Cursor.next?_eq_some_iff.1 h_next
    split at h
    · rename_i group h_group
      exact .inl ⟨after.rest, group, h_text, h_group, h⟩
    · obtain ⟨h_word, rfl⟩ := Prod.mk.inj h
      exact .inr (.inr ⟨Option.some.inj h_word,
        .inr (.inl ⟨after.rest, h_text, by rw [Cursor.ofList_rest]⟩)⟩)
  · rename_i after h_next
    have h_text : text = '[' :: after.rest := Cursor.next?_eq_some_iff.1 h_next
    split at h
    · rename_i h_tag
      exact .inr (.inl ⟨after.rest, h_text, h_tag.trans h⟩)
    · rename_i h_tag
      obtain ⟨h_word, rfl⟩ := Prod.mk.inj h
      exact .inr (.inr ⟨Option.some.inj h_word, .inr (.inr ⟨after.rest, h_text, h_tag⟩)⟩)
  · obtain ⟨h_word, h_notes⟩ := Prod.mk.inj h
    exact .inr (.inr ⟨Option.some.inj h_word, .inl h_notes.symm⟩)

end Item

/-! ## Children -/

section Siblings

variable {tag : Attempt} {opened : List Tag} {found : List Node} {plain : List Char}
  {notes : Notes} {text : List Char}

theorem withPlain_reverse (found : List Node) (plain : List Char) :
    (withPlain found plain).reverse = found.reverse ++ flush plain.reverse := by
  unfold withPlain flush
  cases plain with
  | nil => simp
  | cons c plain => simp

theorem ending_eq_none (h_ending : NoEnding opened text) :
    ending opened (Cursor.ofList text) = .none := by
  unfold ending
  cases h_closer : Bracket.closer? (Cursor.ofList text) with
  | none => rfl
  -- A closer stands here, but of a tag that is not open: neither its own nor an outer one.
  | some closed =>
    obtain ⟨closed, stop⟩ := closed
    have h_opened := h_ending _ _ (Bracket.closer?_eq_some_iff.1 h_closer)
    dsimp only
    rw [if_neg fun h => h_opened (List.mem_of_head? h), if_neg h_opened]

/-- Nothing is left to do at the end. -/
theorem siblings_none {c : Cursor} (h_next : c.next? = none) :
    siblings tag opened found plain c notes =
      ⟨(withPlain found plain).reverse, false, c, notes⟩ := by
  rw [siblings]
  split
  · rfl
  · rename_i h_some
    exact absurd (h_next.symm.trans h_some) (by simp)

theorem siblings_nil :
    siblings tag opened found plain (Cursor.ofList []) notes =
      ⟨(withPlain found plain).reverse, false, Cursor.ofList [], notes⟩ :=
  siblings_none Cursor.next?_ofList_nil

/-- What is done at the next character. -/
theorem siblings_some {c after : Cursor} {x : Char} (h_next : c.next? = some (x, after)) :
    siblings tag opened found plain c notes =
      if x = '[' then
        match ending opened c with
        | .own stop => ⟨(withPlain found plain).reverse, true, stop, notes⟩
        | .outer => ⟨(withPlain found plain).reverse, false, c, notes⟩
        | .none =>
          match tag opened c notes with
          | (none, notes) => siblings tag opened found (x :: plain) after notes
          | (some (node, next), notes) =>
            if next.left < c.left then
              siblings tag opened (node :: withPlain found plain) [] next notes
            else ⟨(withPlain found plain).reverse, false, c, notes⟩
      else siblings tag opened found (x :: plain) after notes := by
  rw [siblings]
  split
  · rename_i h_none
    exact absurd (h_next.symm.trans h_none) (by simp)
  · rename_i h_some
    obtain ⟨rfl, rfl⟩ := Prod.mk.inj (Option.some.inj (h_next.symm.trans h_some))
    rfl

theorem siblings_char {c : Char} (h_char : c ≠ '[') :
    siblings tag opened found plain (Cursor.ofList (c :: text)) notes =
      siblings tag opened found (c :: plain) (Cursor.ofList text) notes := by
  rw [siblings_some (Cursor.next?_ofList_cons c text), if_neg h_char]

theorem siblings_own {closed : Tag} {stop : List Char} (h_closing : Closing text closed stop)
    (h_own : opened.head? = some closed) :
    siblings tag opened found plain (Cursor.ofList text) notes =
      ⟨(withPlain found plain).reverse, true, Cursor.ofList stop, notes⟩ := by
  obtain ⟨rest, rfl⟩ := Rules.closing_starts h_closing
  have h_closer := (Bracket.closer?_eq_some_iff (c := Cursor.ofList stop)).2 h_closing
  have h_ending : ending opened (Cursor.ofList ('[' :: '/' :: rest)) =
      .own (Cursor.ofList stop) := by
    unfold ending
    rw [h_closer]
    dsimp only
    rw [if_pos h_own]
  rw [siblings_some (Cursor.next?_ofList_cons _ _), if_pos rfl, h_ending]

theorem siblings_outer {closed : Tag} {after : List Char} (h_closing : Closing text closed after)
    (h_own : opened.head? ≠ some closed) (h_outer : closed ∈ opened) :
    siblings tag opened found plain (Cursor.ofList text) notes =
      ⟨(withPlain found plain).reverse, false, Cursor.ofList text, notes⟩ := by
  obtain ⟨rest, rfl⟩ := Rules.closing_starts h_closing
  have h_closer := (Bracket.closer?_eq_some_iff (c := Cursor.ofList after)).2 h_closing
  have h_ending : ending opened (Cursor.ofList ('[' :: '/' :: rest)) = .outer := by
    unfold ending
    rw [h_closer]
    dsimp only
    rw [if_neg h_own, if_pos h_outer]
  rw [siblings_some (Cursor.next?_ofList_cons _ _), if_pos rfl, h_ending]

theorem siblings_bracket {notes' : Notes} (h_ending : NoEnding opened ('[' :: text))
    (h_tag : tag opened (Cursor.ofList ('[' :: text)) notes = (none, notes')) :
    siblings tag opened found plain (Cursor.ofList ('[' :: text)) notes =
      siblings tag opened found ('[' :: plain) (Cursor.ofList text) notes' := by
  rw [siblings_some (Cursor.next?_ofList_cons _ _), if_pos rfl, ending_eq_none h_ending]
  dsimp only
  rw [h_tag]

theorem siblings_tag {node : Node} {next : Cursor} {notes' : Notes}
    (h_ending : NoEnding opened ('[' :: text))
    (h_tag : tag opened (Cursor.ofList ('[' :: text)) notes = (some (node, next), notes'))
    (h_next : next.left < byteLength ('[' :: text)) :
    siblings tag opened found plain (Cursor.ofList ('[' :: text)) notes =
      siblings tag opened (node :: withPlain found plain) [] next notes' := by
  rw [siblings_some (Cursor.next?_ofList_cons _ _), if_pos rfl, ending_eq_none h_ending]
  dsimp only
  rw [h_tag]
  dsimp only
  rw [if_pos (by rwa [left_ofList])]

end Siblings

/-! ## Tags -/

section Tags

variable {opened : List Tag} {notes : Notes} {text : List Char}

/-- A bracket that is remembered is not tried again. -/
theorem tag_hasFailed {c : Cursor} (l : Nat) (h_failed : notes.hasFailed c = true) :
    (openers l).tag opened c notes = (none, notes) := by
  cases l with
  -- Too deep for a tag or not, the memory is asked first.
  | zero => simp [openers, tagTooDeep, h_failed]
  | succ l => simp [openers, tag, h_failed]

theorem tag_noOpener (l : Nat) (h_open : ∀ name after, ¬ Opening text name after) :
    (openers l).tag opened (Cursor.ofList ('[' :: text)) notes = (none, notes) := by
  have h_opener : Bracket.opener? (Cursor.ofList ('[' :: text)) = none := by
    cases h : Bracket.opener? (Cursor.ofList ('[' :: text)) with
    | none => rfl
    | some found => exact absurd (Bracket.opener?_eq_some_iff.1 h) (h_open _ _)
  cases l with
  -- Without an opener nothing is too deep: the two readers of a bracket agree.
  | zero => simp [openers, tagTooDeep, h_opener]
  | succ l => simp [openers, tag, h_opener]

variable {name : String} {after : List Char}

theorem tag_known {meaning : Tag.Resolved} (l : Nat)
    (h_failed : notes.hasFailed (Cursor.ofList ('[' :: text)) = false)
    (h_open : Opening text name after) (h_name : Tag.resolve? name = some meaning) :
    (openers (l + 1)).tag opened (Cursor.ofList ('[' :: text)) notes =
      knownTag (openers l) opened name meaning (Cursor.ofList ('[' :: text))
        (Cursor.ofList after) notes := by
  have h_opener : Bracket.opener? (Cursor.ofList ('[' :: text)) =
      some (name, Cursor.ofList after) :=
    Bracket.opener?_eq_some_iff.2 h_open
  show tag (openers l) opened _ notes = _
  unfold tag
  rw [h_failed, h_opener]
  simp only [Bool.false_eq_true, if_false, h_name]

theorem tag_unknown (l : Nat)
    (h_failed : notes.hasFailed (Cursor.ofList ('[' :: text)) = false)
    (h_open : Opening text name after) (h_name : Tag.resolve? name = none) :
    (openers (l + 1)).tag opened (Cursor.ofList ('[' :: text)) notes =
      unknownTag (openers l) opened name (Cursor.ofList ('[' :: text)) (Cursor.ofList after)
        notes := by
  have h_opener : Bracket.opener? (Cursor.ofList ('[' :: text)) =
      some (name, Cursor.ofList after) :=
    Bracket.opener?_eq_some_iff.2 h_open
  show tag (openers l) opened _ notes = _
  unfold tag
  rw [h_failed, h_opener]
  simp only [Bool.false_eq_true, if_false, h_name]

/-- A tag that was read is one of the table or an unknown one. -/
theorem tag_eq_some {inner : Openers} {node : Node} {stop : Cursor} {notes' : Notes}
    (h : tag inner opened (Cursor.ofList ('[' :: text)) notes = (some (node, stop), notes')) :
    ∃ name after, Opening text name after ∧
      ((∃ meaning, Tag.resolve? name = some meaning ∧
          knownTag inner opened name meaning (Cursor.ofList ('[' :: text)) (Cursor.ofList after)
            notes = (some (node, stop), notes')) ∨
        unknownTag inner opened name (Cursor.ofList ('[' :: text)) (Cursor.ofList after) notes =
          (some (node, stop), notes')) := by
  unfold tag at h
  -- A bracket that is remembered is not tried, and one without a name opens nothing.
  split at h
  · exact absurd h (by simp)
  split at h
  · exact absurd h (by simp)
  rename_i name after h_opener
  rw [← Cursor.ofList_rest after] at h
  refine ⟨name, after.rest, Bracket.opener?_eq_some_iff.1 h_opener, ?_⟩
  split at h
  · rename_i meaning h_name
    exact .inl ⟨meaning, h_name, h⟩
  · exact .inr h

/-- What follows the name of a tag, up to the end of the opener. -/
def header (inner : Openers) (raw : Bool) (opened : List Tag) (c : Cursor) (notes : Notes) :
    Option (List Node × Cursor) × Notes :=
  if raw then (Bracket.rawAttribute? c, notes) else attributes inner opened c notes

theorem knownTag_none {inner : Openers} {meaning : Tag.Resolved} {c c' : Cursor}
    {notes' : Notes}
    (h_header : header inner meaning.tag.rawAttribute opened c' notes = (none, notes')) :
    knownTag inner opened name meaning c c' notes =
      (none, ((notes'.restore notes.issues).fail c).add (.malformed name) c c') := by
  unfold knownTag
  dsimp only
  unfold header at h_header
  rw [h_header]

theorem knownTag_some {inner : Openers} {meaning : Tag.Resolved} {c c' openEnd stop : Cursor}
    {attributes : List Node} {node : Node} {notes' notes'' : Notes}
    (h_header : header inner meaning.tag.rawAttribute opened c' notes =
      (some (attributes, openEnd), notes'))
    (h_body : body inner opened name meaning.tag (meaning.implied.map .text ++ attributes) c openEnd
      notes' = ((node, stop), notes'')) :
    knownTag inner opened name meaning c c' notes = (some (node, stop), notes'') := by
  unfold knownTag
  dsimp only
  unfold header at h_header
  rw [h_header]
  dsimp only
  rw [h_body]

/-- A tag of the table that was read has an opener that ends, and what the opener becomes. -/
theorem knownTag_eq_some {inner : Openers} {meaning : Tag.Resolved} {c c' stop : Cursor}
    {node : Node} {notes' : Notes}
    (h : knownTag inner opened name meaning c c' notes = (some (node, stop), notes')) :
    ∃ written openEnd inside,
      header inner meaning.tag.rawAttribute opened c' notes =
          (some (written, Cursor.ofList openEnd), inside) ∧
        body inner opened name meaning.tag (meaning.implied.map .text ++ written) c
          (Cursor.ofList openEnd) inside = ((node, stop), notes') := by
  rcases h_header : header inner meaning.tag.rawAttribute opened c' notes with
    ⟨_ | ⟨written, openEnd⟩, inside⟩
  · rw [knownTag_none h_header] at h
    exact absurd h (by simp)
  rcases h_body : body inner opened name meaning.tag
      (meaning.implied.map .text ++ written) c openEnd inside with
    ⟨⟨node', stop'⟩, notes''⟩
  rw [knownTag_some h_header h_body] at h
  obtain ⟨h_found, rfl⟩ := Prod.mk.inj h
  obtain ⟨rfl, rfl⟩ := Prod.mk.inj (Option.some.inj h_found)
  refine ⟨written, openEnd.rest, inside, ?_, ?_⟩
  · rw [Cursor.ofList_rest]
  · rwa [Cursor.ofList_rest]

theorem unknownTag_none {inner : Openers} {c c' : Cursor} {notes' : Notes}
    (h_header : header inner false opened c' notes = (none, notes')) :
    unknownTag inner opened name c c' notes = (none, (notes'.restore notes.issues).fail c) := by
  unfold unknownTag
  dsimp only
  have h_header : attributes inner opened c' notes = (none, notes') := h_header
  rw [h_header]

theorem unknownTag_some {inner : Openers} {openEnd passed stop : List Char}
    {attributes : List Node} {c' : Cursor} {notes' : Notes}
    (h_header : header inner false opened c' notes =
      (some (attributes, Cursor.ofList openEnd), notes'))
    (h_stop : Bracket.unknownEnd name openEnd = stop) (h_text : text = passed ++ stop) :
    unknownTag inner opened name (Cursor.ofList text) c' notes =
      (some (.text (String.ofList passed), Cursor.ofList stop),
        (notes'.restore notes.issues).add (.unknownTag name) (Cursor.ofList text)
          (Cursor.ofList openEnd)) := by
  have h_header : Reader.attributes inner opened c' notes =
      (some (attributes, Cursor.ofList openEnd), notes') := h_header
  -- The tag becomes the text that was passed, so its spelling is kept.
  have h_passed : (Cursor.ofList text).textTo (Cursor.ofList stop) = passed :=
    Cursor.textTo_eq h_text
  unfold unknownTag
  dsimp only
  rw [h_header]
  simp only [Bracket.afterCloser?_getD, h_stop, h_passed]

/-- An unknown tag that was read is a text. -/
theorem unknownTag_eq_some {inner : Openers} {c c' stop : Cursor} {notes' : Notes} {node : Node}
    (h : unknownTag inner opened name c c' notes = (some (node, stop), notes')) :
    ∃ value : String, node = .text value := by
  unfold unknownTag at h
  dsimp only at h
  split at h
  · exact absurd h (by simp)
  · obtain ⟨rfl, -⟩ := Prod.mk.inj (Option.some.inj (Prod.mk.inj h).1)
    exact ⟨_, rfl⟩

theorem body_bare {inner : Openers} {tag : Tag} {attributes : List Node} {c : Cursor}
    {openEnd : List Char} (h_kind : tag.kind = .selfClosing)
    (h_stored : tag.storesResult = true →
      ∀ value stop, ¬ Bracket.Stored openEnd tag value stop) :
    body inner opened name tag attributes c (Cursor.ofList openEnd) notes =
      ((.element tag.name attributes [], Cursor.ofList openEnd), notes) := by
  -- For a tag that stores no result none is looked for, whatever follows it.
  have h_result : (if tag.storesResult = true then
      Bracket.storedResult? tag (Cursor.ofList openEnd) else none) = none := by
    split
    · rename_i h_stores
      exact Bracket.storedResult?_eq_none_iff.2 (h_stored h_stores)
    · rfl
  unfold body
  rw [h_kind]
  dsimp only
  rw [h_result]

theorem body_stored {inner : Openers} {tag : Tag} {attributes : List Node} {c : Cursor}
    {openEnd value stop : List Char} (h_kind : tag.kind = .selfClosing)
    (h_stores : tag.storesResult = true) (h_stored : Bracket.Stored openEnd tag value stop) :
    body inner opened name tag attributes c (Cursor.ofList openEnd) notes =
      ((.element tag.name attributes [.text (String.ofList value)], Cursor.ofList stop),
        notes) := by
  have h_result := Bracket.storedResult?_of_stored h_stored
  unfold body
  rw [h_kind]
  dsimp only
  rw [if_pos h_stores, h_result]

theorem body_inside {inner : Openers} {tag : Tag} {attributes : List Node} {c openEnd : Cursor}
    {inside : Siblings} (h_kind : tag.kind = .container)
    (h_inside : siblings inner.tag (tag :: opened) [] [] openEnd notes = inside) :
    body inner opened name tag attributes c openEnd notes =
      ((.element tag.name attributes inside.nodes, inside.stop),
        if inside.closed then inside.notes
        else inside.notes.add (.unterminated name) c openEnd) := by
  unfold body
  rw [h_kind]
  dsimp only
  rw [h_inside]

/-- What an opener of a tag that is never closed has become: the tag with its result, or without
    children. -/
theorem body_eq_selfClosing {inner : Openers} {tag : Tag} {attributes : List Node} {c stop : Cursor}
    {openEnd : List Char} {node : Node} {notes' : Notes} (h_kind : tag.kind = .selfClosing)
    (h : body inner opened name tag attributes c (Cursor.ofList openEnd) notes =
      ((node, stop), notes')) :
    notes' = notes ∧
      ((∃ value : String, tag.storesResult = true ∧
          Bracket.Stored openEnd tag value.toList stop.rest ∧
          node = .element tag.name attributes [.text value]) ∨
        node = .element tag.name attributes [] ∧ stop = Cursor.ofList openEnd) := by
  unfold body at h
  rw [h_kind] at h
  dsimp only at h
  split at h
  · rename_i value after h_result
    obtain ⟨h_found, rfl⟩ := Prod.mk.inj h
    obtain ⟨rfl, rfl⟩ := Prod.mk.inj h_found
    split at h_result
    · rename_i h_stores
      exact ⟨rfl, .inl ⟨value, h_stores, Bracket.storedResult?_eq_some_iff.1 h_result, rfl⟩⟩
    · exact absurd h_result (by simp)
  · obtain ⟨h_found, rfl⟩ := Prod.mk.inj h
    obtain ⟨rfl, rfl⟩ := Prod.mk.inj h_found
    exact ⟨rfl, .inr ⟨rfl, rfl⟩⟩

end Tags

end DiceMarkup.Reader
