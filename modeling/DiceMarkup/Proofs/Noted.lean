/-
  DiceMarkup.Proofs.Noted

  Where issues are noted. A bracket may be tried many times, with other tags
  around it and at other levels, and what is noted in a try that comes to nothing
  is given up. Main statement: the issues of a text are at places of their own,
  each marks a part of the text that starts there, and its report quotes this
  part and tells where it stands.

  One invariant says so for every reading function: the issues that it adds
  start between where it starts to read and where it stops.

  Pieces:
  * `Issue.Marks` — an issue marks a `(`, or a `[` and the letters behind it
  * `Notes.Adds` — issues are added in a part of the text, at places of their own
  * `items_adds`, `siblings_adds` — the loops of the reader
  * `openers_note` — what is noted of a tag or a group
  * `Document.diagnose_quotes` — whole texts
-/
import DiceMarkup.Proofs.Positions
import DiceMarkup.Proofs.Spelling

namespace DiceMarkup

open DiceMarkup.Bracket (Opening)
open Text (Cursor LineTable Position byteLength isBlank)

/-! ## Marks -/

/-- A `(`, or a `[` with a letter behind it. -/
def IsMark (marked : List Char) : Prop :=
  marked = ['('] ∨ ∃ letter inside, marked = '[' :: letter :: inside ∧ letter.isAlpha = true

theorem IsMark.ne_nil {marked : List Char} (h : IsMark marked) : marked ≠ [] := by
  rintro rfl
  obtain h_group | ⟨letter, inside, h_tag, -⟩ := h
  · exact absurd h_group (by simp)
  · exact absurd h_tag (by simp)

/-- The part of the text from the start of the issue to its end. -/
def Issue.Marks (issue : Issue) (marked : List Char) : Prop :=
  issue.start.rest = marked ++ issue.stop.rest ∧ IsMark marked

/-- What is marked of a tag starts with its bracket and its name. -/
theorem isMark_of_opening {text after : List Char} {name : String}
    (h_open : Opening text name after)
    (inside : List Char) : IsMark ('[' :: (name.toList ++ inside)) := by
  obtain ⟨letter, letters, h_name⟩ := List.exists_cons_of_ne_nil h_open.nonempty
  rw [h_name]
  exact .inr ⟨letter, letters ++ inside, rfl, h_open.letters letter (h_name ▸ List.mem_cons_self)⟩

namespace Notes

/-! ## Issues that are added -/

/-- Reading the text as far as so many bytes are left adds issues that start in what is read, each
    at a place of its own. -/
structure Adds (notes : Notes) (text : List Char) (left : Nat) (notes' : Notes) : Prop where
  le : left ≤ byteLength text
  added : ∃ new, notes'.issues = new ++ notes.issues ∧
    (∀ issue ∈ new, issue.start.rest <:+ text ∧ left < issue.start.left ∧
      ∃ marked, issue.Marks marked) ∧
    new.Pairwise fun a b => a.start.left ≠ b.start.left

section Adds

variable {notes notes' notes'' : Notes} {text next : List Char} {left : Nat}

/-- Nothing is added if the issues are the same; what is remembered does not count. -/
theorem Adds.of_issues_eq (h_issues : notes'.issues = notes.issues) (h : left ≤ byteLength text) :
    notes.Adds text left notes' :=
  ⟨h, [], h_issues, nofun, .nil⟩

theorem Adds.refl (h : left ≤ byteLength text) : notes.Adds text left notes :=
  .of_issues_eq rfl h

theorem byteLength_le_of_suffix (h : next <:+ text) : byteLength next ≤ byteLength text := by
  obtain ⟨first, rfl⟩ := h
  rw [Text.byteLength_append]
  omega

/-- The issues of a later part are among those of the whole. -/
theorem Adds.suffix (h : notes.Adds next left notes') (h_suffix : next <:+ text) :
    notes.Adds text left notes' := by
  obtain ⟨h_le, new, h_issues, h_placed, h_apart⟩ := h
  refine ⟨h_le.trans (byteLength_le_of_suffix h_suffix), new, h_issues,
    fun issue h_mem => ?_, h_apart⟩
  obtain ⟨h_start, h_rest⟩ := h_placed issue h_mem
  exact ⟨h_start.trans h_suffix, h_rest⟩

/-- What is read next adds issues further on. -/
theorem Adds.trans (h : notes.Adds text (byteLength next) notes')
    (h' : notes'.Adds next left notes'')
    (h_suffix : next <:+ text) : notes.Adds text left notes'' := by
  obtain ⟨h_le, new, h_issues, h_placed, h_apart⟩ := h
  obtain ⟨h_le', new', h_issues', h_placed', h_apart'⟩ := h'
  refine ⟨h_le'.trans h_le, new' ++ new, by rw [h_issues', h_issues, List.append_assoc], ?_, ?_⟩
  · intro issue h_mem
    rcases List.mem_append.1 h_mem with h_later | h_first
    · obtain ⟨h_start, h_rest⟩ := h_placed' issue h_later
      exact ⟨h_start.trans h_suffix, h_rest⟩
    · obtain ⟨h_start, h_before, h_marked⟩ := h_placed issue h_first
      exact ⟨h_start, by omega, h_marked⟩
  -- The later issues are in what is left, and the first ones are before it.
  · refine List.pairwise_append.2 ⟨h_apart', h_apart, fun later h_later first h_first => ?_⟩
    obtain ⟨h_start, -⟩ := h_placed' later h_later
    obtain ⟨-, h_before, -⟩ := h_placed first h_first
    have h_size := byteLength_le_of_suffix h_start
    rw [← later.start.left_eq] at h_size
    omega

/-- An issue that starts with the text is before all that are noted further on. -/
theorem Adds.add (h : notes.Adds next left notes') {c : Char} (h_suffix : next <:+ text)
    {problem : Problem} {stop : Cursor} (marked : List Char)
    (h_marks : c :: text = marked ++ stop.rest) (h_mark : IsMark marked) :
    notes.Adds (c :: text) left (notes'.add problem (Cursor.ofList (c :: text)) stop) := by
  obtain ⟨h_le, new, h_issues, h_placed, h_apart⟩ := h
  have h_size : byteLength next < byteLength (c :: text) := by
    have h_next := byteLength_le_of_suffix h_suffix
    have h_pos := c.utf8Size_pos
    rw [Text.byteLength_cons]
    omega
  refine ⟨by omega, ⟨problem, Cursor.ofList (c :: text), stop⟩ :: new, ?_, ?_, .cons ?_ h_apart⟩
  · show _ :: notes'.issues = _
    rw [h_issues]
    rfl
  · intro issue h_mem
    rcases List.mem_cons.1 h_mem with rfl | h_new
    · exact ⟨List.suffix_rfl, Nat.lt_of_le_of_lt h_le h_size, marked, h_marks, h_mark⟩
    · obtain ⟨h_start, h_rest⟩ := h_placed issue h_new
      exact ⟨h_start.trans (h_suffix.trans (List.suffix_cons c text)), h_rest⟩
  · intro issue h_new
    obtain ⟨h_start, -⟩ := h_placed issue h_new
    have h_later := byteLength_le_of_suffix h_start
    rw [← issue.start.left_eq] at h_later
    show byteLength (c :: text) ≠ issue.start.left
    omega

end Adds

end Notes

namespace Reader

/-! ## Attempts -/

/-- How many bytes are left behind an attempt at the first character of a text; one that comes to
    nothing takes that character only. -/
def leftBehind (text : List Char) : Option (Node × Cursor) → Nat
  | none => byteLength text
  | some found => found.2.left

/-- The tags and the groups that may open add issues in what is read of them, a tag that comes to
    nothing at its bracket. What a group that does not end has added is given up by the tag around
    it. -/
structure Openers.Note (openers : Openers) : Prop where
  tag : ∀ (opened : List Tag) (text : List Char) (notes : Notes),
    notes.Adds ('[' :: text)
      (leftBehind text (openers.tag opened (Cursor.ofList ('[' :: text)) notes).1)
      (openers.tag opened (Cursor.ofList ('[' :: text)) notes).2
  group : ∀ group ∈ openers.group, ∀ (opened : List Tag) (text : List Char) (notes notes' : Notes)
    (node : Node) (stop : Cursor),
    group opened (Cursor.ofList ('(' :: text)) notes = (some (node, stop), notes') →
      notes.Adds ('(' :: text) stop.left notes'

section Level

variable {inner : Openers} {opened : List Tag}

/-- A word takes the first character and perhaps more, and adds nothing to what was noted at it. -/
theorem word_adds (inGroup : Bool) {x : Char} {text : List Char} {notes notes' : Notes}
    (h : notes.Adds (x :: text) (byteLength text) notes') :
    notes.Adds (x :: text) (Bracket.word inGroup (Cursor.ofList (x :: text))).2.left notes' := by
  rw [Bracket.word_ofList_cons]
  have h_tail := Bracket.wordTail_append_afterWord inGroup text
  have h_le : byteLength (Bracket.afterWord inGroup text) ≤ byteLength text :=
    Notes.byteLength_le_of_suffix ⟨_, h_tail⟩
  exact h.trans (.refl h_le) (List.suffix_cons x text)

theorem item_adds (h_inner : inner.Note) {inGroup : Bool} {x : Char} {text : List Char}
    {notes notes' : Notes} {node : Node} {stop : Cursor}
    (h : item inner inGroup opened (Cursor.ofList (x :: text)) notes =
      (some (node, stop), notes')) :
    notes.Adds (x :: text) stop.left notes' := by
  rcases item_eq_some h with ⟨rest, group, h_text, h_group, h_read⟩ | ⟨rest, h_text, h_read⟩ |
    ⟨h_word, h_notes⟩
  · obtain ⟨rfl, rfl⟩ := List.cons.inj h_text
    exact h_inner.group group h_group _ _ _ _ _ _ h_read
  · obtain ⟨rfl, rfl⟩ := List.cons.inj h_text
    have h_tag := h_inner.tag opened text notes
    rwa [h_read] at h_tag
  · have h_first : notes.Adds (x :: text) (byteLength text) notes' := by
      rcases h_notes with rfl | ⟨rest, h_text, rfl⟩ | ⟨rest, h_text, h_none⟩
      · exact .refl (Notes.byteLength_le_of_suffix (List.suffix_cons x text))
      -- The parenthesis of a group that is too deep.
      · obtain ⟨rfl, rfl⟩ := List.cons.inj h_text
        exact (Notes.Adds.refl le_rfl).add List.suffix_rfl ['('] rfl (.inl rfl)
      -- A bracket that opens no tag has been noted at its own place, and starts a word.
      · obtain ⟨rfl, rfl⟩ := List.cons.inj h_text
        have h_tag := h_inner.tag opened text notes
        rwa [h_none] at h_tag
    have h_adds := word_adds inGroup h_first
    rwa [h_word] at h_adds

theorem skipBlank_suffix (c : Cursor) : c.skipBlank.rest <:+ c.rest := by
  obtain ⟨blanks, -, h_rest⟩ := exists_blanks c
  exact ⟨blanks, h_rest.symm⟩

/-- What is noted of the items of a list is noted in the order of the text. -/
theorem items_adds {closing : Char} {read : Cursor → Notes → Option (Node × Cursor) × Notes}
    (h_read : ∀ (x : Char) (text : List Char) (notes notes' : Notes) (node : Node) (next : Cursor),
      read (Cursor.ofList (x :: text)) notes = (some (node, next), notes') →
        notes.Adds (x :: text) next.left notes' ∧ next.rest <:+ x :: text)
    (found : List Node) (c : Cursor) (notes : Notes) :
    ∀ (nodes : List Node) (stop : Cursor) (notes' : Notes),
      items closing read found c notes = (some (nodes, stop), notes') →
        notes.Adds c.rest stop.left notes' := by
  fun_induction items closing read found c notes with
  -- There is no list, and what was noted in it will be given up.
  | case1 | case3 | case4 | case6 => exact fun _ _ _ h => absurd h (by simp)
  | case2 found c notes after h_next =>
    intro nodes stop notes' h
    obtain ⟨h_found, rfl⟩ := Prod.mk.inj h
    obtain ⟨-, rfl⟩ := Prod.mk.inj (Option.some.inj h_found)
    have h_lt := Cursor.left_lt_of_next? h_next
    have h_le := c.left_skipBlank_le
    rw [c.left_eq] at h_le
    exact .refl (by omega)
  | case5 found c notes x after h_next _ _ node next notes₁ h_item _ ih =>
    intro nodes stop notes' h
    have h_rest := Cursor.next?_eq_some_iff.1 h_next
    rw [← Cursor.ofList_rest c.skipBlank, h_rest] at h_item
    obtain ⟨h_adds, h_suffix⟩ := h_read _ _ _ _ _ _ h_item
    rw [next.left_eq] at h_adds
    have h_here := skipBlank_suffix c
    rw [h_rest] at h_here
    exact (h_adds.trans (ih nodes stop notes' h) h_suffix).suffix h_here

theorem listed_adds (h_inner : inner.Note) (h_faithful : inner.Faithful) {inGroup : Bool}
    {c : Cursor} {closing : Char} {notes notes' : Notes} {nodes : List Node} {stop : Cursor}
    (h : items closing (item inner inGroup opened) [] c notes = (some (nodes, stop), notes')) :
    notes.Adds c.rest stop.left notes' := by
  refine items_adds (fun x text notes notes' node next h_item => ?_) [] c notes nodes stop notes' h
  obtain ⟨first, h_text, -⟩ := item_spells h_faithful h_item
  exact ⟨item_adds h_inner h_item, first, h_text.symm⟩

theorem group_adds (h_inner : inner.Note) (h_faithful : inner.Faithful) {text : List Char}
    {notes notes' : Notes} {node : Node} {stop : Cursor}
    (h : group inner opened (Cursor.ofList ('(' :: text)) notes = (some (node, stop), notes')) :
    notes.Adds ('(' :: text) stop.left notes' := by
  obtain ⟨members, -, h_items⟩ := group_eq_some h
  exact (listed_adds h_inner h_faithful h_items).suffix (List.suffix_cons '(' text)

/-! ## Pieces -/

/-- What is noted of the pieces is noted in the order of the text, up to where they stop. -/
theorem siblings_adds (h_inner : inner.Note) (h_faithful : inner.Faithful) (found : List Node)
    (plain : List Char) (c : Cursor) (notes : Notes) :
    notes.Adds c.rest (siblings inner.tag opened found plain c notes).stop.left
      (siblings inner.tag opened found plain c notes).notes := by
  -- Whatever is tried at a bracket, its issues are behind it, and what is read next is further on.
  have h_try : ∀ {c after : Cursor} (notes : Notes), c.next? = some ('[', after) →
      notes.Adds c.rest (leftBehind after.rest (inner.tag opened c notes).1)
        (inner.tag opened c notes).2 := by
    intro c after notes h_next
    have h_rest := Cursor.next?_eq_some_iff.1 h_next
    have h_tag := h_inner.tag opened after.rest notes
    rwa [← h_rest, Cursor.ofList_rest] at h_tag
  have h_after : ∀ {c after : Cursor} {x : Char}, c.next? = some (x, after) →
      after.rest <:+ c.rest := fun h_next =>
    ⟨[_], (Cursor.next?_eq_some_iff.1 h_next).symm⟩
  fun_induction siblings inner.tag opened found plain c notes with
  | case1 found plain c notes | case3 found plain c notes => exact .refl c.left_eq.le
  | case2 found plain c notes _ stop h_own =>
    obtain ⟨closer, h_rest, -⟩ := ending_own h_own
    show notes.Adds c.rest stop.left notes
    rw [stop.left_eq]
    exact .refl (Notes.byteLength_le_of_suffix ⟨closer, h_rest.symm⟩)
  | case4 found plain c notes after _ notes' h_none h_next _ ih =>
    have h_adds := h_try notes h_next
    rw [h_none] at h_adds
    exact h_adds.trans ih (h_after h_next)
  | case7 found plain c notes x after h_next _ _ ih => exact ih.suffix (h_after h_next)
  | case5 found plain c notes after _ node next notes' h_some _ h_next _ ih =>
    have h_adds := h_try notes h_next
    rw [h_some] at h_adds
    obtain ⟨taken, h_text, -⟩ := h_faithful.tag.takes h_next h_some
    rw [leftBehind, next.left_eq] at h_adds
    exact h_adds.trans ih ⟨'[' :: taken, h_text.symm⟩
  | case6 found plain c notes after _ node next notes' h_some h_lt h_next _ =>
    exact absurd (h_faithful.tag.left_lt h_next h_some) h_lt

/-! ## Tags -/

theorem header_adds (h_inner : inner.Note) (h_faithful : inner.Faithful) {raw : Bool}
    {after : List Char} {notes notes' : Notes} {written : List Node} {openEnd : Cursor}
    (h : header inner raw opened (Cursor.ofList after) notes = (some (written, openEnd), notes'))
    (h_suffix : openEnd.rest <:+ after) : notes.Adds after openEnd.left notes' := by
  unfold header at h
  split at h
  · obtain ⟨-, rfl⟩ := Prod.mk.inj h
    rw [openEnd.left_eq]
    exact .refl (Notes.byteLength_le_of_suffix h_suffix)
  · exact listed_adds h_inner h_faithful h

/-- A container that is not closed is noted at its bracket, besides what is noted in it. -/
theorem body_adds (h_inner : inner.Note) (h_faithful : inner.Faithful) {name : String} {tag : Tag}
    {attributes : List Node} {c : Cursor} {openEnd : List Char} {notes notes' : Notes} {node : Node}
    {stop : Cursor}
    (h : body inner opened name tag attributes c (Cursor.ofList openEnd) notes =
      ((node, stop), notes')) :
    ∃ inside, notes.Adds openEnd stop.left inside ∧
      (notes' = inside ∨ notes' = inside.add (.unterminated name) c (Cursor.ofList openEnd)) := by
  obtain ⟨-, taken, -, h_text, -⟩ := body_spells h_faithful h
  cases h_kind : tag.kind with
  | selfClosing =>
    rw [stop.left_eq]
    exact ⟨notes, .refl (Notes.byteLength_le_of_suffix ⟨taken, h_text.symm⟩),
      .inl (body_eq_selfClosing h_kind h).1⟩
  | container =>
    have h_adds : notes.Adds openEnd
        (siblings inner.tag (tag :: opened) [] [] (Cursor.ofList openEnd) notes).stop.left _ :=
      siblings_adds h_inner h_faithful [] [] (Cursor.ofList openEnd) notes
    rw [body_inside h_kind rfl] at h
    obtain ⟨h_found, h_notes⟩ := Prod.mk.inj h
    obtain ⟨-, rfl⟩ := Prod.mk.inj h_found
    refine ⟨_, h_adds, ?_⟩
    split at h_notes
    · exact .inl h_notes.symm
    · exact .inr h_notes.symm

theorem knownTag_adds (h_inner : inner.Note) (h_faithful : inner.Faithful) {name : String}
    {meaning : Tag.Resolved} {text after : List Char} (h_open : Opening text name after)
    (notes : Notes) :
    let read := knownTag inner opened name meaning (Cursor.ofList ('[' :: text))
      (Cursor.ofList after) notes
    notes.Adds ('[' :: text) (leftBehind text read.1) read.2 := by
  intro read
  have h_split := h_open.split
  rcases h_header : header inner meaning.tag.rawAttribute opened (Cursor.ofList after) notes with
    ⟨_ | ⟨written, openEnd⟩, notes₁⟩
  -- An opener that does not end: what was noted in it is given up.
  · have h_read : read =
        (none, ((notes₁.restore notes.issues).fail (Cursor.ofList ('[' :: text))).add
          (.malformed name) (Cursor.ofList ('[' :: text)) (Cursor.ofList after)) :=
      knownTag_none h_header
    have h_same : notes.Adds text (byteLength text)
        ((notes₁.restore notes.issues).fail (Cursor.ofList ('[' :: text))) :=
      .of_issues_eq rfl le_rfl
    rw [h_read]
    refine h_same.add List.suffix_rfl ('[' :: (name.toList ++ [])) ?_
      (isMark_of_opening h_open [])
    show '[' :: text = _
    rw [h_split]
    simp
  rcases h_body : body inner opened name meaning.tag (meaning.implied.map .text ++ written)
    (Cursor.ofList ('[' :: text)) openEnd notes₁ with ⟨⟨node, stop⟩, notes₂⟩
  have h_read : read = (some (node, stop), notes₂) := knownTag_some h_header h_body
  obtain ⟨inside, h_after, -⟩ := header_spells h_faithful h_open h_header
  have h_suffix : openEnd.rest <:+ after := ⟨inside ++ [']'], by rw [h_after]; simp⟩
  have h_opener := header_adds h_inner h_faithful h_header h_suffix
  rw [← Cursor.ofList_rest openEnd] at h_body
  obtain ⟨notes₃, h_inside, h_notes⟩ := body_adds h_inner h_faithful h_body
  rw [openEnd.left_eq] at h_opener
  have h_adds := h_opener.trans h_inside h_suffix
  have h_behind : after <:+ text := ⟨name.toList, h_split.symm⟩
  rw [h_read]
  -- The opener is noted after what stands behind it, if the closer is missing.
  rcases h_notes with rfl | rfl
  · exact h_adds.suffix (h_behind.trans (List.suffix_cons '[' text))
  · refine h_adds.add h_behind ('[' :: (name.toList ++ (inside ++ [']']))) ?_
      (isMark_of_opening h_open _)
    rw [Cursor.rest_ofList, h_split, h_after]
    simp

theorem unknownTag_adds (h_faithful : inner.Faithful) {name : String} {text after : List Char}
    (h_open : Opening text name after) (notes : Notes) :
    let read := unknownTag inner opened name (Cursor.ofList ('[' :: text))
      (Cursor.ofList after) notes
    notes.Adds ('[' :: text) (leftBehind text read.1) read.2 := by
  intro read
  rcases h_header : header inner false opened (Cursor.ofList after) notes with
    ⟨_ | ⟨written, openEnd⟩, notes₁⟩
  · have h_read : read = (none, (notes₁.restore notes.issues).fail (Cursor.ofList ('[' :: text))) :=
      unknownTag_none h_header
    rw [h_read]
    exact .of_issues_eq rfl (Notes.byteLength_le_of_suffix (List.suffix_cons '[' text))
  obtain ⟨inside, h_after, -⟩ := attributes_spells h_faithful h_header
  obtain ⟨passed, h_end⟩ := Bracket.unknownEnd_split name openEnd.rest
  generalize h_stop : Bracket.unknownEnd name openEnd.rest = stop at h_end
  have h_text : '[' :: text = '[' :: (name.toList ++ (inside ++ [']'])) ++ openEnd.rest := by
    rw [h_open.split, h_after]
    simp
  have h_passed : '[' :: text = ('[' :: (name.toList ++ (inside ++ [']'])) ++ passed) ++ stop := by
    rw [h_text, h_end, List.append_assoc]
  have h_suffix : stop <:+ text :=
    ⟨name.toList ++ (inside ++ [']']) ++ passed, (List.cons.inj h_passed).2.symm⟩
  rw [← Cursor.ofList_rest openEnd] at h_header
  have h_read : read = (some (.text _, Cursor.ofList stop), (notes₁.restore notes.issues).add
      (.unknownTag name) (Cursor.ofList ('[' :: text)) (Cursor.ofList openEnd.rest)) :=
    unknownTag_some h_header h_stop h_passed
  -- What was noted in the opener counts for nothing; only the opener itself is noted.
  have h_same : notes.Adds text (byteLength stop) (notes₁.restore notes.issues) :=
    .of_issues_eq rfl (Notes.byteLength_le_of_suffix h_suffix)
  rw [h_read]
  exact h_same.add List.suffix_rfl _ h_text (isMark_of_opening h_open _)

/-- A tag adds issues in what is read of it. -/
theorem tag_adds (h_inner : inner.Note) (h_faithful : inner.Faithful) (opened : List Tag)
    (text : List Char) (notes : Notes) :
    let read := tag inner opened (Cursor.ofList ('[' :: text)) notes
    notes.Adds ('[' :: text) (leftBehind text read.1) read.2 := by
  have h_none : notes.Adds ('[' :: text) (byteLength text) notes :=
    .refl (Notes.byteLength_le_of_suffix (List.suffix_cons '[' text))
  intro read
  have h_read : read = tag inner opened (Cursor.ofList ('[' :: text)) notes := rfl
  unfold tag at h_read
  split at h_read
  · rwa [h_read]
  split at h_read
  · rwa [h_read]
  rename_i name after h_opener
  have h_open := Bracket.opener?_eq_some_iff.1 h_opener
  rw [← Cursor.ofList_rest after] at h_read
  split at h_read
  · rw [h_read]
    exact knownTag_adds h_inner h_faithful h_open notes
  · rw [h_read]
    exact unknownTag_adds h_faithful h_open notes

end Level

/-- A tag that is too deep is noted at its bracket. -/
theorem tagTooDeep_adds (opened : List Tag) (text : List Char) (notes : Notes) :
    let read := tagTooDeep opened (Cursor.ofList ('[' :: text)) notes
    notes.Adds ('[' :: text) (leftBehind text read.1) read.2 := by
  have h_none : notes.Adds ('[' :: text) (byteLength text) notes :=
    .refl (Notes.byteLength_le_of_suffix (List.suffix_cons '[' text))
  intro read
  have h_read : read = tagTooDeep opened (Cursor.ofList ('[' :: text)) notes := rfl
  unfold tagTooDeep at h_read
  split at h_read
  · rwa [h_read]
  split at h_read
  · rwa [h_read]
  rename_i name after h_opener
  have h_open := Bracket.opener?_eq_some_iff.1 h_opener
  have h_split := h_open.split
  rw [h_read]
  refine (Notes.Adds.refl le_rfl).add List.suffix_rfl ('[' :: (name.toList ++ [])) ?_
    (isMark_of_opening h_open [])
  show '[' :: text = _
  rw [h_split]
  simp

/-- At every level, tags and groups add issues in what is read of them. -/
theorem openers_note (levels : Nat) : (openers levels).Note := by
  induction levels with
  | zero => exact ⟨tagTooDeep_adds, nofun⟩
  | succ levels ih =>
    refine ⟨tag_adds ih (openers_faithful levels), ?_⟩
    rintro _ ⟨⟩ opened text notes notes' node stop h
    exact group_adds ih (openers_faithful levels) h

/-- The issues of a text are in the text, at places of their own. -/
theorem run_adds (start : Notes) (text : List Char) :
    ∃ left, start.Adds text left (run start text).notes :=
  ⟨_, siblings_adds (openers_note nestingLimit) (openers_faithful nestingLimit) [] []
    (Cursor.ofList text) start⟩

end Reader

/-! ## Whole texts -/

/-- The ends of the part that shows the issue are in the text and between its characters. -/
def Issue.Within (issue : Issue) (text : List Char) : Prop :=
  ∃ before marked rest, text = before ++ (marked ++ rest) ∧
    byteLength text - issue.start.left = byteLength before ∧
    byteLength text - issue.stop.left = byteLength (before ++ marked)

section Quoted

variable {issue : Issue} {text marked : List Char}

theorem Issue.Marks.within (h : issue.Marks marked) (h_start : issue.start.rest <:+ text) :
    issue.Within text := by
  obtain ⟨before, h_text⟩ := h_start
  rw [h.1] at h_text
  refine ⟨before, marked, issue.stop.rest, h_text.symm, ?_, ?_⟩
  · rw [← h_text, issue.start.left_eq, h.1, Text.byteLength_append]
    omega
  · rw [← h_text, issue.stop.left_eq, ← List.append_assoc, Text.byteLength_append]
    omega

/-- The report on an issue quotes what the issue marks. -/
theorem Issue.Marks.quoted (h : issue.Marks marked) (h_start : issue.start.rest <:+ text) :
    let report := issue.diagnostic (byteLength text) (LineTable.ofList text)
    report.snippet.toList = marked ∧
      ∃ range, report.range = some range ∧ range.Holds text marked := by
  obtain ⟨before, h_text⟩ := h_start
  intro report
  have h_report : report = _ := Issue.diagnostic_eq h_text.symm h.1
  rw [h_report]
  exact ⟨String.toList_ofList, _, rfl, before, issue.stop.rest, by rw [← h_text, h.1], rfl, rfl⟩

/-- Reports with the same range are on issues at the same place. -/
theorem Issue.start_eq_of_range {issue' : Issue} {marked' : List Char} (h : issue.Marks marked)
    (h' : issue'.Marks marked') (h_start : issue.start.rest <:+ text)
    (h_start' : issue'.start.rest <:+ text)
    (h_range : (issue.diagnostic (byteLength text) (LineTable.ofList text)).range =
      (issue'.diagnostic (byteLength text) (LineTable.ofList text)).range) :
    issue.start.left = issue'.start.left := by
  obtain ⟨before, h_text⟩ := h_start
  obtain ⟨before', h_text'⟩ := h_start'
  rw [Issue.diagnostic_eq h_text.symm h.1, Issue.diagnostic_eq h_text'.symm h'.1] at h_range
  have h_position : Position.behind before = .behind before' :=
    congrArg Text.Range.start (Option.some.inj h_range)
  obtain rfl := Position.eq_of_behind ⟨_, h_text⟩ ⟨_, h_text'⟩ h_position
  rw [← h_text'] at h_text
  rw [issue.start.left_eq, issue'.start.left_eq, List.append_cancel_left h_text]

end Quoted

/-- Each report on a text has a range that is in order; what the range holds is the part that the
    report quotes, which is a `(` or starts with a `[` and a letter. The ends of this part are
    between characters of the text, and no two reports have the same range, whatever their codes. -/
theorem Document.diagnose_quotes (source : String) :
    (∀ report ∈ Document.diagnose source, ∃ range,
        report.range = some range ∧ range.start ≤ range.stop ∧
          (∀ part, range.Holds source.toList part ↔ part = report.snippet.toList) ∧
          report.snippet ≠ "" ∧ IsMark report.snippet.toList) ∧
      (∀ issue ∈ Document.issues source, issue.Within source.toList) ∧
      ((Document.diagnose source).map Diagnostic.range).Nodup := by
  obtain ⟨left, -, new, h_new, h_placed, h_apart⟩ := Reader.run_adds .remembering source.toList
  have h_issues : Document.issues source = new.reverse := by
    rw [Document.issues, h_new]
    exact congrArg List.reverse (List.append_nil new)
  have h_diagnose : Document.diagnose source = new.reverse.map
      (Issue.diagnostic (byteLength source.toList) (LineTable.ofList source.toList)) := by
    rw [← h_issues]
    rfl
  refine ⟨fun report h_mem => ?_, fun issue h_mem => ?_, ?_⟩
  · rw [h_diagnose] at h_mem
    obtain ⟨issue, h_issue, rfl⟩ := List.mem_map.1 h_mem
    obtain ⟨h_start, -, marked, h_marks⟩ := h_placed issue (List.mem_reverse.1 h_issue)
    obtain ⟨h_snippet, range, h_range, h_holds⟩ := h_marks.quoted h_start
    refine ⟨range, h_range, h_holds.le, fun part => ?_, ?_, ?_⟩
    · rw [h_snippet]
      exact ⟨fun h_part => h_part.unique h_holds, fun h_part => h_part ▸ h_holds⟩
    · intro h_empty
      rw [h_empty] at h_snippet
      exact h_marks.2.ne_nil h_snippet.symm
    · rw [h_snippet]
      exact h_marks.2
  · rw [h_issues] at h_mem
    obtain ⟨h_start, -, marked, h_marks⟩ := h_placed issue (List.mem_reverse.1 h_mem)
    exact h_marks.within h_start
  · rw [h_diagnose, List.map_map, List.map_reverse, List.nodup_reverse, List.Nodup,
      List.pairwise_map]
    refine h_apart.imp_of_mem fun {a b} h_a h_b h_left h_range => ?_
    obtain ⟨h_start, -, marked, h_marks⟩ := h_placed a h_a
    obtain ⟨h_start', -, marked', h_marks'⟩ := h_placed b h_b
    exact h_left (Issue.start_eq_of_range h_marks h_marks' h_start h_start' h_range)

end DiceMarkup
