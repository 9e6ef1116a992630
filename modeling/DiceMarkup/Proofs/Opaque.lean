/-
  DiceMarkup.Proofs.Opaque

  Unknown tags hide what they hold. A name that stands for no tag opens plain
  text up to its own closer, in any case of the name, and whatever stands between
  the two is not looked at. Main statement: such a tag at the start of a text is
  one text of the tree, worth one warning, and what follows it is read as if
  nothing stood before it.

  The reader has no memory but its notes, so the second half says that what was
  noted and what was found before do not count. The memory of brackets tried in
  vain does count, but an unknown tag leaves none.

  Pieces:
  * `Notes.onTop`, `Siblings.onTop` — what is read after something else
  * `openers_blind` — what was noted before does not count
  * `Rules.afterFirstCloser?_of_absent` — the closer of an unknown tag is the first one
  * `Document.parse_opaque` — whole texts
-/
import DiceMarkup.Proofs.Alike
import DiceMarkup.Proofs.Positions
import DiceMarkup.Proofs.Steps

namespace DiceMarkup

open DiceMarkup.Bracket (Ends Opening afterFirstCloser? startsWithCloser unknownEnd)
open Text (Cursor LineTable Position byteLength)

/-! ## Notes on top of others -/

/-- The notes as they would be with these issues found before. -/
def Notes.onTop (earlier : List Issue) (notes : Notes) : Notes :=
  { notes with issues := notes.issues ++ earlier }

/-- Issues that were found before do not change which brackets are tried. -/
theorem Notes.hasFailed_onTop (notes : Notes) (earlier : List Issue) (c : Cursor) :
    (notes.onTop earlier).hasFailed c = notes.hasFailed c := rfl

namespace Reader

/-- The pieces as they would be with these nodes, the last one first, and these issues before. -/
def Siblings.onTop (before : List Node) (earlier : List Issue) (siblings : Siblings) : Siblings :=
  { siblings with
    nodes := before.reverse ++ siblings.nodes
    notes := siblings.notes.onTop earlier }

/-- The attempt reads the same whatever was noted before. -/
def Blind (attempt : Attempt) : Prop :=
  ∀ (opened : List Tag) (c : Cursor) (notes : Notes) (earlier : List Issue),
    attempt opened c (notes.onTop earlier) = (attempt opened c notes).map id (Notes.onTop earlier)

/-- What may open is read the same whatever was noted before. -/
structure Openers.Blind (openers : Openers) : Prop where
  tag : Reader.Blind openers.tag
  group : ∀ group ∈ openers.group, Reader.Blind group

section Level

variable {inner : Openers} (opened : List Tag) (earlier : List Issue)

theorem item_blind (h_inner : inner.Blind) (inGroup : Bool) : Blind (item inner inGroup) := by
  intro opened c notes earlier
  unfold item
  split
  · rfl
  split
  · split
    · exact h_inner.group _ ‹_› opened c notes earlier
    · rfl
  · rw [h_inner.tag]
    rcases inner.tag opened c notes with ⟨_ | found, notes'⟩ <;> rfl
  · rfl

theorem items_blind {earlier : List Issue} {closing : Char}
    {read : Cursor → Notes → Option (Node × Cursor) × Notes}
    (h_read : ∀ c notes, read c (notes.onTop earlier) = (read c notes).map id (Notes.onTop earlier))
    (found : List Node) (c : Cursor) (notes : Notes) :
    items closing read found c (notes.onTop earlier) =
      (items closing read found c notes).map id (Notes.onTop earlier) := by
  -- No test looks at an issue that was found before, and no step but adds on top of it.
  fun_induction items closing read found c notes with
  | case1 found c notes h_next =>
    rw [items, h_next]
    rfl
  | case2 found c notes after h_next =>
    rw [items_some h_next, if_pos rfl]
    rfl
  | case3 found c notes after h_next h_closing =>
    rw [items_some h_next, if_neg h_closing, if_pos rfl]
    rfl
  | case4 found c notes x after h_next h_closing h_close notes' h_item =>
    rw [items_some h_next, if_neg h_closing, if_neg h_close, h_read, h_item]
    rfl
  | case5 found c notes x after h_next h_closing h_close node next notes' h_item h_lt ih =>
    rw [items_some h_next, if_neg h_closing, if_neg h_close, h_read, h_item]
    dsimp only [Prod.map_apply, id_eq]
    rw [if_pos h_lt, ih]
  | case6 found c notes x after h_next h_closing h_close node next notes' h_item h_lt =>
    rw [items_some h_next, if_neg h_closing, if_neg h_close, h_read, h_item]
    dsimp only [Prod.map_apply, id_eq]
    rw [if_neg h_lt]

theorem group_blind (h_inner : inner.Blind) : Blind (group inner) := by
  intro opened c notes earlier
  unfold group
  rw [items_blind fun c notes => item_blind h_inner true opened c notes earlier]
  rcases items ')' (item inner true opened) [] (c.drop 1) notes with ⟨_ | found, notes'⟩ <;> rfl

theorem withPlain_append (found before : List Node) (plain : List Char) :
    withPlain (found ++ before) plain = withPlain found plain ++ before := by
  unfold withPlain
  split <;> rfl

/-- Pieces are read the same whatever pieces were found before. -/
theorem siblings_blind {tag : Attempt} (h_tag : Blind tag) (before found : List Node)
    (plain : List Char) (c : Cursor) (notes : Notes) :
    siblings tag opened (found ++ before) plain c (notes.onTop earlier) =
      (siblings tag opened found plain c notes).onTop before earlier := by
  have h_end : ∀ (found : List Node) (plain : List Char) (closed : Bool) (stop : Cursor)
      (notes : Notes),
      (⟨(withPlain (found ++ before) plain).reverse, closed, stop,
        notes.onTop earlier⟩ : Siblings) =
        Siblings.onTop before earlier ⟨(withPlain found plain).reverse, closed, stop, notes⟩ := by
    intro found plain closed stop notes
    rw [withPlain_append, List.reverse_append]
    rfl
  -- What was found before stays below what is added, nodes and issues alike, up to the end.
  fun_induction siblings tag opened found plain c notes with
  | case1 found plain c notes h_next =>
    rw [siblings_none h_next, ← h_end]
  | case2 found plain c notes after stop h_own h_next =>
    rw [siblings_some h_next, if_pos rfl, h_own, ← h_end]
  | case3 found plain c notes after h_outer h_next =>
    rw [siblings_some h_next, if_pos rfl, h_outer, ← h_end]
  | case4 found plain c notes after h_none notes' h_try h_next _ ih =>
    rw [siblings_some h_next, if_pos rfl, h_none]
    dsimp only
    rw [h_tag, h_try]
    exact ih
  | case5 found plain c notes after h_none node next notes' h_try h_lt h_next _ ih =>
    rw [siblings_some h_next, if_pos rfl, h_none]
    dsimp only
    rw [h_tag, h_try]
    dsimp only [Prod.map_apply, id_eq]
    rw [if_pos h_lt, withPlain_append]
    exact ih
  | case6 found plain c notes after h_none node next notes' h_try h_lt h_next =>
    rw [siblings_some h_next, if_pos rfl, h_none]
    dsimp only
    rw [h_tag, h_try]
    dsimp only [Prod.map_apply, id_eq]
    rw [if_neg h_lt, h_end]
  | case7 found plain c notes x after h_next _ h_char ih =>
    rw [siblings_some h_next, if_neg h_char]
    exact ih

/-! ## Tags -/

theorem body_blind (h_inner : inner.Blind) (name : String) (tag : Tag) (attributes : List Node)
    (c openEnd : Cursor) (notes : Notes) :
    body inner opened name tag attributes c openEnd (notes.onTop earlier) =
      (body inner opened name tag attributes c openEnd notes).map id (Notes.onTop earlier) := by
  cases h_kind : tag.kind with
  | selfClosing =>
    unfold body
    rw [h_kind]
    dsimp only
    split <;> rfl
  | container =>
    have h_inside := siblings_blind (tag :: opened) earlier h_inner.tag [] [] [] openEnd notes
    rw [List.append_nil] at h_inside
    rw [body_inside h_kind h_inside, body_inside h_kind rfl]
    generalize siblings inner.tag (tag :: opened) [] [] openEnd notes = inside
    rcases inside with ⟨nodes, _ | _, stop, notes'⟩ <;> rfl

theorem attributes_blind (h_inner : inner.Blind) (c : Cursor) (notes : Notes) :
    attributes inner opened c (notes.onTop earlier) =
      (attributes inner opened c notes).map id (Notes.onTop earlier) :=
  items_blind (fun c notes => item_blind h_inner false opened c notes earlier) [] c notes

theorem header_blind (h_inner : inner.Blind) (raw : Bool) (c : Cursor) (notes : Notes) :
    header inner raw opened c (notes.onTop earlier) =
      (header inner raw opened c notes).map id (Notes.onTop earlier) := by
  unfold header
  split
  · rfl
  · exact attributes_blind opened earlier h_inner c notes

theorem knownTag_blind (h_inner : inner.Blind) (name : String) (meaning : Tag.Resolved)
    (c after : Cursor) (notes : Notes) :
    knownTag inner opened name meaning c after (notes.onTop earlier) =
      (knownTag inner opened name meaning c after notes).map id (Notes.onTop earlier) := by
  have h_header := header_blind opened earlier h_inner meaning.tag.rawAttribute after notes
  rcases h_read : header inner meaning.tag.rawAttribute opened after notes with
    ⟨_ | ⟨written, openEnd⟩, notes'⟩
  · rw [h_read] at h_header
    rw [knownTag_none h_read, knownTag_none h_header]
    rfl
  · rw [h_read] at h_header
    have h_body := body_blind opened earlier h_inner name meaning.tag
      (meaning.implied.map .text ++ written) c openEnd notes'
    rcases h_found : body inner opened name meaning.tag
        (meaning.implied.map .text ++ written) c openEnd notes' with
      ⟨⟨node, stop⟩, notes''⟩
    rw [h_found] at h_body
    rw [knownTag_some h_read h_found, knownTag_some h_header h_body]
    rfl

theorem unknownTag_blind (h_inner : inner.Blind) (name : String) (c after : Cursor)
    (notes : Notes) :
    unknownTag inner opened name c after (notes.onTop earlier) =
      (unknownTag inner opened name c after notes).map id (Notes.onTop earlier) := by
  unfold unknownTag
  dsimp only
  rw [attributes_blind opened earlier h_inner]
  rcases attributes inner opened after notes with ⟨_ | found, notes'⟩ <;> rfl

theorem tag_blind (h_inner : inner.Blind) : Blind (tag inner) := by
  intro opened c notes earlier
  unfold tag
  rw [Notes.hasFailed_onTop]
  split
  · rfl
  split
  · rfl
  split
  · exact knownTag_blind opened earlier h_inner ..
  · exact unknownTag_blind opened earlier h_inner ..

end Level

theorem tagTooDeep_blind : Blind tagTooDeep := by
  intro opened c notes earlier
  unfold tagTooDeep
  rw [Notes.hasFailed_onTop]
  split
  · rfl
  · split <;> rfl

/-- At every level, what was noted before does not count. -/
theorem openers_blind (levels : Nat) : (openers levels).Blind := by
  induction levels with
  | zero => exact ⟨tagTooDeep_blind, nofun⟩
  | succ levels ih => exact ⟨tag_blind ih, fun _ h => Option.some.inj h ▸ group_blind ih⟩

end Reader

/-! ## The closer of an unknown tag -/

namespace Rules

/-- The search finds no closer if none stands anywhere in the text. -/
theorem absent_iff {name text : List Char} :
    Absent name text ↔
      ∀ spelled : List Char, spelled.map Char.toLower = name →
        ¬ '[' :: '/' :: (spelled ++ [']']) <:+: text := by
  constructor
  · rintro h_absent spelled h_name ⟨before, after, rfl⟩
    rw [List.append_assoc] at h_absent
    -- The search comes by every place of the text, that of the closer too.
    have h_starts : startsWithCloser name ('[' :: '/' :: (spelled ++ [']']) ++ after) = true :=
      Bracket.startsWithCloser_eq_true_iff.2 ⟨after, spelled, h_name, by simp⟩
    have h_first := (absent_cons_iff.1 (absent_of_append h_absent)).1
    exact absurd (h_starts.symm.trans h_first) (by decide)
  · intro h
    induction text with
    | nil => exact absent_nil name
    | cons c text ih =>
      refine absent_cons_iff.2 ⟨?_, ih fun spelled h_name h_inside => ?_⟩
      · rw [Bool.eq_false_iff]
        intro h_starts
        obtain ⟨after, spelled, h_name, h_text⟩ := Bracket.startsWithCloser_eq_true_iff.1 h_starts
        exact h spelled h_name ⟨[], after, by rw [h_text]; simp⟩
      · exact h spelled h_name (h_inside.trans (List.suffix_cons c text).isInfix)

theorem absent_foldCase_iff {name : String} {text : List Char} :
    Absent (Tag.foldCase name).toList text ↔
      ∀ other, Tag.foldCase other = Tag.foldCase name → ¬ Node.closer other <:+: text := by
  refine absent_iff.trans ⟨fun h other h_other => h other.toList ?_, fun h spelled h_spelled => ?_⟩
  · rw [← h_other, Tag.foldCase, String.toList_ofList]
  · have h_case : Tag.foldCase (String.ofList spelled) = Tag.foldCase name := by
      rw [Tag.foldCase, String.toList_ofList, h_spelled, String.ofList_toList]
    have h_none := h _ h_case
    rwa [Node.closer, String.toList_ofList] at h_none

/-- A closer does not start in a text without one and end behind it: it has no bracket but its first
    character. -/
theorem startsWithCloser_append {name body : List Char} (h_name : UnknownName name)
    (h_body : startsWithCloser name body = false) (h_some : body ≠ []) (rest : List Char) :
    startsWithCloser name (body ++ '[' :: rest) = false := by
  rw [Bool.eq_false_iff] at h_body ⊢
  intro h_starts
  obtain ⟨after, spelled, h_spelled, h_text⟩ := Bracket.startsWithCloser_eq_true_iff.1 h_starts
  obtain ⟨c, body, rfl⟩ := List.exists_cons_of_ne_nil h_some
  obtain ⟨rfl, h_tail⟩ := List.cons.inj h_text
  have h_split : body ++ '[' :: rest = ('/' :: spelled) ++ ']' :: after := h_tail
  have h_run : NoBracket ('/' :: spelled) := (h_name.noBracket h_spelled).slash
  rcases List.append_eq_append_iff.1 h_split with
    ⟨more, h_run', h_rest⟩ | ⟨more, h_inside, h_rest⟩
  -- The body would end within the name, and a bracket would follow there.
  · cases more with
    | nil => exact absurd (List.cons.inj h_rest).1 (by decide)
    | cons d more =>
      obtain ⟨rfl, -⟩ := List.cons.inj h_rest
      have h_mem : '[' ∈ '/' :: spelled := h_run' ▸ List.mem_append_right _ List.mem_cons_self
      exact (h_run _ h_mem).1 rfl
  -- Or the closer ends within the body, which then starts with one.
  · cases more with
    | nil => exact absurd (List.cons.inj h_rest).1 (by decide)
    | cons d more =>
      obtain ⟨rfl, -⟩ := List.cons.inj h_rest
      refine h_body (Bracket.startsWithCloser_eq_true_iff.2 ⟨more, spelled, h_spelled, ?_⟩)
      rw [h_inside]
      rfl

/-- The first closer is the one behind a text without closers. -/
theorem afterFirstCloser?_of_absent {name body spelled : List Char} (h_name : UnknownName name)
    (h_body : Absent name body) (h_spelled : spelled.map Char.toLower = name) (rest : List Char) :
    afterFirstCloser? name (body ++ '[' :: '/' :: (spelled ++ ']' :: rest)) = some rest := by
  induction body with
  | nil =>
    have h_ends : Ends name ('[' :: '/' :: (spelled ++ ']' :: rest)) rest :=
      ⟨spelled, h_spelled, rfl⟩
    rw [List.nil_append, afterFirstCloser?,
      if_pos (Bracket.startsWithCloser_eq_true_iff.2 ⟨rest, h_ends⟩), h_ends.drop]
  | cons c body ih =>
    obtain ⟨h_first, h_rest⟩ := absent_cons_iff.1 h_body
    have h_not := startsWithCloser_append h_name h_first (List.cons_ne_nil c body)
      ('/' :: (spelled ++ ']' :: rest))
    rw [List.cons_append] at h_not ⊢
    rw [afterFirstCloser?, h_not, if_neg Bool.false_ne_true]
    exact ih h_rest

end Rules

/-! ## What is read of an unknown tag -/

namespace Reader

/-- An unknown tag without attributes is one text, up to its closer. -/
theorem tag_opaque (l : Nat) (opened : List Tag) {name : String} {body spelled : List Char}
    (rest : List Char) {notes : Notes} (h_some : name.toList ≠ [])
    (h_letters : ∀ c ∈ name.toList, c.isAlpha = true)
    (h_name : Tag.resolve? name = none) (h_body : Rules.Absent (Tag.foldCase name).toList body)
    (h_spelled : spelled.map Char.toLower = (Tag.foldCase name).toList) :
    let openEnd := body ++ '[' :: '/' :: (spelled ++ ']' :: rest)
    let text := name.toList ++ ']' :: openEnd
    let passed := '[' :: (name.toList ++ ']' :: (body ++ '[' :: '/' :: (spelled ++ [']'])))
    notes.hasFailed (Cursor.ofList ('[' :: text)) = false →
      (openers (l + 1)).tag opened (Cursor.ofList ('[' :: text)) notes =
        (some (.text (String.ofList passed), Cursor.ofList rest),
          notes.add (.unknownTag name) (Cursor.ofList ('[' :: text)) (Cursor.ofList openEnd)) := by
  intro openEnd text passed h_failed
  have h_open : Opening text name (']' :: openEnd) :=
    ⟨rfl, h_some, h_letters, ']', openEnd, rfl, .inl rfl⟩
  have h_unknown : Rules.UnknownName (Tag.foldCase name).toList :=
    ⟨name, h_name, h_some, h_letters, rfl⟩
  -- The `]` stands right behind the name: the list of attributes is empty.
  have h_none : ∀ c ∈ ([] : List Char), Text.isBlank c = true := List.forall_mem_nil _
  have h_skip : (Cursor.ofList (']' :: openEnd)).skipBlank = Cursor.ofList (']' :: openEnd) :=
    skipBlank_append h_none (by decide) openEnd
  have h_header : header (openers l) false opened (Cursor.ofList (']' :: openEnd)) notes =
      (some ([], Cursor.ofList openEnd), notes) := items_close h_skip
  have h_stop : unknownEnd name openEnd = rest := by
    rw [unknownEnd, Rules.afterFirstCloser?_of_absent h_unknown h_body h_spelled rest,
      Option.getD_some]
  have h_passed : '[' :: text = passed ++ rest := by
    simp [text, openEnd, passed]
  rw [tag_unknown l h_failed h_open h_name, unknownTag_some h_header h_stop h_passed]
  rfl

end Reader

/-- The warning for an unknown tag at the start of a text. -/
theorem Issue.diagnostic_unknownTag {name : String}
    (h_letters : ∀ c ∈ name.toList, c.isAlpha = true) (openEnd : List Char) :
    let text := '[' :: (name.toList ++ ']' :: openEnd)
    let issue : Issue := ⟨.unknownTag name, Cursor.ofList text, Cursor.ofList openEnd⟩
    issue.diagnostic (byteLength text) (LineTable.ofList text) =
      { range := some ⟨⟨0, 0⟩, ⟨0, name.length + 2⟩⟩
        severity := .warning
        code := "W_TAG_UNKNOWN"
        message := "unknown tag `" ++ name ++ "`"
        snippet := "[" ++ name ++ "]" } := by
  intro text issue
  have h_marked : text = '[' :: (name.toList ++ [']']) ++ openEnd := by simp [text]
  -- The opener stands in one line, so that columns count its characters.
  have h_line : '\n' ∉ '[' :: (name.toList ++ [']']) := by
    intro h_mem
    simp only [List.mem_cons, List.mem_append, List.not_mem_nil, or_false] at h_mem
    obtain h_open | h_name | h_close := h_mem
    · exact absurd h_open (by decide)
    · exact absurd (h_letters _ h_name) (by decide)
    · exact absurd h_close (by decide)
  have h_length : ('[' :: (name.toList ++ [']'])).length = name.length + 2 := by
    rw [List.length_cons, List.length_append, String.length_toList]
    rfl
  have h_snippet : String.ofList ('[' :: (name.toList ++ [']'])) = "[" ++ name ++ "]" :=
    String.toList_injective (by simp)
  have h_start : text = [] ++ issue.start.rest := rfl
  have h_report := issue.diagnostic_eq h_start h_marked
  rw [h_report, List.nil_append, Position.behind_line h_line, h_length, h_snippet]
  rfl

namespace Reader

/-- What follows an unknown tag is read as a text of its own, with one more issue before. -/
theorem run_opaque {name : String} {body spelled rest : List Char} (h_some : name.toList ≠ [])
    (h_letters : ∀ c ∈ name.toList, c.isAlpha = true) (h_name : Tag.resolve? name = none)
    (h_body : Rules.Absent (Tag.foldCase name).toList body)
    (h_spelled : spelled.map Char.toLower = (Tag.foldCase name).toList) {text passed : List Char}
    (h_passed : passed = '[' :: (name.toList ++ ']' :: (body ++ '[' :: '/' :: (spelled ++ [']']))))
    (h_text : text = passed ++ rest) :
    ∃ issue : Issue,
      run .remembering text =
          (run .remembering rest).onTop [.text (String.ofList passed)] [issue] ∧
        issue.diagnostic (byteLength text) (LineTable.ofList text) =
          { range := some ⟨⟨0, 0⟩, ⟨0, name.length + 2⟩⟩
            severity := .warning
            code := "W_TAG_UNKNOWN"
            message := "unknown tag `" ++ name ++ "`"
            snippet := "[" ++ name ++ "]" } := by
  let openEnd := body ++ '[' :: '/' :: (spelled ++ ']' :: rest)
  obtain rfl : text = '[' :: (name.toList ++ ']' :: openEnd) := by
    rw [h_text, h_passed]
    simp [openEnd]
  let noted : Issue := ⟨.unknownTag name, Cursor.ofList ('[' :: (name.toList ++ ']' :: openEnd)),
    Cursor.ofList openEnd⟩
  have h_failed : ∀ c, Notes.remembering.hasFailed c = false := by
    simp [Notes.hasFailed, Notes.remembering]
  have h_tag := tag_opaque (nestingLimit - 1) [] rest h_some h_letters h_name h_body h_spelled
    (h_failed _)
  -- No tag is open, so no closer ends the pieces before the tag is tried.
  have h_ending : ∀ text, Rules.NoEnding [] text := fun _ _ _ _ => List.not_mem_nil
  have h_lt : byteLength rest < byteLength (passed ++ rest) := by
    have h_bracket := Char.utf8Size_pos '['
    rw [h_passed, Text.byteLength_append, Text.byteLength_cons]
    omega
  have h_blind := siblings_blind [] [noted] (openers_blind nestingLimit).tag
    [.text (String.ofList passed)] [] [] (Cursor.ofList rest) .remembering
  rw [← h_text] at h_lt
  subst h_passed
  exact ⟨noted, (siblings_tag (h_ending _) h_tag h_lt).trans h_blind,
    Issue.diagnostic_unknownTag h_letters openEnd⟩

end Reader

/-! ## Whole texts -/

/-- A report but for its place. -/
def Diagnostic.unplaced (report : Diagnostic) : Diagnostic :=
  { report with range := none }

/-- The report on an issue depends on the whole text in its place only. -/
theorem Issue.unplaced_diagnostic (issue : Issue) (size size' : Nat) (lines lines' : LineTable) :
    (issue.diagnostic size lines).unplaced = (issue.diagnostic size' lines').unplaced := rfl

/-- An unknown tag with its closer is one text of the tree, whatever it holds, and there is one
    warning for its opener. What follows is read, and reported but for its place, as a text of its
    own. -/
theorem Document.parse_opaque {name spelled body : String} (h_some : name ≠ "")
    (h_letters : ∀ c ∈ name.toList, c.isAlpha = true) (h_name : Tag.resolve? name = none)
    (h_spelled : Tag.foldCase spelled = Tag.foldCase name)
    (h_body : ∀ other, Tag.foldCase other = Tag.foldCase name →
      ¬ Node.closer other <:+: body.toList) (rest : String) :
    let passed := "[" ++ name ++ "]" ++ body ++ "[/" ++ spelled ++ "]"
    Document.parse (passed ++ rest) = .text passed :: Document.parse rest ∧
      ∃ others,
        Document.diagnose (passed ++ rest) =
            { range := some ⟨⟨0, 0⟩, ⟨0, name.length + 2⟩⟩
              severity := .warning
              code := "W_TAG_UNKNOWN"
              message := "unknown tag `" ++ name ++ "`"
              snippet := "[" ++ name ++ "]" } :: others ∧
          others.map Diagnostic.unplaced = (Document.diagnose rest).map Diagnostic.unplaced := by
  intro passed
  have h_absent := Rules.absent_foldCase_iff.2 h_body
  have h_case : spelled.toList.map Char.toLower = (Tag.foldCase name).toList := by
    rw [← h_spelled, Tag.foldCase, String.toList_ofList]
  have h_nonempty : name.toList ≠ [] := fun h_nil => h_some (String.toList_eq_nil_iff.1 h_nil)
  have h_passed : passed.toList = '[' :: (name.toList ++ ']' :: (body.toList ++
      '[' :: '/' :: (spelled.toList ++ [']']))) := by
    simp [passed]
  have h_text : (passed ++ rest).toList = passed.toList ++ rest.toList := String.toList_append ..
  obtain ⟨issue, h_run, h_report⟩ :=
    Reader.run_opaque h_nonempty h_letters h_name h_absent h_case h_passed h_text
  rw [String.ofList_toList] at h_run
  have h_issues : Document.issues (passed ++ rest) = issue :: Document.issues rest := by
    rw [Document.issues, h_run]
    exact List.reverse_concat ..
  refine ⟨?_, (Document.issues rest).map (Issue.diagnostic (byteLength (passed ++ rest).toList)
    (LineTable.ofList (passed ++ rest).toList)), ?_, ?_⟩
  · rw [Document.parse, h_run]
    rfl
  · rw [Document.diagnose, h_issues, List.map_cons, h_report]
  -- The issues are those of the rest; only where they stand is counted in another text.
  · rw [List.map_map, Document.diagnose, List.map_map]
    exact List.map_congr_left fun issue _ => issue.unplaced_diagnostic ..

/-- A closer in capital letters, before it tags that are not looked at and the halves of two
    closers, and behind it a tag that is not closed. -/
theorem Document.parse_opaque_halves :
    let body := "[b]é[/fo]\n[/foo"
    let rest := "[i]x[bar]"
    let passed := "[" ++ "foo" ++ "]" ++ body ++ "[/" ++ "FOO" ++ "]"
    (∀ other, Tag.foldCase other = Tag.foldCase "foo" → ¬ Node.closer other <:+: body.toList) ∧
      Document.parse (passed ++ rest) = .text passed :: Document.parse rest ∧
        ∃ others,
          Document.diagnose (passed ++ rest) =
              { range := some ⟨⟨0, 0⟩, ⟨0, 5⟩⟩
                severity := .warning
                code := "W_TAG_UNKNOWN"
                message := "unknown tag `foo`"
                snippet := "[foo]" } :: others ∧
            others.map Diagnostic.unplaced = (Document.diagnose rest).map Diagnostic.unplaced := by
  intro body rest passed
  have h_letters : ∀ c ∈ "foo".toList, c.isAlpha = true := by simp
  have h_name : Tag.resolve? "foo" = none := by cbv
  have h_spelled : Tag.foldCase "FOO" = Tag.foldCase "foo" := by cbv
  have h_absent : Rules.Absent (Tag.foldCase "foo").toList body.toList := by
    unfold Rules.Absent
    cbv
  have h_body := Rules.absent_foldCase_iff.1 h_absent
  exact ⟨h_body, Document.parse_opaque (by decide) h_letters h_name h_spelled h_body rest⟩

end DiceMarkup
