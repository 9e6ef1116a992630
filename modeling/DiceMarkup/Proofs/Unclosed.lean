/-
  DiceMarkup.Proofs.Unclosed

  Texts that end before the last tags in them are closed. Every container that
  is open at the end of a text is closed there, with a warning at its opener.
  Main statement: if the last closers of a canonical document are left out, as
  many of them as may be, the text is still read as the document, and there is
  one warning for each closer left out, the innermost container first.

  The reader comes to the openers from the outside in and to the warnings from
  the inside out: a container is noted when its children have met the end.

  Pieces:
  * `Unclosed`, `Trailing` — the containers that end with a document
  * `Unclosed.closers`, `Unclosed.report` — their closers, and the warnings for them
  * `siblings_spelled` — what stands before them is read
  * `ReadsUnclosed`, `siblings_unclosed` — the reading of what is left, from the inside out
  * `Document.parse_unclosed` — whole documents
-/
import DiceMarkup.Proofs.Positions
import DiceMarkup.Proofs.Respelling

namespace DiceMarkup

open Text (Cursor LineTable Position byteLength)

/-! ## Containers at the end -/

/-- A container whose closer may be missing: the name it is written with, the characters before its
    opener, and its opener. -/
structure Unclosed where
  name : String
  before : List Char
  opener : List Char

namespace Unclosed

/-- The closers of containers that stand inside one another, the outermost first in the list and
    last in the text. -/
def closers : List Unclosed → List Char
  | [] => []
  | unclosed :: inside => closers inside ++ Node.closer unclosed.name

/-- The warning for a container that is closed by the end of the text. -/
def report (unclosed : Unclosed) : Diagnostic where
  range := some ⟨.behind unclosed.before, .behind (unclosed.before ++ unclosed.opener)⟩
  severity := .warning
  code := "W_TAG_UNTERMINATED"
  message := "`[" ++ unclosed.name ++ "]` has no matching `[/" ++ unclosed.name ++ "]`"
  snippet := String.ofList unclosed.opener

/-- The issue is about this container of the text. -/
structure NotedBy (text : List Char) (unclosed : Unclosed) (issue : Issue) : Prop where
  problem : issue.problem = .unterminated unclosed.name
  start : text = unclosed.before ++ issue.start.rest
  stop : issue.start.rest = unclosed.opener ++ issue.stop.rest

theorem NotedBy.diagnostic {text : List Char} {unclosed : Unclosed} {issue : Issue}
    (h : NotedBy text unclosed issue) :
    issue.diagnostic (byteLength text) (LineTable.ofList text) = unclosed.report := by
  rw [Issue.diagnostic_eq h.start h.stop, h.problem]
  rfl

theorem diagnostics_eq {text : List Char} {unclosed : List Unclosed} {issues : List Issue}
    (h : List.Forall₂ (NotedBy text) unclosed issues) :
    issues.map (Issue.diagnostic (byteLength text) (LineTable.ofList text)) =
      unclosed.map report := by
  induction h with
  | nil => rfl
  | cons h_noted _ ih => rw [List.map_cons, List.map_cons, h_noted.diagnostic, ih]

end Unclosed

/-- These containers end with the nodes: each is the last child of the one before it, and the first
    is the last of the nodes. The characters stand before the nodes. -/
inductive Trailing : List Char → List Node → List Unclosed → Prop
  | nil {before : List Char} {nodes : List Node} : Trailing before nodes []
  | cons {before : List Char} {nodes attributes children : List Node} {tag : Tag}
      {inside : List Unclosed} (h_kind : tag.kind = .container)
      (h_inside : Trailing (before ++ Node.writeAll nodes ++
        Node.opener tag.name (Node.writeSpaced attributes)) children inside) :
      Trailing before (nodes ++ [.element tag.name attributes children])
        (⟨tag.name, before ++ Node.writeAll nodes,
          Node.opener tag.name (Node.writeSpaced attributes)⟩ :: inside)

/-- Containers further in need not be looked at. -/
theorem Trailing.take {before : List Char} {nodes : List Node} {spine : List Unclosed}
    (h : Trailing before nodes spine) (j : Nat) : Trailing before nodes (spine.take j) := by
  induction h generalizing j with
  | nil =>
    rw [List.take_nil]
    exact .nil
  | cons h_kind _ ih =>
    cases j with
    | zero => exact .nil
    | succ j => exact .cons h_kind (ih j)

namespace Rules

open DiceMarkup.Bracket (Opening Closing)
open Node (canonical canonicalAll holdsAttributes holdsChildren apart height heightAll write
  writeAll writeSpaced)
open Reader (openers)

/-! ## What stands before them -/

/-- What is remembered is true if nothing is. -/
theorem sound_of_not_failed {notes : Notes} (h : ∀ size, ¬ Failed notes size) (opened : List Tag)
    (text : List Char) (b : Nat) : Sound opened text b notes :=
  fun _ _ _ _ h_failed => absurd h_failed (h _)

/-- A quiet text is passed. -/
theorem siblings_quiet {value : List Char} (h_quiet : Place.isQuiet value = true) {l : Nat}
    {opened : List Tag} {found : List Node} (plain : List Char) {text : List Char} {notes : Notes} :
    Reader.siblings (openers l).tag opened found plain (Cursor.ofList (value ++ text)) notes =
      Reader.siblings (openers l).tag opened found (value.reverse ++ plain) (Cursor.ofList text)
        notes := by
  induction value generalizing plain with
  | nil => rfl
  | cons c value ih =>
    have ih := ih (Bool.and_eq_true_iff.1 h_quiet).2 (c :: plain)
    rw [List.reverse_cons, List.append_assoc]
    by_cases h_char : c = '['
    · subst h_char
      have h_ending : NoEnding opened ('[' :: (value ++ text)) :=
        noEnding_of_not_closing (not_closing_of_quiet h_quiet text)
      have h_tag : (openers l).tag opened _ notes = (none, notes) :=
        Reader.tag_noOpener l (not_opening_of_quiet h_quiet text)
      exact (Reader.siblings_bracket h_ending h_tag).trans ih
    · exact (Reader.siblings_char h_char).trans ih

/-- A respelled tag is read where nothing is remembered, and nothing is noted. -/
theorem siblings_element {name : String} {attributes children : List Node} {spelled : List Char}
    (h_spelled : Respells (.element name attributes children) spelled)
    (h_canonical : canonical .child (.element name attributes children) = true) {l : Nat}
    (h_height : height (.element name attributes children) ≤ l) {text : List Char}
    (h_text : ∀ value after, ¬ Bracket.Stored text .dice value after) {notes : Notes}
    (h_notes : ∀ size, ¬ Failed notes size) {opened : List Tag} {found : List Node}
    {plain : List Char} :
    Reader.siblings (openers l).tag opened found plain (Cursor.ofList (spelled ++ text)) notes =
      Reader.siblings (openers l).tag opened
        (.element name attributes children :: Reader.withPlain found plain) [] (Cursor.ofList text)
        notes := by
  -- The derivation is calm, so that the notes are the same after it.
  have h_tag := (reads_of_respells h_spelled).tag .child l opened text rfl h_canonical
    h_height h_text
  have h_ending : NoEnding opened (spelled ++ text) := noEnding_of_not_closing h_tag.not_closing
  obtain ⟨notes', h_read, -, h_calm⟩ := h_tag.follows h_ending notes
    (sound_of_not_failed h_notes _ _ _)
  rw [h_calm rfl] at h_read
  obtain ⟨taken, h_split⟩ := h_tag.split _ rfl
  have h_lt := byteLength_lt ⟨'[', taken, h_split⟩
  rw [h_split] at h_ending h_read ⊢
  rw [h_split] at h_lt
  exact Reader.siblings_tag h_ending h_read h_lt

/-- Respelled children are read up to what follows them. What the reader holds then makes the same
    nodes, whatever pieces come next. -/
theorem siblings_spelled {nodes : List Node} {spelled : List Char}
    (h_spelled : RespellsAll nodes spelled) (h_canonical : canonicalAll .child nodes = true)
    {l : Nat}
    (h_height : heightAll nodes ≤ l) {text : List Char}
    (h_text : ∀ after, ¬ Closing (fromBracket text) .dice after) {notes : Notes}
    (h_notes : ∀ size, ¬ Failed notes size) (opened : List Tag) (found : List Node)
    (plain : List Char) :
    ∃ found' plain',
      Reader.siblings (openers l).tag opened found plain (Cursor.ofList (spelled ++ text)) notes =
          Reader.siblings (openers l).tag opened found' plain' (Cursor.ofList text) notes ∧
        ∀ ps, found'.reverse ++ assemble plain'.reverse ps =
          found.reverse ++ assemble plain.reverse (pieces nodes ++ ps) := by
  induction nodes generalizing spelled found plain with
  | nil =>
    cases h_spelled
    exact ⟨found, plain, rfl, fun _ => rfl⟩
  | cons node nodes ih =>
    rw [canonicalAll, Bool.and_eq_true] at h_canonical
    rw [heightAll] at h_height
    cases h_spelled with
    | @cons _ _ first others h_node h_nodes =>
      have ih := ih h_nodes h_canonical.2 (by omega)
      rw [List.append_assoc]
      cases node with
      | text value =>
        cases h_node
        have h_quiet := (quiet_of_canonical h_canonical.1).2
        -- The characters of the text are held back, the last one first, up to a tag or the end.
        obtain ⟨found', plain', h_read, h_nodes⟩ := ih found (value.toList.reverse ++ plain)
        refine ⟨found', plain', ?_, fun ps => ?_⟩
        · rw [siblings_quiet h_quiet, h_read]
        · rw [h_nodes, pieces, List.append_assoc, assemble_plain, List.reverse_append,
            List.reverse_reverse]
      | element name attributes children =>
        have h_next := not_stored_respelled h_nodes h_canonical.2 h_text
        obtain ⟨found', plain', h_read, h_nodes⟩ :=
          ih (.element name attributes children :: Reader.withPlain found plain) []
        refine ⟨found', plain', ?_, fun ps => ?_⟩
        · rw [siblings_element h_node h_canonical.1 (by omega) h_next h_notes, h_read]
        · rw [h_nodes, List.reverse_cons, Reader.withPlain_reverse]
          simp [pieces, assemble]
      | group items => exact absurd h_canonical.1 (by simp [canonical])

/-! ## The end of the text -/

/-- A container is written with its opener, its children and its closer. -/
theorem writeAll_snoc {tag : Tag} (h_kind : tag.kind = .container)
    (nodes attributes children : List Node) :
    writeAll (nodes ++ [.element tag.name attributes children]) =
      writeAll nodes ++ (Node.opener tag.name (writeSpaced attributes) ++
        (writeAll children ++ Node.closer tag.name)) := by
  have h_closes : Tag.selfCloses tag.name = false := by
    cases tag <;> first | rfl | exact absurd h_kind (by decide)
  rw [Node.writeAll_append, writeAll, writeAll, write, h_closes, Bool.and_false, List.append_nil]
  rfl

/-- The opener of a tag is no closer of a dice. -/
theorem not_closing_opener (tag : Tag) (attributes : List Node) (text after : List Char) :
    ¬ Closing (fromBracket (Node.opener tag.name (writeSpaced attributes) ++ text))
      .dice after := by
  intro h_closing
  have h_open := opening_write tag attributes text
  rw [Node.opener, List.cons_append, fromBracket_open] at h_closing
  exact h_closing.not_opening _ _ (by simpa using h_open)

/-- A container that ends with the text is read with the children that are read in it, and it is
    noted after all that is noted in it. -/
theorem siblings_last {tag : Tag} {attributes children : List Node} {inside : List Char}
    {inner notes : Notes} {l : Nat} (opened : List Tag) (found : List Node) (plain : List Char)
    (h_kind : tag.kind = .container)
    (h_attributes : holdsAttributes tag attributes = true) (h_height : heightAll attributes ≤ l)
    (h_notes : ∀ size, ¬ Failed notes size)
    (h_inside : Reader.siblings (openers l).tag (tag :: opened) [] [] (Cursor.ofList inside) notes =
      ⟨children, false, Cursor.ofList [], inner⟩) :
    let start := Cursor.ofList (Node.opener tag.name (writeSpaced attributes) ++ inside)
    Reader.siblings (openers (l + 1)).tag opened found plain start notes =
      ⟨found.reverse ++ assemble plain.reverse [.node (.element tag.name attributes children)],
        false, Cursor.ofList [],
        inner.add (.unterminated tag.name) start (Cursor.ofList inside)⟩ := by
  intro start
  have h_text : Node.opener tag.name (writeSpaced attributes) ++ inside =
      '[' :: (tag.name.toList ++ (writeSpaced attributes ++ ']' :: inside)) := by simp [Node.opener]
  have h_open := opening_write tag attributes inside
  have h_failed : notes.hasFailed start = false := Bool.eq_false_iff.2 (h_notes start.left)
  have h_header := readsHeader_of_respells (Node.respellsHeader_write h_attributes
    (Node.respellsListed_writeSpaced .listed attributes)) l opened inside h_attributes h_height
  obtain ⟨notes', h_read, -, h_calm⟩ :=
    h_header.follows notes fun _ => sound_of_not_failed h_notes _ _ _
  obtain rfl := h_calm rfl
  have h_body : Reader.body (openers l) opened tag.name tag attributes start (Cursor.ofList inside)
      notes' = _ := Reader.body_inside h_kind h_inside
  have h_known : Reader.knownTag (openers l) opened tag.name ⟨tag, []⟩ start _ notes' = _ :=
    Reader.knownTag_some h_read h_body
  have h_lt : byteLength [] < byteLength ('[' :: (tag.name.toList ++
      (writeSpaced attributes ++ ']' :: inside))) :=
    byteLength_lt ⟨'[', _, by rw [List.append_nil]⟩
  subst start
  rw [h_text] at h_failed h_known ⊢
  rw [← Reader.tag_known l h_failed h_open (Tag.resolve?_name tag)] at h_known
  -- Inside of the container the end of the text is reached, and so nothing follows the container.
  rw [Reader.siblings_tag (noEnding_of_opening h_open) h_known h_lt, Reader.siblings_nil,
    Reader.withPlain_reverse, List.reverse_cons, Reader.withPlain_reverse]
  simp [assemble, flush]

/-- Where nothing is remembered, the characters that are left of the nodes are read as the nodes up
    to the end of the text, and the containers are noted from the inside out. -/
def ReadsUnclosed (before : List Char) (nodes : List Node) (spine : List Unclosed)
    (left : List Char) : Prop :=
  ∀ (l : Nat) (opened : List Tag) (found : List Node) (plain : List Char) (notes : Notes),
    canonicalAll .child nodes = true → apart nodes = true → heightAll nodes ≤ l →
      (∀ size, ¬ Failed notes size) →
        ∃ issues,
          Reader.siblings (openers l).tag opened found plain (Cursor.ofList left) notes =
              ⟨found.reverse ++ assemble plain.reverse (pieces nodes), false, Cursor.ofList [],
                { notes with issues := issues ++ notes.issues }⟩ ∧
            List.Forall₂ (Unclosed.NotedBy (before ++ left)) spine issues

/-- All closers are there, and only the end of the text follows. -/
theorem readsUnclosed_nil (before : List Char) (nodes : List Node) :
    ReadsUnclosed before nodes [] (writeAll nodes) := by
  intro l opened found plain notes h_canonical _ h_height h_notes
  obtain ⟨found', plain', h_read, h_nodes⟩ :=
    siblings_spelled (Node.respellsAll_writeAll nodes h_canonical) h_canonical h_height
      (not_closing_fromBracket_of_isEnd (.inl rfl)) h_notes opened found plain
  have h_end := h_nodes []
  rw [List.append_nil] at h_read h_end
  refine ⟨[], ?_, .nil⟩
  rw [h_read, Reader.siblings_nil, Reader.withPlain_reverse, ← h_end]
  rfl

/-- The children of a container without its closer end with the text, whatever closers are left out
    in them; the container is noted after them. -/
theorem readsUnclosed_cons {before left : List Char} {nodes attributes children : List Node}
    {tag : Tag} {inside : List Unclosed} (h_kind : tag.kind = .container)
    (h : ReadsUnclosed (before ++ writeAll nodes ++ Node.opener tag.name (writeSpaced attributes))
      children inside left) :
    ReadsUnclosed before (nodes ++ [.element tag.name attributes children])
      (⟨tag.name, before ++ writeAll nodes,
        Node.opener tag.name (writeSpaced attributes)⟩ :: inside)
      (writeAll nodes ++ (Node.opener tag.name (writeSpaced attributes) ++ left)) := by
  intro l opened found plain notes h_canonical h_apart h_height h_notes
  rw [canonicalAll_append, Bool.and_eq_true, canonicalAll, Bool.and_eq_true,
    Node.canonical_element, Bool.and_eq_true] at h_canonical
  obtain ⟨h_nodes, ⟨h_attributes, h_children⟩, -⟩ := h_canonical
  rw [heightAll_append, heightAll, height] at h_height
  -- The container takes a level, and one less is free for its children.
  obtain ⟨k, rfl⟩ : ∃ k, l = k + 1 := ⟨l - 1, by omega⟩
  have h_inside : canonicalAll .child children = true ∧ apart children = true := by
    unfold holdsChildren at h_children
    rw [h_kind] at h_children
    exact Bool.and_eq_true_iff.1 h_children
  obtain ⟨issues, h_read, h_noted⟩ :=
    h k (tag :: opened) [] [] notes h_inside.1 h_inside.2 (by omega) h_notes
  rw [List.reverse_nil, List.nil_append, List.reverse_nil,
    assemble_pieces [] h_inside.1 h_inside.2 (.inl rfl)] at h_read
  -- The nodes before the container are read up to its opener.
  have h_before_height : heightAll nodes ≤ k + 1 := by omega
  obtain ⟨found', plain', h_before, h_pieces⟩ :=
    siblings_spelled (Node.respellsAll_writeAll nodes h_nodes) h_nodes h_before_height
      (not_closing_opener tag attributes left) h_notes opened found plain
  have h_last := siblings_last opened found' plain' h_kind h_attributes (by omega) h_notes h_read
  refine ⟨⟨.unterminated tag.name,
    Cursor.ofList (Node.opener tag.name (writeSpaced attributes) ++ left),
    Cursor.ofList left⟩ :: issues, ?_, ?_⟩
  · rw [h_before, h_last, h_pieces, pieces_append]
    rfl
  · rw [← List.append_assoc before]
    rw [List.append_assoc (before ++ writeAll nodes)] at h_noted
    exact .cons ⟨rfl, rfl, rfl⟩ h_noted

/-- What is left of written nodes without their last closers is read as the nodes. -/
theorem siblings_unclosed {before : List Char} {nodes : List Node} {spine : List Unclosed}
    (h : Trailing before nodes spine) :
    ∃ left, writeAll nodes = left ++ Unclosed.closers spine ∧
      ReadsUnclosed before nodes spine left := by
  induction h with
  | @nil before nodes =>
    exact ⟨writeAll nodes, (List.append_nil _).symm, readsUnclosed_nil before nodes⟩
  | @cons before nodes attributes children tag inside h_kind _ ih =>
    obtain ⟨left, h_left, h_reads⟩ := ih
    refine ⟨_, ?_, readsUnclosed_cons h_kind h_reads⟩
    rw [writeAll_snoc h_kind, h_left, Unclosed.closers]
    simp

end Rules

/-! ## Whole documents -/

/-- However many of the last closers are left out, a canonical document is read as it is. There is a
    warning for each container that is not closed, the innermost first. -/
theorem Document.parse_unclosed {document : Document} {spine : List Unclosed}
    (h : document.canonical = true) (h_spine : Trailing [] document spine) (j : Nat) :
    ∃ source,
      document.toText = source ++ String.ofList (Unclosed.closers (spine.take j)) ∧
        Document.parse source = document ∧
        Document.diagnose source = ((spine.take j).map Unclosed.report).reverse := by
  rw [Document.canonical, Bool.and_eq_true, Bool.and_eq_true, decide_eq_true_eq] at h
  obtain ⟨⟨h_canonical, h_apart⟩, h_height⟩ := h
  obtain ⟨left, h_left, h_reads⟩ := Rules.siblings_unclosed (h_spine.take j)
  obtain ⟨issues, h_read, h_noted⟩ := h_reads nestingLimit [] [] [] .remembering h_canonical h_apart
    h_height Rules.not_failed_remembering
  rw [List.nil_append] at h_noted
  have h_run : Reader.run .remembering left =
      ⟨document, false, Cursor.ofList [], issues, some ∅⟩ := by
    rw [Reader.run, h_read, List.reverse_nil, List.nil_append, List.reverse_nil,
      Rules.assemble_pieces [] h_canonical h_apart (.inl rfl)]
    simp [Rules.flush, Notes.remembering]
  refine ⟨String.ofList left, ?_, ?_, ?_⟩
  · rw [Document.toText, h_left, String.ofList_append]
  · rw [Document.parse, String.toList_ofList, h_run]
  · rw [Document.diagnose, Document.issues, String.toList_ofList, h_run, List.map_reverse,
      Unclosed.diagnostics_eq h_noted]

/-- Two tags of one name around another one, and a dice: the closers of the two outer tags are left
    out, and the tags are noted on two lines, the inner one first. -/
theorem Document.parse_unclosed_nested :
    let document : Document :=
      [.text "a", .element "bld" []
        [.text "x\n", .element "clr" [.text "red"]
          [.element "bld" [] [.element "dice" [.text "1", .text "6"] [.text "-4"]]]]]
    let spine : List Unclosed :=
      [⟨"bld", "a".toList, "[bld]".toList⟩, ⟨"clr", "a[bld]x\n".toList, "[clr red]".toList⟩,
        ⟨"bld", "a[bld]x\n[clr red]".toList, "[bld]".toList⟩]
    document.canonical = true ∧ Trailing [] document spine ∧
      ∃ source,
        document.toText = source ++ "[/clr][/bld]" ∧
          Document.parse source = document ∧
          Document.diagnose source =
            [⟨some ⟨⟨1, 0⟩, ⟨1, 9⟩⟩, .warning, "W_TAG_UNTERMINATED",
                "`[clr]` has no matching `[/clr]`", "[clr red]"⟩,
              ⟨some ⟨⟨0, 1⟩, ⟨0, 6⟩⟩, .warning, "W_TAG_UNTERMINATED",
                "`[bld]` has no matching `[/bld]`", "[bld]"⟩] := by
  intro document spine
  have h_canonical : document.canonical = true := by cbv
  have h_spine : Trailing [] document spine :=
    @Trailing.cons [] [.text "a"] [] _ .bold _ rfl
      (@Trailing.cons _ [.text "x\n"] [.text "red"] _ .color _ rfl
        (@Trailing.cons _ [] [] _ .bold _ rfl .nil))
  obtain ⟨source, h_text, h_parse, h_diagnose⟩ := Document.parse_unclosed h_canonical h_spine 2
  have h_closers : String.ofList (Unclosed.closers (spine.take 2)) = "[/clr][/bld]" := by cbv
  refine ⟨h_canonical, h_spine, source, h_closers ▸ h_text, h_parse, h_diagnose.trans ?_⟩
  cbv

end DiceMarkup
