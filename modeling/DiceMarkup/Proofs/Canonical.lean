/-
  DiceMarkup.Proofs.Canonical

  Trees that a text can stand for in one way only, and how the parts of such a
  tree are read: its texts, and the items of its lists.

  Pieces:
  * `Node.canonical`, `Document.canonical` — which trees are canonical
  * `Node.height` — how far tags and groups stand inside one another
  * `assemble_pieces`, `piecesAt_text` — texts and the pieces around them
  * `itemAt_word`, `EndsItem` — words, and where an item ends
-/
import DiceMarkup.Proofs.Follows

namespace DiceMarkup

open Text (isBlank)

/-! ## Canonical trees -/

/-- Where a piece stands. -/
inductive Place where
  | child
  /-- Among the attributes of a tag. -/
  | listed
  /-- In a group. -/
  | grouped
deriving DecidableEq

namespace Place

/-- The text starts with a character that is neither a letter nor a slash. -/
def startsQuiet : List Char → Bool
  | [] => false
  | c :: _ => !c.isAlpha && c != '/'

/-- Every `[` is followed by a character that is neither a letter nor a slash. -/
def isQuiet : List Char → Bool
  | [] => true
  | c :: cs => (c != '[' || startsQuiet cs) && isQuiet cs

/-- A word that is an attribute, or a member of a group. -/
def isWord (inGroup : Bool) (cs : List Char) : Bool :=
  !cs.isEmpty && cs.head? != some '(' &&
    cs.all fun c => !isBlank c && c != '[' && c != ']' && !(inGroup && (c == '(' || c == ')'))

/-- Whether a text may stand in a place. -/
def admits : Place → List Char → Bool
  | child, cs => !cs.isEmpty && isQuiet cs
  | listed, cs => isWord false cs
  | grouped, cs => isWord true cs

end Place

/-- As many brackets are closed as opened, and none before it is opened. -/
def isBalanced (cs : List Char) : Bool :=
  (cs.inits.all fun start => start.count ']' ≤ start.count '[') && cs.count '[' == cs.count ']'

/-- One digit or more, after a minus sign or none. -/
def isResult : List Char → Bool
  | '-' :: cs => !cs.isEmpty && cs.all Char.isDigit
  | cs => !cs.isEmpty && cs.all Char.isDigit

namespace Node

/-- No two texts follow one another. -/
def apart : List Node → Bool
  | .text _ :: .text _ :: _ => false
  | _ :: nodes => apart nodes
  | [] => true

/-- The attributes of a tag whose attributes are kept as they stand. -/
def isRaw : List Node → Bool
  | [] => true
  | [.text value] => !value.toList.isEmpty && isBalanced value.toList
  | _ => false

/-- The children of a dice that has been rolled. -/
def isStored : List Node → Bool
  | [.text value] => isResult value.toList
  | _ => false

mutual

/-- A piece that is canonical where it stands. -/
def canonical (place : Place) : Node → Bool
  | .text value => place.admits value.toList
  | .group items => place != .child && canonicalAll .grouped items
  | .element name attributes children =>
    match Tag.ofName? name with
    | none => false
    | some tag =>
      (if tag.rawAttribute then isRaw attributes else canonicalAll .listed attributes) &&
        match tag.kind with
        | .container => canonicalAll .child children && apart children
        | .selfClosing => children.isEmpty || tag.storesResult && isStored children

def canonicalAll (place : Place) : List Node → Bool
  | [] => true
  | node :: nodes => canonical place node && canonicalAll place nodes

end

mutual

/-- How many tags and groups stand inside one another, through attributes and children alike. -/
def height : Node → Nat
  | .text _ => 0
  | .element _ attributes children => max (heightAll attributes) (heightAll children) + 1
  | .group items => heightAll items + 1

def heightAll : List Node → Nat
  | [] => 0
  | node :: nodes => max (height node) (heightAll nodes)

end

/-- What a canonical tag may have for its attributes. -/
def holdsAttributes (tag : Tag) (attributes : List Node) : Bool :=
  if tag.rawAttribute then isRaw attributes else canonicalAll .listed attributes

/-- What a canonical tag may have for its children. -/
def holdsChildren (tag : Tag) (children : List Node) : Bool :=
  match tag.kind with
  | .container => canonicalAll .child children && apart children
  | .selfClosing => children.isEmpty || tag.storesResult && isStored children

/-- The only child of a rolled dice is its result. -/
theorem exists_of_isStored {children : List Node} (h : isStored children = true) :
    ∃ value : String, children = [.text value] ∧ isResult value.toList = true := by
  unfold isStored at h
  split at h
  · rename_i value
    exact ⟨value, rfl, h⟩
  · exact absurd h (by decide)

theorem canonical_element (place : Place) (tag : Tag) (as cs : List Node) :
    canonical place (.element tag.name as cs) =
      (holdsAttributes tag as && holdsChildren tag cs) := by
  rw [canonical, Tag.ofName?_name]
  rfl

end Node

/-- A document whose pieces are canonical and that keeps to the nesting limit. -/
def Document.canonical (document : Document) : Bool :=
  Node.canonicalAll .child document && Node.apart document &&
    decide (Node.heightAll document ≤ nestingLimit)

/-! ## What the checks say -/

theorem isResult_iff {cs : List Char} : isResult cs = true ↔ Bracket.IsResult cs := by
  constructor
  · intro h
    unfold isResult at h
    split at h
    · rename_i digits
      simp only [Bool.and_eq_true, Bool.not_eq_true', List.isEmpty_eq_false_iff,
        List.all_eq_true] at h
      exact ⟨['-'], digits, rfl, .inr rfl, h.1, h.2⟩
    · simp only [Bool.and_eq_true, Bool.not_eq_true', List.isEmpty_eq_false_iff,
        List.all_eq_true] at h
      exact ⟨[], cs, rfl, .inl rfl, h.1, h.2⟩
  · rintro ⟨sign, digits, rfl, h_sign, h_nonempty, h_digits⟩
    have h_all : (!digits.isEmpty && digits.all Char.isDigit) = true := by
      simp only [Bool.and_eq_true, Bool.not_eq_true', List.isEmpty_eq_false_iff, List.all_eq_true]
      exact ⟨h_nonempty, h_digits⟩
    rcases h_sign with rfl | rfl
    -- Without a sign the first digit must not be taken for one.
    · obtain ⟨d, digits, rfl⟩ := List.exists_cons_of_ne_nil h_nonempty
      have h_minus : d ≠ '-' := by
        rintro rfl
        exact absurd (h_digits '-' List.mem_cons_self) (by decide)
      unfold isResult
      split
      · rename_i h_eq
        exact absurd (List.cons.inj h_eq).1 h_minus
      · exact h_all
    · exact h_all

/-- Brackets are balanced if none is open at the end and none is closed that was not opened. -/
theorem openAfter_of_counts {depth : Nat} {cs : List Char}
    (h_start : ∀ start, start <+: cs → start.count ']' ≤ start.count '[' + depth)
    (h_total : cs.count '[' + depth = cs.count ']') : Bracket.openAfter depth cs = some 0 := by
  -- Each bracket moves the depth by one, so that the counts of the rest start from the new depth.
  induction cs generalizing depth with
  | nil =>
    have h_zero : depth = 0 := by simpa using h_total
    rw [h_zero]
    rfl
  | cons c cs ih =>
    have h_rest : ∀ start, start <+: cs →
        (c :: start).count ']' ≤ (c :: start).count '[' + depth :=
      fun start h_prefix => h_start (c :: start) (List.cons_prefix_cons.2 ⟨rfl, h_prefix⟩)
    by_cases h_open : c = '['
    · subst h_open
      rw [Bracket.openAfter_open]
      refine ih (fun start h_prefix => ?_) ?_
      · have h := h_rest start h_prefix
        simp at h
        omega
      · simp at h_total
        omega
    by_cases h_close : c = ']'
    · subst h_close
      have h_one := h_rest [] List.nil_prefix
      cases depth with
      | zero => exact absurd h_one (by simp)
      | succ depth =>
        rw [Bracket.openAfter_close_succ]
        refine ih (fun start h_prefix => ?_) ?_
        · have h := h_rest start h_prefix
          simp at h
          omega
        · simp at h_total
          omega
    · rw [Bracket.openAfter_other h_open h_close]
      refine ih (fun start h_prefix => ?_) ?_
      · simpa [List.count_cons, h_open, h_close] using h_rest start h_prefix
      · simpa [List.count_cons, h_open, h_close] using h_total

theorem openAfter_of_isBalanced {cs : List Char} (h : isBalanced cs = true) :
    Bracket.openAfter 0 cs = some 0 := by
  unfold isBalanced at h
  rw [Bool.and_eq_true, List.all_eq_true, beq_iff_eq] at h
  refine openAfter_of_counts (fun start h_prefix => ?_) h.2
  simpa using h.1 start ((List.mem_inits start cs).2 h_prefix)

/-- A word is made of characters that do not end a word. -/
theorem isWord_iff {inGroup : Bool} {cs : List Char} :
    Place.isWord inGroup cs = true ↔
      cs ≠ [] ∧ cs.head? ≠ some '(' ∧ ∀ c ∈ cs, Bracket.endsWord inGroup c = false := by
  have h_char : ∀ c : Char, (!isBlank c && c != '[' && c != ']' &&
      !(inGroup && (c == '(' || c == ')'))) = !Bracket.endsWord inGroup c := by
    intro c
    unfold Bracket.endsWord
    cases isBlank c <;> cases h_open : c == '[' <;> cases h_close : c == ']' <;>
      simp_all [bne]
  unfold Place.isWord
  simp only [h_char, Bool.and_eq_true, Bool.not_eq_true', List.isEmpty_eq_false_iff, bne_iff_ne,
    List.all_eq_true, and_assoc]

namespace Rules

open DiceMarkup.Bracket (Opening Closing RawOpening Stored rawText wordTail afterWord endsWord)
open Node (write writeAll writeSpaced opener closer canonical canonicalAll apart height heightAll)

/-! ## Texts -/

/-- The pieces of nodes, where a text is a run of characters. -/
def pieces : List Node → List Piece
  | [] => []
  | .text value :: nodes => value.toList.map .plain ++ pieces nodes
  | node :: nodes => .node node :: pieces nodes

theorem pieces_append (as bs : List Node) : pieces (as ++ bs) = pieces as ++ pieces bs := by
  induction as with
  | nil => rfl
  | cons a as ih => cases a <;> simp [pieces, ih]

/-- A text comes first. -/
def startsWithText : List Node → Bool
  | .text _ :: _ => true
  | _ => false

/-- A text may stand behind everything but a text. -/
theorem apart_cons (node : Node) (nodes : List Node) :
    apart (node :: nodes) =
      (!(startsWithText [node] && startsWithText nodes) && apart nodes) := by
  cases node with
  | text value =>
    cases nodes with
    | nil => rfl
    | cons next nodes => cases next <;> rfl
  | element name as cs => rfl
  | group items => rfl

theorem isQuiet_of_no_bracket {value : List Char} (h : ∀ c ∈ value, c ≠ '[') :
    Place.isQuiet value = true := by
  induction value with
  | nil => rfl
  | cons c value ih =>
    rw [List.forall_mem_cons] at h
    rw [Place.isQuiet, ih h.2, Bool.and_true, Bool.or_eq_true, bne_iff_ne]
    exact .inl h.1

/-- A text among children has characters, and neither a tag nor a closer could start in it. -/
theorem quiet_of_canonical {value : String} (h : canonical .child (.text value) = true) :
    value.toList ≠ [] ∧ Place.isQuiet value.toList = true := by
  have h_admits : (!value.toList.isEmpty && Place.isQuiet value.toList) = true := h
  rw [Bool.and_eq_true] at h_admits
  exact ⟨by simpa using h_admits.1, h_admits.2⟩

theorem assemble_plain (pending cs : List Char) (ps : List Piece) :
    assemble pending (cs.map .plain ++ ps) = assemble (pending ++ cs) ps := by
  induction cs generalizing pending with
  | nil => simp
  | cons c cs ih =>
    rw [List.map_cons, List.cons_append, assemble, ih, List.append_assoc]
    rfl

/-- Pieces of nodes are assembled to the nodes, if no text is empty or follows a text. -/
theorem assemble_pieces {nodes : List Node} (pending : List Char)
    (h_canonical : canonicalAll .child nodes = true) (h_apart : apart nodes = true)
    (h_pending : pending = [] ∨ startsWithText nodes = false) :
    assemble pending (pieces nodes) = flush pending ++ nodes := by
  induction nodes generalizing pending with
  | nil => rw [pieces, assemble, List.append_nil]
  | cons node nodes ih =>
    rw [canonicalAll, Bool.and_eq_true] at h_canonical
    cases node with
    | text value =>
      obtain rfl : pending = [] := by simpa [startsWithText] using h_pending
      have h_value := (quiet_of_canonical h_canonical.1).1
      rw [apart_cons, Bool.and_eq_true] at h_apart
      -- The run of the text ends with it, since no other text comes next.
      have h_next : startsWithText nodes = false := by simpa [startsWithText] using h_apart.1
      rw [pieces, assemble_plain, List.nil_append,
        ih value.toList h_canonical.2 h_apart.2 (.inr h_next)]
      simp [flush, h_value]
    | element name attributes children =>
      rw [pieces, assemble, ih [] h_canonical.2 (by simpa [apart] using h_apart) (.inl rfl)]
      · rfl
      · exact nofun
    | group items =>
      rw [pieces, assemble, ih [] h_canonical.2 (by simpa [apart] using h_apart) (.inl rfl)]
      · rfl
      · exact nofun

/-- A bracket in a quiet text starts no closer: no slash follows it. -/
theorem not_closing_of_quiet {value : List Char} (h_quiet : Place.isQuiet ('[' :: value) = true)
    (text : List Char) (tag : Tag) (after : List Char) :
    ¬ Closing ('[' :: (value ++ text)) tag after := by
  intro h_closing
  cases value with
  | nil => exact absurd h_quiet (by decide)
  | cons d value =>
    have h_next : (!d.isAlpha && d != '/') = true := (Bool.and_eq_true_iff.1 h_quiet).1
    obtain ⟨rest, h_text⟩ := closing_starts h_closing
    obtain rfl : d = '/' := (List.cons.inj (List.cons.inj h_text).2).1
    exact absurd h_next (by decide)

/-- A bracket in a quiet text starts no opener: no letter follows it. -/
theorem not_opening_of_quiet {value : List Char} (h_quiet : Place.isQuiet ('[' :: value) = true)
    (text : List Char) (name : String) (after : List Char) :
    ¬ Opening (value ++ text) name after := by
  intro h_open
  cases value with
  | nil => exact absurd h_quiet (by decide)
  | cons d value =>
    have h_next : (!d.isAlpha && d != '/') = true := (Bool.and_eq_true_iff.1 h_quiet).1
    obtain ⟨e, letters, h_name⟩ := List.exists_cons_of_ne_nil h_open.nonempty
    have h_split := h_open.split
    rw [h_name] at h_split
    obtain rfl : d = e := (List.cons.inj h_split).1
    rw [h_open.letters d (h_name ▸ List.mem_cons_self)] at h_next
    exact absurd h_next (by simp)

/-- A quiet text has no tag in it and no closer. -/
theorem piecesAt_text {l : Nat} {opened : List Tag} {value text stop : List Char}
    {ps : List Piece} {closed : Bool} (h_quiet : Place.isQuiet value = true)
    (h : PiecesAt true l opened text ps closed stop) :
    PiecesAt true l opened (value ++ text) (value.map .plain ++ ps) closed stop := by
  induction value with
  | nil => exact h
  | cons c value ih =>
    have h_rest := ih (Bool.and_eq_true_iff.1 h_quiet).2
    by_cases h_char : c = '['
    · subst h_char
      exact .bracket (noEnding_of_not_closing (not_closing_of_quiet h_quiet text))
        (.noOpener (not_opening_of_quiet h_quiet text)) h_rest
    · exact .char h_char h_rest

/-! ## What follows a dice without a result -/

/-- The text up to the first bracket is passed. -/
def fromBracket (text : List Char) : List Char :=
  text.dropWhile (· != '[')

@[simp] theorem fromBracket_open (text : List Char) : fromBracket ('[' :: text) = '[' :: text := by
  simp [fromBracket]

/-- The closer after a result starts with the first bracket of the text. -/
theorem closing_of_stored {text value after : List Char} {tag : Tag}
    (h : Stored text tag value after) : Closing (fromBracket text) tag after := by
  obtain ⟨rest, rfl, ⟨sign, digits, rfl, h_sign, -, h_digits⟩, h_closing⟩ := h
  obtain ⟨cs, rfl⟩ := closing_starts h_closing
  -- The result is passed on the way to the first bracket, which is the one of the closer.
  have h_inside : ∀ c ∈ sign ++ digits, (c != '[') = true := by
    intro c hc
    rcases List.mem_append.1 hc with h_mem | h_mem
    · rcases h_sign with rfl | rfl
      · exact absurd h_mem (by simp)
      · rw [List.mem_singleton.1 h_mem]
        decide
    · have h_digit := h_digits c h_mem
      rw [bne_iff_ne]
      rintro rfl
      exact absurd h_digit (by decide)
  rw [fromBracket, Bracket.dropWhile_run h_inside (by decide)]
  exact h_closing

/-- A quiet text has no bracket, or its first bracket starts no closer. -/
theorem fromBracket_quiet {value : List Char} (h_quiet : Place.isQuiet value = true)
    (text : List Char) :
    fromBracket (value ++ text) = fromBracket text ∨
      ∀ tag after, ¬ Closing (fromBracket (value ++ text)) tag after := by
  induction value with
  | nil => exact .inl rfl
  | cons c value ih =>
    by_cases h_char : c = '['
    · subst h_char
      rw [List.cons_append, fromBracket_open]
      exact .inr (not_closing_of_quiet h_quiet text)
    · have h_skip : fromBracket (c :: (value ++ text)) = fromBracket (value ++ text) := by
        simp [fromBracket, h_char]
      rw [List.cons_append, h_skip]
      exact ih (Bool.and_eq_true_iff.1 h_quiet).2

/-- What may follow the children of a tag: the end of the text, or the closer of a tag other than a
    dice. -/
def IsEnd (text : List Char) : Prop :=
  text = [] ∨ ∃ tag after, tag ≠ Tag.dice ∧ Closing text tag after

theorem not_closing_fromBracket_of_isEnd {text : List Char} (h_end : IsEnd text)
    (after : List Char) : ¬ Closing (fromBracket text) .dice after := by
  intro h_closing
  -- No bracket is left at all, or the first one starts the closer of another tag.
  rcases h_end with rfl | ⟨tag, after', h_tag, h_other⟩
  · obtain ⟨rest, h_text⟩ := closing_starts h_closing
    exact absurd h_text (by simp [fromBracket])
  · obtain ⟨rest, rfl⟩ := closing_starts h_other
    rw [fromBracket_open] at h_closing
    exact h_tag (h_other.unique h_closing).1

/-- The name of a canonical tag is the name of a tag. -/
theorem exists_tag {place : Place} {name : String} {attributes children : List Node}
    (h : canonical place (.element name attributes children) = true) :
    ∃ tag : Tag, name = tag.name := by
  cases h_tag : Tag.ofName? name with
  | none =>
    rw [canonical, h_tag] at h
    exact absurd h (by simp)
  | some tag => exact ⟨tag, Tag.ofName?_eq_some_iff.1 h_tag⟩

/-! ## Items of a list -/

/-- Where the items of a list stand. -/
def placeOf : Bool → Place
  | false => .listed
  | true => .grouped

/-- What may follow an attribute or a member: a space, or the end of the list. -/
def IsItemEnd (inGroup : Bool) (text : List Char) : Prop :=
  ∃ c rest, text = c :: rest ∧ (c = ' ' ∨ c = closingOf inGroup)

/-- What may follow an attribute or a member, however it is spelled: white space, or the end of the
    list. -/
def EndsItem (inGroup : Bool) (text : List Char) : Prop :=
  ∃ c rest, text = c :: rest ∧ (isBlank c = true ∨ c = closingOf inGroup)

theorem EndsItem.atWordEnd {inGroup : Bool} {text : List Char} (h : EndsItem inGroup text) :
    Bracket.AtWordEnd inGroup text := by
  intro c rest h_text
  obtain ⟨c', rest', h_text', h_char⟩ := h
  obtain ⟨rfl, rfl⟩ := List.cons.inj (h_text.symm.trans h_text')
  rcases h_char with h_blank | rfl
  · simp [endsWord, h_blank]
  · cases inGroup <;> simp [endsWord, closingOf]

/-- A result starts with a digit or a minus sign, and neither of them ends an item. -/
theorem EndsItem.not_stored {inGroup : Bool} {text : List Char} (h : EndsItem inGroup text)
    (tag : Tag) (value after : List Char) : ¬ Stored text tag value after := by
  rintro ⟨rest, rfl, ⟨sign, digits, rfl, h_sign, h_nonempty, h_digits⟩, -⟩
  rcases h_sign with rfl | rfl
  · obtain ⟨d, digits, rfl⟩ := List.exists_cons_of_ne_nil h_nonempty
    have h_ends := h.atWordEnd d _ rfl
    rw [Bracket.endsWord_of_isDigit (h_digits d List.mem_cons_self)] at h_ends
    exact absurd h_ends (by decide)
  · exact absurd (h.atWordEnd '-' _ rfl) (by cases inGroup <;> decide)

theorem IsItemEnd.endsItem {inGroup : Bool} {text : List Char} (h : IsItemEnd inGroup text) :
    EndsItem inGroup text := by
  obtain ⟨c, rest, h_text, h_char⟩ := h
  refine ⟨c, rest, h_text, h_char.imp_left ?_⟩
  rintro rfl
  decide

theorem IsItemEnd.atWordEnd {inGroup : Bool} {text : List Char} (h : IsItemEnd inGroup text) :
    Bracket.AtWordEnd inGroup text :=
  h.endsItem.atWordEnd

theorem IsItemEnd.not_stored {inGroup : Bool} {text : List Char} (h : IsItemEnd inGroup text)
    (tag : Tag) (value after : List Char) : ¬ Stored text tag value after :=
  h.endsItem.not_stored tag value after

/-- After an item comes the space before the next one, or the end of the list. -/
theorem isItemEnd_writeSpaced (inGroup : Bool) (nodes : List Node) (text : List Char) :
    IsItemEnd inGroup (writeSpaced nodes ++ closingOf inGroup :: text) := by
  cases nodes with
  | nil => exact ⟨_, text, rfl, .inr rfl⟩
  | cons node nodes => exact ⟨' ', _, by rw [writeSpaced]; rfl, .inl rfl⟩

/-- A word is read up to its end. -/
theorem itemAt_word {calm : Bool} {l : Nat} {inGroup : Bool} {opened : List Tag} {value : String}
    {text : List Char} (h_word : Place.isWord inGroup value.toList = true)
    (h_end : Bracket.AtWordEnd inGroup text) :
    ItemAt calm l inGroup opened (value.toList ++ text) (some (.text value, text)) := by
  obtain ⟨h_nonempty, h_group, h_inside⟩ := isWord_iff.1 h_word
  obtain ⟨c, cs, h_value⟩ := List.exists_cons_of_ne_nil h_nonempty
  rw [h_value] at h_group h_inside
  have h_tail : wordTail inGroup (cs ++ text) = cs ∧ afterWord inGroup (cs ++ text) = text :=
    Bracket.wordTail_append (fun d hd => h_inside d (List.mem_cons_of_mem c hd)) h_end
  have h_item : ItemAt calm l inGroup opened (c :: (cs ++ text))
      (some (.text (String.ofList (c :: wordTail inGroup (cs ++ text))),
        afterWord inGroup (cs ++ text))) :=
    .word (h_inside c List.mem_cons_self) (by simpa using h_group)
  -- The rule splits the text behind the first character, and the split is the one between the word
  -- and the rest.
  rw [h_tail.1, h_tail.2, ← h_value, String.ofList_toList] at h_item
  rw [h_value]
  exact h_item

/-! ## Tags -/

theorem storesResult_eq_true_iff {tag : Tag} : tag.storesResult = true ↔ tag = .dice := by
  cases tag <;> decide

theorem ne_dice_of_container {tag : Tag} (h_kind : tag.kind = .container) : tag ≠ .dice := by
  rintro rfl
  exact absurd h_kind (by decide)

/-- What an older spelling implies are words, and nothing where attributes are kept as they
    stand. -/
theorem implied_words {name : String} {meaning : Tag.Resolved}
    (h : Tag.resolve? name = some meaning) :
    (meaning.tag.rawAttribute = true → meaning.implied = []) ∧
      ∀ word ∈ meaning.implied, Place.isWord false word.toList = true := by
  unfold Tag.resolve? at h
  dsimp only at h
  split at h
  · obtain rfl := Option.some.inj h
    exact ⟨fun _ => rfl, fun _ h_mem => absurd h_mem (by simp)⟩
  · obtain ⟨entry, h_entry, rfl⟩ := Option.map_eq_some_iff.1 h
    have h_table : ∀ entry ∈ Tag.aliases,
        (entry.meaning.tag.rawAttribute = true → entry.meaning.implied = []) ∧
          ∀ word ∈ entry.meaning.implied, Place.isWord false word.toList = true := by
      decide +kernel
    exact h_table entry (List.mem_of_find?_eq_some h_entry)

/-- The written opener of a tag is one. -/
theorem opening_write (tag : Tag) (attributes : List Node) (openEnd : List Char) :
    Opening (tag.name.toList ++ (writeSpaced attributes ++ ']' :: openEnd)) tag.name
      (writeSpaced attributes ++ ']' :: openEnd) := by
  refine ⟨rfl, Bracket.name_toList_ne_nil tag, Bracket.isAlpha_of_mem_name tag, ?_⟩
  cases attributes with
  | nil => exact ⟨']', openEnd, rfl, .inl rfl⟩
  | cons item attributes => exact ⟨' ', _, by rw [writeSpaced]; rfl, .inr (by decide)⟩

end Rules

end DiceMarkup
