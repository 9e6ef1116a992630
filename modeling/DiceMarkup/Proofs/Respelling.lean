/-
  DiceMarkup.Proofs.Respelling

  How else the written form of a tree may be spelled. A name may be in any case
  and an older one, a closer may be spelled unlike its opener, and white space
  may stand wherever the writer puts a space, and at the end of a list. Main
  statement: however a canonical tree is spelled so, it is read as that tree,
  down to the last place within the nesting limit, and nothing in it is worth a
  warning. The written form is one of these spellings, so that reading undoes
  writing.

  Pieces:
  * `Respells`, `RespellsHeader`, `RespellsBody`, `RespellsListed`, `RespellsAll` — the spellings
  * `Node.respellsAll_writeAll` — the written form is one of them
  * `Reads`, `ReadsHeader`, `ReadsBody`, `ReadsListed`, `ReadsAll` — what characters are read as
  * `reads_of_respells`, `readsAll_of_respells` — spellings are read as what they spell
  * `parse_toText_of_canonical` — reading undoes writing
  * `Document.parse_respelled` — whole texts
-/
import DiceMarkup.Proofs.Canonical

namespace DiceMarkup

open DiceMarkup.Bracket (Closing)
open Text (isBlank)

/-! ## Spellings with every closer -/

mutual

/-- These characters spell the node as the writer does, but for the case of names, older names, and
    white space between attributes. -/
inductive Respells : Node → List Char → Prop
  | text (value : String) : Respells (.text value) value.toList
  | group {items : List Node} {inside : List Char} (h_items : RespellsListed false items inside) :
      Respells (.group items) ('(' :: (inside ++ [')']))
  | element {name : String} {meaning : Tag.Resolved} {written children : List Node}
      {header body : List Char} (h_letters : ∀ c ∈ name.toList, c.isAlpha = true)
      (h_name : Tag.resolve? name = some meaning)
      (h_header : RespellsHeader meaning.tag written header)
      (h_body : RespellsBody meaning.tag children body) :
      Respells (.element meaning.tag.name (meaning.implied.map .text ++ written) children)
        ('[' :: (name.toList ++ (header ++ ']' :: body)))

/-- The characters between the name of a tag and the `]` of its opener. Raw attribute text is kept
    as it stands, and one character of white space stands before it. -/
inductive RespellsHeader : Tag → List Node → List Char → Prop
  | listed {tag : Tag} {written : List Node} {header : List Char} (h_raw : tag.rawAttribute = false)
      (h_written : RespellsListed true written header) : RespellsHeader tag written header
  | bare {tag : Tag} (h_raw : tag.rawAttribute = true) : RespellsHeader tag [] []
  | blank {tag : Tag} {space : Char} (h_raw : tag.rawAttribute = true)
      (h_space : isBlank space = true) : RespellsHeader tag [] [space]
  | raw {tag : Tag} {space : Char} (h_raw : tag.rawAttribute = true)
      (h_space : isBlank space = true) (value : String) :
      RespellsHeader tag [.text value] (space :: value.toList)

/-- The characters after the opener of a tag that belong to the tag. -/
inductive RespellsBody : Tag → List Node → List Char → Prop
  | bare {tag : Tag} (h_kind : tag.kind = .selfClosing) : RespellsBody tag [] []
  | closed {tag : Tag} {children : List Node} {inside closer : List Char}
      (h_closes : tag.kind = .container ∨ children ≠ []) (h_children : RespellsAll children inside)
      (h_closer : Closing closer tag []) : RespellsBody tag children (inside ++ closer)

/-- Attributes or members of a group, with white space around them: between them always, and before
    the first one if it has to stand apart. -/
inductive RespellsListed : Bool → List Node → List Char → Prop
  | nil {apart : Bool} {blanks : List Char} (h_blanks : ∀ c ∈ blanks, isBlank c = true) :
      RespellsListed apart [] blanks
  | cons {apart : Bool} {node : Node} {nodes : List Node} {blanks first others : List Char}
      (h_blanks : ∀ c ∈ blanks, isBlank c = true) (h_apart : apart = true → blanks ≠ [])
      (h_node : Respells node first) (h_nodes : RespellsListed true nodes others) :
      RespellsListed apart (node :: nodes) (blanks ++ (first ++ others))

/-- Children one after the other. -/
inductive RespellsAll : List Node → List Char → Prop
  | nil : RespellsAll [] []
  | cons {node : Node} {nodes : List Node} {first others : List Char} (h_node : Respells node first)
      (h_nodes : RespellsAll nodes others) : RespellsAll (node :: nodes) (first ++ others)

end

/-! ## The written form -/

theorem blank_singleton {c : Char} (h : isBlank c = true) : ∀ d ∈ [c], isBlank d = true :=
  List.forall_mem_singleton.2 h

namespace Node

theorem respellsHeader_of_isRaw {tag : Tag} {attributes : List Node}
    (h_raw : tag.rawAttribute = true) (h : isRaw attributes = true) :
    RespellsHeader tag attributes (writeSpaced attributes) := by
  unfold isRaw at h
  split at h
  · exact .bare h_raw
  · rename_i value
    have h_header : RespellsHeader tag [.text value] (' ' :: value.toList) :=
      .raw h_raw (by decide) value
    rwa [writeSpaced, write, writeSpaced, List.append_nil]
  · exact absurd h (by decide)

theorem respellsHeader_write {tag : Tag} {attributes : List Node}
    (h : holdsAttributes tag attributes = true)
    (h_listed : canonicalAll .listed attributes = true →
      RespellsListed true attributes (writeSpaced attributes)) :
    RespellsHeader tag attributes (writeSpaced attributes) := by
  unfold holdsAttributes at h
  split at h
  · exact respellsHeader_of_isRaw ‹_› h
  · rename_i h_raw
    exact .listed (by simpa using h_raw) (h_listed h)

/-- The result of a dice is written as it stands. -/
theorem respellsAll_of_isStored {children : List Node} (h : isStored children = true) :
    RespellsAll children (writeAll children) := by
  obtain ⟨value, rfl, -⟩ := exists_of_isStored h
  rw [writeAll, write, writeAll]
  exact .cons (.text value) .nil

theorem respellsBody_write {tag : Tag} {children : List Node}
    (h : holdsChildren tag children = true)
    (h_all : canonicalAll .child children = true → RespellsAll children (writeAll children)) :
    RespellsBody tag children (if children.isEmpty && Tag.selfCloses tag.name then []
      else writeAll children ++ closer tag.name) := by
  have h_closes : Tag.selfCloses tag.name = decide (tag.kind = .selfClosing) := by
    cases tag <;> decide
  have h_closer : Closing (closer tag.name) tag [] := by
    simpa using Bracket.closing_closer tag []
  unfold holdsChildren at h
  rw [h_closes]
  cases h_kind : tag.kind with
  | container =>
    rw [h_kind] at h
    dsimp only at h
    rw [Bool.and_eq_true] at h
    rw [if_neg (by simp)]
    exact .closed (.inl h_kind) (h_all h.1) h_closer
  | selfClosing =>
    rw [h_kind] at h
    cases children with
    | nil => exact .bare h_kind
    | cons child children =>
      have h_stored : (tag.storesResult && isStored (child :: children)) = true := by simpa using h
      rw [Bool.and_eq_true] at h_stored
      exact .closed (.inr (List.cons_ne_nil _ _)) (respellsAll_of_isStored h_stored.2) h_closer

mutual

/-- The written form of a canonical tree is a spelling of it. -/
theorem respells_write (place : Place) : (node : Node) → canonical place node = true →
    Respells node (write node)
  | .text value => fun _ => by
    rw [write]
    exact .text value
  | .group [] => fun _ => by
    have h_listed : RespellsListed false [] [] := .nil nofun
    rw [write]
    exact .group h_listed
  | .group (item :: items) => by
    have ih_item := respells_write .grouped item
    have ih_items := respellsListed_writeSpaced .grouped items
    intro h
    rw [canonical, Bool.and_eq_true, canonicalAll, Bool.and_eq_true] at h
    -- The first member is written without the space that the others have before them.
    have h_listed :
        RespellsListed false (item :: items) ([] ++ (write item ++ writeSpaced items)) :=
      .cons nofun nofun (ih_item h.2.1) (ih_items h.2.2)
    rw [write, ← List.append_assoc]
    exact .group h_listed
  | .element name attributes children => by
    have ih_attributes := respellsListed_writeSpaced .listed attributes
    have ih_children := respellsAll_writeAll children
    intro h
    obtain ⟨tag, rfl⟩ := Rules.exists_tag h
    rw [canonical_element, Bool.and_eq_true] at h
    have h_header := respellsHeader_write h.1 ih_attributes
    have h_element := Respells.element (Bracket.isAlpha_of_mem_name tag) (Tag.resolve?_name tag)
      h_header (respellsBody_write h.2 ih_children)
    rw [write, opener]
    simpa using h_element

theorem respellsListed_writeSpaced (place : Place) : (nodes : List Node) →
    canonicalAll place nodes = true → RespellsListed true nodes (writeSpaced nodes)
  | [] => fun _ => .nil nofun
  | node :: nodes => by
    have ih_node := respells_write place node
    have ih_nodes := respellsListed_writeSpaced place nodes
    intro h
    rw [canonicalAll, Bool.and_eq_true] at h
    rw [writeSpaced]
    exact .cons (blank_singleton (by decide)) (fun _ => List.cons_ne_nil _ _) (ih_node h.1)
      (ih_nodes h.2)

theorem respellsAll_writeAll : (nodes : List Node) → canonicalAll .child nodes = true →
    RespellsAll nodes (writeAll nodes)
  | [] => fun _ => .nil
  | node :: nodes => by
    have ih_node := respells_write .child node
    have ih_nodes := respellsAll_writeAll nodes
    intro h
    rw [canonicalAll, Bool.and_eq_true] at h
    rw [writeAll]
    exact .cons (ih_node h.1) (ih_nodes h.2)

end

end Node

/-! ## Reading -/

namespace Rules

open DiceMarkup.Bracket (Opening Stored openAfter rawText)
open Node (canonical canonicalAll holdsAttributes holdsChildren apart height heightAll)

/-- In the places that admit the node, the characters are read as it. -/
structure Reads (node : Node) (spelled : List Char) : Prop where
  tag : ∀ (place : Place) (l : Nat) (opened : List Tag) (text : List Char),
    node.isElement = true → canonical place node = true → height node ≤ l →
      (∀ value after, ¬ Stored text .dice value after) →
        TagAt true l opened (spelled ++ text) (some (node, text))
  item : ∀ (inGroup : Bool) (l : Nat) (opened : List Tag) (text : List Char),
    canonical (placeOf inGroup) node = true → height node ≤ l → EndsItem inGroup text →
      ItemAt true l inGroup opened (spelled ++ text) (some (node, text))

/-- Up to the end of its list, the characters are read as these items. -/
def ReadsListed (nodes : List Node) (spelled : List Char) : Prop :=
  ∀ (inGroup : Bool) (l : Nat) (opened : List Tag) (text : List Char),
    canonicalAll (placeOf inGroup) nodes = true → heightAll nodes ≤ l →
      ItemsAt true l inGroup opened (spelled ++ closingOf inGroup :: text) (some (nodes, text))

/-- Up to the end of an opener, the characters are read as these attributes of the tag. -/
def ReadsHeader (tag : Tag) (attributes : List Node) (spelled : List Char) : Prop :=
  ∀ (l : Nat) (opened : List Tag) (text : List Char),
    holdsAttributes tag attributes = true → heightAll attributes ≤ l →
      HeaderAt true l opened tag.rawAttribute (spelled ++ ']' :: text) (some (attributes, text))

/-- Behind its opener, the characters are read as these children of the tag. -/
def ReadsBody (tag : Tag) (children : List Node) (spelled : List Char) : Prop :=
  ∀ (l : Nat) (opened : List Tag) (text : List Char),
    holdsChildren tag children = true → heightAll children ≤ l →
      (∀ value after, ¬ Stored text .dice value after) →
        BodyAt true l opened tag (spelled ++ text) children text

/-- Before the end of the children of a tag, the characters are read as these children. -/
def ReadsAll (nodes : List Node) (spelled : List Char) : Prop :=
  ∀ (l : Nat) (opened : List Tag) (text stop : List Char) (closed : Bool),
    canonicalAll .child nodes = true → apart nodes = true → heightAll nodes ≤ l → IsEnd text →
      PiecesAt true l opened text [] closed stop →
        PiecesAt true l opened (spelled ++ text) (pieces nodes) closed stop

/-! ### Items -/

theorem itemsAt_blanks {calm : Bool} {l : Nat} {inGroup : Bool} {opened : List Tag}
    {blanks text : List Char} {outcome : Option (List Node × List Char)}
    (h_blanks : ∀ c ∈ blanks, isBlank c = true) (h : ItemsAt calm l inGroup opened text outcome) :
    ItemsAt calm l inGroup opened (blanks ++ text) outcome := by
  induction blanks with
  | nil => exact h
  | cons c blanks ih =>
    obtain ⟨h_first, h_rest⟩ := List.forall_mem_cons.1 h_blanks
    exact .blank h_first (ih h_rest)

/-- Behind an item comes the white space before the next one, or the end of the list. -/
theorem endsItem_of_respells {nodes : List Node} {spelled : List Char}
    (h : RespellsListed true nodes spelled) (inGroup : Bool) (text : List Char) :
    EndsItem inGroup (spelled ++ closingOf inGroup :: text) := by
  -- Before another item white space is asked for; at the end of the list it may be missing.
  have h_blanks : ∀ blanks rest : List Char, (∀ c ∈ blanks, isBlank c = true) → blanks ≠ [] →
      EndsItem inGroup (blanks ++ rest) := by
    intro blanks rest h_all h_some
    obtain ⟨c, blanks, rfl⟩ := List.exists_cons_of_ne_nil h_some
    exact ⟨c, blanks ++ rest, rfl, .inl (h_all c List.mem_cons_self)⟩
  cases h with
  | nil h_all =>
    by_cases h_some : spelled = []
    · subst h_some
      exact ⟨_, text, rfl, .inr rfl⟩
    · exact h_blanks spelled _ h_all h_some
  | cons h_all h_apart =>
    rw [List.append_assoc]
    exact h_blanks _ _ h_all (h_apart rfl)

theorem readsListed_nil {blanks : List Char} (h_blanks : ∀ c ∈ blanks, isBlank c = true) :
    ReadsListed [] blanks :=
  fun _ _ _ _ _ _ => itemsAt_blanks h_blanks (.close rfl)

theorem readsListed_cons {node : Node} {nodes : List Node} {blanks first others : List Char}
    (h_blanks : ∀ c ∈ blanks, isBlank c = true) (h : Reads node first)
    (h_others : RespellsListed true nodes others) (h_all : ReadsListed nodes others) :
    ReadsListed (node :: nodes) (blanks ++ (first ++ others)) := by
  intro inGroup l opened text h_canonical h_height
  rw [canonicalAll, Bool.and_eq_true] at h_canonical
  rw [heightAll] at h_height
  have h_item := h.item inGroup l opened _ h_canonical.1 (by omega)
    (endsItem_of_respells h_others inGroup text)
  have h_items := h_all inGroup l opened text h_canonical.2 (by omega)
  rw [List.append_assoc, List.append_assoc]
  exact itemsAt_blanks h_blanks (.item h_item h_items rfl)

theorem reads_text (value : String) : Reads (.text value) value.toList where
  tag := fun _ _ _ _ h_element => absurd h_element (by simp [Node.isElement])
  item := by
    intro inGroup l opened text h_canonical _ h_end
    have h_word : Place.isWord inGroup value.toList = true := by
      cases inGroup <;> exact h_canonical
    exact itemAt_word h_word h_end.atWordEnd

theorem reads_group {items : List Node} {inside : List Char} (h : ReadsListed items inside) :
    Reads (.group items) ('(' :: (inside ++ [')'])) where
  tag := fun _ _ _ _ h_element => absurd h_element (by simp [Node.isElement])
  item := by
    intro inGroup l opened text h_canonical h_height _
    rw [canonical, Bool.and_eq_true] at h_canonical
    rw [height] at h_height
    obtain ⟨k, rfl⟩ : ∃ k, l = k + 1 := ⟨l - 1, by omega⟩
    have h_items := h true k opened text h_canonical.2 (by omega)
    rw [List.cons_append, List.append_assoc]
    exact .group h_items

/-! ### Tags -/

/-- Text with balanced brackets, after one character of white space, is raw attribute text. -/
theorem headerAt_spaced {calm : Bool} {l : Nat} {opened : List Tag} {space : Char}
    {raw : List Char} (h_space : isBlank space = true) (h_balanced : openAfter 0 raw = some 0)
    (text : List Char) :
    HeaderAt calm l opened true (space :: (raw ++ ']' :: text)) (some (rawText raw, text)) := by
  have h_ne : space ≠ ']' := by
    rintro rfl
    exact absurd h_space (by decide)
  exact .raw (.spaced h_ne h_balanced text)

theorem readsHeader_raw {tag : Tag} {space : Char} (h_raw : tag.rawAttribute = true)
    (h_space : isBlank space = true) (value : String) :
    ReadsHeader tag [.text value] (space :: value.toList) := by
  intro l opened text h_canonical _
  rw [holdsAttributes, if_pos h_raw, Node.isRaw, Bool.and_eq_true] at h_canonical
  have h_value : rawText value.toList = [.text value] := by
    have h_nonempty : value.toList ≠ [] := by simpa using h_canonical.1
    rw [rawText, if_neg h_nonempty, String.ofList_toList]
  rw [h_raw, ← h_value]
  exact headerAt_spaced h_space (openAfter_of_isBalanced h_canonical.2) text

/-- White space alone is no attribute. -/
theorem readsHeader_blank {tag : Tag} {space : Char} (h_raw : tag.rawAttribute = true)
    (h_space : isBlank space = true) : ReadsHeader tag [] [space] := by
  intro l opened text _ _
  rw [h_raw]
  have h_empty : rawText [] = [] := if_pos rfl
  rw [← h_empty]
  exact headerAt_spaced h_space rfl text

theorem readsHeader_bare {tag : Tag} (h_raw : tag.rawAttribute = true) : ReadsHeader tag [] [] := by
  intro l opened text _ _
  rw [h_raw]
  exact .raw (.bare text)

theorem readsHeader_listed {tag : Tag} {attributes : List Node} {header : List Char}
    (h_raw : tag.rawAttribute = false) (h : ReadsListed attributes header) :
    ReadsHeader tag attributes header := by
  intro l opened text h_canonical h_height
  rw [holdsAttributes, h_raw, if_neg (by decide)] at h_canonical
  rw [h_raw]
  exact .listed (h false l opened text h_canonical h_height)

/-- The opener of a respelled tag is one. -/
theorem opening_respells {name : String} {meaning : Tag.Resolved} {tag : Tag}
    {written : List Node} {header : List Char} (h_letters : ∀ c ∈ name.toList, c.isAlpha = true)
    (h_name : Tag.resolve? name = some meaning) (h_header : RespellsHeader tag written header)
    (body text : List Char) :
    Opening (name.toList ++ (header ++ ']' :: body) ++ text) name
      (header ++ ']' :: (body ++ text)) := by
  refine ⟨by simp, ?_, h_letters, ?_⟩
  -- A name without letters would stand for no tag.
  · intro h_empty
    have h_none : Tag.resolve? "" = none := by decide +kernel
    rw [String.toList_eq_nil_iff.1 h_empty, h_none] at h_name
    exact absurd h_name (by simp)
  · cases h_header with
    | listed _ h_written =>
      obtain ⟨c, rest, h_text, h_char⟩ := endsItem_of_respells h_written false (body ++ text)
      exact ⟨c, rest, h_text, h_char.symm⟩
    | bare => exact ⟨']', _, rfl, .inl rfl⟩
    | blank _ h_space => exact ⟨_, _, rfl, .inr h_space⟩
    | raw _ h_space => exact ⟨_, _, rfl, .inr h_space⟩

/-- A dice, or a tag that is never closed, has no children if no result follows. -/
theorem readsBody_bare {tag : Tag} (h_kind : tag.kind = .selfClosing) : ReadsBody tag [] [] := by
  intro l opened text _ _ h_next
  refine .bare h_kind fun h_stores value stop h_stored => ?_
  rw [storesResult_eq_true_iff.1 h_stores] at h_stored
  exact h_next value stop h_stored

theorem closing_append_nil {closer : List Char} {tag : Tag} (h : Closing closer tag [])
    (text : List Char) : Closing (closer ++ text) tag text := by
  obtain ⟨name, h_letters, rfl, h_name⟩ := h
  exact ⟨name, h_letters, by simp, h_name⟩

/-- The children of a dice are its result, and a container holds pieces up to its closer. -/
theorem readsBody_closed {tag : Tag} {children : List Node} {inside closer : List Char}
    (h_closes : tag.kind = .container ∨ children ≠ []) (h_spelled : RespellsAll children inside)
    (h : ReadsAll children inside) (h_closer : Closing closer tag []) :
    ReadsBody tag children (inside ++ closer) := by
  intro l opened text h_canonical h_height _
  have h_closing := closing_append_nil h_closer text
  unfold holdsChildren at h_canonical
  rw [List.append_assoc]
  cases h_kind : tag.kind with
  | container =>
    rw [h_kind] at h_canonical
    dsimp only at h_canonical
    rw [Bool.and_eq_true] at h_canonical
    have h_dice := ne_dice_of_container h_kind
    have h_pieces := h l (tag :: opened) (closer ++ text) text true h_canonical.1 h_canonical.2
      h_height (.inr ⟨tag, text, h_dice, h_closing⟩) (.own h_closing List.head?_cons)
    have h_inside := BodyAt.inside h_kind h_pieces fun _ => rfl
    rwa [assemble_pieces [] h_canonical.1 h_canonical.2 (.inl rfl)] at h_inside
  -- Of the tags that take no children only the dice has a closer, behind its result.
  | selfClosing =>
    rw [h_kind] at h_canonical h_closes
    have h_some : children ≠ [] := h_closes.resolve_left (by decide)
    have h_stored : (tag.storesResult && Node.isStored children) = true := by
      simpa [h_some] using h_canonical
    rw [Bool.and_eq_true] at h_stored
    obtain ⟨value, rfl, h_result⟩ := Node.exists_of_isStored h_stored.2
    obtain rfl : inside = value.toList := by
      cases h_spelled with
      | cons h_node h_nodes =>
        cases h_node
        cases h_nodes
        rw [List.append_nil]
    have h_taken : BodyAt true l opened tag (value.toList ++ (closer ++ text)) _ text :=
      .stored h_kind h_stored.1 ⟨_, rfl, isResult_iff.1 h_result, h_closing⟩
    rwa [String.ofList_toList] at h_taken

theorem canonicalAll_append {place : Place} {as bs : List Node} :
    canonicalAll place (as ++ bs) = (canonicalAll place as && canonicalAll place bs) := by
  induction as with
  | nil => rfl
  | cons a as ih => rw [List.cons_append, canonicalAll, canonicalAll, ih, Bool.and_assoc]

theorem heightAll_append (as bs : List Node) :
    heightAll (as ++ bs) = max (heightAll as) (heightAll bs) := by
  induction as with
  | nil => simp [heightAll]
  | cons a as ih => rw [List.cons_append, heightAll, heightAll, ih, Nat.max_assoc]

/-- What is written of canonical attributes is canonical. -/
theorem holdsAttributes_written {name : String} {meaning : Tag.Resolved}
    (h_name : Tag.resolve? name = some meaning) {written : List Node}
    (h : holdsAttributes meaning.tag (meaning.implied.map .text ++ written) = true) :
    holdsAttributes meaning.tag written = true := by
  unfold holdsAttributes at h ⊢
  split at h
  · rename_i h_raw
    rw [if_pos h_raw]
    rwa [(implied_words h_name).1 h_raw] at h
  · rename_i h_raw
    rw [if_neg h_raw]
    rw [canonicalAll_append, Bool.and_eq_true] at h
    exact h.2

/-- A tag is read from its opener and what is behind it. -/
theorem tagAt_respelled {name : String} {meaning : Tag.Resolved} {written children : List Node}
    {header body : List Char} (h_letters : ∀ c ∈ name.toList, c.isAlpha = true)
    (h_name : Tag.resolve? name = some meaning)
    (h_spelled : RespellsHeader meaning.tag written header)
    (h_header : ReadsHeader meaning.tag written header)
    (h_body : ReadsBody meaning.tag children body) {place : Place} {l : Nat} {opened : List Tag}
    {text : List Char}
    (h_canonical : canonical place (.element meaning.tag.name
      (meaning.implied.map .text ++ written) children) = true)
    (h_height : height (.element meaning.tag.name
      (meaning.implied.map .text ++ written) children) ≤ l)
    (h_next : ∀ value after, ¬ Stored text .dice value after) :
    TagAt true l opened ('[' :: (name.toList ++ (header ++ ']' :: body)) ++ text)
      (some (.element meaning.tag.name (meaning.implied.map .text ++ written) children, text)) := by
  rw [Node.canonical_element, Bool.and_eq_true] at h_canonical
  rw [height, heightAll_append] at h_height
  obtain ⟨k, rfl⟩ : ∃ k, l = k + 1 := ⟨l - 1, by omega⟩
  have h_open := opening_respells h_letters h_name h_spelled body text
  -- The tag takes a level, and what is inside keeps to one level less.
  have h_attributes := h_header k opened (body ++ text)
    (holdsAttributes_written h_name h_canonical.1) (by omega)
  have h_children := h_body k opened text h_canonical.2 (by omega) h_next
  exact .known h_open h_name h_attributes h_children

theorem reads_element {name : String} {meaning : Tag.Resolved} {written children : List Node}
    {header body : List Char} (h_letters : ∀ c ∈ name.toList, c.isAlpha = true)
    (h_name : Tag.resolve? name = some meaning)
    (h_spelled : RespellsHeader meaning.tag written header)
    (h_header : ReadsHeader meaning.tag written header)
    (h_body : ReadsBody meaning.tag children body) :
    Reads (.element meaning.tag.name (meaning.implied.map .text ++ written) children)
      ('[' :: (name.toList ++ (header ++ ']' :: body))) where
  tag := fun _ _ _ _ _ h_canonical h_height h_next =>
    tagAt_respelled h_letters h_name h_spelled h_header h_body h_canonical h_height h_next
  item := fun _ _ _ _ h_canonical h_height h_end =>
    .tag (tagAt_respelled h_letters h_name h_spelled h_header h_body h_canonical h_height
      (h_end.not_stored _))

/-! ### Children -/

/-- The first bracket of respelled children starts no closer of a dice, if what follows them starts
    none. -/
theorem not_closing_respelled {nodes : List Node} {spelled : List Char}
    (h : RespellsAll nodes spelled) (h_canonical : canonicalAll .child nodes = true)
    {text : List Char} (h_text : ∀ after, ¬ Closing (fromBracket text) .dice after)
    (after : List Char) : ¬ Closing (fromBracket (spelled ++ text)) .dice after := by
  induction nodes generalizing spelled with
  | nil =>
    cases h
    exact h_text after
  | cons node nodes ih =>
    rw [canonicalAll, Bool.and_eq_true] at h_canonical
    cases h with
    | @cons _ _ first others h_node h_nodes =>
      rw [List.append_assoc]
      cases h_node with
      | text value =>
        have h_quiet := (quiet_of_canonical h_canonical.1).2
        rcases fromBracket_quiet h_quiet (others ++ text) with h_eq | h_none
        · rw [h_eq]
          exact ih h_nodes h_canonical.2
        · exact h_none _ _
      | group => exact absurd h_canonical.1 (by simp [canonical])
      -- The first bracket is the one of an opener, which is no closer.
      | element h_letters h_name h_header =>
        intro h_closing
        rw [List.cons_append, fromBracket_open] at h_closing
        exact h_closing.not_opening _ _ (opening_respells h_letters h_name h_header _ _)

/-- What follows a dice among its siblings is no result of it: the result would end at the first
    bracket of the text, and that bracket would be a closer. -/
theorem not_stored_respelled {nodes : List Node} {spelled : List Char}
    (h : RespellsAll nodes spelled) (h_canonical : canonicalAll .child nodes = true)
    {text : List Char} (h_text : ∀ after, ¬ Closing (fromBracket text) .dice after)
    (value after : List Char) : ¬ Stored (spelled ++ text) .dice value after :=
  fun h_stored => not_closing_respelled h h_canonical h_text after (closing_of_stored h_stored)

theorem readsAll_nil : ReadsAll [] [] :=
  fun _ _ _ _ _ _ _ _ _ h_pieces => h_pieces

theorem readsAll_cons {node : Node} {nodes : List Node} {first others : List Char}
    (h_node : Respells node first) (h : Reads node first) (h_nodes : RespellsAll nodes others)
    (h_all : ReadsAll nodes others) : ReadsAll (node :: nodes) (first ++ others) := by
  intro l opened text stop closed h_canonical h_apart h_height h_end h_stop
  rw [canonicalAll, Bool.and_eq_true] at h_canonical
  rw [heightAll] at h_height
  rw [apart_cons, Bool.and_eq_true] at h_apart
  have h_pieces := h_all l opened text stop closed h_canonical.2 h_apart.2 (by omega) h_end h_stop
  rw [List.append_assoc]
  cases node with
  | text value =>
    cases h_node
    exact piecesAt_text (quiet_of_canonical h_canonical.1).2 h_pieces
  | element name attributes children =>
    -- A dice without a result must not find one in what its siblings start with.
    have h_next := not_stored_respelled h_nodes h_canonical.2
      (not_closing_fromBracket_of_isEnd h_end)
    exact .node (h.tag .child l opened _ rfl h_canonical.1 (by omega) h_next) h_pieces
  | group items => exact absurd h_canonical.1 (by simp [canonical])

/-! ### Trees -/

mutual

/-- However a node is spelled, it is read. -/
theorem reads_of_respells {node : Node} {spelled : List Char} :
    Respells node spelled → Reads node spelled
  | .text value => reads_text value
  | .group h_items => reads_group (readsListed_of_respells h_items)
  | .element h_letters h_name h_header h_body =>
    reads_element h_letters h_name h_header (readsHeader_of_respells h_header)
      (readsBody_of_respells h_body)

theorem readsHeader_of_respells {tag : Tag} {attributes : List Node} {spelled : List Char} :
    RespellsHeader tag attributes spelled → ReadsHeader tag attributes spelled
  | .listed h_raw h_written => readsHeader_listed h_raw (readsListed_of_respells h_written)
  | .bare h_raw => readsHeader_bare h_raw
  | .blank h_raw h_space => readsHeader_blank h_raw h_space
  | .raw h_raw h_space value => readsHeader_raw h_raw h_space value

theorem readsBody_of_respells {tag : Tag} {children : List Node} {spelled : List Char} :
    RespellsBody tag children spelled → ReadsBody tag children spelled
  | .bare h_kind => readsBody_bare h_kind
  | .closed h_closes h_children h_closer =>
    readsBody_closed h_closes h_children (readsAll_of_respells h_children) h_closer

theorem readsListed_of_respells {apart : Bool} {nodes : List Node} {spelled : List Char} :
    RespellsListed apart nodes spelled → ReadsListed nodes spelled
  | .nil h_blanks => readsListed_nil h_blanks
  | .cons h_blanks _ h_node h_nodes =>
    readsListed_cons h_blanks (reads_of_respells h_node) h_nodes (readsListed_of_respells h_nodes)

theorem readsAll_of_respells {nodes : List Node} {spelled : List Char} :
    RespellsAll nodes spelled → ReadsAll nodes spelled
  | .nil => readsAll_nil
  | .cons h_node h_nodes =>
    readsAll_cons h_node (reads_of_respells h_node) h_nodes (readsAll_of_respells h_nodes)

end

/-- A respelled document has a calm derivation of the document. -/
theorem piecesAt_respelled {document : Document} {spelled : List Char}
    (h : document.canonical = true) (h_spelled : RespellsAll document spelled) :
    PiecesAt true nestingLimit [] spelled (pieces document) false [] ∧
      assemble [] (pieces document) = document := by
  rw [Document.canonical, Bool.and_eq_true, Bool.and_eq_true, decide_eq_true_eq] at h
  obtain ⟨⟨h_canonical, h_apart⟩, h_height⟩ := h
  have h_pieces := readsAll_of_respells h_spelled nestingLimit [] [] [] false h_canonical h_apart
    h_height (.inl rfl) .nil
  rw [List.append_nil] at h_pieces
  exact ⟨h_pieces, assemble_pieces [] h_canonical h_apart (.inl rfl)⟩

/-- The written form of a canonical document has a calm derivation of the document. -/
theorem piecesAt_toText {document : Document} (h : document.canonical = true) :
    PiecesAt true nestingLimit [] document.toText.toList (pieces document) false [] ∧
      assemble [] (pieces document) = document := by
  have h_canonical := h
  rw [Document.canonical, Bool.and_eq_true, Bool.and_eq_true] at h_canonical
  rw [Document.toText, String.toList_ofList]
  exact piecesAt_respelled h (Node.respellsAll_writeAll document h_canonical.1.1)

end Rules

/-! ## Reading undoes writing -/

/-- A canonical document is read from its written form as it is, and without a warning. -/
theorem parse_toText_of_canonical {document : Document} (h : document.canonical = true) :
    Document.parse document.toText = document ∧ Document.diagnose document.toText = [] := by
  obtain ⟨h_pieces, h_document⟩ := Rules.piecesAt_toText h
  exact ⟨(Rules.parse_eq h_pieces).trans h_document, Rules.diagnose_eq_nil h_pieces⟩

/-- A rolled dice and a tag of the same name among the attributes and the children of a tag. -/
theorem parse_toText_colored_dice :
    let document : Document :=
      [.text "a [ b", .element "clr" [.text "red", .group [.text "x", .element "bld" [] []]]
        [.element "clr" [.text "blue"] [], .element "dice" [.text "1", .text "6"] [.text "-4"]]]
    document.canonical = true ∧ Document.parse document.toText = document ∧
      Document.diagnose document.toText = [] :=
  ⟨by cbv, parse_toText_of_canonical (by cbv)⟩

/-! ## Respelled documents -/

/-- However a canonical document is spelled, it is read as it is, and without a warning. -/
theorem Document.parse_respelled {document : Document} {source : String}
    (h : document.canonical = true) (h_spelled : RespellsAll document source.toList) :
    Document.parse source = document ∧ Document.diagnose source = [] := by
  obtain ⟨h_pieces, h_document⟩ := Rules.piecesAt_respelled h h_spelled
  exact ⟨(Rules.parse_eq h_pieces).trans h_document, Rules.diagnose_eq_nil h_pieces⟩

/-- Names in capital letters, an older name that implies an attribute, white space of two kinds, and
    a closer of another name. -/
theorem Document.parse_respelled_capitals :
    let document : Document :=
      [.element "clr" [.text "red", .text "x"] [.element "bld" [] [.text "a"]]]
    let source := "[clrRED\u3000x\t][B ]a[/bLD][/clrblue]"
    document.canonical = true ∧ RespellsAll document source.toList ∧
      Document.parse source = document ∧ Document.diagnose source = [] := by
  intro document source
  have h_canonical : document.canonical = true := by cbv
  -- The closers have other names than the openers, which stand for the same tags.
  have h_closer : ∀ (name : String) (tag : Tag), name.toList.all Char.isAlpha = true →
      (Tag.resolve? name).map Tag.Resolved.tag = some tag →
        Closing ('[' :: '/' :: (name.toList ++ [']'])) tag [] := by
    intro name tag h_letters h_name
    exact ⟨name.toList, List.all_eq_true.1 h_letters, rfl, by rwa [String.ofList_toList]⟩
  have h_header : RespellsListed true [] [' '] := .nil (blank_singleton (by decide))
  have h_bold : Respells (.element "bld" [] [.text "a"]) _ :=
    @Respells.element "B" ⟨.bold, []⟩ _ _ _ _ (List.all_eq_true.1 (by decide +kernel))
      (by decide +kernel) (.listed rfl h_header)
      (.closed (.inl rfl) (.cons (.text "a") .nil)
        (h_closer "bLD" .bold (by decide +kernel) (by decide +kernel)))
  have h_words : RespellsListed true [.text "x"] (['\u3000'] ++ ("x".toList ++ ['\t'])) :=
    .cons (blank_singleton (by decide)) (fun _ => List.cons_ne_nil _ _) (.text "x")
      (.nil (blank_singleton (by decide)))
  have h_color : Respells (.element "clr" [.text "red", .text "x"]
      [.element "bld" [] [.text "a"]]) _ :=
    @Respells.element "clrRED" ⟨.color, ["red"]⟩ _ _ _ _ (List.all_eq_true.1 (by decide +kernel))
      (by decide +kernel) (.listed rfl h_words)
      (.closed (.inl rfl) (.cons h_bold .nil)
        (h_closer "clrblue" .color (by decide +kernel) (by decide +kernel)))
  have h_spelled : RespellsAll document source.toList := by
    refine cast (congrArg (RespellsAll document) ?_) (.cons h_color .nil)
    cbv
  exact ⟨h_canonical, h_spelled, Document.parse_respelled h_canonical h_spelled⟩

end DiceMarkup
