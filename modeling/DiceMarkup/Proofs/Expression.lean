/-
  DiceMarkup.Proofs.Expression

  The text that is shown for an infix formula. The formula is cut into nodes by
  the reader of the markup, and each of them is read as words on its own; what
  is glued together again is the text of the formula with its dice replaced, and
  nothing else. A formula with a value holds no markup but dice whose attributes
  are words, so that the way back from its nodes to its characters is short: a
  text stands for itself, and a dice was read where it stands.

  Pieces:
  * `Reader.items_respells`, `Reader.tag_respells` — a tag whose attributes are words
  * `Formula.Infix.Cut` — a dice of a formula and what follows it
  * `Formula.Infix.Rolled` — the dice of a formula, worked out one after the other
  * `Formula.Infix.Cuts` — a text with its dice replaced
  * `Formula.Infix.gather_cuts` — what is gathered from the nodes of a text
  * `Formula.Infix.evaluate_expression` — whole formulas
-/
import DiceMarkup.Proofs.Grammar
import DiceMarkup.Proofs.Preview

namespace DiceMarkup

open DiceMarkup.Bracket (AtWordEnd Opening)
open Rolling (Source)
open Text (Cursor)

/-! ## Tags whose attributes are words -/

/-- The node is a text that may stand among the attributes of a tag. -/
def Node.IsWord (node : Node) : Prop :=
  ∃ value : String, node = .text value ∧ Place.isWord false value.toList = true

/-- What follows the opener of an empty tag is spelled with every closer. -/
theorem SpellsBody.respells {opened : List Tag} {tag : Tag} {children : List Node}
    {body rest : List Char} (h_kind : tag.kind = .selfClosing)
    (h : SpellsBody opened tag children body rest) : RespellsBody tag children body := by
  cases h with
  | empty => exact .bare h_kind
  | @stored _ _ value closer _ _ _ _ h_closer =>
    have h_child : RespellsAll [.text value] (value.toList ++ []) := .cons (.text value) .nil
    rw [List.append_nil] at h_child
    exact .closed (.inr (List.cons_ne_nil _ _)) h_child h_closer
  | inside h_container => exact absurd (h_kind.symm.trans h_container) (by decide)

namespace Reader

variable {inner : Openers} {opened : List Tag}

/-- A word takes its own characters, from a place where a word may go on to one where none may. -/
theorem item_isWord (h_inner : inner.Faithful) {text : List Char} {notes notes' : Notes}
    {node : Node}
    {next : Cursor} (h_word : node.IsWord)
    (h : item inner false opened (Cursor.ofList text) notes = (some (node, next), notes')) :
    ∃ value : String, node = .text value ∧ text = value.toList ++ next.rest ∧
      ¬ AtWordEnd false text ∧ AtWordEnd false next.rest := by
  obtain ⟨value, rfl, h_value⟩ := h_word
  obtain ⟨first, h_text, h_spells⟩ := item_spells h_inner h
  obtain rfl := h_spells.text_eq
  obtain ⟨h_some, h_group, h_inside⟩ := isWord_iff.1 h_value
  refine ⟨value, rfl, h_text, ?_⟩
  obtain ⟨c, cs, h_chars⟩ := List.exists_cons_of_ne_nil h_some
  rw [h_chars] at h_text h_group h_inside
  -- The first character decides that the item is read as a word.
  have h_first := h_inside c List.mem_cons_self
  have h_paren : c ≠ '(' := by simpa using h_group
  rw [h_text, List.cons_append] at h ⊢
  rw [item_word (Rules.ne_open_of_word h_first) h_paren, Bracket.word_ofList_cons] at h
  obtain ⟨-, h_next⟩ := Prod.mk.inj (Option.some.inj (Prod.mk.inj h).1)
  constructor
  · intro h_end
    exact absurd (h_end c _ rfl) (by rw [h_first]; decide)
  · have h_end := Bracket.atWordEnd_afterWord false (cs ++ next.rest)
    rwa [← Cursor.rest_ofList (Bracket.afterWord false _), h_next] at h_end

/-- Attributes that are words have white space before each of them, where none can go on before the
    first one. -/
theorem items_respells (h_inner : inner.Faithful) (found : List Node) (c : Cursor) (notes : Notes) :
    ∀ (nodes : List Node) (stop : Cursor) (notes' : Notes),
      items ']' (item inner false opened) found c notes = (some (nodes, stop), notes') →
        ∃ written, nodes = found.reverse ++ written ∧
          (AtWordEnd false c.rest → (∀ node ∈ written, node.IsWord) → ∃ inside,
            c.rest = inside ++ ']' :: stop.rest ∧ RespellsListed true written inside) := by
  fun_induction items ']' (item inner false opened) found c notes with
  -- There is no list.
  | case1 | case3 | case4 | case6 => exact fun _ _ _ h => absurd h (by simp)
  | case2 found c notes after h_next =>
    intro nodes stop notes' h
    obtain ⟨blanks, h_blanks, h_rest⟩ := exists_blanks c
    obtain ⟨h_found, -⟩ := Prod.mk.inj h
    obtain ⟨rfl, rfl⟩ := Prod.mk.inj (Option.some.inj h_found)
    refine ⟨[], by simp, fun _ _ => ⟨blanks, ?_, .nil h_blanks⟩⟩
    rw [h_rest, Cursor.next?_eq_some_iff.1 h_next]
  | case5 found c notes x after _ _ _ node next notes₁ h_item _ ih =>
    intro nodes stop notes' h
    obtain ⟨written, rfl, h_written⟩ := ih nodes stop notes' h
    refine ⟨node :: written, by simp, fun h_end h_words => ?_⟩
    obtain ⟨blanks, h_blanks, h_rest⟩ := exists_blanks c
    rw [← Cursor.ofList_rest c.skipBlank] at h_item
    obtain ⟨value, rfl, h_first, h_start, h_next⟩ :=
      item_isWord h_inner (h_words _ List.mem_cons_self) h_item
    obtain ⟨inside, h_inside, h_others⟩ :=
      h_written h_next fun node h_mem => h_words node (List.mem_cons_of_mem _ h_mem)
    -- Without white space the word would go on what stands before it.
    have h_apart : blanks ≠ [] := by
      rintro rfl
      rw [h_rest] at h_end
      exact h_start h_end
    refine ⟨blanks ++ (value.toList ++ inside), ?_,
      .cons h_blanks (fun _ => h_apart) (.text value) h_others⟩
    rw [h_rest, h_first, h_inside]
    simp

/-- What is read as an empty tag with words for attributes is a spelling of it. -/
theorem knownTag_respells (h_inner : inner.Faithful) {tag : Tag} (h_kind : tag.kind = .selfClosing)
    (h_raw : tag.rawAttribute = false) {name : String} {meaning : Tag.Resolved}
    {text after : List Char} {notes notes' : Notes} {attributes children : List Node}
    {stop : Cursor}
    (h_words : ∀ node ∈ attributes, node.IsWord) (h_open : Opening text name after)
    (h_name : Tag.resolve? name = some meaning)
    (h : knownTag inner opened name meaning (Cursor.ofList ('[' :: text))
      (Cursor.ofList after) notes =
      (some (.element tag.name attributes children, stop), notes')) :
    ∃ taken, text = taken ++ stop.rest ∧
      Respells (.element tag.name attributes children) ('[' :: taken) := by
  obtain ⟨written, openEnd, _, h_header, h_body⟩ := knownTag_eq_some h
  obtain ⟨children', taken, h_node, h_end, h_children⟩ := body_spells h_inner h_body
  -- The tag that was resolved is the one of the node, so its attributes are a list.
  obtain ⟨h_tag, rfl, rfl⟩ := Node.element.inj h_node
  obtain rfl := Tag.name_injective h_tag
  rw [h_raw] at h_header
  obtain ⟨written', h_found, h_written⟩ := items_respells h_inner _ _ _ _ _ _ h_header
  obtain rfl : written = written' := h_found
  -- The name is followed by the `]` of the opener or by white space.
  have h_start : AtWordEnd false after := by
    rintro c rest rfl
    obtain ⟨c', rest', h_after, h_ends⟩ := h_open.ends
    obtain ⟨rfl, -⟩ := List.cons.inj h_after
    rcases h_ends with rfl | h_blank
    · decide
    · simp [Bracket.endsWord, h_blank]
  obtain ⟨inside, h_after, h_listed⟩ :=
    h_written h_start fun node h_mem => h_words node (List.mem_append_right _ h_mem)
  rw [Cursor.rest_ofList, Cursor.rest_ofList] at h_after
  refine ⟨name.toList ++ (inside ++ ']' :: taken), ?_,
    .element h_open.letters h_name (.listed h_raw h_listed) (h_children.respells h_kind)⟩
  rw [h_open.split, h_after, h_end]
  simp

/-- So is what is read at a bracket. -/
theorem tag_respells (h_inner : inner.Faithful) {tag : Tag} (h_kind : tag.kind = .selfClosing)
    (h_raw : tag.rawAttribute = false) {text : List Char} {notes notes' : Notes}
    {attributes children : List Node} {stop : Cursor}
    (h_words : ∀ node ∈ attributes, node.IsWord)
    (h : Reader.tag inner opened (Cursor.ofList ('[' :: text)) notes =
      (some (.element tag.name attributes children, stop), notes')) :
    ∃ taken, text = taken ++ stop.rest ∧
      Respells (.element tag.name attributes children) ('[' :: taken) := by
  obtain ⟨name, after, h_open, ⟨meaning, h_name, h_known⟩ | h_unknown⟩ := tag_eq_some h
  · exact knownTag_respells h_inner h_kind h_raw h_words h_open h_name h_known
  · obtain ⟨value, h_text⟩ := unknownTag_eq_some h_unknown
    exact absurd h_text (by simp)

end Reader

/-! ## Formulas -/

namespace Formula.Infix

open Reader (ReadFrom openers openers_faithful)

/-- A dice in the text of a formula: the characters that spell it, the roll that it comes to, and
    the characters behind it, up to the next dice. -/
structure Cut where
  spelled : List Char
  roll : Roll
  after : List Char

namespace Cut

/-- The characters of the formula. -/
def written (cut : Cut) : List Char :=
  cut.spelled ++ cut.after

/-- The characters that are shown for them. -/
def shown (cut : Cut) : List Char :=
  cut.roll.display.toList ++ cut.after

end Cut

section Rolled

variable {σ : Type}

/-- From a state of the source to another, the dice are worked out one after the other. Each is
    spelled as a dice, in any case and with any white space, with its bounds and with its result if
    it holds one. If it holds none, it is the next one for which the source is asked, and the answer
    is brought into the bounds. -/
inductive Rolled (reader : Option (Source σ)) : σ → List Cut → σ → Prop
  | nil {s : σ} : Rolled reader s [] s
  | stored {s s' : σ} {cut : Cut} {cuts : List Cut} {lower upper value : String}
      (h_spelled : Respells (.element Tag.dice.name [.text lower, .text upper] [.text value])
        cut.spelled)
      (h_lower : Numeral.readInt64? lower = some cut.roll.min)
      (h_upper : Numeral.readInt64? upper = some cut.roll.max)
      (h_result : Numeral.readInt64? value = some cut.roll.result)
      (h_cuts : Rolled reader s cuts s') : Rolled reader s (cut :: cuts) s'
  | fresh {s s' : σ} {cut : Cut} {cuts : List Cut} {lower upper : String} {source : Source σ}
      {returned : Int64} {between : σ} (h_reader : reader = some source)
      (h_spelled : Respells (.element Tag.dice.name [.text lower, .text upper] []) cut.spelled)
      (h_lower : Numeral.readInt64? lower = some cut.roll.min)
      (h_upper : Numeral.readInt64? upper = some cut.roll.max)
      (h_returned : source.roll s cut.roll.min cut.roll.max = (returned, between))
      (h_result : cut.roll.result = Dice.clamp cut.roll.min cut.roll.max returned)
      (h_cuts : Rolled reader between cuts s') : Rolled reader s (cut :: cuts) s'

variable {reader : Option (Source σ)}

/-- Bounds that are in order are words. -/
theorem isWord_of_bounds {attributes : List Node} {min max : Int64}
    (h : Dice.bounds attributes = .ok (min, max)) : ∀ node ∈ attributes, node.IsWord := by
  obtain ⟨lower, upper, rfl, h_lower, h_upper, -⟩ := Dice.bounds_eq_ok h
  intro node h_mem
  rcases List.mem_pair.1 h_mem with rfl | rfl
  · exact ⟨lower, rfl, Numeral.isWord_of_readInt64? h_lower⟩
  · exact ⟨upper, rfl, Numeral.isWord_of_readInt64? h_upper⟩

/-- A dice that is worked out stands before those that are worked out after it. -/
theorem Rolled.cons {s between s' : σ} {attributes children : List Node} {spelled after : List Char}
    {roll : Roll} {cuts : List Cut}
    (h_roll : (Dice.resolve reader attributes children).run s = (.ok roll, between))
    (h_spelled : (∀ node ∈ attributes, node.IsWord) →
      Respells (.element Tag.dice.name attributes children) spelled)
    (h_cuts : Rolled reader between cuts s') :
    Rolled reader s (⟨spelled, roll, after⟩ :: cuts) s' := by
  rcases Dice.resolve_run_eq_ok h_roll with
    ⟨h_dice, rfl⟩ | ⟨source, min, max, h_reader, h_dice, rfl, rfl⟩
  · obtain ⟨h_bounds, value, rfl, h_result⟩ := Dice.classify_eq_stored h_dice
    -- That the attributes are words is needed while they are still a list of nodes.
    have h_dice := h_spelled (isWord_of_bounds h_bounds)
    obtain ⟨lower, upper, rfl, h_lower, h_upper, -⟩ := Dice.bounds_eq_ok h_bounds
    exact .stored h_dice h_lower h_upper h_result h_cuts
  · obtain ⟨h_bounds, rfl⟩ := Dice.classify_eq_fresh h_dice
    have h_dice := h_spelled (isWord_of_bounds h_bounds)
    obtain ⟨lower, upper, rfl, h_lower, h_upper, -⟩ := Dice.bounds_eq_ok h_bounds
    exact .fresh h_reader h_dice h_lower h_upper rfl rfl h_cuts

/-- The text is cut at its dice, and what is shown is the text with each dice replaced by its bounds
    and its result. No bracket is left over. -/
structure Cuts (reader : Option (Source σ)) (text shown : List Char) (first : List Char)
    (cuts : List Cut) (s s' : σ) : Prop where
  written : text = first ++ cuts.flatMap Cut.written
  shown : shown = first ++ cuts.flatMap Cut.shown
  first_noBracket : Rules.NoBracket first
  after_noBracket : ∀ cut ∈ cuts, Rules.NoBracket cut.after
  rolled : Rolled reader s cuts s'

namespace Cuts

variable {text shown first : List Char} {cuts : List Cut} {s between s' : σ}

/-- Before the first dice comes a text. -/
theorem cons_text {value : List Char} (h_value : Rules.NoBracket value)
    (h : Cuts reader text shown first cuts s s') :
    Cuts reader (value ++ text) (value ++ shown) (value ++ first) cuts s s' where
  written := by rw [h.written, List.append_assoc]
  shown := by rw [h.shown, List.append_assoc]
  first_noBracket := h_value.append h.first_noBracket
  after_noBracket := h.after_noBracket
  rolled := h.rolled

/-- Before the text up to the first dice comes another dice. -/
theorem cons_dice {attributes children : List Node} {spelled : List Char} {roll : Roll}
    (h_roll : (Dice.resolve reader attributes children).run s = (.ok roll, between))
    (h_spelled : (∀ node ∈ attributes, node.IsWord) →
      Respells (.element Tag.dice.name attributes children) spelled)
    (h : Cuts reader text shown first cuts between s') :
    Cuts reader (spelled ++ text) (roll.display.toList ++ shown) [] (⟨spelled, roll, first⟩ :: cuts)
      s s' where
  written := by
    rw [h.written, List.nil_append, List.flatMap_cons, Cut.written, List.append_assoc]
  shown := by
    rw [h.shown, List.nil_append, List.flatMap_cons, Cut.shown, List.append_assoc]
  first_noBracket := List.forall_mem_nil _
  after_noBracket := List.forall_mem_cons.2 ⟨h.first_noBracket, h.after_noBracket⟩
  rolled := .cons h_roll h_spelled h.rolled

end Cuts

/-- What is gathered from the nodes of a text is the text with its dice replaced. The induction is
    on the nodes as they were read, and the state of the source is threaded through it. -/
theorem gather_cuts {nodes : List Node} {text rest : List Char}
    (h_read : ReadFrom (openers DiceMarkup.nestingLimit).tag [] nodes text rest) :
    ∀ {s s' : σ} {gathered : List Token × String},
      (gather reader nodes).run s = (.ok gathered, s') →
        ∃ first cuts, Cuts reader text gathered.2.toList first cuts s s' := by
  induction h_read with
  | nil =>
    intro s s' gathered h
    obtain ⟨h_gathered, rfl⟩ := Prod.mk.inj h
    rw [← Except.ok.inj h_gathered]
    exact ⟨[], [], rfl, rfl, List.forall_mem_nil _, List.forall_mem_nil _, .nil⟩
  | @text nodes others rest value _ ih =>
    intro s s' gathered h
    obtain ⟨between, next, h_next, ⟨_, words, h_node, h_words, rfl, rfl⟩ |
      ⟨as, cs, roll, h_node, -⟩⟩ :=
      gather_run_cons h
    · obtain rfl := Node.text.inj h_node
      obtain ⟨first, cuts, h_cuts⟩ := ih h_next
      rw [String.toList_append]
      exact ⟨_, cuts, h_cuts.cons_text (noBracket_of_tokens h_words)⟩
    · exact absurd h_node (by simp)
  | @tag node nodes taken others rest stop notes notes' h_some h_stop _ ih =>
    intro s s' gathered h
    have h_faithful := openers_faithful DiceMarkup.nestingLimit
    obtain ⟨between, next, h_next, ⟨value, words, rfl, h_words, -⟩ |
      ⟨as, cs, roll, rfl, h_roll, rfl⟩⟩ :=
      gather_run_cons h
    -- A text that was read at a bracket starts with it, and is not read as words.
    · obtain ⟨passed, -, h_spells⟩ := h_faithful.tag _ _ _ _ _ _ h_some
      have h_open : '[' ∈ value.toList := h_spells.text_eq ▸ List.mem_cons_self
      exact absurd rfl (noBracket_of_tokens h_words '[' h_open).1
    · obtain ⟨first, cuts, h_cuts⟩ := ih h_next
      have h_spelled : (∀ node ∈ as, node.IsWord) →
          Respells (.element Tag.dice.name as cs) ('[' :: taken) := by
        intro h_words
        obtain ⟨passed, h_passed, h_dice⟩ :=
          Reader.tag_respells (openers_faithful (DiceMarkup.nestingLimit - 1))
            rfl rfl h_words h_some
        rw [h_stop] at h_passed
        rwa [List.append_cancel_right h_passed]
      rw [String.toList_append]
      exact ⟨[], _, h_cuts.cons_dice h_roll h_spelled⟩

/-- The expression of a formula with a value is its text with only the dice replaced, each by its
    bounds and its result. -/
theorem evaluate_expression {raw : String} {result : Result} {s s' : σ}
    (h : (evaluate reader [.text raw]).run s = (.ok result, s')) :
    ∃ first cuts, Cuts reader raw.toList result.expression.toList first cuts s s' := by
  rw [evaluate] at h
  obtain ⟨gathered, between, h_gathered, h_rest⟩ := Eval.run_bind_eq_ok.1 h
  obtain ⟨value, _, h_value, h_end⟩ := Eval.run_bind_eq_ok.1 h_rest
  rw [Eval.run_lift] at h_value
  obtain ⟨-, rfl⟩ := Prod.mk.inj h_value
  obtain ⟨h_result, rfl⟩ := Prod.mk.inj h_end
  rw [← Except.ok.inj h_result]
  exact gather_cuts (Reader.run_readFrom .remembering raw.toList) h_gathered

end Rolled

/-- A dice that is rolled to a value beyond its bounds, and one that holds a result, each spelled in
    a way of its own. -/
theorem evaluate_expression_mixed :
    let source := Source.cycle [9, 4]
    let raw := "+ [DICE\t1  +6 ]\u2003/ ([dice 1 8]03[/Dice])"
    let result : Result := ⟨"+ [1~6]6\u2003/ ([1~8]3)", Float.ofInt 2⟩
    (evaluate (some source) [.text raw]).run [] = (.ok result, [4]) ∧
      ∃ first cuts, Cuts (some source) raw.toList result.expression.toList first cuts [] [4] := by
  intro source raw result
  have h_parse : Document.parse raw =
      [.text "+ ", .element "dice" [.text "1", .text "+6"] [], .text "\u2003/ (",
        .element "dice" [.text "1", .text "8"] [.text "03"], .text ")"] := by
    cbv
  have h_first : tokenize "+ " = .ok [.additive .plus] := by cbv
  have h_second : tokenize "\u2003/ (" = .ok [.multiplicative .divide, .opening] := by cbv
  have h_third : tokenize ")" = .ok [.closing] := by cbv
  let words : List Token := [.additive .plus, .number (Float.ofInt 6), .multiplicative .divide,
    .opening, .number (Float.ofInt 3), .closing]
  have h_gather : (gather (some source) (Document.parse raw)).run [] =
      (.ok (words, result.expression), [4]) := by
    rw [h_parse]
    simp only [gather, h_first, h_second, h_third]
    rfl
  -- The words are those of a sum of one term, a signed number that is divided.
  have h_value : value words = .ok (Float.ofInt 6 / Float.ofInt 3) := by
    let divisor : Expr := .mk (.mk (.primary (.number (Float.ofInt 3))) .nil) .nil
    let term : Term := .mk (.signed .plus (.primary (.number (Float.ofInt 6))))
      (.cons .divide (.primary (.parenthesized divisor)) .nil)
    refine value_eq_ok_iff_yields.2 (((readsUnary_factor nestingLimit).product.sum words _ []).2
      ⟨.mk term .nil, rfl, ends_nil, ?_, ?_, rfl⟩)
    · show (1 : Nat) ≤ 64
      decide
    · decide +kernel
  have h_settle : (value words >>= settle) = .ok (Float.ofInt 2) := by
    rw [h_value]
    rfl
  have h_evaluate : (evaluate (some source) [.text raw]).run [] = (.ok result, [4]) := by
    rw [evaluate]
    refine Eval.run_bind_eq_ok.2 ⟨_, _, h_gather,
      Eval.run_bind_eq_ok.2 ⟨Float.ofInt 2, [4], ?_, rfl⟩⟩
    rw [Eval.run_lift, h_settle]
  exact ⟨h_evaluate, evaluate_expression h_evaluate⟩

end Formula.Infix

end DiceMarkup
