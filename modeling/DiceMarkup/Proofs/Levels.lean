/-
  DiceMarkup.Proofs.Levels

  How many formulas are read one within the other while a text is submitted and
  baked. There are no more of them than the text has openers of infix formulas.
  Each formula stands behind an opener that is not its own. And the formulas of
  a submitted text have no more openers than those that were typed: written
  text gains closers, names, bounds and white space, but no bracket before the
  name of a tag. Whether a bracket is an opener depends on the characters that
  follow it, so openers are counted in a text with the text after it.

  Pieces:
  * `Bracket.formulaOpeners` — the openers of infix formulas in a text
  * `Bracket.Leads` — what may come after a text without making an opener of it
  * `Spells.openers_le` — a tree is written with no more openers than it is spelled with
  * `Submission.openers_formula_le` — a completed formula has no more openers
  * `Document.nestsWithin_openers` — formulas within formulas, counted
-/
import DiceMarkup.Proofs.Bounds
import DiceMarkup.Proofs.Nesting

namespace DiceMarkup

open Node (formulas formulasAll keepsText write writeAll writeSpaced opener closer)
open Rolling (Source)
open Text (isBlank)

/-! ## Openers of infix formulas -/

namespace Bracket

/-- A bracket and the name of infix formulas come first, in any case. -/
def startsFormula : List Char → Bool
  | '[' :: cs => (cs.take 5).map Char.toLower == Tag.infixFormula.name.toList
  | _ => false

/-- The openers of infix formulas that start in the first text, where the second one follows. -/
def formulaOpeners : List Char → List Char → Nat
  | [], _ => 0
  | c :: cs, rest => (if startsFormula (c :: (cs ++ rest)) then 1 else 0) + formulaOpeners cs rest

/-- The letters that the first text starts with, the second one starts with too. -/
def Leads (text' text : List Char) : Prop :=
  ∀ letters, (∀ c ∈ letters, c.isAlpha = true) → letters <+: text' → letters <+: text

variable {text text' rest rest' : List Char}

theorem Leads.refl (text : List Char) : Leads text text :=
  fun _ _ h_prefix => h_prefix

theorem Leads.append (h : Leads text' text) (cs : List Char) :
    Leads (cs ++ text') (cs ++ text) := by
  induction cs with
  | nil => exact h
  | cons c cs ih =>
    intro letters h_letters h_prefix
    cases letters with
    | nil => exact List.nil_prefix
    | cons d letters =>
      obtain ⟨rfl, h_others⟩ := List.cons_prefix_cons.1 h_prefix
      exact List.cons_prefix_cons.2
        ⟨rfl, ih letters (fun x hx => h_letters x (List.mem_cons_of_mem _ hx)) h_others⟩

/-- A text that starts with no letter leads to nothing. -/
theorem leads_of_head (h : ∀ c ∈ text'.head?, c.isAlpha = false) (text : List Char) :
    Leads text' text := by
  intro letters h_letters h_prefix
  cases letters with
  | nil => exact List.nil_prefix
  | cons c letters =>
    obtain ⟨others, rfl⟩ := h_prefix
    have h_letter := h_letters c List.mem_cons_self
    rw [h c rfl] at h_letter
    exact absurd h_letter (by decide)

theorem leads_cons {c : Char} (h : c.isAlpha = false) (text' text : List Char) :
    Leads (c :: text') text :=
  leads_of_head (by simpa using h) text

theorem Leads.of_nil (h : Leads text' []) (text : List Char) : Leads text' text := by
  intro letters h_letters h_prefix
  rw [List.prefix_nil.1 (h letters h_letters h_prefix)]
  exact List.nil_prefix

theorem startsFormula_iff :
    startsFormula ('[' :: text) = true ↔
      ∃ name : List Char, name.map Char.toLower = Tag.infixFormula.name.toList ∧ name <+: text := by
  rw [startsFormula, beq_iff_eq]
  -- The name is taken as it stands in the text, in whatever case; it has five letters.
  constructor
  · intro h_name
    exact ⟨_, h_name, List.take_prefix 5 text⟩
  · rintro ⟨name, h_name, h_prefix⟩
    have h_length : name.length = 5 := by
      rw [← List.length_map Char.toLower, h_name]
      rfl
    rw [← h_length, ← List.prefix_iff_eq_take.1 h_prefix, h_name]

theorem isAlpha_of_map_toLower {name : List Char} {tag : Tag}
    (h : name.map Char.toLower = tag.name.toList) : ∀ c ∈ name, c.isAlpha = true := by
  intro c h_mem
  rw [← Rules.isAlpha_toLower]
  exact isAlpha_of_mem_name tag _ (h ▸ List.mem_map_of_mem h_mem)

theorem Leads.startsFormula (h : Leads text' text)
    (h_starts : startsFormula ('[' :: text') = true) :
    startsFormula ('[' :: text) = true := by
  obtain ⟨name, h_name, h_prefix⟩ := startsFormula_iff.1 h_starts
  exact startsFormula_iff.2 ⟨name, h_name, h name (isAlpha_of_map_toLower h_name) h_prefix⟩

/-! ### Counting -/

@[simp] theorem formulaOpeners_nil (rest : List Char) : formulaOpeners [] rest = 0 := rfl

@[simp] theorem formulaOpeners_cons {c : Char} (h : c ≠ '[') (text rest : List Char) :
    formulaOpeners (c :: text) rest = formulaOpeners text rest := by
  rw [formulaOpeners, startsFormula]
  · simp
  · intro cs h_cons
    exact h (List.cons.inj h_cons).1

theorem formulaOpeners_append (cs ds rest : List Char) :
    formulaOpeners (cs ++ ds) rest = formulaOpeners cs (ds ++ rest) + formulaOpeners ds rest := by
  induction cs with
  | nil => simp
  | cons c cs ih =>
    rw [List.cons_append, formulaOpeners, formulaOpeners, ih, List.append_assoc]
    omega

/-- Characters other than brackets start no opener. -/
theorem formulaOpeners_of_ne (h : ∀ c ∈ text, c ≠ '[') (rest : List Char) :
    formulaOpeners text rest = 0 := by
  induction text with
  | nil => rfl
  | cons c text ih =>
    rw [formulaOpeners_cons (h c List.mem_cons_self)]
    exact ih fun d hd => h d (List.mem_cons_of_mem _ hd)

theorem formulaOpeners_bracket_le
    (h_bracket : startsFormula ('[' :: (text' ++ rest')) = true →
      startsFormula ('[' :: (text ++ rest)) = true)
    (h : formulaOpeners text' rest' ≤ formulaOpeners text rest) :
    formulaOpeners ('[' :: text') rest' ≤ formulaOpeners ('[' :: text) rest := by
  rw [formulaOpeners, formulaOpeners]
  by_cases h_starts : startsFormula ('[' :: (text' ++ rest')) = true
  · rw [if_pos h_starts, if_pos (h_bracket h_starts)]
    omega
  · rw [if_neg h_starts]
    omega

/-- The same text has no more openers before a text that leads to the other. -/
theorem Leads.openers_le (h : Leads rest' rest) (text : List Char) :
    formulaOpeners text rest' ≤ formulaOpeners text rest := by
  induction text with
  | nil => exact Nat.le_refl 0
  | cons c text ih =>
    by_cases h_open : c = '['
    · rw [h_open]
      exact formulaOpeners_bracket_le (h.append text).startsFormula ih
    · rw [formulaOpeners_cons h_open, formulaOpeners_cons h_open]
      exact ih

theorem formulaOpeners_append_le {cs cs' ds ds' : List Char}
    (h_left : formulaOpeners cs' (ds' ++ rest') ≤ formulaOpeners cs (ds ++ rest))
    (h_right : formulaOpeners ds' rest' ≤ formulaOpeners ds rest) :
    formulaOpeners (cs' ++ ds') rest' ≤ formulaOpeners (cs ++ ds) rest := by
  rw [formulaOpeners_append, formulaOpeners_append]
  omega

/-- The bracket of a closer is none of an opener. -/
theorem formulaOpeners_slash {name : List Char} (h_letters : ∀ c ∈ name, c.isAlpha = true)
    (rest : List Char) : formulaOpeners ('[' :: '/' :: (name ++ [']'])) rest = 0 := by
  have h_inside : formulaOpeners ('/' :: (name ++ [']'])) rest = 0 := by
    refine formulaOpeners_of_ne (fun c h_mem => ?_) rest
    rcases List.mem_cons.1 h_mem with rfl | h_mem
    · decide
    rcases List.mem_append.1 h_mem with h_letter | h_close
    · exact ne_of_isAlpha (h_letters c h_letter) (by decide)
    · rw [List.mem_singleton.1 h_close]
      decide
  -- The slash is no letter, so that the bracket opens no more than one at the end of a text.
  have h_none : formulaOpeners ('[' :: '/' :: (name ++ [']'])) rest ≤ formulaOpeners ['['] [] :=
    formulaOpeners_bracket_le (leads_cons (by decide) _ _).startsFormula (by simp [h_inside])
  have h_bracket : formulaOpeners ['['] [] = 0 := by decide
  omega

end Bracket

open DiceMarkup.Bracket (formulaOpeners Leads leads_cons leads_of_head formulaOpeners_append
  formulaOpeners_append_le formulaOpeners_bracket_le formulaOpeners_of_ne formulaOpeners_cons)

/-! ## Written trees -/

/-- The same name with attributes that have no more openers. -/
theorem openers_opener_le {name : String} {as as' tail tail' : List Char}
    (h_head : ∀ behind, Leads (as' ++ ']' :: behind) [])
    (h_as : formulaOpeners as' (']' :: tail') ≤ formulaOpeners as (']' :: tail)) :
    formulaOpeners (opener name as') tail' ≤ formulaOpeners (opener name as) tail := by
  have h_close : formulaOpeners [']'] tail' ≤ formulaOpeners [']'] tail := by simp
  have h_leads : Leads ((as' ++ [']']) ++ tail') ((as ++ [']']) ++ tail) := by
    rw [List.append_assoc]
    exact (h_head tail').of_nil _
  refine formulaOpeners_bracket_le ?_ (formulaOpeners_append_le (h_leads.openers_le _) ?_)
  · rw [List.append_assoc, List.append_assoc name.toList]
    exact (h_leads.append name.toList).startsFormula
  · exact formulaOpeners_append_le h_as h_close

theorem leads_closer (name : String) (rest' text : List Char) : Leads (closer name ++ rest') text :=
  leads_cons (by decide) _ text

/-- Nodes written apart start with a blank, if there are any. -/
theorem leads_writeSpaced_append {rest : List Char} (h : Leads rest []) (nodes : List Node) :
    Leads (writeSpaced nodes ++ rest) [] := by
  cases nodes with
  | nil => exact h
  | cons node nodes => exact leads_cons (by decide) _ _

theorem leads_writeSpaced (nodes : List Node) (rest : List Char) :
    Leads (writeSpaced nodes ++ ']' :: rest) [] :=
  leads_writeSpaced_append (leads_cons (by decide) _ _) nodes

namespace Submission

variable {formula : String → String}

/-- What is written for completed children leads to what is written for the children. -/
theorem leads_writeAll {rest rest' : List Char} (h : Leads rest' rest) (nodes : List Node) :
    Leads (writeAll (pieces formula false nodes) ++ rest') (writeAll nodes ++ rest) := by
  induction nodes with
  | nil => exact h
  | cons node nodes ih =>
    cases node with
    | text value =>
      rw [pieces, piece, if_neg (by decide), writeAll, writeAll, write, List.append_assoc,
        List.append_assoc]
      exact ih.append _
    | group items =>
      rw [pieces, piece, writeAll]
      cases pieces formula false items with
      | nil => exact leads_cons (by decide) _ _
      | cons => exact leads_cons (by decide) _ _
    | element name attributes children =>
      rw [pieces, piece, writeAll]
      split
      · exact leads_cons (by decide) _ _
      · exact leads_cons (by decide) _ _

/-- The bounds of a dice may be completed, but only to words. -/
theorem openers_fullBounds_le (attributes : List Node) (tail' tail : List Char) :
    formulaOpeners (writeSpaced (fullBounds attributes)) (']' :: tail') ≤
      formulaOpeners (writeSpaced attributes) (']' :: tail) := by
  rcases fullBounds_eq attributes with h_same | ⟨-, sides, -, -, h_full⟩
  · rw [h_same]
    exact (leads_cons (by decide) _ _).openers_le _
  · have h_none := Rules.noBracket_writeSpaced (isWord_fullBounds sides)
    rw [h_full, formulaOpeners_of_ne fun c h_mem => (h_none c h_mem).1]
    exact Nat.zero_le _

/-- No formula is completed to one with more openers. -/
def Spares (formula : String → String) : Prop :=
  ∀ raw, formulaOpeners (formula raw).toList [] ≤ formulaOpeners raw.toList []

mutual

/-- A completed piece is written with no more openers, if completed formulas are. -/
theorem openers_piece_le (h_formula : Spares formula) (raw : Bool) : (node : Node) →
    ∀ rest' rest, Leads rest' rest → (raw = true → Leads rest' []) →
      formulaOpeners (write (piece formula raw node)) rest' ≤ formulaOpeners (write node) rest
  | .text value => by
    intro rest' rest h_leads h_end
    rw [piece, write, write]
    cases raw with
    | false => exact h_leads.openers_le _
    | true =>
      -- A formula ends before a character that is no letter, so it is counted on its own.
      have h_before := (h_end rfl).openers_le (formula value).toList
      have h_after : formulaOpeners value.toList [] ≤ formulaOpeners value.toList rest :=
        (leads_of_head (by simp) rest).openers_le _
      exact (h_before.trans (h_formula value)).trans h_after
  | .group [] => fun _ _ _ _ => by simp [piece, pieces, write]
  | .group (item :: items) => by
    have ih_item := openers_piece_le h_formula false item
    have ih_items := openers_spaced_le h_formula false items
    intro rest' rest _ _
    rw [piece, pieces, write, write, formulaOpeners_cons (by decide),
      formulaOpeners_cons (by decide)]
    have h_item_end : Leads ((writeSpaced (pieces formula false items) ++ [')']) ++ rest') [] := by
      rw [List.append_assoc]
      exact leads_writeSpaced_append (leads_cons (by decide) _ _) _
    refine formulaOpeners_append_le (ih_item _ _ (h_item_end.of_nil _) fun _ => h_item_end) ?_
    exact formulaOpeners_append_le (ih_items _ _ (leads_cons (by decide) _ _)) (by simp)
  | .element name attributes children => by
    have ih_attributes := openers_spaced_le h_formula (keepsText name) attributes
    have ih_children := openers_all_le h_formula children
    intro rest' rest h_leads _
    rw [piece]
    split
    -- The children of a dice go, and with them their openers.
    · rename_i h_name
      have h_self : Tag.selfCloses Tag.dice.name = true := by decide
      rw [h_name, write, write, h_self]
      refine formulaOpeners_append_le ?_ (Nat.zero_le _)
      exact openers_opener_le (leads_writeSpaced _) (openers_fullBounds_le attributes _ _)
    · rw [write, write]
      have h_children :
        formulaOpeners (writeAll (pieces formula false children) ++ closer name) rest' ≤
          formulaOpeners (writeAll children ++ closer name) rest :=
        formulaOpeners_append_le (ih_children _ _ (leads_closer name _ _)) (h_leads.openers_le _)
      refine formulaOpeners_append_le (openers_opener_le (leads_writeSpaced _)
        (ih_attributes _ _ (leads_cons (by decide) _ _))) ?_
      cases children with
      | nil =>
        rw [pieces] at *
        split
        · exact Nat.le_refl 0
        · exact h_children
      | cons child children => exact h_children

theorem openers_spaced_le (h_formula : Spares formula) (raw : Bool) : (nodes : List Node) →
    ∀ rest' rest, Leads rest' [] → formulaOpeners (writeSpaced (pieces formula raw nodes)) rest' ≤
      formulaOpeners (writeSpaced nodes) rest
  | [] => fun _ _ _ => Nat.le_refl 0
  | node :: nodes => by
    have ih_node := openers_piece_le h_formula raw node
    have ih_nodes := openers_spaced_le h_formula raw nodes
    intro rest' rest h_end
    have h_node_end := leads_writeSpaced_append h_end (pieces formula raw nodes)
    rw [pieces, writeSpaced, writeSpaced, formulaOpeners_cons (by decide),
      formulaOpeners_cons (by decide)]
    exact formulaOpeners_append_le (ih_node _ _ (h_node_end.of_nil _) fun _ => h_node_end)
      (ih_nodes _ _ h_end)

theorem openers_all_le (h_formula : Spares formula) : (nodes : List Node) →
    ∀ rest' rest, Leads rest' rest →
      formulaOpeners (writeAll (pieces formula false nodes)) rest' ≤
        formulaOpeners (writeAll nodes) rest
  | [] => fun _ _ _ => Nat.le_refl 0
  | node :: nodes => by
    have ih_node := openers_piece_le h_formula false node
    have ih_nodes := openers_all_le h_formula nodes
    intro rest' rest h_leads
    rw [pieces, writeAll, writeAll]
    exact formulaOpeners_append_le (ih_node _ _ (leads_writeAll h_leads nodes)
      fun h_raw => absurd h_raw (by decide)) (ih_nodes _ _ h_leads)

end

end Submission

/-! ## Spelled trees -/

/-- The name that is written is the name of infix formulas only where it was spelled. -/
theorem startsFormula_of_name {name : String} {meaning : Tag.Resolved} {text' : List Char}
    (h_name : Tag.resolve? name = some meaning) (h_end : Leads text' []) (text : List Char)
    (h_starts : Bracket.startsFormula ('[' :: (meaning.tag.name.toList ++ text')) = true) :
    Bracket.startsFormula ('[' :: (name.toList ++ text)) = true := by
  obtain ⟨letters, h_letters, h_prefix⟩ := Bracket.startsFormula_iff.1 h_starts
  have h_tag : letters <+: meaning.tag.name.toList := by
    have h_leads := h_end.append meaning.tag.name.toList
    rw [List.append_nil] at h_leads
    exact h_leads letters (Bracket.isAlpha_of_map_toLower h_letters) h_prefix
  -- No other name starts with these letters, and no other name is resolved to this one.
  have h_raw : meaning.tag.rawAttribute = true := by
    have h_small : letters.map Char.toLower <+: meaning.tag.name.toList.map Char.toLower :=
      h_tag.map Char.toLower
    rw [h_letters] at h_small
    revert h_small
    cases meaning.tag <;> decide
  exact Bracket.startsFormula_iff.2
    ⟨name.toList, map_toLower_of_rawAttribute h_name h_raw, List.prefix_append _ _⟩

/-- What is written for children leads to what they are spelled with. -/
theorem SpellsAll.leads {opened : List Tag} {nodes : List Node} {text rest rest' : List Char}
    (h : SpellsAll opened nodes text rest) (h_leads : Leads rest' rest) :
    Leads (writeAll nodes ++ rest') (text ++ rest) := by
  induction nodes generalizing text with
  | nil =>
    cases h
    exact h_leads
  | cons node nodes ih =>
    cases h with
    | cons h_node h_nodes =>
      have h_rest := ih h_nodes
      rw [writeAll]
      cases h_node with
      | text value =>
        rw [write, List.append_assoc, List.append_assoc]
        exact h_rest.append _
      | @group _ items => cases items <;> exact leads_cons (by decide) _ _
      | element => exact leads_cons (by decide) _ _

mutual

/-- A tree is written with no more openers than it is spelled with. -/
theorem Spells.openers_le {opened : List Tag} {node : Node} {text rest : List Char} :
    Spells opened node text rest → ∀ rest', Leads rest' rest →
      formulaOpeners (write node) rest' ≤ formulaOpeners text rest
  | .text value => fun _ h_leads => h_leads.openers_le _
  | @Spells.group _ items _ _ h_items => by
    have ih := h_items.openers_le
    intro rest' h_leads
    have h_end : Leads ([')'] ++ rest') [] := leads_cons (by decide) _ _
    have h_inside : formulaOpeners (writeSpaced items ++ [')']) rest' ≤
        formulaOpeners (_ ++ [')']) rest :=
      formulaOpeners_append_le (ih _ h_end) (by simp)
    rw [formulaOpeners_cons (by decide)]
    refine Nat.le_trans ?_ h_inside
    cases items with
    | nil => simp [write, writeSpaced]
    | cons item items =>
      rw [write, writeSpaced, formulaOpeners_cons (by decide), List.cons_append,
        formulaOpeners_cons (by decide), List.append_assoc]
  | @Spells.element _ name meaning written children header body _ _ h_name h_header h_body => by
    have ih_header := h_header.openers_le
    have ih_body := h_body.openers_le
    intro rest' h_leads
    have h_written : formulaOpeners (writeSpaced (meaning.implied.map .text ++ written))
        (']' :: (Rules.bodyText meaning.tag children ++ rest')) ≤
          formulaOpeners header (']' :: (body ++ rest)) := by
      rw [Rules.writeSpaced_append, formulaOpeners_append, formulaOpeners_of_ne fun c h_mem =>
        (Rules.noBracket_writeSpaced (Rules.implied_words h_name).2 c h_mem).1, Nat.zero_add]
      exact ih_header _ (leads_cons (by decide) _ _)
    have h_inside : formulaOpeners (']' :: Rules.bodyText meaning.tag children) rest' ≤
        formulaOpeners (']' :: body) rest := by
      rw [formulaOpeners_cons (by decide), formulaOpeners_cons (by decide)]
      exact ih_body rest'
    have h_end : Leads ((writeSpaced (meaning.implied.map .text ++ written) ++
        ']' :: Rules.bodyText meaning.tag children) ++ rest') [] := by
      rw [List.append_assoc]
      exact leads_writeSpaced _ _
    have h_text := Rules.write_element meaning.tag
      (meaning.implied.map .text ++ written) children []
    rw [List.append_nil, List.append_nil] at h_text
    rw [h_text]
    -- The bracket counts on both sides or only in the spelling; the rest is compared part by part.
    refine formulaOpeners_bracket_le ?_ ?_
    · rw [List.append_assoc, List.append_assoc name.toList]
      exact startsFormula_of_name h_name h_end _
    · refine formulaOpeners_append_le ?_ (formulaOpeners_append_le h_written h_inside)
      rw [formulaOpeners_of_ne fun c h_mem =>
        Bracket.ne_of_isAlpha (Bracket.isAlpha_of_mem_name meaning.tag c h_mem) (by decide)]
      exact Nat.zero_le _

theorem SpellsHeader.openers_le {opened : List Tag} {tag : Tag} {written : List Node}
    {header rest : List Char} :
    SpellsHeader opened tag written header rest → ∀ rest', Leads rest' [] →
      formulaOpeners (writeSpaced written) rest' ≤ formulaOpeners header rest
  | .listed _ h_written => h_written.openers_le
  | .bare _ => fun _ _ => Nat.zero_le _
  | @SpellsHeader.raw _ _ space raw _ _ h_space => by
    intro rest' h_end
    rw [formulaOpeners_cons (Rules.ne_open_of_isBlank h_space), Bracket.rawText]
    split
    · exact Nat.zero_le _
    · rw [writeSpaced, writeSpaced, write, formulaOpeners_cons (by decide), String.toList_ofList,
        List.append_nil]
      exact (h_end.of_nil _).openers_le _

theorem SpellsBody.openers_le {opened : List Tag} {tag : Tag} {children : List Node}
    {body rest : List Char} :
    SpellsBody opened tag children body rest → ∀ rest',
      formulaOpeners (Rules.bodyText tag children) rest' ≤ formulaOpeners body rest
  | .empty h_kind => by
    intro rest'
    rw [Rules.bodyText, Rules.selfCloses_name, h_kind]
    exact Nat.le_refl 0
  | @SpellsBody.stored _ _ value _ _ _ _ _ _ => by
    intro rest'
    have h_closed := Bracket.formulaOpeners_slash (Bracket.isAlpha_of_mem_name tag) rest'
    rw [Rules.bodyText, if_neg (by simp), writeAll, writeAll, List.append_nil, write]
    refine formulaOpeners_append_le ((leads_closer _ _ _).openers_le _) ?_
    exact (Nat.le_of_eq h_closed).trans (Nat.zero_le _)
  | @SpellsBody.inside _ _ children _ _ _ _ h_children _ => by
    have ih := h_children.openers_le
    intro rest'
    have h_closed := Bracket.formulaOpeners_slash (Bracket.isAlpha_of_mem_name tag) rest'
    rw [Rules.bodyText]
    split
    · exact Nat.zero_le _
    refine formulaOpeners_append_le (ih _ (leads_closer _ _ _)) ?_
    exact (Nat.le_of_eq h_closed).trans (Nat.zero_le _)

theorem SpellsListed.openers_le {opened : List Tag} {nodes : List Node} {text rest : List Char} :
    SpellsListed opened nodes text rest → ∀ rest', Leads rest' [] →
      formulaOpeners (writeSpaced nodes) rest' ≤ formulaOpeners text rest
  | .nil _ => fun _ _ => Nat.zero_le _
  | @SpellsListed.cons _ _ nodes blanks _ _ _ _ h_node h_nodes => by
    have ih_node := h_node.openers_le
    have ih_nodes := h_nodes.openers_le
    intro rest' h_end
    have h_node_end := leads_writeSpaced_append h_end nodes
    have h_both := formulaOpeners_append_le (ih_node _ (h_node_end.of_nil _)) (ih_nodes _ h_end)
    rw [writeSpaced, formulaOpeners_cons (by decide), formulaOpeners_append blanks]
    omega

theorem SpellsAll.openers_le {opened : List Tag} {nodes : List Node} {text rest : List Char} :
    SpellsAll opened nodes text rest → ∀ rest', Leads rest' rest →
      formulaOpeners (writeAll nodes) rest' ≤ formulaOpeners text rest
  | .nil => fun _ _ => Nat.zero_le _
  | .cons h_node h_nodes => by
    have ih_node := h_node.openers_le
    have ih_nodes := h_nodes.openers_le
    intro rest' h_leads
    rw [writeAll]
    exact formulaOpeners_append_le (ih_node _ (h_nodes.leads h_leads)) (ih_nodes _ h_leads)

end

/-! ## Formulas within formulas, counted -/

/-- A formula stands behind an opener that is not its own. -/
theorem Encloses.openers_lt {text : List Char} {raw : String} (h : Encloses text raw) :
    formulaOpeners raw.toList [] < formulaOpeners text [] := by
  obtain ⟨before, name, space, behind, h_space, h_name, rfl⟩ := h
  have h_opener : Bracket.startsFormula
      ('[' :: ((name ++ space :: (raw.toList ++ ']' :: behind)) ++ [])) = true := by
    rw [List.append_nil]
    exact Bracket.startsFormula_iff.2 ⟨name, h_name, List.prefix_append _ _⟩
  have h_raw : formulaOpeners raw.toList [] ≤ formulaOpeners raw.toList (']' :: behind ++ []) :=
    (leads_of_head (by simp) _).openers_le _
  have h_blank := Rules.ne_open_of_isBlank h_space
  rw [formulaOpeners_append, formulaOpeners, if_pos h_opener, formulaOpeners_append name,
    formulaOpeners_cons h_blank, formulaOpeners_append raw.toList]
  -- The opener itself is the one that the formula lacks.
  omega

namespace Submission

/-- The openers of a completed formula are openers of the formula. -/
theorem openers_formulaToDepth_le (levels : Nat) : Spares (formulaToDepth levels) := by
  induction levels with
  | zero => exact fun raw => Nat.le_refl _
  | succ levels ih =>
    intro raw
    rw [formulaToDepth]
    split
    · have h_spells := Reader.run_spells .remembering raw.toList
      rw [nodes_eq, Document.toText, String.toList_ofList]
      exact (openers_all_le ih _ [] [] (Leads.refl [])).trans
        (h_spells.openers_le [] (Leads.refl []))
    · exact Nat.le_refl _

theorem openers_formula_le : Spares formula :=
  fun raw => openers_formulaToDepth_le raw.length raw

mutual

/-- The formulas of a completed piece are its formulas, completed. -/
theorem formulas_piece (formula : String → String) (raw : Bool) : (node : Node) →
    formulas raw (piece formula raw node) = (formulas raw node).map formula
  | .text value => by
    cases raw with
    | false => simp [piece, formulas]
    | true => simp [piece, formulas]
  | .group items => by rw [piece, formulas, formulas, formulasAll_pieces formula false items]
  | .element name attributes children => by
    have ih_attributes := formulasAll_pieces formula (keepsText name) attributes
    have ih_children := formulasAll_pieces formula false children
    rw [piece]
    split
    · rename_i h_name
      rw [formulas, formulas, if_pos h_name, if_pos h_name]
      rfl
    · rename_i h_name
      rw [formulas, formulas, if_neg h_name, if_neg h_name, ih_attributes, ih_children,
        List.map_append]

theorem formulasAll_pieces (formula : String → String) (raw : Bool) : (nodes : List Node) →
    formulasAll raw (pieces formula raw nodes) = (formulasAll raw nodes).map formula
  | [] => rfl
  | node :: nodes => by
    rw [pieces, formulasAll, formulasAll, formulas_piece formula raw node,
      formulasAll_pieces formula raw nodes, List.map_append]

end

end Submission

namespace Document

/-- The openers of infix formulas in a text. -/
def formulaOpeners (source : String) : Nat :=
  Bracket.formulaOpeners source.toList []

/-- A text has at least as many openers as formulas of it are read one within the other. -/
theorem nestsWithin_openers (source : String) :
    NestsWithin (formulaOpeners source) (parse source) := by
  intro chain h_chain
  induction chain generalizing source with
  | nil => exact Nat.zero_le _
  | cons raw inner ih =>
    cases h_chain with
    | cons h_mem h_inner =>
      have h_less := (encloses_of_mem h_mem).openers_lt
      exact Nat.lt_of_le_of_lt (ih raw h_inner) h_less

/-- This is so of the submitted document, too, whose formulas have been completed. -/
theorem nestsWithin_ofSubmission (source : String) :
    NestsWithin (formulaOpeners source) (ofSubmission source) := by
  intro chain h_chain
  cases h_chain with
  | nil => exact Nat.zero_le _
  | @cons _ completed inner h_mem h_inner =>
    rw [ofSubmission, Submission.nodes_eq, Submission.formulasAll_pieces] at h_mem
    obtain ⟨raw, h_raw, rfl⟩ := List.mem_map.1 h_mem
    have h_less := (encloses_of_mem h_raw).openers_lt
    have h_spares := Submission.openers_formula_le raw
    have h_inner_le := nestsWithin_openers _ inner h_inner
    exact Nat.lt_of_le_of_lt (h_inner_le.trans h_spares) h_less

/-- Where a text has no more openers of infix formulas than the limit has levels, no more formulas
    than that are read one within the other, each a part of the one before it. Completing the text
    and baking it, with whatever source, come to the same if formulas further in are left alone. -/
theorem formulas_within_nestingLimit {source : String}
    (h_few : formulaOpeners source ≤ nestingLimit) :
    (∀ document ∈ [parse source, ofSubmission source], ∀ chain, Nests document chain →
        chain.length ≤ nestingLimit ∧
          chain.IsChain fun outer inner => inner.toList <:+: outer.toList) ∧
      Submission.nodes (Submission.formulaToDepth nestingLimit) (parse source) =
        ofSubmission source ∧
      ∀ {σ : Type} (random : Source σ),
        Baking.nodes random (Baking.formulaToDepth random nestingLimit) (ofSubmission source) =
          (ofSubmission source).bake random := by
  have h_typed : NestsWithin nestingLimit (parse source) :=
    fun chain h_chain => (nestsWithin_openers source chain h_chain).trans h_few
  have h_submitted : NestsWithin nestingLimit (ofSubmission source) :=
    fun chain h_chain => (nestsWithin_ofSubmission source chain h_chain).trans h_few
  refine ⟨?_, ?_, ?_⟩
  · intro document h_document chain h_chain
    rcases List.mem_pair.1 h_document with rfl | rfl
    · exact ⟨h_typed chain h_chain, h_chain.isChain⟩
    · exact ⟨h_submitted chain h_chain, h_chain.isChain⟩
  · rw [ofSubmission, Submission.nodes_eq, Submission.nodes_eq]
    exact h_typed.completes
  · intro σ random
    rw [bake, Baking.nodes_eq, Baking.nodes_eq]
    exact h_submitted.bakes random

/-- A formula in a formula, spelled in capitals and without its closer. -/
theorem formulas_within_nestingLimit_twice :
    let source := "[calcn 1+[CALCN 2*[dice 6]]][/calcn]"
    (formulaOpeners source ≤ nestingLimit ∧
        Nests (parse source) ["1+[CALCN 2*[dice 6]]", "2*[dice 6]"]) ∧
      Submission.nodes (Submission.formulaToDepth nestingLimit) (parse source) =
        ofSubmission source := by
  have h_few : formulaOpeners "[calcn 1+[CALCN 2*[dice 6]]][/calcn]" ≤ nestingLimit := by
    decide +kernel
  have h_outer : formulasAll false (parse "[calcn 1+[CALCN 2*[dice 6]]][/calcn]") =
    ["1+[CALCN 2*[dice 6]]"] := by cbv
  have h_inner : formulasAll false (parse "1+[CALCN 2*[dice 6]]") = ["2*[dice 6]"] := by cbv
  refine ⟨⟨h_few, .cons ?_ (.cons ?_ .nil)⟩, (formulas_within_nestingLimit h_few).2.1⟩
  · rw [h_outer]
    exact List.mem_singleton_self _
  · rw [h_inner]
    exact List.mem_singleton_self _

/-- How a formula without children is written. -/
theorem toList_formula (raw : String) :
    (Node.element Tag.infixFormula.name [.text raw] []).toText.toList =
      '[' :: (Tag.infixFormula.name.toList ++
        ' ' :: (raw.toList ++ ']' :: closer Tag.infixFormula.name)) := by
  have h_closer : Tag.selfCloses Tag.infixFormula.name = false := by decide
  rw [Node.toText, String.toList_ofList, write, writeSpaced, writeSpaced, write, opener, h_closer]
  simp [writeAll]

/-- A formula whose brackets balance is read from its written form. -/
theorem parse_formula {raw : String} (h_balanced : Bracket.openAfter 0 raw.toList = some 0)
    (h_some : raw ≠ "") :
    parse (Node.element Tag.infixFormula.name [.text raw] []).toText =
      [.element Tag.infixFormula.name [.text raw] []] := by
  have h_closing := Bracket.closing_closer .infixFormula []
  rw [List.append_nil] at h_closing
  -- One level is taken by the tag; its body is empty, and its closer is its own.
  have h_body : Rules.BodyAt false 63 [] .infixFormula (closer Tag.infixFormula.name) [] [] :=
    .inside rfl (.own h_closing rfl) (by simp)
  have h_header : Rules.HeaderAt false 63 [] true _ _ :=
    .raw (.spaced (show ' ' ≠ ']' by decide) h_balanced (closer Tag.infixFormula.name))
  have h_open := Rules.opening_write .infixFormula [.text raw] (closer Tag.infixFormula.name)
  rw [writeSpaced, writeSpaced, write, List.append_nil, List.cons_append] at h_open
  have h_tag := Rules.TagAt.known h_open (Tag.resolve?_name .infixFormula) h_header h_body
  have h_pieces := Rules.PiecesAt.node h_tag .nil
  rw [← toList_formula] at h_pieces
  rw [Rules.parse_eq h_pieces, Bracket.rawText, if_neg (by simpa using h_some),
    String.ofList_toList]
  rfl

/-- A text within so many formulas, each within the next. -/
def stacked (core : String) : Nat → String
  | 0 => core
  | levels + 1 => (Node.element Tag.infixFormula.name [.text (stacked core levels)] []).toText

example : stacked "[dice 6]" 2 = "[calcn [calcn [dice 6]][/calcn]][/calcn]" := by cbv

/-- A level more is the document of that one formula, written. -/
theorem toText_stacked (core : String) (levels : Nat) :
    toText [.element Tag.infixFormula.name [.text (stacked core levels)] []] =
      stacked core (levels + 1) := by
  simp [stacked, toText, Node.toText, writeAll]

section Stacked

variable {core : String} (h_balanced : ∀ depth, Bracket.openAfter depth core.toList = some depth)
  (h_tag : (parse core).any Node.isElement = true)
include h_balanced

theorem openAfter_stacked (levels depth : Nat) :
    Bracket.openAfter depth (stacked core levels).toList = some depth := by
  induction levels generalizing depth with
  | zero => exact h_balanced depth
  | succ levels ih =>
    have h_name : ∀ d, Bracket.openAfter d Tag.infixFormula.name.toList = some d :=
      Bracket.openAfter_of_no_bracket fun c h_mem =>
        have h_alpha := Bracket.isAlpha_of_mem_name .infixFormula c h_mem
        ⟨Bracket.ne_of_isAlpha h_alpha (by decide), Bracket.ne_of_isAlpha h_alpha (by decide)⟩
    have h_closer : ∀ d, Bracket.openAfter d (closer Tag.infixFormula.name) = some d := by
      intro d
      rw [closer, Bracket.openAfter_open, Bracket.openAfter_other (by decide) (by decide),
        Bracket.openAfter_append, h_name, Option.bind_some, Bracket.openAfter_close_succ,
        Bracket.openAfter_nil]
    rw [stacked, toList_formula, Bracket.openAfter_open, Bracket.openAfter_append, h_name,
      Option.bind_some, Bracket.openAfter_other (by decide) (by decide),
      Bracket.openAfter_append, ih, Option.bind_some, Bracket.openAfter_close_succ, h_closer]

include h_tag

theorem parse_stacked (levels : Nat) :
    parse (stacked core (levels + 1)) =
      [.element Tag.infixFormula.name [.text (stacked core levels)] []] := by
  refine parse_formula (openAfter_stacked h_balanced levels 0) ?_
  cases levels with
  | zero =>
    rintro rfl
    exact absurd h_tag (by rw [Document.parse_of_length rfl]; decide)
  | succ levels =>
    intro h_empty
    have h_text := toList_formula (stacked core levels)
    rw [← stacked, h_empty] at h_text
    exact absurd h_text (by simp)

/-- As many formulas are read one within the other. -/
theorem nests_stacked (levels : Nat) :
    ∃ chain, Nests (parse (stacked core levels)) chain ∧ chain.length = levels := by
  induction levels with
  | zero => exact ⟨[], .nil, rfl⟩
  | succ levels ih =>
    obtain ⟨chain, h_chain, h_length⟩ := ih
    refine ⟨stacked core levels :: chain, .cons ?_ h_chain, by rw [List.length_cons, h_length]⟩
    rw [parse_stacked h_balanced h_tag, formulasAll, formulas, if_neg (by decide),
      Rules.keepsText_name]
    simp [formulasAll, formulas, Tag.rawAttribute]

theorem any_stacked (levels : Nat) :
    (parse (stacked core (levels + 1))).any Node.isElement = true := by
  rw [parse_stacked h_balanced h_tag]
  rfl

theorem pieces_stacked (formula : String → String) (levels : Nat) :
    Submission.pieces formula false (parse (stacked core (levels + 1))) =
      [.element Tag.infixFormula.name [.text (formula (stacked core levels))] []] := by
  rw [parse_stacked h_balanced h_tag, Submission.pieces, Submission.piece, if_neg (by decide),
    Rules.keepsText_name]
  simp [Submission.pieces, Submission.piece, Tag.rawAttribute]

/-- The innermost formula is completed, however far in it is. -/
theorem formula_stacked (levels : Nat) :
    Submission.formula (stacked core levels) = stacked (Submission.formula core) levels := by
  induction levels with
  | zero => rfl
  | succ levels ih =>
    rw [Submission.formula_eq, if_pos (any_stacked h_balanced h_tag levels),
      pieces_stacked h_balanced h_tag, ih, toText_stacked]

/-- With one level too few it is left as it is. -/
theorem formulaToDepth_stacked (levels : Nat) :
    Submission.formulaToDepth levels (stacked core levels) = stacked core levels := by
  induction levels with
  | zero => rfl
  | succ levels ih =>
    rw [Submission.formulaToDepth]
    rw [if_pos (any_stacked h_balanced h_tag levels), Submission.nodes_eq,
      pieces_stacked h_balanced h_tag, ih, toText_stacked]

end Stacked

/-- The text of a formula is read from the first level again, so that the nesting limit does not
    bound formulas within formulas. -/
theorem formulas_beyond_nestingLimit :
    let source := stacked "[dice 6]" (nestingLimit + 1)
    (∃ chain, Nests (parse source) chain ∧ nestingLimit < chain.length) ∧
      (∃ chain, Nests (ofSubmission source) chain ∧ nestingLimit < chain.length) ∧
        toText (ofSubmission source) = stacked "[dice 1 6]" (nestingLimit + 1) ∧
          toText (Submission.nodes (Submission.formulaToDepth nestingLimit) (parse source)) =
            source := by
  have h_typed : ∀ depth, Bracket.openAfter depth "[dice 6]".toList = some depth := by
    simp [Bracket.openAfter]
  have h_completed : ∀ depth, Bracket.openAfter depth "[dice 1 6]".toList = some depth := by
    simp [Bracket.openAfter]
  have h_tag : (parse "[dice 6]").any Node.isElement = true := by cbv
  have h_tag' : (parse "[dice 1 6]").any Node.isElement = true := by cbv
  have h_core : Submission.formula "[dice 6]" = "[dice 1 6]" := by cbv
  have h_submitted : ofSubmission (stacked "[dice 6]" (nestingLimit + 1)) =
      parse (stacked "[dice 1 6]" (nestingLimit + 1)) := by
    rw [ofSubmission, Submission.nodes_eq, pieces_stacked h_typed h_tag,
      formula_stacked h_typed h_tag, h_core, parse_stacked h_completed h_tag']
  obtain ⟨chain, h_chain, h_length⟩ := nests_stacked h_typed h_tag (nestingLimit + 1)
  obtain ⟨chain', h_chain', h_length'⟩ := nests_stacked h_completed h_tag' (nestingLimit + 1)
  refine ⟨⟨chain, h_chain, by omega⟩, ⟨chain', h_submitted ▸ h_chain', by omega⟩, ?_, ?_⟩
  · rw [h_submitted, parse_stacked h_completed h_tag', toText_stacked]
  · rw [Submission.nodes_eq, pieces_stacked h_typed h_tag, formulaToDepth_stacked h_typed h_tag,
      toText_stacked]

end Document

end DiceMarkup
