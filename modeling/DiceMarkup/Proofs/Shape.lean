/-
  DiceMarkup.Proofs.Shape

  The pieces of a text as they follow one another. Plain characters are
  collected up to the next tag, so a text is never empty. Of two texts next to
  each other one at least is an unknown tag, which starts with its bracket. And
  a tag that takes no children holds a result or nothing.

  Pieces:
  * `Node.isPlain` — texts that are no unknown tags
  * `Node.Collected` — what holds of pieces while they are collected
  * `Document.collected` — it holds of every document that is read
-/
import DiceMarkup.Proofs.Spelling

namespace DiceMarkup

namespace Node

/-- A text that is no tag, known or unknown. -/
def isPlain : Node → Bool
  | .text value => value.toList.head? != some '['
  | _ => false

/-- No text is empty, no group stands outside of a tag, and no two plain texts follow one
    another. -/
structure Collected (nodes : List Node) : Prop where
  nonempty : ∀ value, .text value ∈ nodes → value.toList ≠ []
  ungrouped : ∀ items, .group items ∉ nodes
  apart : nodes.IsChain fun a b => (a.isPlain && b.isPlain) = false

namespace Collected

theorem nil : Collected [] :=
  ⟨fun _ h_mem => absurd h_mem (by simp), fun _ => by simp, .nil⟩

theorem reverse {nodes : List Node} (h : Collected nodes) : Collected nodes.reverse where
  nonempty value h_mem := h.nonempty value (List.mem_reverse.1 h_mem)
  ungrouped items h_mem := h.ungrouped items (List.mem_reverse.1 h_mem)
  apart := by
    rw [List.isChain_reverse]
    exact h.apart.imp fun a b h_plain => by rwa [Bool.and_comm]

theorem cons {node : Node} {nodes : List Node} (h : Collected nodes)
    (h_node : ∀ value, node = .text value → value.toList ≠ [])
    (h_group : ∀ items, node ≠ .group items)
    (h_head : ∀ first ∈ nodes.head?, (node.isPlain && first.isPlain) = false) :
    Collected (node :: nodes) where
  nonempty value h_mem := by
    rcases List.mem_cons.1 h_mem with h_first | h_rest
    · exact h_node value h_first.symm
    · exact h.nonempty value h_rest
  ungrouped items h_mem := by
    rcases List.mem_cons.1 h_mem with h_first | h_rest
    · exact h_group items h_first.symm
    · exact h.ungrouped items h_rest
  apart := List.isChain_cons.2 ⟨h_head, h.apart⟩

theorem tail {node : Node} {nodes : List Node} (h : Collected (node :: nodes)) :
    Collected nodes where
  nonempty value h_mem := h.nonempty value (List.mem_cons_of_mem _ h_mem)
  ungrouped items h_mem := h.ungrouped items (List.mem_cons_of_mem _ h_mem)
  apart := (List.isChain_cons.1 h.apart).2

end Collected

end Node

open Node (Collected)
open Text (Cursor)

namespace Reader

/-- What is read at a bracket is a tag, known or not. -/
theorem spells_bracket {opened : List Tag} {node : Node} {taken rest : List Char}
    (h : Spells opened node ('[' :: taken) rest) :
    node.isPlain = false ∧ (∀ value, node = .text value → value.toList ≠ []) ∧
      ∀ items, node ≠ .group items := by
  generalize h_text : '[' :: taken = text at h
  cases h with
  | text value =>
    refine ⟨by rw [Node.isPlain, ← h_text]; rfl, ?_, nofun⟩
    rintro _ ⟨⟩
    rw [← h_text]
    simp
  | group => exact absurd (List.cons.inj h_text).1 (by decide)
  | element => exact ⟨rfl, nofun, nofun⟩

/-- Pieces are collected with a tag on top; plain characters may follow it. -/
theorem collected_withPlain {found : List Node} (h_found : Collected found)
    (h_head : ∀ first ∈ found.head?, first.isPlain = false) (plain : List Char) :
    Collected (withPlain found plain) := by
  unfold withPlain
  split
  · exact h_found
  · rename_i h_some
    refine h_found.cons ?_ nofun fun first h_first => by rw [h_head first h_first, Bool.and_false]
    rintro _ ⟨⟩
    simpa using h_some

/-- The pieces that follow one another are collected. -/
theorem siblings_collected {tag : Attempt} (h_tag : Faithful '[' tag) (opened : List Tag)
    (found : List Node) (plain : List Char) (c : Cursor) (notes : Notes) (h_found : Collected found)
    (h_head : ∀ first ∈ found.head?, first.isPlain = false) :
    Collected (siblings tag opened found plain c notes).nodes := by
  -- The piece on top is a tag whenever plain characters are pending, so that they start a new text.
  fun_induction siblings tag opened found plain c notes with
  | case1 | case2 | case3 | case6 => exact (collected_withPlain h_found h_head _).reverse
  | case4 found plain c notes after _ notes' _ h_next _ ih => exact ih h_found h_head
  | case7 found plain c notes x after h_next _ _ ih => exact ih h_found h_head
  | case5 found plain c notes after _ node next notes' h_some _ h_next _ ih =>
    have h_rest := Cursor.next?_eq_some_iff.1 h_next
    rw [← Cursor.ofList_rest c, h_rest] at h_some
    obtain ⟨taken, -, h_spells⟩ := h_tag _ _ _ _ _ _ h_some
    obtain ⟨h_plain, h_text, h_group⟩ := spells_bracket h_spells
    refine ih ((collected_withPlain h_found h_head plain).cons h_text h_group ?_) ?_
    · exact fun first _ => by rw [h_plain, Bool.false_and]
    · rintro _ ⟨⟩
      exact h_plain

end Reader

/-- The pieces of a text are collected. -/
theorem Document.collected (source : String) : Collected (Document.parse source) :=
  Reader.siblings_collected (Reader.openers_faithful nestingLimit).tag [] [] [] _ _ .nil
    fun _ h_first => absurd h_first (by simp)

/-- A dice that is read holds a result or nothing. -/
theorem SpellsAll.result_of_mem {opened : List Tag} {nodes as cs : List Node}
    {text rest : List Char}
    (h : SpellsAll opened nodes text rest) (h_mem : Node.element Tag.dice.name as cs ∈ nodes) :
    cs = [] ∨ ∃ value : String, Bracket.IsResult value.toList ∧ cs = [.text value] := by
  induction nodes generalizing text with
  | nil => exact absurd h_mem (by simp)
  | cons node nodes ih =>
    cases h with
    | cons h_node h_nodes =>
      rcases List.mem_cons.1 h_mem with h_first | h_rest
      · subst h_first
        generalize h_dice : Tag.dice.name = name at h_node
        cases h_node with
        | element _ _ _ h_body =>
          rw [← Tag.name_injective h_dice] at h_body
          cases h_body with
          | empty => exact .inl rfl
          | stored _ _ h_result => exact .inr ⟨_, h_result, rfl⟩
          | inside h_kind => exact absurd h_kind (by decide)
      · exact ih h_nodes h_rest

end DiceMarkup
