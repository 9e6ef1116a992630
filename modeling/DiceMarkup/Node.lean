/-
  DiceMarkup.Node

  The tree that a text stands for. A tree keeps no places in the text: the
  same type holds what was read, what was changed and what was built by
  hand, so an element may carry any name and any children.
-/

namespace DiceMarkup

/-- A piece of marked-up text. -/
inductive Node where
  /-- Characters without markup. -/
  | text (value : String)
  /-- A tag with its attributes and its children. -/
  | element (name : String) (attributes children : List Node)
  /-- A group in parentheses, as attributes may be grouped. -/
  | group (items : List Node)

/-- A whole text: the pieces it is made of, in order. -/
abbrev Document := List Node

namespace Node

/-- Holds of a tag, and not of text or of a group. -/
def isElement : Node → Bool
  | .element .. => true
  | _ => false

/-! ## Equality of trees -/

mutual

/-- Two trees are compared piece by piece. -/
def decEq : (a b : Node) → Decidable (a = b)
  | .text a, .text b =>
    if h : a = b then isTrue (h ▸ rfl) else isFalse fun e => h (Node.text.inj e)
  | .element n as cs, .element m bs ds =>
    if hn : n = m then
      match decEqAll as bs, decEqAll cs ds with
      | isTrue ha, isTrue hc => isTrue (by rw [hn, ha, hc])
      | isFalse ha, _ => isFalse fun e => ha (Node.element.inj e).2.1
      | _, isFalse hc => isFalse fun e => hc (Node.element.inj e).2.2
    else isFalse fun e => hn (Node.element.inj e).1
  | .group as, .group bs =>
    match decEqAll as bs with
    | isTrue h => isTrue (h ▸ rfl)
    | isFalse h => isFalse fun e => h (Node.group.inj e)
  | .text _, .element .. => isFalse nofun
  | .text _, .group _ => isFalse nofun
  | .element .., .text _ => isFalse nofun
  | .element .., .group _ => isFalse nofun
  | .group _, .text _ => isFalse nofun
  | .group _, .element .. => isFalse nofun

def decEqAll : (as bs : List Node) → Decidable (as = bs)
  | [], [] => isTrue rfl
  | [], _ :: _ => isFalse nofun
  | _ :: _, [] => isFalse nofun
  | a :: as, b :: bs =>
    match decEq a b with
    | isFalse h => isFalse fun e => h (List.cons.inj e).1
    | isTrue h =>
      match decEqAll as bs with
      | isTrue hs => isTrue (by rw [h, hs])
      | isFalse hs => isFalse fun e => hs (List.cons.inj e).2

end

instance : DecidableEq Node := decEq

end Node

end DiceMarkup
