/-
  DiceMarkup.Node.Writer

  The written form of a tree. Every tag is written with its current name,
  one space before each attribute, and a closer unless it is an empty tag
  that needs none.
-/
import DiceMarkup.Node
import DiceMarkup.Tag

namespace DiceMarkup

namespace Node

/-- The opener of a tag that has these characters for its attributes. -/
def opener (name : String) (attributes : List Char) : List Char :=
  '[' :: (name.toList ++ (attributes ++ [']']))

/-- The closer of a tag. -/
def closer (name : String) : List Char :=
  '[' :: '/' :: (name.toList ++ [']'])

mutual

/-- The characters that a piece is written with. -/
def write : Node → List Char
  | .text value => value.toList
  | .element name attributes children =>
    opener name (writeSpaced attributes) ++
      if children.isEmpty && Tag.selfCloses name then []
      else writeAll children ++ closer name
  | .group [] => ['(', ')']
  | .group (item :: items) => '(' :: (write item ++ (writeSpaced items ++ [')']))

/-- The pieces one after the other. -/
def writeAll : List Node → List Char
  | [] => []
  | node :: nodes => write node ++ writeAll nodes

/-- The pieces, each after a space. -/
def writeSpaced : List Node → List Char
  | [] => []
  | node :: nodes => ' ' :: (write node ++ writeSpaced nodes)

end

/-- The written form of one piece. -/
def toText (node : Node) : String :=
  String.ofList node.write

end Node

/-- The written form of a whole text. -/
def Document.toText (document : Document) : String :=
  String.ofList (Node.writeAll document)

namespace Node

theorem writeAll_append (as bs : List Node) : writeAll (as ++ bs) = writeAll as ++ writeAll bs := by
  induction as with
  | nil => simp [writeAll]
  | cons a as ih => simp [writeAll, ih]

/-! ### Pieces that are written alike -/

theorem writeAll_eq (nodes : List Node) : writeAll nodes = (nodes.map write).flatten := by
  induction nodes with
  | nil => rfl
  | cons node nodes ih => rw [writeAll, ih, List.map_cons, List.flatten_cons]

theorem writeSpaced_eq (nodes : List Node) :
    writeSpaced nodes = ((nodes.map write).map (' ' :: ·)).flatten := by
  induction nodes with
  | nil => rfl
  | cons node nodes ih =>
    rw [writeSpaced, ih, List.map_cons, List.map_cons, List.flatten_cons, List.cons_append]

theorem write_group_congr {as bs : List Node} (h : as.map write = bs.map write) :
    write (.group as) = write (.group bs) := by
  have h_spaced : writeSpaced as = writeSpaced bs := by rw [writeSpaced_eq, h, ← writeSpaced_eq]
  cases as with
  | nil => rw [List.map_eq_nil_iff.1 h.symm]
  | cons a as =>
    obtain ⟨b, bs, rfl, -, -⟩ := List.map_eq_cons_iff.1 h.symm
    rw [writeSpaced, writeSpaced, List.cons.injEq] at h_spaced
    rw [write, write, ← List.append_assoc, h_spaced.2, List.append_assoc]

theorem write_element_congr (name : String) {as bs cs ds : List Node}
    (h_attributes : as.map write = bs.map write) (h_children : cs.map write = ds.map write) :
    write (.element name as cs) = write (.element name bs ds) := by
  have h_empty : cs.isEmpty = ds.isEmpty := by
    rw [← List.isEmpty_map (f := write), h_children, List.isEmpty_map]
  rw [write, write, writeSpaced_eq, h_attributes, ← writeSpaced_eq, writeAll_eq, h_children,
    ← writeAll_eq, h_empty]

end Node

end DiceMarkup
