/-
  DiceMarkup.Tag

  The tags of the markup: their names, the older spellings that are still
  read, and what each tag lets follow its opener. A name is matched exactly
  in a tree and in any case of ASCII in a text.
-/

namespace DiceMarkup

/-- The tags that the markup knows. -/
inductive Tag where
  | bold | italic | underline | strike | superscript | subscript
  | color | size | quote | spoiler | code | link
  /-- A formula in parentheses, operator first. -/
  | formula
  /-- A formula as it is written on paper, operators between the operands. -/
  | infixFormula
  | rule | image | youtube | dice
deriving DecidableEq

/-- What may follow the opener of a tag. -/
inductive TagKind where
  /-- Children, up to the closer of the tag or to the end of the text. -/
  | container
  /-- No children. -/
  | selfClosing
deriving DecidableEq

namespace Tag

/-- All tags, in the order of their table. -/
def all : List Tag :=
  [bold, italic, underline, strike, superscript, subscript, color, size, quote, spoiler, code,
    link, formula, infixFormula, rule, image, youtube, dice]

/-- The name that is written. -/
def name : Tag → String
  | bold => "bld"
  | italic => "itl"
  | underline => "udl"
  | strike => "strk"
  | superscript => "sup"
  | subscript => "sub"
  | color => "clr"
  | size => "size"
  | quote => "quote"
  | spoiler => "spoiler"
  | code => "code"
  | link => "link"
  | formula => "calc"
  | infixFormula => "calcn"
  | rule => "hr"
  | image => "img"
  | youtube => "youtube"
  | dice => "dice"

def kind : Tag → TagKind
  | rule | image | youtube | dice => .selfClosing
  | _ => .container

/-- A self-closing tag that may be followed by an integer and its closer. -/
def storesResult : Tag → Bool
  | dice => true
  | _ => false

/-- A tag whose attribute text is kept as it stands, as one attribute. -/
def rawAttribute : Tag → Bool
  | infixFormula => true
  | _ => false

/-- The tag with exactly this name. -/
def ofName? (name : String) : Option Tag :=
  all.find? fun tag => tag.name == name

/-- A name whose elements need no closer when they are empty. -/
def selfCloses (name : String) : Bool :=
  (ofName? name).any fun tag => tag.kind == .selfClosing

/-! ## Names as they are written in a text -/

/-- What a written name stands for: a tag and the attributes that the name implies. -/
structure Resolved where
  tag : Tag
  implied : List String
deriving DecidableEq

/-- An older spelling of a tag. -/
structure Alias where
  spelling : String
  meaning : Resolved

def aliases : List Alias :=
  [⟨"clrred", color, ["red"]⟩, ⟨"clrblue", color, ["blue"]⟩, ⟨"clrgreen", color, ["green"]⟩,
    ⟨"b", bold, []⟩, ⟨"i", italic, []⟩, ⟨"u", underline, []⟩, ⟨"s", strike, []⟩]

/-- The name with the capital letters of ASCII made small. -/
def foldCase (written : String) : String :=
  String.ofList (written.toList.map Char.toLower)

/-- What a name stands for, in any case and in the current or an older spelling. -/
def resolve? (written : String) : Option Resolved :=
  let folded := foldCase written
  match ofName? folded with
  | some tag => some ⟨tag, []⟩
  | none => (aliases.find? fun entry => entry.spelling == folded).map Alias.meaning

/-! ## The table -/

theorem mem_all (tag : Tag) : tag ∈ all := by
  cases tag <;> decide

@[simp] theorem ofName?_name (tag : Tag) : ofName? tag.name = some tag := by
  cases tag <;> decide +kernel

/-- A name belongs to one tag at most. -/
theorem name_injective {a b : Tag} (h : a.name = b.name) : a = b :=
  Option.some.inj (by rw [← ofName?_name a, h, ofName?_name])

theorem ofName?_eq_some_iff {name : String} {tag : Tag} :
    ofName? name = some tag ↔ name = tag.name := by
  constructor
  · intro h
    have := List.find?_some h
    exact (by simpa using this : tag.name = name).symm
  · rintro rfl
    exact ofName?_name tag

/-- Current names are read as they are written. -/
theorem resolve?_name (tag : Tag) : resolve? tag.name = some ⟨tag, []⟩ := by
  cases tag <;> decide +kernel

end Tag

end DiceMarkup
