/-
  DiceMarkup.Text.Cursor

  A place in a text, seen from the end: the characters still to come and how
  many bytes of UTF-8 they take. Two places are told apart by the byte count
  alone, and a place says nothing about the text before it, so what is read
  from a cursor does not depend on what came first.
-/
import DiceMarkup.Text.Blank

namespace DiceMarkup.Text

/-- The number of bytes of UTF-8 that the characters take. -/
def byteLength (cs : List Char) : Nat :=
  cs.foldr (fun c size => c.utf8Size + size) 0

@[simp] theorem byteLength_nil : byteLength [] = 0 := rfl

@[simp] theorem byteLength_cons (c : Char) (cs : List Char) :
    byteLength (c :: cs) = c.utf8Size + byteLength cs := rfl

@[simp] theorem byteLength_append (cs ds : List Char) :
    byteLength (cs ++ ds) = byteLength cs + byteLength ds := by
  induction cs with
  | nil => simp
  | cons c cs ih => simp only [List.cons_append, byteLength_cons, ih]; omega

/-- Only the empty text takes no bytes. -/
theorem byteLength_eq_zero_iff {cs : List Char} : byteLength cs = 0 ↔ cs = [] := by
  cases cs with
  | nil => simp
  | cons c cs => have := c.utf8Size_pos; simp; omega

/-- The characters that fit into the first `n` bytes. -/
def takeBytes (n : Nat) (cs : List Char) : List Char :=
  go n cs []
where
  /-- `taken` holds, last first, the characters that fitted so far. -/
  go : Nat → List Char → List Char → List Char
    | _, [], taken => taken.reverse
    | n, c :: cs, taken =>
      if c.utf8Size ≤ n then go (n - c.utf8Size) cs (c :: taken) else taken.reverse

theorem takeBytes_go (n : Nat) (cs taken : List Char) :
    takeBytes.go n cs taken = taken.reverse ++ takeBytes.go n cs [] := by
  induction cs generalizing n taken with
  | nil => simp [takeBytes.go]
  | cons c cs ih =>
    unfold takeBytes.go
    split
    · rw [ih, ih (n - c.utf8Size) [c]]; simp
    · simp

@[simp] theorem takeBytes_nil (n : Nat) : takeBytes n [] = [] := rfl

theorem takeBytes_cons (n : Nat) (c : Char) (cs : List Char) :
    takeBytes n (c :: cs) =
      if c.utf8Size ≤ n then c :: takeBytes (n - c.utf8Size) cs else [] := by
  unfold takeBytes
  rw [takeBytes.go]
  split
  · rw [takeBytes_go]; rfl
  · rfl

/-- The bytes of a beginning give the beginning back. -/
@[simp] theorem takeBytes_byteLength_append (cs ds : List Char) :
    takeBytes (byteLength cs) (cs ++ ds) = cs := by
  induction cs with
  | nil =>
    cases ds with
    | nil => rfl
    | cons d ds => have := d.utf8Size_pos; simp [takeBytes_cons]; omega
  | cons c cs ih => simp [takeBytes_cons, ih]

/-- The characters from some place to the end of a text, and their size in bytes. -/
@[ext (iff := false)] structure Cursor where
  /-- The characters still to come. -/
  rest : List Char
  /-- The bytes still to come. -/
  left : Nat
  left_eq : left = byteLength rest

namespace Cursor

/-- The start of a text. -/
def ofList (cs : List Char) : Cursor :=
  ⟨cs, byteLength cs, rfl⟩

/-- A place is its remaining characters. -/
theorem eq_of_rest_eq {c d : Cursor} (h : c.rest = d.rest) : c = d := by
  obtain ⟨rest, left, hc⟩ := c
  obtain ⟨rest', left', hd⟩ := d
  simp only at h
  subst h hc hd
  rfl

@[simp] theorem rest_ofList (cs : List Char) : (ofList cs).rest = cs := rfl

@[simp] theorem ofList_rest (c : Cursor) : ofList c.rest = c := eq_of_rest_eq rfl

/-- The next character and the place after it. -/
def next? : Cursor → Option (Char × Cursor)
  | ⟨[], _, _⟩ => none
  | ⟨c :: cs, left, h⟩ => some (c, ⟨cs, left - c.utf8Size, by simp [h]⟩)

/-- The place `n` characters on. -/
def drop (c : Cursor) (n : Nat) : Cursor :=
  ⟨c.rest.drop n, c.left - byteLength (c.rest.take n), by
    have := congrArg byteLength (List.take_append_drop n c.rest)
    rw [byteLength_append] at this
    rw [c.left_eq]
    omega⟩

/-- The place after a run of white space. -/
def skipBlank (c : Cursor) : Cursor :=
  c.drop (c.rest.takeWhile isBlank).length

/-- The characters from one place to a later one. -/
def textTo (c stop : Cursor) : List Char :=
  takeBytes (c.left - stop.left) c.rest

/-! ## Progress -/

theorem next?_eq_none_iff {c : Cursor} : c.next? = none ↔ c.rest = [] := by
  obtain ⟨_ | _, _, _⟩ := c <;> simp [next?]

theorem next?_eq_some_iff {c d : Cursor} {x : Char} :
    c.next? = some (x, d) ↔ c.rest = x :: d.rest := by
  obtain ⟨_ | ⟨y, cs⟩, left, h⟩ := c
  · simp [next?]
  · simp only [next?, Option.some.injEq, Prod.mk.injEq, List.cons.injEq]
    constructor
    · rintro ⟨rfl, rfl⟩; exact ⟨rfl, rfl⟩
    · rintro ⟨rfl, rfl⟩; exact ⟨rfl, eq_of_rest_eq rfl⟩

@[simp] theorem next?_ofList_cons (x : Char) (cs : List Char) :
    (ofList (x :: cs)).next? = some (x, ofList cs) :=
  next?_eq_some_iff.2 rfl

@[simp] theorem next?_ofList_nil : (ofList []).next? = none := rfl

/-- Taking a character leaves fewer bytes. -/
theorem left_lt_of_next? {c d : Cursor} {x : Char} (h : c.next? = some (x, d)) :
    d.left < c.left := by
  rw [next?_eq_some_iff] at h
  rw [c.left_eq, d.left_eq, h, byteLength_cons]
  have := x.utf8Size_pos
  omega

@[simp] theorem rest_drop (c : Cursor) (n : Nat) : (c.drop n).rest = c.rest.drop n := rfl

theorem left_drop_le (c : Cursor) (n : Nat) : (c.drop n).left ≤ c.left :=
  Nat.sub_le _ _

theorem left_skipBlank_le (c : Cursor) : c.skipBlank.left ≤ c.left :=
  left_drop_le _ _

/-- What stands between two places is what the first has and the second has not. -/
theorem textTo_eq {c stop : Cursor} {cs : List Char} (h : c.rest = cs ++ stop.rest) :
    c.textTo stop = cs := by
  have : c.left - stop.left = byteLength cs := by
    rw [c.left_eq, stop.left_eq, h, byteLength_append]; omega
  rw [textTo, this, h, takeBytes_byteLength_append]

end Cursor

end DiceMarkup.Text
