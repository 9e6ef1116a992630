/-
  DiceMarkup.Proofs.Words

  What the words of the markup look like in a text: openers and closers of
  tags, attribute words, raw attribute text and stored results. Each reader of
  words is met here by a statement on the characters that it takes, so that
  later proofs speak of characters and never open the reader again.
-/
import DiceMarkup.Node.Bracket
import DiceMarkup.Node.Writer
import Mathlib

namespace DiceMarkup.Bracket

open Text (Cursor isBlank)

/-! ## Runs of characters -/

/-- A run of characters with `p` that a character without `p` follows. -/
theorem takeWhile_run {p : Char → Bool} {run : List Char} {c : Char} {rest : List Char}
    (inside : ∀ a ∈ run, p a = true) (h_end : p c = false) :
    (run ++ c :: rest).takeWhile p = run := by
  rw [List.takeWhile_append_of_pos inside, List.takeWhile_cons_of_neg (by simp [h_end]),
    List.append_nil]

theorem dropWhile_run {p : Char → Bool} {run : List Char} {c : Char} {rest : List Char}
    (inside : ∀ a ∈ run, p a = true) (h_end : p c = false) :
    (run ++ c :: rest).dropWhile p = c :: rest := by
  rw [List.dropWhile_append_of_pos inside, List.dropWhile_cons_of_neg (by simp [h_end])]

/-- Two ways to cut a text after a run of characters with `p` are the same. -/
theorem run_unique {p : Char → Bool} {run run' : List Char} {c c' : Char}
    {rest rest' : List Char} (inside : ∀ a ∈ run, p a = true) (h_end : p c = false)
    (inside' : ∀ a ∈ run', p a = true) (h_end' : p c' = false)
    (h : run ++ c :: rest = run' ++ c' :: rest') : run = run' ∧ c = c' ∧ rest = rest' := by
  have h_run : run = run' := by
    rw [← takeWhile_run inside h_end, h, takeWhile_run inside' h_end']
  subst h_run
  exact ⟨rfl, by simpa using h⟩

/-- To drop a run is to drop as many characters as it has. -/
theorem drop_length_takeWhile (p : Char → Bool) (text : List Char) :
    text.drop (text.takeWhile p).length = text.dropWhile p := by
  have h := List.takeWhile_append_dropWhile (p := p) (l := text)
  calc text.drop (text.takeWhile p).length
      = (text.takeWhile p ++ text.dropWhile p).drop (text.takeWhile p).length := by rw [h]
    _ = text.dropWhile p := List.drop_left

theorem drop_ofList (text : List Char) (n : Nat) :
    (Cursor.ofList text).drop n = Cursor.ofList (text.drop n) :=
  Cursor.eq_of_rest_eq rfl

/-- What follows a white space or a closing bracket is not part of a name. -/
theorem isAlpha_eq_false_of_ends {c : Char} (h : c = ']' ∨ isBlank c = true) :
    c.isAlpha = false := by
  by_contra h_alpha
  have h_alpha : c.isAlpha = true := by simpa using h_alpha
  rcases h with rfl | h_blank
  · exact absurd h_alpha (by decide)
  · rw [Text.isBlank_eq_false_of_isAlpha h_alpha] at h_blank
    exact absurd h_blank (by decide)

/-- A letter is none of the characters that stand for structure. -/
theorem ne_of_isAlpha {c d : Char} (h : c.isAlpha = true) (h_other : d.isAlpha = false) :
    c ≠ d := by
  rintro rfl
  rw [h] at h_other
  exact absurd h_other (by decide)

/-! ## Openers -/

/-- The text after a `[` starts with the name of an opener, up to `after`. -/
structure Opening (text : List Char) (name : String) (after : List Char) : Prop where
  split : text = name.toList ++ after
  nonempty : name.toList ≠ []
  letters : ∀ c ∈ name.toList, c.isAlpha = true
  ends : ∃ c rest, after = c :: rest ∧ (c = ']' ∨ isBlank c = true)

theorem opener?_eq_some_iff {x : Char} {text : List Char} {name : String} {c : Cursor} :
    opener? (Cursor.ofList (x :: text)) = some (name, c) ↔ Opening text name c.rest := by
  have h_drop : (Cursor.ofList (x :: text)).rest.drop 1 = text := rfl
  constructor
  · intro h
    unfold opener? at h
    rw [h_drop] at h
    dsimp only at h
    split at h
    · exact absurd h (by simp)
    rename_i h_name
    have h_rest : ((Cursor.ofList (x :: text)).drop
        ((text.takeWhile Char.isAlpha).length + 1)).rest = text.dropWhile Char.isAlpha := by
      rw [Cursor.rest_drop, Cursor.rest_ofList, List.drop_succ_cons, drop_length_takeWhile]
    split at h
    · exact absurd h (by simp)
    rename_i a rest h_after
    split at h
    · rename_i h_ends
      obtain ⟨rfl, rfl⟩ := Prod.mk.inj (Option.some.inj h)
      refine ⟨?_, ?_, ?_, a, rest, h_after, ?_⟩
      · rw [h_rest, String.toList_ofList, List.takeWhile_append_dropWhile]
      · rw [String.toList_ofList]
        simpa using h_name
      · intro d hd
        rw [String.toList_ofList] at hd
        exact List.mem_takeWhile_imp hd
      · simpa using h_ends
    · exact absurd h (by simp)
  -- What ends the name is no letter, so that the reader takes the whole name and no more.
  · rintro ⟨h_split, h_nonempty, h_letters, a, rest, h_after, h_ends⟩
    have h_alpha := isAlpha_eq_false_of_ends h_ends
    have h_take : text.takeWhile Char.isAlpha = name.toList := by
      rw [h_split, h_after, takeWhile_run h_letters h_alpha]
    have h_cursor : (Cursor.ofList (x :: text)).drop (name.toList.length + 1) = c := by
      apply Cursor.eq_of_rest_eq
      rw [Cursor.rest_drop, Cursor.rest_ofList, List.drop_succ_cons, h_split]
      simp
    unfold opener?
    rw [h_drop, h_take, if_neg (by simpa using h_nonempty)]
    simp only [h_cursor, h_after]
    rw [if_pos (by simpa using h_ends), String.ofList_toList]

/-- A name is followed by an end or by a white space, so there is only one way to read it. -/
theorem Opening.unique {text : List Char} {name name' : String} {after after' : List Char}
    (h : Opening text name after) (h' : Opening text name' after') :
    name = name' ∧ after = after' := by
  have h_first := (opener?_eq_some_iff (x := '[') (c := Cursor.ofList after)).2 h
  have h_second := (opener?_eq_some_iff (x := '[') (c := Cursor.ofList after')).2 h'
  rw [h_first] at h_second
  obtain ⟨h_name, h_after⟩ := Prod.mk.inj (Option.some.inj h_second)
  exact ⟨h_name, congrArg Cursor.rest h_after⟩

/-- What follows the name of an opener is shorter than the opener. -/
theorem Opening.length_lt {text : List Char} {name : String} {after : List Char}
    (h : Opening text name after) : after.length < text.length := by
  have h_pos : 0 < name.toList.length := List.length_pos_iff.2 h.nonempty
  rw [h.split, List.length_append]
  omega

/-! ## Closers -/

/-- The text starts with the closer of a tag, up to `after`. -/
def Closing (text : List Char) (tag : Tag) (after : List Char) : Prop :=
  ∃ name : List Char, (∀ c ∈ name, c.isAlpha = true) ∧
    text = '[' :: '/' :: (name ++ ']' :: after) ∧
    (Tag.resolve? (String.ofList name)).map Tag.Resolved.tag = some tag

theorem closer?_eq_some_iff {text : List Char} {tag : Tag} {c : Cursor} :
    closer? (Cursor.ofList text) = some (tag, c) ↔ Closing text tag c.rest := by
  constructor
  · intro h
    unfold closer? at h
    rw [Cursor.rest_ofList] at h
    dsimp only at h
    split at h
    rotate_left
    · exact absurd h (by simp)
    rename_i cs
    split at h
    rotate_left
    · exact absurd h (by simp)
    rename_i after h_after
    rw [drop_length_takeWhile] at h_after
    obtain ⟨meaning, h_meaning, h_pair⟩ := Option.map_eq_some_iff.1 h
    obtain ⟨rfl, rfl⟩ := Prod.mk.inj h_pair
    -- The reader takes letters as long as there are any, and needs a `]` behind them.
    have h_text : cs = cs.takeWhile Char.isAlpha ++ ']' :: after := by
      rw [← h_after, List.takeWhile_append_dropWhile]
    refine ⟨cs.takeWhile Char.isAlpha, fun d hd => List.mem_takeWhile_imp hd, ?_, ?_⟩
    · rw [Cursor.rest_drop, Cursor.rest_ofList, List.drop_succ_cons, List.drop_succ_cons,
        ← List.drop_drop, drop_length_takeWhile, h_after, List.drop_one, List.tail_cons, ← h_text]
    · rw [h_meaning, Option.map_some]
  · rintro ⟨name, h_letters, rfl, h_tag⟩
    obtain ⟨meaning, h_meaning, rfl⟩ := Option.map_eq_some_iff.1 h_tag
    -- The `]` is no letter: the name is the longest run of letters here.
    have h_take : (name ++ ']' :: c.rest).takeWhile Char.isAlpha = name :=
      takeWhile_run h_letters (by decide)
    have h_drop : (name ++ ']' :: c.rest).drop name.length = ']' :: c.rest := List.drop_left
    have h_cursor :
        (Cursor.ofList ('[' :: '/' :: (name ++ ']' :: c.rest))).drop (name.length + 3) = c := by
      apply Cursor.eq_of_rest_eq
      rw [Cursor.rest_drop, Cursor.rest_ofList, List.drop_succ_cons, List.drop_succ_cons,
        ← List.drop_drop, h_drop, List.drop_one, List.tail_cons]
    unfold closer?
    simp only [Cursor.rest_ofList, h_take, h_drop, h_meaning, Option.map_some, h_cursor]

/-- There is no closer here. -/
theorem closer?_eq_none_iff {text : List Char} :
    closer? (Cursor.ofList text) = none ↔ ∀ tag after, ¬ Closing text tag after := by
  constructor
  · intro h tag after h_closing
    rw [(closer?_eq_some_iff (c := Cursor.ofList after)).2 h_closing] at h
    exact absurd h (by simp)
  · intro h
    cases h_closer : closer? (Cursor.ofList text) with
    | none => rfl
    | some found => exact absurd (closer?_eq_some_iff.1 h_closer) (h _ _)

theorem Closing.unique {text : List Char} {tag tag' : Tag} {after after' : List Char}
    (h : Closing text tag after) (h' : Closing text tag' after') :
    tag = tag' ∧ after = after' := by
  have h_first := (closer?_eq_some_iff (c := Cursor.ofList after)).2 h
  have h_second := (closer?_eq_some_iff (c := Cursor.ofList after')).2 h'
  rw [h_first] at h_second
  obtain ⟨h_tag, h_after⟩ := Prod.mk.inj (Option.some.inj h_second)
  exact ⟨h_tag, congrArg Cursor.rest h_after⟩

/-- A closer starts with a bracket and a slash, so it is no opener. -/
theorem Closing.not_opening {text : List Char} {tag : Tag} {after : List Char}
    (h : Closing ('[' :: text) tag after) (name : String) (rest : List Char) :
    ¬ Opening text name rest := by
  rintro ⟨h_split, h_nonempty, h_letters, -⟩
  obtain ⟨closed, -, h_text, -⟩ := h
  obtain ⟨c, cs, h_name⟩ := List.exists_cons_of_ne_nil h_nonempty
  rw [h_name] at h_split h_letters
  rw [h_split] at h_text
  simp only [List.cons_append, List.cons.injEq, true_and] at h_text
  have h_alpha := h_letters c List.mem_cons_self
  -- The first letter of the opener would be the slash.
  rw [h_text.1] at h_alpha
  exact absurd h_alpha (by decide)

/-- The names of tags are letters. -/
theorem isAlpha_of_mem_name (tag : Tag) : ∀ c ∈ tag.name.toList, c.isAlpha = true := by
  rw [← List.all_eq_true]
  cases tag <;> decide +kernel

theorem name_toList_ne_nil (tag : Tag) : tag.name.toList ≠ [] := by
  cases tag <;> decide +kernel

/-- The written closer of a tag is read as its closer. -/
theorem closing_closer (tag : Tag) (after : List Char) :
    Closing (Node.closer tag.name ++ after) tag after := by
  refine ⟨tag.name.toList, isAlpha_of_mem_name tag, ?_, ?_⟩
  · simp [Node.closer]
  · rw [String.ofList_toList, Tag.resolve?_name, Option.map_some]

/-! ## Attribute words -/

/-- A letter does not end a word. -/
theorem endsWord_of_isAlpha {c : Char} (h : c.isAlpha = true) (inGroup : Bool) :
    endsWord inGroup c = false := by
  have h_ne : ∀ d : Char, d.isAlpha = false → c ≠ d := fun d => ne_of_isAlpha h
  simp [endsWord, Text.isBlank_eq_false_of_isAlpha h, h_ne ']' (by decide), h_ne '[' (by decide),
    h_ne '(' (by decide), h_ne ')' (by decide)]

/-- A digit does not end a word. -/
theorem endsWord_of_isDigit {c : Char} (h : c.isDigit = true) (inGroup : Bool) :
    endsWord inGroup c = false := by
  have h_ne : ∀ d : Char, d.isDigit = false → c ≠ d := by
    rintro d h_other rfl
    rw [h] at h_other
    exact absurd h_other (by decide)
  simp [endsWord, Text.isBlank_eq_false_of_isDigit h, h_ne ']' (by decide), h_ne '[' (by decide),
    h_ne '(' (by decide), h_ne ')' (by decide)]

/-- The characters of a word after its first one. -/
def wordTail (inGroup : Bool) (text : List Char) : List Char :=
  text.takeWhile fun x => !endsWord inGroup x

/-- What follows a word, from the characters after its first one. -/
def afterWord (inGroup : Bool) (text : List Char) : List Char :=
  text.dropWhile fun x => !endsWord inGroup x

theorem word_ofList_cons (inGroup : Bool) (x : Char) (text : List Char) :
    word inGroup (Cursor.ofList (x :: text)) =
      (.text (String.ofList (x :: wordTail inGroup text)),
        Cursor.ofList (afterWord inGroup text)) := by
  have h_chars : (Cursor.ofList (x :: text)).rest.take 1 ++
      ((Cursor.ofList (x :: text)).rest.drop 1).takeWhile (fun y => !endsWord inGroup y) =
        x :: wordTail inGroup text := rfl
  unfold word
  rw [h_chars]
  refine Prod.ext rfl (Cursor.eq_of_rest_eq ?_)
  rw [Cursor.rest_drop, Cursor.rest_ofList, List.length_cons, List.drop_succ_cons, wordTail,
    drop_length_takeWhile, Cursor.rest_ofList, afterWord]

theorem wordTail_append_afterWord (inGroup : Bool) (text : List Char) :
    wordTail inGroup text ++ afterWord inGroup text = text :=
  List.takeWhile_append_dropWhile

theorem endsWord_of_mem_wordTail {inGroup : Bool} {text : List Char} :
    ∀ c ∈ wordTail inGroup text, endsWord inGroup c = false := by
  intro c hc
  simpa using List.mem_takeWhile_imp hc

/-- A word does not go on here. -/
def AtWordEnd (inGroup : Bool) (text : List Char) : Prop :=
  ∀ c rest, text = c :: rest → endsWord inGroup c = true

/-- A run of word characters that ends here is the tail of a word. -/
theorem wordTail_append {inGroup : Bool} {run rest : List Char}
    (inside : ∀ c ∈ run, endsWord inGroup c = false) (h_end : AtWordEnd inGroup rest) :
    wordTail inGroup (run ++ rest) = run ∧ afterWord inGroup (run ++ rest) = rest := by
  have h_inside : ∀ c ∈ run, (!endsWord inGroup c) = true := by
    intro c hc
    rw [inside c hc, Bool.not_false]
  cases rest with
  | nil =>
    unfold wordTail afterWord
    rw [List.takeWhile_append_of_pos h_inside, List.dropWhile_append_of_pos h_inside]
    simp
  | cons c rest =>
    have h_stop : (!endsWord inGroup c) = false := by rw [h_end c rest rfl, Bool.not_true]
    exact ⟨takeWhile_run h_inside h_stop, dropWhile_run h_inside h_stop⟩

theorem atWordEnd_afterWord (inGroup : Bool) (text : List Char) :
    AtWordEnd inGroup (afterWord inGroup text) := by
  intro c rest h
  by_contra h_word
  have h_head := List.head?_dropWhile_not (fun x => !endsWord inGroup x) text
  rw [← afterWord, h] at h_head
  simp_all

/-! ## Raw attribute text -/

/-- How many brackets are open after a text, on top of `depth` open ones before it, if none of those
    is closed in it. -/
def openAfter (depth : Nat) : List Char → Option Nat
  | [] => some depth
  | x :: cs =>
    if x = '[' then openAfter (depth + 1) cs
    else if x = ']' then
      match depth with
      | 0 => none
      | depth + 1 => openAfter depth cs
    else openAfter depth cs

@[simp] theorem openAfter_nil (depth : Nat) : openAfter depth [] = some depth := rfl

@[simp] theorem openAfter_open (depth : Nat) (cs : List Char) :
    openAfter depth ('[' :: cs) = openAfter (depth + 1) cs := by
  simp [openAfter]

@[simp] theorem openAfter_close_zero (cs : List Char) : openAfter 0 (']' :: cs) = none := by
  simp [openAfter]

@[simp] theorem openAfter_close_succ (depth : Nat) (cs : List Char) :
    openAfter (depth + 1) (']' :: cs) = openAfter depth cs := by
  simp [openAfter]

/-- Characters other than the two brackets do not count. -/
theorem openAfter_other {x : Char} (h_open : x ≠ '[') (h_close : x ≠ ']') (depth : Nat)
    (cs : List Char) : openAfter depth (x :: cs) = openAfter depth cs := by
  simp [openAfter, h_open, h_close]

theorem openAfter_append (depth : Nat) (cs ds : List Char) :
    openAfter depth (cs ++ ds) = (openAfter depth cs).bind fun d => openAfter d ds := by
  induction cs generalizing depth with
  | nil => rfl
  | cons x cs ih =>
    rw [List.cons_append]
    by_cases h_open : x = '['
    · subst h_open
      rw [openAfter_open, openAfter_open, ih]
    by_cases h_close : x = ']'
    · subst h_close
      cases depth with
      | zero => rfl
      | succ depth => rw [openAfter_close_succ, openAfter_close_succ, ih]
    · rw [openAfter_other h_open h_close, openAfter_other h_open h_close, ih]

theorem openAfter_of_no_bracket {cs : List Char} (h : ∀ c ∈ cs, c ≠ '[' ∧ c ≠ ']')
    (depth : Nat) : openAfter depth cs = some depth := by
  induction cs with
  | nil => rfl
  | cons x cs ih =>
    obtain ⟨h_open, h_close⟩ := h x List.mem_cons_self
    rw [openAfter_other h_open h_close]
    exact ih fun c hc => h c (List.mem_cons_of_mem _ hc)

theorem lengthToClosing?_eq_none_iff {depth count : Nat} {cs : List Char} :
    lengthToClosing? depth count cs = none ↔ (openAfter depth cs).isSome := by
  induction cs generalizing depth count with
  | nil => simp [lengthToClosing?]
  | cons x cs ih =>
    simp only [lengthToClosing?, openAfter]
    split
    · exact ih
    split
    · cases depth with
      | zero => simp
      | succ depth => exact ih
    · exact ih

/-- The search finds the `]` before which as many brackets are closed as were opened. -/
theorem lengthToClosing?_append {depth : Nat} {raw : List Char}
    (h : openAfter depth raw = some 0) (count : Nat) (rest : List Char) :
    lengthToClosing? depth count (raw ++ ']' :: rest) = some (count + raw.length) := by
  induction raw generalizing depth count with
  -- The depth is the brackets still open, so the `]` after the text is the one with none left.
  | nil =>
    obtain rfl : depth = 0 := by simpa using h
    simp [lengthToClosing?]
  | cons x raw ih =>
    have h_length : count + (x :: raw).length = count + 1 + raw.length := by
      rw [List.length_cons]
      omega
    rw [List.cons_append, h_length]
    simp only [lengthToClosing?]
    by_cases h_open : x = '['
    · subst h_open
      rw [openAfter_open] at h
      simpa using ih h (count + 1)
    by_cases h_close : x = ']'
    · subst h_close
      cases depth with
      | zero => exact absurd h (by simp)
      | succ depth =>
        rw [openAfter_close_succ] at h
        simpa using ih h (count + 1)
    · rw [openAfter_other h_open h_close] at h
      rw [if_neg h_open, if_neg h_close]
      exact ih h (count + 1)

/-- Either no bracket that was open before a text is closed in it and none besides, or the text has
    a first `]` that closes none of those opened in it. -/
theorem openAfter_eq_none_iff {depth : Nat} {cs : List Char} :
    openAfter depth cs = none ↔
      ∃ raw rest, cs = raw ++ ']' :: rest ∧ openAfter depth raw = some 0 := by
  constructor
  · intro h
    induction cs generalizing depth with
    | nil => exact absurd h (by simp)
    | cons x cs ih =>
      by_cases h_open : x = '['
      · subst h_open
        obtain ⟨raw, rest, rfl, h_raw⟩ := ih (by simpa using h)
        exact ⟨'[' :: raw, rest, rfl, by simpa using h_raw⟩
      by_cases h_close : x = ']'
      · subst h_close
        cases depth with
        -- This `]` closes none of those that were opened in the text.
        | zero => exact ⟨[], cs, rfl, rfl⟩
        | succ depth =>
          obtain ⟨raw, rest, rfl, h_raw⟩ := ih (by simpa using h)
          exact ⟨']' :: raw, rest, rfl, by simpa using h_raw⟩
      · rw [openAfter_other h_open h_close] at h
        obtain ⟨raw, rest, rfl, h_raw⟩ := ih h
        exact ⟨x :: raw, rest, rfl, by rw [openAfter_other h_open h_close, h_raw]⟩
  · rintro ⟨raw, rest, rfl, h_raw⟩
    rw [openAfter_append, h_raw]
    rfl

/-- The attribute that a raw text makes. -/
def rawText (raw : List Char) : List Node :=
  if raw = [] then [] else [.text (String.ofList raw)]

/-- The text after the name of a tag with raw attribute text, up to the end of its opener. -/
inductive RawOpening : List Char → List Char → List Char → Prop
  | bare (rest : List Char) : RawOpening (']' :: rest) [] rest
  | spaced {x : Char} {raw : List Char} (h_space : x ≠ ']') (balanced : openAfter 0 raw = some 0)
      (rest : List Char) : RawOpening (x :: (raw ++ ']' :: rest)) raw rest

theorem rawAttribute?_of_rawOpening {text raw rest : List Char}
    (h : RawOpening text raw rest) :
    rawAttribute? (Cursor.ofList text) = some (rawText raw, Cursor.ofList rest) := by
  unfold rawAttribute?
  cases h with
  | bare => simp [rawText]
  | @spaced x raw h_space balanced rest =>
    rw [Cursor.next?_ofList_cons]
    dsimp only
    rw [if_neg h_space, Cursor.rest_ofList, lengthToClosing?_append balanced, Nat.zero_add]
    cases raw with
    | nil =>
      refine congrArg some (Prod.ext rfl (Cursor.eq_of_rest_eq ?_))
      rfl
    | cons y raw =>
      refine congrArg some (Prod.ext ?_ (Cursor.eq_of_rest_eq ?_))
      · simp [rawText]
      · have h_drop : (y :: raw ++ ']' :: rest).drop (y :: raw).length = ']' :: rest :=
          List.drop_left
        rw [Cursor.rest_drop, Cursor.rest_ofList, Cursor.rest_ofList]
        show (y :: raw ++ ']' :: rest).drop ((y :: raw).length + 1) = rest
        rw [← List.drop_drop, h_drop, List.drop_one, List.tail_cons]

theorem rawAttribute?_eq_none_iff {text : List Char} :
    rawAttribute? (Cursor.ofList text) = none ↔ ∀ raw rest, ¬ RawOpening text raw rest := by
  constructor
  · intro h raw rest h_raw
    rw [rawAttribute?_of_rawOpening h_raw] at h
    exact absurd h (by simp)
  · intro h
    cases text with
    | nil => rfl
    | cons x text =>
      by_cases h_space : x = ']'
      · subst h_space
        exact absurd (.bare text) (h _ _)
      cases h_open : openAfter 0 text with
      | none =>
        obtain ⟨raw, rest, rfl, balanced⟩ := openAfter_eq_none_iff.1 h_open
        exact absurd (.spaced h_space balanced rest) (h _ _)
      -- No `]` before the end closes more than was opened, so the search runs to the end.
      | some depth =>
        unfold rawAttribute?
        have h_none : lengthToClosing? 0 0 text = none :=
          lengthToClosing?_eq_none_iff.2 (by rw [h_open, Option.isSome_some])
        rw [Cursor.next?_ofList_cons]
        dsimp only
        rw [if_neg h_space, Cursor.rest_ofList, h_none]

/-- Raw attributes that are read are the raw text before the `]` of the opener. -/
theorem rawAttribute?_eq_some {text : List Char} {attributes : List Node} {c : Cursor}
    (h : rawAttribute? (Cursor.ofList text) = some (attributes, c)) :
    ∃ raw, attributes = rawText raw ∧ RawOpening text raw c.rest := by
  by_cases h_some : ∃ raw rest, RawOpening text raw rest
  · obtain ⟨raw, rest, h_opening⟩ := h_some
    rw [rawAttribute?_of_rawOpening h_opening] at h
    obtain ⟨rfl, rfl⟩ := Prod.mk.inj (Option.some.inj h)
    exact ⟨raw, rfl, h_opening⟩
  · have h_none := rawAttribute?_eq_none_iff.2 fun raw rest h_opening =>
      h_some ⟨raw, rest, h_opening⟩
    exact absurd (h_none.symm.trans h) (by simp)

/-! ## Stored results -/

/-- One digit or more, and perhaps a minus sign before them. -/
def IsResult (value : List Char) : Prop :=
  ∃ sign digits : List Char, value = sign ++ digits ∧ (sign = [] ∨ sign = ['-']) ∧
    digits ≠ [] ∧ ∀ d ∈ digits, d.isDigit = true

/-- A result and after it the closer of the tag. -/
def Stored (text : List Char) (tag : Tag) (value after : List Char) : Prop :=
  ∃ rest, text = value ++ rest ∧ IsResult value ∧ Closing rest tag after

/-- Before digits, the first character tells whether there is a sign. -/
theorem sign_length {sign digits rest : List Char} (h_sign : sign = [] ∨ sign = ['-'])
    (h_nonempty : digits ≠ []) (h_digits : ∀ d ∈ digits, d.isDigit = true) :
    (if (sign ++ digits ++ rest).head? = some '-' then 1 else 0) = sign.length := by
  obtain ⟨d, ds, rfl⟩ := List.exists_cons_of_ne_nil h_nonempty
  have h_minus : d ≠ '-' := by
    rintro rfl
    exact absurd (h_digits '-' List.mem_cons_self) (by decide)
  rcases h_sign with rfl | rfl
  · rw [if_neg (by simpa using h_minus), List.length_nil]
  · rw [if_pos (by simp), List.length_singleton]

/-- What the reader takes is a result with its closer. -/
theorem stored_of_storedResult? {text : List Char} {tag : Tag} {value : String} {c : Cursor}
    (h : storedResult? tag (Cursor.ofList text) = some (value, c)) :
    Stored text tag value.toList c.rest := by
  unfold storedResult? at h
  rw [Cursor.rest_ofList] at h
  dsimp only at h
  generalize h_sign : (if text.head? = some '-' then 1 else 0) = sign at h
  split at h
  · exact absurd h (by simp)
  rename_i h_digits
  split at h
  · exact absurd h (by simp)
  rename_i closed stop h_closer
  split at h
  rotate_left
  · exact absurd h (by simp)
  rename_i h_closed
  subst h_closed
  obtain ⟨rfl, rfl⟩ := Prod.mk.inj (Option.some.inj h)
  -- The reader takes sign and digits in one piece; the statement tells them apart.
  have h_split : text.take (sign + ((text.drop sign).takeWhile Char.isDigit).length) =
      text.take sign ++ (text.drop sign).takeWhile Char.isDigit := by
    rw [List.take_add, ← List.prefix_iff_eq_take.1 (List.takeWhile_prefix _)]
  refine ⟨text.drop (sign + ((text.drop sign).takeWhile Char.isDigit).length), ?_, ?_, ?_⟩
  · rw [String.toList_ofList, List.take_append_drop]
  · refine ⟨text.take sign, (text.drop sign).takeWhile Char.isDigit, ?_, ?_, ?_, ?_⟩
    · rw [String.toList_ofList, h_split]
    · rw [← h_sign]
      split
      · rename_i h_minus
        cases text with
        | nil => exact .inl rfl
        | cons x text => exact .inr (by simpa using h_minus)
      · exact .inl rfl
    · simpa using h_digits
    · exact fun d hd => List.mem_takeWhile_imp hd
  · rw [drop_ofList] at h_closer
    exact closer?_eq_some_iff.1 h_closer

/-- A result with its closer is what the reader takes. -/
theorem storedResult?_of_stored {text value after : List Char} {tag : Tag}
    (h : Stored text tag value after) :
    storedResult? tag (Cursor.ofList text) = some (String.ofList value, Cursor.ofList after) := by
  obtain ⟨rest, h_text, ⟨sign, digits, h_value, h_sign, h_nonempty, h_digits⟩, h_closing⟩ := h
  -- The digits end where the bracket of the closer stands.
  have h_take : (digits ++ rest).takeWhile Char.isDigit = digits := by
    obtain ⟨name, -, h_rest, -⟩ := id h_closing
    rw [h_rest, takeWhile_run h_digits (by decide)]
  have h_length : (if text.head? = some '-' then 1 else 0) = sign.length := by
    rw [h_text, h_value]
    exact sign_length h_sign h_nonempty h_digits
  have h_drop : text.drop sign.length = digits ++ rest := by
    rw [h_text, h_value, List.append_assoc, List.drop_left]
  have h_stop : (Cursor.ofList text).drop (sign.length + digits.length) = Cursor.ofList rest := by
    apply Cursor.eq_of_rest_eq
    rw [Cursor.rest_drop, Cursor.rest_ofList, Cursor.rest_ofList, ← List.drop_drop, h_drop,
      List.drop_left]
  have h_chars : text.take (sign.length + digits.length) = value := by
    rw [h_text, ← List.length_append, ← h_value, List.take_left]
  unfold storedResult?
  rw [Cursor.rest_ofList]
  simp only [h_length, h_drop, h_take, h_stop, h_chars,
    (closer?_eq_some_iff (c := Cursor.ofList after)).2 h_closing]
  rw [if_neg (by simpa using h_nonempty), if_pos trivial]

theorem storedResult?_eq_some_iff {text : List Char} {tag : Tag} {value : String} {c : Cursor} :
    storedResult? tag (Cursor.ofList text) = some (value, c) ↔
      Stored text tag value.toList c.rest := by
  refine ⟨stored_of_storedResult?, fun h_stored => ?_⟩
  rw [storedResult?_of_stored h_stored, String.ofList_toList, Cursor.ofList_rest]

theorem storedResult?_eq_none_iff {text : List Char} {tag : Tag} :
    storedResult? tag (Cursor.ofList text) = none ↔
      ∀ value after, ¬ Stored text tag value after := by
  constructor
  · intro h value after h_stored
    rw [storedResult?_of_stored h_stored] at h
    exact absurd h (by simp)
  · intro h
    cases h_result : storedResult? tag (Cursor.ofList text) with
    | none => rfl
    | some found => exact absurd (storedResult?_eq_some_iff.1 h_result) (h _ _)

/-! ## Closers of unknown tags -/

/-- The text starts with `[/name]` in some spelling, up to `after`; the name is given in small
    letters. -/
def Ends (name text after : List Char) : Prop :=
  ∃ spelled : List Char, spelled.map Char.toLower = name ∧
    text = '[' :: '/' :: (spelled ++ ']' :: after)

theorem startsWithCloser_eq_true_iff {name text : List Char} :
    startsWithCloser name text = true ↔ ∃ after, Ends name text after := by
  constructor
  · intro h
    unfold startsWithCloser at h
    split at h
    rotate_left
    · exact absurd h (by simp)
    rename_i cs
    obtain ⟨h_name, h_closing⟩ := Bool.and_eq_true_iff.1 h
    -- As many characters are compared as the name has, and the `]` stands right behind them.
    have h_drop : ∃ after, cs.drop name.length = ']' :: after := by
      cases h_rest : cs.drop name.length with
      | nil => rw [h_rest] at h_closing; exact absurd h_closing (by simp)
      | cons x after =>
        rw [h_rest] at h_closing
        exact ⟨after, by simpa using h_closing⟩
    obtain ⟨after, h_after⟩ := h_drop
    refine ⟨after, cs.take name.length, by simpa using h_name, ?_⟩
    rw [← h_after, List.take_append_drop]
  · rintro ⟨after, spelled, rfl, rfl⟩
    simp [startsWithCloser]

theorem Ends.drop {name text after : List Char} (h : Ends name text after) :
    text.drop (name.length + 3) = after := by
  obtain ⟨spelled, rfl, rfl⟩ := h
  rw [List.length_map, List.drop_succ_cons, List.drop_succ_cons, ← List.drop_drop, List.drop_left,
    List.drop_one, List.tail_cons]

/-- What follows the first `[/name]`. -/
def afterFirstCloser? (name : List Char) : List Char → Option (List Char)
  | [] => none
  | x :: cs =>
    if startsWithCloser name (x :: cs) then some ((x :: cs).drop (name.length + 3))
    else afterFirstCloser? name cs

theorem lengthToCloser?_eq_map (name text : List Char) (count : Nat) :
    (lengthToCloser? name count text).map (fun n => text.drop (n - count + (name.length + 3))) =
      afterFirstCloser? name text ∧
    ∀ n, lengthToCloser? name count text = some n → count ≤ n := by
  induction text generalizing count with
  | nil => exact ⟨rfl, by simp [lengthToCloser?]⟩
  | cons x text ih =>
    obtain ⟨h_found, h_le⟩ := ih (count + 1)
    unfold lengthToCloser? afterFirstCloser?
    split
    · exact ⟨by simp, by simp⟩
    refine ⟨?_, fun n h_n => by have := h_le n h_n; omega⟩
    rw [← h_found]
    -- The count goes up by one and the text is one character shorter: the place is the same.
    cases h_length : lengthToCloser? name (count + 1) text with
    | none => rfl
    | some n =>
      have h_ge := h_le n h_length
      have h_shift : n - count + (name.length + 3) = n - (count + 1) + (name.length + 3) + 1 := by
        omega
      rw [Option.map_some, Option.map_some, h_shift, List.drop_succ_cons]

theorem afterCloser?_ofList (name : String) (text : List Char) :
    afterCloser? name (Cursor.ofList text) =
      (afterFirstCloser? (Tag.foldCase name).toList text).map Cursor.ofList := by
  rw [← (lengthToCloser?_eq_map _ text 0).1, Option.map_map]
  refine Option.map_congr fun n _ => ?_
  rw [drop_ofList, Function.comp_apply, Nat.sub_zero]

/-- The text from the first closer on is an end of the text. -/
theorem afterFirstCloser?_split {name text after : List Char}
    (h : afterFirstCloser? name text = some after) :
    ∃ before rest, text = before ++ rest ∧ Ends name rest after := by
  induction text with
  | nil => exact absurd h (by simp [afterFirstCloser?])
  | cons x text ih =>
    unfold afterFirstCloser? at h
    split at h
    · rename_i h_starts
      obtain ⟨found, h_ends⟩ := startsWithCloser_eq_true_iff.1 h_starts
      rw [h_ends.drop] at h
      obtain rfl := Option.some.inj h
      exact ⟨[], x :: text, rfl, h_ends⟩
    · obtain ⟨before, rest, rfl, h_ends⟩ := ih h
      exact ⟨x :: before, rest, rfl, h_ends⟩

/-- Where the text of an unknown tag ends, if its opener ends at `openEnd`: after its closer, or
    with its opener. -/
def unknownEnd (name : String) (openEnd : List Char) : List Char :=
  (afterFirstCloser? (Tag.foldCase name).toList openEnd).getD openEnd

theorem afterCloser?_getD (name : String) (openEnd : List Char) :
    (afterCloser? name (Cursor.ofList openEnd)).getD (Cursor.ofList openEnd) =
      Cursor.ofList (unknownEnd name openEnd) := by
  rw [afterCloser?_ofList, unknownEnd]
  cases afterFirstCloser? (Tag.foldCase name).toList openEnd <;> rfl

theorem unknownEnd_split (name : String) (openEnd : List Char) :
    ∃ taken, openEnd = taken ++ unknownEnd name openEnd := by
  unfold unknownEnd
  cases h : afterFirstCloser? (Tag.foldCase name).toList openEnd with
  | none => exact ⟨[], rfl⟩
  | some after =>
    obtain ⟨before, rest, h_text, spelled, -, h_rest⟩ := afterFirstCloser?_split h
    refine ⟨before ++ '[' :: '/' :: (spelled ++ [']']), ?_⟩
    rw [Option.getD_some, h_text, h_rest]
    simp

end DiceMarkup.Bracket
