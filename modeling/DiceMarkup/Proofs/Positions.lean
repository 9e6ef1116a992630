/-
  DiceMarkup.Proofs.Positions

  What the line and the column of a place say. The line table finds them by
  halves, among the offsets at which lines start; by their meaning they count the
  line feeds before the place, and the characters since the last one. Main
  statement: both are the same, for every offset. So positions come in the order
  of the places, no two places of a text have the same one, and a report on an
  issue has the positions around the part that it quotes.

  Pieces:
  * `Position.behind` — the position behind a text, by counting
  * `Position.behind_lt` — positions come in the order of the places
  * `Range.Holds` — the part of a text from one position to another
  * `lineStarts`, `LineTable.countUpTo_spec` — the table, and the search in it
  * `LineTable.position_eq` — the table gives the positions
  * `isValid_iff_exists_isPrefix` — the places between the characters of a string
  * `LineTable.position_counts` — the positions of the offsets in a string
  * `Issue.diagnostic_eq` — reports
-/
import DiceMarkup.Node.Issue
import Mathlib

namespace DiceMarkup

namespace Text

/-! ## Positions by counting -/

namespace Position

/-- The position behind a text: the lines that it ends, and the characters of its last line. -/
def behind (before : List Char) : Position :=
  ⟨before.count '\n', (before.reverse.takeWhile (· != '\n')).length⟩

/-- By line, and within a line by character. -/
instance : LT Position :=
  ⟨fun p q => p.line < q.line ∨ p.line = q.line ∧ p.character < q.character⟩

instance : LE Position :=
  ⟨fun p q => p.line < q.line ∨ p.line = q.line ∧ p.character ≤ q.character⟩

theorem lt_iff {p q : Position} :
    p < q ↔ p.line < q.line ∨ p.line = q.line ∧ p.character < q.character := Iff.rfl

theorem le_iff {p q : Position} :
    p ≤ q ↔ p.line < q.line ∨ p.line = q.line ∧ p.character ≤ q.character := Iff.rfl

/-- What stands before a line feed is not in the line behind it. -/
theorem takeWhile_feed (line before : List Char) :
    (line ++ '\n' :: before).takeWhile (· != '\n') = line.takeWhile (· != '\n') := by
  induction line with
  | nil => rfl
  | cons c line ih => rw [List.cons_append, List.takeWhile_cons, List.takeWhile_cons, ih]

theorem behind_snoc (before : List Char) (c : Char) :
    behind (before ++ [c]) =
      if c = '\n' then ⟨(behind before).line + 1, 0⟩
      else ⟨(behind before).line, (behind before).character + 1⟩ := by
  split
  · rename_i h_feed
    subst h_feed
    simp [behind]
  · rename_i h_other
    simp [behind, h_other]

/-- In a line all characters count. -/
theorem takeWhile_line {line : List Char} (h : '\n' ∉ line) :
    line.reverse.takeWhile (· != '\n') = line.reverse := by
  rw [List.takeWhile_eq_self_iff]
  intro c hc
  rw [bne_iff_ne]
  rintro rfl
  exact h (List.mem_reverse.1 hc)

theorem behind_line {line : List Char} (h : '\n' ∉ line) : behind line = ⟨0, line.length⟩ := by
  rw [behind, List.count_eq_zero_of_not_mem h, takeWhile_line h, List.length_reverse]

/-- The characters of a position are those of its line, which starts the text or comes behind a line
    feed. -/
theorem exists_line (before : List Char) :
    ∃ lines line, before = lines ++ line ∧ (lines = [] ∨ lines.getLast? = some '\n') ∧
      '\n' ∉ line ∧ behind before = ⟨before.count '\n', line.length⟩ := by
  have h_split := List.takeWhile_append_dropWhile (p := (· != '\n')) (l := before.reverse)
  refine ⟨(before.reverse.dropWhile (· != '\n')).reverse,
    (before.reverse.takeWhile (· != '\n')).reverse, ?_, ?_, ?_, ?_⟩
  · rw [← List.reverse_append, h_split, List.reverse_reverse]
  · rw [List.reverse_eq_nil_iff, List.getLast?_reverse]
    have h_head := List.head?_dropWhile_not (· != '\n') before.reverse
    cases h_rest : before.reverse.dropWhile (· != '\n') with
    | nil => exact .inl rfl
    | cons c rest =>
      rw [h_rest] at h_head
      exact .inr (by simpa using h_head)
  · intro h_feed
    have h_other := List.mem_takeWhile_imp (List.mem_reverse.1 h_feed)
    exact absurd h_other (by decide)
  · rw [behind, List.length_reverse]

/-- A line feed starts a new line, and any other character comes next in its line. -/
theorem behind_lt_snoc (before : List Char) (c : Char) :
    behind before < behind (before ++ [c]) := by
  rw [behind_snoc, lt_iff]
  split
  · exact .inl (Nat.lt_succ_self _)
  · exact .inr ⟨rfl, Nat.lt_succ_self _⟩

/-- Positions come in the order of the places. -/
theorem behind_lt (before : List Char) {more : List Char} (h_more : more ≠ []) :
    behind before < behind (before ++ more) := by
  induction more using List.reverseRecOn with
  | nil => exact absurd rfl h_more
  | append_singleton more c ih =>
    have h_last := behind_lt_snoc (before ++ more) c
    rw [← List.append_assoc]
    by_cases h_none : more = []
    · rwa [h_none, List.append_nil] at h_last ⊢
    · have h_first := ih h_none
      rw [lt_iff] at h_first h_last ⊢
      omega

theorem behind_le (before more : List Char) : behind before ≤ behind (before ++ more) := by
  by_cases h_more : more = []
  · rw [h_more, List.append_nil, le_iff]
    omega
  · have h_lt := behind_lt before h_more
    rw [lt_iff] at h_lt
    rw [le_iff]
    omega

theorem eq_of_behind_of_le {before before' : List Char} (h_before : before <+: before')
    (h : behind before = behind before') : before = before' := by
  obtain ⟨more, rfl⟩ := h_before
  by_cases h_more : more = []
  · rw [h_more, List.append_nil]
  · have h_lt := behind_lt before h_more
    rw [← h, lt_iff] at h_lt
    omega

/-- Two places of one text that have the same position are the same. -/
theorem eq_of_behind {text before before' : List Char} (h_before : before <+: text)
    (h_before' : before' <+: text) (h : behind before = behind before') : before = before' := by
  rcases List.prefix_or_prefix_of_prefix h_before h_before' with h_first | h_second
  · exact eq_of_behind_of_le h_first h
  · exact (eq_of_behind_of_le h_second h.symm).symm

end Position

/-- The range holds this part of the text: it goes from the position before the part to the one
    behind it. -/
def Range.Holds (range : Range) (text part : List Char) : Prop :=
  ∃ before rest, text = before ++ (part ++ rest) ∧
    range.start = .behind before ∧ range.stop = .behind (before ++ part)

namespace Range.Holds

variable {range : Range} {text part part' : List Char}

theorem le (h : range.Holds text part) : range.start ≤ range.stop := by
  obtain ⟨before, rest, -, h_start, h_stop⟩ := h
  rw [h_start, h_stop]
  exact Position.behind_le before part

/-- A range holds one part of a text at most. -/
theorem unique (h : range.Holds text part) (h' : range.Holds text part') : part = part' := by
  obtain ⟨before, rest, h_text, h_start, h_stop⟩ := h
  obtain ⟨before', rest', h_text', h_start', h_stop'⟩ := h'
  have h_before : before = before' :=
    Position.eq_of_behind ⟨_, h_text.symm⟩ ⟨_, h_text'.symm⟩ (h_start.symm.trans h_start')
  have h_begins : before ++ part <+: text := ⟨rest, by rw [h_text, List.append_assoc]⟩
  have h_begins' : before' ++ part' <+: text := ⟨rest', by rw [h_text', List.append_assoc]⟩
  have h_behind := Position.eq_of_behind h_begins h_begins' (h_stop.symm.trans h_stop')
  rw [h_before] at h_behind
  exact List.append_cancel_left h_behind

end Range.Holds

/-! ## Characters that lie in a number of bytes -/

theorem takeBytes_append (n : Nat) (cs ds : List Char) (h : byteLength cs ≤ n) :
    takeBytes n (cs ++ ds) = cs ++ takeBytes (n - byteLength cs) ds := by
  induction cs generalizing n with
  | nil => rfl
  | cons c cs ih =>
    rw [byteLength_cons] at h
    rw [List.cons_append, takeBytes_cons, if_pos (by omega), ih (n - c.utf8Size) (by omega),
      byteLength_cons, Nat.sub_sub]
    rfl

theorem takeBytes_isPrefix (n : Nat) (cs : List Char) : takeBytes n cs <+: cs := by
  induction cs generalizing n with
  | nil => rfl
  | cons c cs ih =>
    rw [takeBytes_cons]
    split
    · exact List.cons_prefix_cons.2 ⟨rfl, ih _⟩
    · exact List.nil_prefix

theorem byteLength_takeBytes_le (n : Nat) (cs : List Char) : byteLength (takeBytes n cs) ≤ n := by
  induction cs generalizing n with
  | nil => exact Nat.zero_le n
  | cons c cs ih =>
    rw [takeBytes_cons]
    split
    · have h_rest := ih (n - c.utf8Size)
      rw [byteLength_cons]
      omega
    · exact Nat.zero_le n

/-- No more than these characters lie in the first `n` bytes. -/
theorem isPrefix_takeBytes {n : Nat} {before cs : List Char} (h_begins : before <+: cs)
    (h_fits : byteLength before ≤ n) : before <+: takeBytes n cs := by
  obtain ⟨rest, rfl⟩ := h_begins
  rw [takeBytes_append n before rest h_fits]
  exact List.prefix_append _ _

/-- The bytes of a beginning are taken for it. -/
theorem takeBytes_of_isPrefix {before cs : List Char} (h : before <+: cs) :
    takeBytes (byteLength before) cs = before := by
  obtain ⟨rest, rfl⟩ := h
  exact takeBytes_byteLength_append before rest

theorem byteLength_le_of_isPrefix {before cs : List Char} (h : before <+: cs) :
    byteLength before ≤ byteLength cs := by
  obtain ⟨rest, rfl⟩ := h
  rw [byteLength_append]
  exact Nat.le_add_right _ _

/-- The bytes of a text are those of the string. -/
theorem byteLength_toList (source : String) : byteLength source.toList = source.utf8ByteSize := by
  have h_length : ∀ cs : List Char, byteLength cs = String.utf8Len cs := by
    intro cs
    induction cs with
    | nil => rfl
    | cons c cs ih => rw [byteLength_cons, ih, String.utf8Len_cons, Nat.add_comm]
  rw [h_length, ← String.utf8ByteSize_ofList, String.ofList_toList]

/-- The offsets between characters are the bytes of the beginnings of the text. -/
theorem isValid_iff_exists_isPrefix {source : String} {n : Nat} :
    String.Pos.Raw.IsValid source ⟨n⟩ ↔
      ∃ before, before <+: source.toList ∧ byteLength before = n := by
  rw [String.Pos.Raw.isValid_iff_exists_append]
  constructor
  · rintro ⟨before, rest, rfl, h_offset⟩
    refine ⟨before.toList, ⟨rest.toList, String.toList_append.symm⟩, ?_⟩
    rw [byteLength_toList]
    exact (congrArg String.Pos.Raw.byteIdx h_offset).symm
  · rintro ⟨before, ⟨rest, h_text⟩, rfl⟩
    refine ⟨String.ofList before, String.ofList rest, ?_, ?_⟩
    · rw [← String.ofList_append, h_text, String.ofList_toList]
    · rw [String.Pos.Raw.ext_iff, String.byteIdx_rawEndPos, ← byteLength_toList,
        String.toList_ofList]

namespace LineTable

theorem columns_eq (n count : Nat) (cs : List Char) :
    columns n count cs = count + (takeBytes n cs).length := by
  induction cs generalizing n count with
  | nil => rfl
  | cons c cs ih =>
    rw [columns, takeBytes_cons]
    split
    · rw [ih, List.length_cons]
      omega
    · rfl

/-! ## The table -/

/-- The starts of the lines after the first one, if the text stands at this offset. -/
def lineStarts (offset : Nat) : List Char → List LineStart
  | [] => []
  | c :: cs =>
    if c = '\n' then ⟨offset + c.utf8Size, cs⟩ :: lineStarts (offset + c.utf8Size) cs
    else lineStarts (offset + c.utf8Size) cs

theorem toList_starts (offset : Nat) (found : Array LineStart) (cs : List Char) :
    (starts offset found cs).toList = found.toList ++ lineStarts offset cs := by
  induction cs generalizing offset found with
  | nil => simp [starts, lineStarts]
  | cons c cs ih =>
    rw [starts, lineStarts, ih]
    split <;> simp

/-- A line starts behind its line feed. -/
theorem lt_offset_of_mem {offset : Nat} {cs : List Char} {start : LineStart}
    (h : start ∈ lineStarts offset cs) : offset < start.offset := by
  induction cs generalizing offset with
  | nil => exact absurd h (by simp [lineStarts])
  | cons c cs ih =>
    have h_size := c.utf8Size_pos
    rw [lineStarts] at h
    split at h
    · rcases List.mem_cons.1 h with rfl | h_rest
      · show offset < offset + c.utf8Size
        omega
      · have h_lt := ih h_rest
        omega
    · have h_lt := ih h
      omega

/-- Lines start one after the other. -/
theorem pairwise_lineStarts (offset : Nat) (cs : List Char) :
    (lineStarts offset cs).Pairwise fun a b => a.offset < b.offset := by
  induction cs generalizing offset with
  | nil => exact .nil
  | cons c cs ih =>
    rw [lineStarts]
    split
    · exact .cons (fun start h_mem => lt_offset_of_mem h_mem) (ih _)
    · exact ih _

/-! ## The search -/

/-- The search by halves finds where the starts up to an offset end. -/
theorem countUpTo_spec {found : Array LineStart} (offset : Nat)
    (h_sorted : found.toList.Pairwise fun a b => a.offset < b.offset) {lo hi : Nat}
    (h_le : lo ≤ hi) (h_size : hi ≤ found.size)
    (h_before : ∀ i (h : i < found.size), i < lo → found[i].offset ≤ offset)
    (h_after : ∀ i (h : i < found.size), hi ≤ i → offset < found[i].offset) :
    countUpTo found offset lo hi ≤ found.size ∧
      (∀ i (h : i < found.size), i < countUpTo found offset lo hi → found[i].offset ≤ offset) ∧
      ∀ i (h : i < found.size), countUpTo found offset lo hi ≤ i → offset < found[i].offset := by
  have h_less : ∀ i j (h_i : i < found.size) (h_j : j < found.size), i < j →
      found[i].offset < found[j].offset := fun i j h_i h_j h_lt => by
    rw [← Array.getElem_toList h_i, ← Array.getElem_toList h_j]
    exact List.pairwise_iff_getElem.1 h_sorted i j h_i h_j h_lt
  fun_induction countUpTo found offset lo hi with
  | case1 lo hi h_lt mid h_none =>
    exact absurd (Array.getElem?_eq_none_iff.1 h_none) (by omega)
  | case2 lo hi h_lt mid start h_start h_offset ih =>
    obtain ⟨h_mid, rfl⟩ := Array.getElem?_eq_some_iff.1 h_start
    -- All starts up to the middle one are at the offset or before.
    refine ih (by omega) h_size (fun i h_i h_lo => ?_) h_after
    rcases Nat.lt_or_eq_of_le (Nat.lt_succ_iff.1 h_lo) with h_less_mid | h_eq
    · have h_start_lt := h_less i mid h_i h_mid h_less_mid
      omega
    · simpa [h_eq] using h_offset
  | case3 lo hi h_lt mid start h_start h_offset ih =>
    obtain ⟨h_mid, rfl⟩ := Array.getElem?_eq_some_iff.1 h_start
    -- The middle one and all starts after it are behind the offset.
    refine ih (by omega) (by omega) h_before fun i h_i h_hi => ?_
    rcases Nat.lt_or_eq_of_le h_hi with h_mid_lt | h_eq
    · have h_start_lt := h_less mid i h_mid h_i h_mid_lt
      omega
    · simpa [← h_eq] using h_offset
  | case4 lo hi h_end =>
    obtain rfl : lo = hi := by omega
    exact ⟨h_size, fun i h_i h_lo => h_before i h_i h_lo, fun i h_i h_hi => h_after i h_i h_hi⟩

/-- In all starts, the search counts those up to the offset. -/
theorem countUpTo_size_spec {found : Array LineStart} (offset : Nat)
    (h_sorted : found.toList.Pairwise fun a b => a.offset < b.offset) :
    let count := countUpTo found offset 0 found.size
    count ≤ found.size ∧ (∀ i (h : i < found.size), i < count → found[i].offset ≤ offset) ∧
      ∀ i (h : i < found.size), count ≤ i → offset < found[i].offset :=
  countUpTo_spec offset h_sorted (Nat.zero_le _) le_rfl
    (fun _ _ h => absurd h (Nat.not_lt_zero _)) (fun i h h_le => absurd h (by omega))

/-- The starts up to an offset are as many as the search says. -/
theorem takeWhile_eq_take {found : Array LineStart} (offset : Nat)
    (h_sorted : found.toList.Pairwise fun a b => a.offset < b.offset) :
    (found.toList.takeWhile fun start => start.offset ≤ offset) =
      found.toList.take (countUpTo found offset 0 found.size) := by
  obtain ⟨h_size, h_before, h_after⟩ := countUpTo_size_spec offset h_sorted
  generalize countUpTo found offset 0 found.size = count at *
  have h_taken : ∀ start ∈ found.toList.take count, decide (start.offset ≤ offset) = true := by
    intro start h_mem
    obtain ⟨i, h_i, rfl⟩ := List.mem_iff_getElem.1 h_mem
    rw [List.length_take] at h_i
    have h_index : i < found.size := by
      have h_length : found.toList.length = found.size := Array.length_toList
      omega
    simpa using h_before i h_index (by omega)
  conv_lhs => rw [← List.take_append_drop count found.toList]
  rw [List.takeWhile_append_of_pos h_taken]
  -- What comes next starts too late.
  by_cases h_last : count < found.size
  · have h_late := h_after count h_last le_rfl
    rw [List.drop_eq_getElem_cons (by simpa using h_last), List.takeWhile_cons_of_neg,
      List.append_nil]
    simpa using h_late
  · rw [List.drop_eq_nil_of_le (by simp; omega), List.takeWhile_nil, List.append_nil]

/-! ## Positions from the table -/

/-- No line starts up to an offset within the next character. -/
theorem started_of_late {n offset : Nat} {c : Char} (h_late : n < offset + c.utf8Size)
    (cs : List Char) :
    ((lineStarts offset (c :: cs)).takeWhile fun start => start.offset ≤ n) = [] := by
  have h_starts : ∀ start ∈ lineStarts offset (c :: cs), n < start.offset := by
    intro start h_mem
    rw [lineStarts] at h_mem
    split at h_mem
    · rcases List.mem_cons.1 h_mem with rfl | h_rest
      · exact h_late
      · exact h_late.trans (lt_offset_of_mem h_rest)
    · exact h_late.trans (lt_offset_of_mem h_mem)
  cases h_list : lineStarts offset (c :: cs) with
  | nil => rfl
  | cons start others =>
    -- Lines start in order, but here no start counts, and so not the first one.
    have h_first := h_starts start (by rw [h_list]; exact List.mem_cons_self)
    exact List.takeWhile_cons_of_neg (by simpa using h_first)

/-- In the line that an offset lies in, all characters up to the offset count. -/
theorem columns_of_line {n offset : Nat} {line : LineStart} {inside cs : List Char}
    (h_line : line.rest = inside ++ cs) (h_offset : line.offset + byteLength inside = offset)
    (h_inside : '\n' ∉ inside) (h_le : offset ≤ n) (h_none : takeBytes (n - offset) cs = []) :
    columns (n - line.offset) 0 line.rest =
      ((inside ++ takeBytes (n - offset) cs).reverse.takeWhile (· != '\n')).length := by
  have h_left : n - line.offset - byteLength inside = n - offset := by omega
  rw [columns_eq, h_line, takeBytes_append _ _ _ (by omega), h_left, h_none, List.append_nil,
    Position.takeWhile_line h_inside, Nat.zero_add, List.length_reverse]

/-- From some place in a line on: the lines that start up to an offset are the line feeds before it,
    and the last of them starts the line of the offset. The induction is on the text behind the
    place; `line` is the start of the line, and `inside` the characters of it before the place. -/
theorem lines_upTo {n offset : Nat} {line : LineStart} {inside cs : List Char}
    (h_line : line.rest = inside ++ cs) (h_offset : line.offset + byteLength inside = offset)
    (h_inside : '\n' ∉ inside) (h_le : offset ≤ n) :
    let started := (lineStarts offset cs).takeWhile fun start => start.offset ≤ n
    let last := started.getLast?.getD line
    started.length = (takeBytes (n - offset) cs).count '\n' ∧
      columns (n - last.offset) 0 last.rest =
        ((inside ++ takeBytes (n - offset) cs).reverse.takeWhile (· != '\n')).length := by
  induction cs generalizing offset line inside with
  | nil => exact ⟨rfl, columns_of_line h_line h_offset h_inside h_le rfl⟩
  | cons c cs ih =>
    by_cases h_fits : c.utf8Size ≤ n - offset
    · rw [takeBytes_cons, if_pos h_fits, Nat.sub_sub]
      by_cases h_feed : c = '\n'
      · subst h_feed
        -- A new line starts behind the line feed, with nothing in it yet.
        let next : LineStart := ⟨offset + '\n'.utf8Size, cs⟩
        have h_next : next.rest = [] ++ cs := rfl
        have h_start : next.offset + byteLength [] = offset + '\n'.utf8Size := rfl
        obtain ⟨ih_count, ih_columns⟩ := ih h_next h_start (by simp) (by omega)
        rw [lineStarts, if_pos rfl, List.takeWhile_cons_of_pos (by simp; omega)]
        refine ⟨by rw [List.length_cons, ih_count, List.count_cons_self], ?_⟩
        rw [List.getLast?_cons, Option.getD_some, ih_columns, List.nil_append,
          List.reverse_append, List.reverse_cons, List.append_assoc,
          List.singleton_append, Position.takeWhile_feed]
      · have h_next : line.rest = inside ++ [c] ++ cs := by simp [h_line]
        have h_end : line.offset + byteLength (inside ++ [c]) = offset + c.utf8Size := by
          rw [byteLength_append, byteLength_cons, byteLength_nil]
          omega
        have h_same : '\n' ∉ inside ++ [c] := by simpa [h_inside] using Ne.symm h_feed
        obtain ⟨ih_count, ih_columns⟩ := ih h_next h_end h_same (by omega)
        rw [lineStarts, if_neg h_feed]
        refine ⟨by rw [ih_count, List.count_cons_of_ne h_feed], ?_⟩
        rw [ih_columns, List.append_assoc]
        rfl
    -- The character reaches beyond the offset, and the lines start behind it.
    · have h_none : takeBytes (n - offset) (c :: cs) = [] := by
        rw [takeBytes_cons, if_neg h_fits]
      have h_late : n < offset + c.utf8Size := by omega
      have h_started := started_of_late h_late cs
      have h_columns := columns_of_line h_line h_offset h_inside h_le h_none
      dsimp only
      rw [h_started]
      exact ⟨by rw [h_none]; rfl, h_columns⟩

/-- The table gives the position behind the characters that lie whole before an offset. -/
theorem position_eq (cs : List Char) (offset : Nat) :
    (ofList cs).position offset = Position.behind (takeBytes offset cs) := by
  have h_list : (ofList cs).others.toList = lineStarts 0 cs := by
    rw [ofList, toList_starts, List.nil_append]
  have h_sorted := pairwise_lineStarts 0 cs
  rw [← h_list] at h_sorted
  have h_taken := takeWhile_eq_take offset h_sorted
  -- The first line starts with the text, so that nothing stands before it in its line.
  let first : LineStart := ⟨0, cs⟩
  have h_rest : first.rest = [] ++ cs := rfl
  have h_first : first.offset + byteLength [] = 0 := rfl
  obtain ⟨h_count, h_columns⟩ := lines_upTo h_rest h_first (by simp) (Nat.zero_le offset)
  obtain ⟨h_size, -, -⟩ := countUpTo_size_spec offset h_sorted
  rw [← h_list, h_taken, Nat.sub_zero] at h_count h_columns
  rw [position, Position.behind]
  generalize countUpTo (ofList cs).others offset 0 (ofList cs).others.size = count at *
  have h_line : count = (takeBytes offset cs).count '\n' := by
    rw [← h_count, List.length_take, Array.length_toList]
    omega
  -- The table looks up the last start that was counted, or the start of the first line.
  have h_start : (if count = 0 then (ofList cs).first
      else (ofList cs).others[count - 1]?.getD (ofList cs).first) =
      ((ofList cs).others.toList.take count).getLast?.getD ⟨0, cs⟩ := by
    split
    · rename_i h_zero
      rw [h_zero]
      rfl
    · rename_i h_pos
      rw [List.getLast?_take, if_neg h_pos, Array.getElem?_toList,
        Array.getElem?_eq_getElem (by omega)]
      rfl
  rw [h_start, h_columns, ← h_line]
  rfl

/-! ## Offsets in a string -/

/-- An offset has the position of the last place between two characters that is not behind it: the
    line feeds before that place, and the characters from the start of its line on. Positions come
    in the order of the offsets, and no two places between characters have the same one. -/
theorem position_counts (source : String) :
    (∀ offset, ∃ m, IsGreatest
        {m | String.Pos.Raw.IsValid source ⟨m⟩ ∧ m ≤ min offset source.utf8ByteSize} m ∧
      ∃ lines line rest, source.toList = (lines ++ line) ++ rest ∧ byteLength (lines ++ line) = m ∧
        (lines = [] ∨ lines.getLast? = some '\n') ∧ '\n' ∉ line ∧
        (ofList source.toList).position offset = ⟨(lines ++ line).count '\n', line.length⟩) ∧
      (∀ offset offset', offset ≤ offset' →
        (ofList source.toList).position offset ≤ (ofList source.toList).position offset') ∧
      ∀ offset offset', String.Pos.Raw.IsValid source ⟨offset⟩ →
        String.Pos.Raw.IsValid source ⟨offset'⟩ →
          (ofList source.toList).position offset = (ofList source.toList).position offset' →
            offset = offset' := by
  refine ⟨fun offset => ?_, fun offset offset' h_le => ?_, fun offset offset' h h' h_same => ?_⟩
  · let before := takeBytes offset source.toList
    have h_begins : before <+: source.toList := takeBytes_isPrefix _ _
    obtain ⟨rest, h_text⟩ := id h_begins
    obtain ⟨lines, line, h_before, h_start, h_line, h_behind⟩ := Position.exists_line before
    refine ⟨byteLength before, ⟨⟨isValid_iff_exists_isPrefix.2 ⟨before, h_begins, rfl⟩, ?_⟩, ?_⟩,
      lines, line, rest, by rw [← h_before, h_text], by rw [h_before], h_start, h_line, ?_⟩
    · rw [← byteLength_toList]
      exact le_min (byteLength_takeBytes_le _ _) (byteLength_le_of_isPrefix h_begins)
    · rintro m ⟨h_valid, h_m⟩
      obtain ⟨other, h_other, rfl⟩ := isValid_iff_exists_isPrefix.1 h_valid
      exact byteLength_le_of_isPrefix (isPrefix_takeBytes h_other (h_m.trans (min_le_left _ _)))
    · rw [position_eq, ← h_before]
      exact h_behind
  · have h_size := byteLength_takeBytes_le offset source.toList
    obtain ⟨more, h_more⟩ :=
      isPrefix_takeBytes (takeBytes_isPrefix offset source.toList) (h_size.trans h_le)
    rw [position_eq, position_eq, ← h_more]
    exact Position.behind_le _ _
  · obtain ⟨before, h_before, rfl⟩ := isValid_iff_exists_isPrefix.1 h
    obtain ⟨before', h_before', rfl⟩ := isValid_iff_exists_isPrefix.1 h'
    rw [position_eq, position_eq, takeBytes_of_isPrefix h_before,
      takeBytes_of_isPrefix h_before'] at h_same
    rw [Position.eq_of_behind h_before h_before' h_same]

/-- In the middle of a character that takes three bytes. -/
example : (ofList "가\n나".toList).position 5 = ⟨1, 0⟩ := by cbv

end LineTable

end Text

/-! ## Reports -/

open Text (Cursor LineTable Position byteLength)

/-- What stands before a place, by the bytes that are left there. -/
theorem takeBytes_before {text before : List Char} {c : Cursor} (h : text = before ++ c.rest) :
    Text.takeBytes (byteLength text - c.left) text = before := by
  have h_size : byteLength text - c.left = byteLength before := by
    rw [h, Text.byteLength_append, c.left_eq]
    omega
  rw [h_size, h, Text.takeBytes_byteLength_append]

/-- A report has the positions before and behind the part of the text that it quotes. -/
theorem Issue.diagnostic_eq {issue : Issue} {text before marked : List Char}
    (h_start : text = before ++ issue.start.rest)
    (h_stop : issue.start.rest = marked ++ issue.stop.rest) :
    issue.diagnostic (byteLength text) (LineTable.ofList text) =
      { range := some ⟨.behind before, .behind (before ++ marked)⟩
        severity := .warning
        code := issue.problem.code
        message := issue.problem.message
        snippet := String.ofList marked } := by
  have h_behind : text = (before ++ marked) ++ issue.stop.rest := by
    rw [h_start, h_stop, List.append_assoc]
  rw [Issue.diagnostic, LineTable.position_eq, LineTable.position_eq, takeBytes_before h_start,
    takeBytes_before h_behind, Issue.snippet, Cursor.textTo_eq h_stop]

end DiceMarkup
