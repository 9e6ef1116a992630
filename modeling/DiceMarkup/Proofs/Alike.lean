/-
  DiceMarkup.Proofs.Alike

  What a reader can tell about the far end of a text. A tag with raw attributes
  counts brackets up to the `]` that closes its own, and an unknown tag looks
  for its closer; nothing else looks past the next closer. Two texts that agree
  on both are alike, and stay alike under the changes that writing makes to a
  text.
-/
import DiceMarkup.Proofs.Rules

namespace DiceMarkup.Rules

open DiceMarkup.Bracket (Opening Closing Ends openAfter startsWithCloser afterFirstCloser?
  unknownEnd)

/-! ## Closers of unknown tags -/

/-- The name of an unknown tag, in small letters. -/
def UnknownName (name : List Char) : Prop :=
  ∃ written : String, Tag.resolve? written = none ∧ written.toList ≠ [] ∧
    (∀ c ∈ written.toList, c.isAlpha = true) ∧ name = (Tag.foldCase written).toList

/-- The closer of an unknown tag does not occur in the text. -/
def Absent (name text : List Char) : Prop :=
  afterFirstCloser? name text = none

theorem absent_nil (name : List Char) : Absent name [] := rfl

theorem absent_cons_iff {name text : List Char} {c : Char} :
    Absent name (c :: text) ↔
      startsWithCloser name (c :: text) = false ∧ Absent name text := by
  unfold Absent
  rw [afterFirstCloser?]
  cases startsWithCloser name (c :: text) <;> simp

/-- A closer starts with a bracket. -/
theorem startsWithCloser_of_ne {name text : List Char} {c : Char} (h : c ≠ '[') :
    startsWithCloser name (c :: text) = false := by
  unfold startsWithCloser
  split
  · rename_i h_text
    exact absurd (List.cons.inj h_text).1 h
  · rfl

theorem absent_cons_of_ne {name text : List Char} {c : Char} (h : c ≠ '[') :
    Absent name (c :: text) ↔ Absent name text := by
  rw [absent_cons_iff, startsWithCloser_of_ne h]
  simp

/-- Characters other than brackets are in no one's way. -/
theorem absent_append_of_ne {name run text : List Char} (h : ∀ c ∈ run, c ≠ '[') :
    Absent name (run ++ text) ↔ Absent name text := by
  induction run with
  | nil => rfl
  | cons c run ih =>
    rw [List.cons_append, absent_cons_of_ne (h c List.mem_cons_self)]
    exact ih fun d hd => h d (List.mem_cons_of_mem _ hd)

theorem absent_of_append {name before text : List Char} (h : Absent name (before ++ text)) :
    Absent name text := by
  induction before with
  | nil => exact h
  | cons c before ih => exact ih (absent_cons_iff.1 h).2

/-! ## Names and brackets -/

/-- A letter in the other case is a letter still, and nothing else becomes one. -/
theorem isAlpha_toLower (c : Char) : c.toLower.isAlpha = c.isAlpha := by
  unfold Char.toLower
  split
  · rename_i h_upper
    obtain ⟨h_first, h_last⟩ := h_upper
    simp only [UInt32.le_iff_toNat_le] at h_first h_last
    rw [Bool.eq_iff_iff]
    simp only [Char.isAlpha, Char.isUpper, Char.isLower, ge_iff_le, Bool.or_eq_true,
      Bool.and_eq_true, decide_eq_true_eq, UInt32.le_iff_toNat_le, UInt32.toNat_add]
    simp at *
    omega
  · rfl

/-- Neither of the two brackets is among the characters. -/
def NoBracket (run : List Char) : Prop :=
  ∀ c ∈ run, c ≠ '[' ∧ c ≠ ']'

theorem noBracket_of_isAlpha {run : List Char} (h : ∀ c ∈ run, c.isAlpha = true) :
    NoBracket run := by
  intro c hc
  exact ⟨Bracket.ne_of_isAlpha (h c hc) (by decide), Bracket.ne_of_isAlpha (h c hc) (by decide)⟩

theorem NoBracket.append {run run' : List Char} (h : NoBracket run) (h' : NoBracket run') :
    NoBracket (run ++ run') := by
  intro c hc
  rcases List.mem_append.1 hc with h_mem | h_mem
  · exact h c h_mem
  · exact h' c h_mem

theorem NoBracket.slash {run : List Char} (h : NoBracket run) : NoBracket ('/' :: run) := by
  intro c hc
  rcases List.mem_cons.1 hc with rfl | h_mem
  · decide
  · exact h c h_mem

theorem noBracket_of_isDigit {digits : List Char} (h : ∀ d ∈ digits, d.isDigit = true) :
    NoBracket digits := by
  intro c hc
  constructor
  · rintro rfl
    exact absurd (h _ hc) (by decide)
  · rintro rfl
    exact absurd (h _ hc) (by decide)

theorem noBracket_of_isResult {value : List Char} (h : Bracket.IsResult value) :
    NoBracket value := by
  obtain ⟨sign, digits, rfl, h_sign, -, h_digits⟩ := h
  have h_digits' := noBracket_of_isDigit h_digits
  rcases h_sign with rfl | rfl
  · exact h_digits'
  · intro c hc
    rcases List.mem_cons.1 hc with rfl | h_mem
    · decide
    · exact h_digits' c h_mem

/-- The closer of an unknown tag is spelled with letters. -/
theorem UnknownName.letters {name spelled : List Char} (h : UnknownName name)
    (h_spelled : spelled.map Char.toLower = name) :
    spelled ≠ [] ∧ ∀ c ∈ spelled, c.isAlpha = true := by
  obtain ⟨written, -, h_nonempty, h_letters, rfl⟩ := h
  rw [Tag.foldCase, String.toList_ofList] at h_spelled
  constructor
  · rintro rfl
    exact h_nonempty (List.map_eq_nil_iff.1 h_spelled.symm)
  · intro c hc
    have h_mem : c.toLower ∈ written.toList.map Char.toLower := by
      rw [← h_spelled]
      exact List.mem_map.2 ⟨c, hc, rfl⟩
    obtain ⟨d, hd, h_eq⟩ := List.mem_map.1 h_mem
    rw [← isAlpha_toLower, ← h_eq, isAlpha_toLower]
    exact h_letters d hd

theorem UnknownName.noBracket {name spelled : List Char} (h : UnknownName name)
    (h_spelled : spelled.map Char.toLower = name) : NoBracket spelled :=
  noBracket_of_isAlpha (h.letters h_spelled).2

/-- A run up to a `]` ends with the first `]` of the text. -/
theorem of_append_eq {run after q r : List Char} (h_run : ∀ c ∈ run, c ≠ ']') (h_mem : ']' ∈ q)
    (h : run ++ ']' :: after = q ++ r) : ∃ q', q = run ++ ']' :: q' ∧ after = q' ++ r := by
  rcases List.append_eq_append_iff.1 h with ⟨rest, h_q, h_rest⟩ | ⟨rest, h_run', -⟩
  · cases rest with
    | nil =>
      rw [h_q, List.append_nil] at h_mem
      exact absurd rfl (h_run _ h_mem)
    | cons c rest =>
      obtain ⟨rfl, h_after⟩ := List.cons.inj h_rest
      exact ⟨rest, h_q, h_after⟩
  · have h_inside : ']' ∈ run := by
      rw [h_run']
      exact List.mem_append_left _ h_mem
    exact absurd rfl (h_run _ h_inside)

/-! ## Alike texts -/

/-- Two texts that cannot be told apart from afar. -/
structure Alike (text text' : List Char) : Prop where
  brackets : ∀ depth, openAfter depth text' = openAfter depth text
  absent : ∀ name, UnknownName name → Absent name text → Absent name text'

theorem Alike.refl (text : List Char) : Alike text text :=
  ⟨fun _ => rfl, fun _ _ h => h⟩

theorem Alike.trans {text text' text'' : List Char} (h : Alike text text')
    (h' : Alike text' text'') : Alike text text'' where
  brackets := fun depth => (h'.brackets depth).trans (h.brackets depth)
  absent := fun name h_name h_absent => h'.absent name h_name (h.absent name h_name h_absent)

theorem openAfter_run {run : List Char} (h : NoBracket run) (depth : Nat) (text : List Char) :
    openAfter depth (run ++ text) = openAfter depth text := by
  rw [Bracket.openAfter_append, Bracket.openAfter_of_no_bracket h, Option.bind_some]

/-- Runs without brackets may come and go. -/
theorem Alike.replace {run run' text text' : List Char} (h_run : NoBracket run)
    (h_run' : NoBracket run') (h : Alike text text') : Alike (run ++ text) (run' ++ text') where
  brackets := by
    intro depth
    rw [openAfter_run h_run, openAfter_run h_run', h.brackets]
  absent := by
    intro name h_name h_absent
    rw [absent_append_of_ne fun c hc => (h_run' c hc).1]
    exact h.absent name h_name (absent_of_append h_absent)

theorem Alike.close {text text' : List Char} (h : Alike text text') :
    Alike (']' :: text) (']' :: text') where
  brackets := by
    intro depth
    cases depth with
    | zero => rw [Bracket.openAfter_close_zero, Bracket.openAfter_close_zero]
    | succ depth => rw [Bracket.openAfter_close_succ, Bracket.openAfter_close_succ, h.brackets]
  absent := by
    intro name h_name h_absent
    rw [absent_cons_of_ne (by decide)] at h_absent ⊢
    exact h.absent name h_name h_absent

/-- A bracket before both texts, if a closer that it starts in the second text is one that it starts
    in the first text too. -/
theorem Alike.bracket {text text' : List Char} (h : Alike text text')
    (h_near : ∀ spelled after, spelled ≠ [] → (∀ c ∈ spelled, c.isAlpha = true) →
      text' = '/' :: (spelled ++ ']' :: after) → ∃ after, text = '/' :: (spelled ++ ']' :: after)) :
    Alike ('[' :: text) ('[' :: text') where
  brackets := by
    intro depth
    rw [Bracket.openAfter_open, Bracket.openAfter_open, h.brackets]
  absent := by
    intro name h_name h_absent
    obtain ⟨h_start, h_absent⟩ := absent_cons_iff.1 h_absent
    refine absent_cons_iff.2 ⟨?_, h.absent name h_name h_absent⟩
    by_contra h_start'
    -- A closer at the bracket would be one in the first text, where there is none.
    obtain ⟨after, spelled, h_spelled, h_text⟩ :=
      Bracket.startsWithCloser_eq_true_iff.1 (by simpa using h_start')
    obtain ⟨h_nonempty, h_letters⟩ := h_name.letters h_spelled
    obtain ⟨after', h_same⟩ := h_near spelled after h_nonempty h_letters (List.cons.inj h_text).2
    have h_found : startsWithCloser name ('[' :: text) = true :=
      Bracket.startsWithCloser_eq_true_iff.2 ⟨after', spelled, h_spelled, by rw [h_same]⟩
    rw [h_start] at h_found
    exact absurd h_found (by decide)

theorem Alike.char {c : Char} {text text' : List Char} (h_char : c ≠ '[') (h : Alike text text') :
    Alike (c :: text) (c :: text') := by
  by_cases h_close : c = ']'
  · rw [h_close]
    exact h.close
  · have h_run : NoBracket [c] := by
      intro d hd
      rw [List.mem_singleton.1 hd]
      exact ⟨h_char, h_close⟩
    exact h.replace h_run h_run

/-- The text ends with a `]`. -/
def EndsClosed (text : List Char) : Prop :=
  ∃ before, text = before ++ [']']

theorem EndsClosed.append {q : List Char} (h : EndsClosed q) (p : List Char) :
    EndsClosed (p ++ q) := by
  obtain ⟨before, rfl⟩ := h
  exact ⟨p ++ before, (List.append_assoc p before _).symm⟩

theorem EndsClosed.mem {q : List Char} (h : EndsClosed q) : ']' ∈ q := by
  obtain ⟨before, rfl⟩ := h
  exact List.mem_append_right before (List.mem_singleton_self _)

/-- What is left of a text that ends with a `]` ends with it too, if anything is left. -/
theorem EndsClosed.of_append {p q : List Char} (h : EndsClosed (p ++ q)) (h_q : q ≠ []) :
    EndsClosed q := by
  obtain ⟨before, h_split⟩ := h
  obtain ⟨before', c, rfl⟩ := (List.eq_nil_or_concat q).resolve_left h_q
  rw [List.concat_eq_append, ← List.append_assoc] at h_split
  obtain ⟨-, h_last⟩ := List.append_inj' h_split rfl
  exact ⟨before', by rw [List.concat_eq_append, h_last]⟩

theorem EndsClosed.ne_nil {q : List Char} (h : EndsClosed q) : q ≠ [] := by
  rintro rfl
  exact absurd h.mem (by simp)

theorem EndsClosed.tail {c : Char} {q : List Char} (h : EndsClosed (c :: q)) :
    q = [] ∨ EndsClosed q :=
  (em (q = [])).imp_right (EndsClosed.of_append (p := [c]) h)

/-- The same text before both, if it ends with a `]`. -/
theorem Alike.append {q r r' : List Char} (h : Alike r r') (h_closed : EndsClosed q) :
    Alike (q ++ r) (q ++ r') := by
  induction q with
  | nil => exact absurd rfl h_closed.ne_nil
  | cons c q ih =>
    have h_rest : Alike (q ++ r) (q ++ r') := by
      rcases h_closed.tail with rfl | h_tail
      · exact h
      · exact ih h_tail
    by_cases h_char : c = '['
    · subst h_char
      have h_mem : ']' ∈ q := (List.mem_cons.1 h_closed.mem).resolve_left (by decide)
      refine h_rest.bracket fun spelled after _ h_letters h_eq => ?_
      -- The first `]` behind the bracket ends the name, and it stands in `q`.
      have h_run := (noBracket_of_isAlpha h_letters).slash
      obtain ⟨q', rfl, -⟩ := of_append_eq (fun d hd => (h_run d hd).2) h_mem h_eq.symm
      exact ⟨q' ++ r, by simp⟩
    · exact h_rest.char h_char

/-- One character less leaves the end of the text, and two texts alike. -/
theorem Alike.append_tail {c : Char} {q r r' : List Char} (h : Alike r r')
    (h_closed : EndsClosed (c :: q)) : Alike (q ++ r) (q ++ r') := by
  rcases h_closed.tail with rfl | h_tail
  · exact h
  · exact h.append h_tail

/-! ## Closers and balanced texts -/

/-- A closer opens as many brackets as it closes. -/
theorem openAfter_closing {text after : List Char} {tag : Tag} (h : Closing text tag after)
    (depth : Nat) : openAfter depth text = openAfter depth after := by
  obtain ⟨name, h_letters, rfl, -⟩ := h
  have h_run : NoBracket ('/' :: name) := (noBracket_of_isAlpha h_letters).slash
  rw [Bracket.openAfter_open]
  exact (openAfter_run h_run _ _).trans (Bracket.openAfter_close_succ depth after)

/-- The closer of a tag is not the closer of an unknown tag. -/
theorem absent_closer {name text : List Char} (h_name : UnknownName name) (tag : Tag)
    (h : Absent name text) : Absent name (Node.closer tag.name ++ text) := by
  have h_run : NoBracket ('/' :: tag.name.toList) :=
    (noBracket_of_isAlpha (Bracket.isAlpha_of_mem_name tag)).slash
  have h_text : Node.closer tag.name ++ text =
      '[' :: ('/' :: tag.name.toList ++ ']' :: text) := by
    simp [Node.closer]
  rw [h_text, absent_cons_iff, absent_append_of_ne fun c hc => (h_run c hc).1,
    absent_cons_of_ne (by decide)]
  refine ⟨?_, h⟩
  by_contra h_start
  obtain ⟨after, spelled, h_spelled, h_eq⟩ :=
    Bracket.startsWithCloser_eq_true_iff.1 (by simpa using h_start)
  have h_rest := (List.cons.inj (List.cons.inj h_eq).2).2
  have h_tag : tag.name.toList = spelled :=
    (Bracket.run_unique (p := fun c => c != ']')
      (fun c hc => by simpa using (h_run c (List.mem_cons_of_mem _ hc)).2) (by decide)
      (fun c hc => by simpa using (h_name.noBracket h_spelled c hc).2) (by decide) h_rest).1
  -- The name of the tag would be the one of the unknown tag, which stands for no tag.
  obtain ⟨written, h_unknown, -, -, rfl⟩ := h_name
  have h_folded : Tag.foldCase written = tag.name := by
    have h_small : tag.name.toList.map Char.toLower = tag.name.toList := by
      cases tag <;> decide +kernel
    apply String.toList_injective
    rw [← h_spelled, ← h_tag, h_small]
  rw [Tag.resolve?, h_folded, Tag.ofName?_name] at h_unknown
  exact absurd h_unknown (by simp)

/-- A closer may be passed in the first text. -/
theorem Alike.of_closing {text after after' : List Char} {tag : Tag}
    (h_closing : Closing text tag after) (h : Alike after after') : Alike text after' where
  brackets := by
    intro depth
    rw [h.brackets, openAfter_closing h_closing]
  absent := by
    intro name h_name h_absent
    obtain ⟨spelled, -, h_text, -⟩ := h_closing
    have h_split : text = ('[' :: '/' :: (spelled ++ [']'])) ++ after := by
      rw [h_text]
      simp
    rw [h_split] at h_absent
    exact h.absent name h_name (absent_of_append h_absent)

/-- A closer may be written before the second text. -/
theorem Alike.closer {text text' : List Char} (h : Alike text text') (tag : Tag) :
    Alike text (Node.closer tag.name ++ text') where
  brackets := by
    intro depth
    rw [openAfter_closing (Bracket.closing_closer tag text'), h.brackets]
  absent := fun name h_name h_absent => absent_closer h_name tag (h.absent name h_name h_absent)

/-- A bracket that is open at the start of a text is closed by a `]` in it. -/
theorem mem_close_of_openAfter {depth : Nat} {cs : List Char}
    (h : openAfter (depth + 1) cs = some 0) : ']' ∈ cs := by
  induction cs generalizing depth with
  | nil => exact absurd h (by simp)
  | cons c cs ih =>
    by_cases h_open : c = '['
    · rw [h_open, Bracket.openAfter_open] at h
      exact List.mem_cons_of_mem c (ih h)
    by_cases h_close : c = ']'
    · rw [h_close]
      exact List.mem_cons_self
    · rw [Bracket.openAfter_other h_open h_close] at h
      exact List.mem_cons_of_mem c (ih h)

/-- The closer of an unknown tag that starts before a `]` does not end behind it, so that it is
    there whatever follows. -/
theorem ends_append {name q r after : List Char} (h_name : UnknownName name) (h_mem : ']' ∈ q)
    (h : Ends name ('[' :: (q ++ r)) after) :
    ∃ q', after = q' ++ r ∧ ∀ s, Ends name ('[' :: (q ++ s)) (q' ++ s) := by
  obtain ⟨spelled, h_spelled, h_text⟩ := h
  have h_run : NoBracket ('/' :: spelled) := (h_name.noBracket h_spelled).slash
  obtain ⟨q', rfl, h_after⟩ := of_append_eq (fun c hc => (h_run c hc).2) h_mem
    (List.cons.inj h_text).2.symm
  exact ⟨q', h_after, fun s => ⟨spelled, h_spelled, by simp⟩⟩

theorem startsWithCloser_append_eq {name q : List Char} (h_name : UnknownName name)
    (h_mem : ']' ∈ q) (r r' : List Char) :
    startsWithCloser name ('[' :: (q ++ r)) = startsWithCloser name ('[' :: (q ++ r')) := by
  have h_other : ∀ s s', startsWithCloser name ('[' :: (q ++ s)) = true →
      startsWithCloser name ('[' :: (q ++ s')) = true := by
    intro s s' h_start
    obtain ⟨after, h_ends⟩ := Bracket.startsWithCloser_eq_true_iff.1 h_start
    obtain ⟨q', -, h_all⟩ := ends_append h_name h_mem h_ends
    exact Bracket.startsWithCloser_eq_true_iff.2 ⟨q' ++ s', h_all s'⟩
  exact Bool.eq_iff_iff.2 ⟨h_other r r', h_other r' r⟩

/-- A closer does not reach from a balanced text into the text after it. -/
theorem absent_append_of_balanced {name raw text : List Char} (h_name : UnknownName name)
    {depth : Nat} (h : openAfter depth raw = some 0) :
    Absent name (raw ++ text) ↔ Absent name raw ∧ Absent name text := by
  induction raw generalizing depth with
  | nil => simp [absent_nil]
  | cons c raw ih =>
    by_cases h_open : c = '['
    · subst h_open
      rw [Bracket.openAfter_open] at h
      -- The bracket is closed in the balanced text, and a closer ends at the first `]`.
      have h_start := startsWithCloser_append_eq h_name (mem_close_of_openAfter h) text []
      rw [List.append_nil] at h_start
      rw [List.cons_append, absent_cons_iff, absent_cons_iff, h_start, ih h, and_assoc]
    · rw [List.cons_append, absent_cons_of_ne h_open, absent_cons_of_ne h_open]
      by_cases h_close : c = ']'
      · subst h_close
        cases depth with
        | zero => exact absurd h (by simp)
        | succ depth => exact ih (by simpa using h)
      · exact ih (by simpa [Bracket.openAfter_other h_open h_close] using h)

/-- A balanced text may be replaced by a text that is alike. -/
theorem Alike.append_balanced {raw raw' text text' : List Char} (h_raw : Alike raw raw')
    (balanced : openAfter 0 raw = some 0) (h : Alike text text') :
    Alike (raw ++ text) (raw' ++ text') where
  brackets := by
    intro depth
    rw [Bracket.openAfter_append, Bracket.openAfter_append, h_raw.brackets]
    exact congrArg _ (funext h.brackets)
  absent := by
    intro name h_name h_absent
    have balanced' : openAfter 0 raw' = some 0 := by rw [h_raw.brackets, balanced]
    rw [absent_append_of_balanced h_name balanced] at h_absent
    rw [absent_append_of_balanced h_name balanced']
    exact ⟨h_raw.absent name h_name h_absent.1, h.absent name h_name h_absent.2⟩

/-! ## Where the text of an unknown tag ends -/

theorem length_afterFirstCloser?_lt {name text after : List Char}
    (h : afterFirstCloser? name text = some after) : after.length < text.length := by
  obtain ⟨before, rest, rfl, spelled, -, rfl⟩ := Bracket.afterFirstCloser?_split h
  simp only [List.length_append, List.length_cons]
  omega

/-- The first closer is found again, whatever the text after it is. -/
theorem afterFirstCloser?_append {name q q' r : List Char} (h_name : UnknownName name)
    (h : afterFirstCloser? name (q ++ r) = some (q' ++ r)) (r' : List Char) :
    afterFirstCloser? name (q ++ r') = some (q' ++ r') := by
  induction q with
  | nil =>
    have h_lt := length_afterFirstCloser?_lt h
    rw [List.nil_append, List.length_append] at h_lt
    omega
  | cons c q ih =>
    by_cases h_char : c = '['
    rotate_left
    · rw [List.cons_append, afterFirstCloser?, startsWithCloser_of_ne h_char,
        if_neg Bool.false_ne_true] at h ⊢
      exact ih h
    subst h_char
    obtain ⟨before, rest, h_split, spelled, h_spelled, h_rest⟩ :=
      Bracket.afterFirstCloser?_split h
    -- The closer that is found ends in `q`, and so does one at this bracket.
    have h_mem : ']' ∈ q := by
      have h_q : ('[' :: q) ++ r = (before ++ '[' :: '/' :: (spelled ++ ']' :: q')) ++ r := by
        rw [h_split, h_rest]
        simp
      have h_found : ']' ∈ '[' :: q := by
        rw [List.append_cancel_right h_q]
        simp
      exact (List.mem_cons.1 h_found).resolve_left (by decide)
    rw [List.cons_append, afterFirstCloser?] at h ⊢
    rw [startsWithCloser_append_eq h_name h_mem r' r]
    split at h
    · rename_i h_start
      obtain ⟨after, h_ends⟩ := Bracket.startsWithCloser_eq_true_iff.1 h_start
      obtain ⟨q₁, rfl, h_all⟩ := ends_append h_name h_mem h_ends
      rw [h_ends.drop, Option.some.injEq] at h
      rw [if_pos h_start, (h_all r').drop, List.append_cancel_right h]
    · rename_i h_start
      rw [if_neg h_start]
      exact ih h

end DiceMarkup.Rules
