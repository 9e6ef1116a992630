/-
  DiceMarkup.Proofs.Locality

  How far a tag depends on the text after it. A tag that is read up to a `]` is
  read in the same way before every text that is alike: what is tried in vain
  inside of it either has raw attributes, which count brackets, or comes to
  nothing before the tag does.

  The induction is on the length of the text. One step is `TagAt.local_step`,
  which finds the tags inside of the tag settled already.
-/
import DiceMarkup.Proofs.Abreast
import DiceMarkup.Proofs.Scan

namespace DiceMarkup.Rules

open DiceMarkup.Bracket (Opening Closing RawOpening Stored openAfter AtWordEnd afterFirstCloser?
  wordTail afterWord endsWord unknownEnd)

/-! ## Words before the last bracket -/

section Words

variable {q r : List Char}

/-- A closer that starts before the last `]` ends with it at the latest. -/
theorem closing_append {tag : Tag} {after : List Char} (h_closed : EndsClosed q)
    (h : Closing (q ++ r) tag after) :
    ∃ q', after = q' ++ r ∧ ∀ r', Closing (q ++ r') tag (q' ++ r') := by
  obtain ⟨name, h_letters, h_text, h_tag⟩ := h
  cases q with
  | nil => exact absurd rfl h_closed.ne_nil
  | cons c q =>
    obtain ⟨rfl, h_rest⟩ := List.cons.inj h_text
    have h_mem : ']' ∈ q := (List.mem_cons.1 h_closed.mem).resolve_left (by decide)
    have h_run := (noBracket_of_isAlpha h_letters).slash
    obtain ⟨q', rfl, rfl⟩ := of_append_eq (fun d hd => (h_run d hd).2) h_mem h_rest.symm
    exact ⟨q', rfl, fun r' => ⟨name, h_letters, by simp, h_tag⟩⟩

theorem stored_append {tag : Tag} {value after : List Char} (h_closed : EndsClosed q)
    (h : Stored (q ++ r) tag value after) (r' : List Char) :
    ∃ after', Stored (q ++ r') tag value after' := by
  obtain ⟨rest, h_text, h_value, name, h_letters, rfl, h_tag⟩ := h
  have h_run : ∀ c ∈ value ++ '[' :: '/' :: name, c ≠ ']' := by
    intro c hc
    rcases List.mem_append.1 hc with h_mem | h_mem
    · exact (noBracket_of_isResult h_value c h_mem).2
    · rcases List.mem_cons.1 h_mem with rfl | h_mem
      · decide
      · exact ((noBracket_of_isAlpha h_letters).slash c h_mem).2
  -- The `]` of the closer is the first one of the text, so it stands in `q`.
  have h_split : (value ++ '[' :: '/' :: name) ++ ']' :: after = q ++ r := by
    rw [h_text]
    simp
  obtain ⟨rest, h_q, -⟩ := of_append_eq h_run h_closed.mem h_split
  refine ⟨rest ++ r', _, ?_, h_value, name, h_letters, rfl, h_tag⟩
  rw [h_q]
  simp

/-- The text after an opener may change, but for its first character. -/
theorem opening_replace {text : List Char} {name : String} (h : Opening text name (q ++ r))
    (h_nonempty : q ≠ []) (r' : List Char) :
    Opening (name.toList ++ (q ++ r')) name (q ++ r') := by
  obtain ⟨-, h_name, h_letters, c, rest, h_after, h_ends⟩ := h
  obtain ⟨d, q, rfl⟩ := List.exists_cons_of_ne_nil h_nonempty
  obtain ⟨rfl, -⟩ := List.cons.inj h_after
  exact ⟨rfl, h_name, h_letters, d, q ++ r', rfl, h_ends⟩

/-- The name of an opener ends before the last `]` of the text. -/
theorem opening_append {name : String} {after : List Char} (h_closed : EndsClosed q)
    (h : Opening (q ++ r) name after) :
    ∃ q', after = q' ++ r ∧ EndsClosed q' ∧ ∀ r', Opening (q ++ r') name (q' ++ r') := by
  have h_letters := h.letters
  rcases List.append_eq_append_iff.1 h.split with ⟨q', h_name, -⟩ | ⟨q', rfl, rfl⟩
  -- The name cannot reach into `r`: it would pass the `]` that ends `q`.
  · have h_mem : ']' ∈ name.toList := by
      rw [h_name]
      exact List.mem_append_left _ h_closed.mem
    exact absurd rfl (noBracket_of_isAlpha h_letters _ h_mem).2
  · have h_q' : q' ≠ [] := by
      rintro rfl
      rw [List.append_nil] at h_closed
      exact absurd rfl (noBracket_of_isAlpha h_letters _ h_closed.mem).2
    refine ⟨q', rfl, h_closed.of_append h_q', fun r' => ?_⟩
    rw [List.append_assoc]
    exact opening_replace h h_q' r'

/-- A closer ends with a `]`, so a text that it ends does too. -/
theorem EndsClosed.after_closer (h : EndsClosed q) (value name : List Char) :
    EndsClosed (value ++ '[' :: '/' :: (name ++ ']' :: q)) := by
  have h_assoc : value ++ '[' :: '/' :: (name ++ ']' :: q) =
      (value ++ '[' :: '/' :: (name ++ [']'])) ++ q := by simp
  rw [h_assoc]
  exact h.append _

theorem atWordEnd_append {inGroup : Bool} (h_nonempty : q ≠ []) (h : AtWordEnd inGroup (q ++ r))
    (r' : List Char) : AtWordEnd inGroup (q ++ r') := by
  obtain ⟨c, q, rfl⟩ := List.exists_cons_of_ne_nil h_nonempty
  intro d rest h_text
  obtain ⟨rfl, -⟩ := List.cons.inj h_text
  exact h _ _ rfl

/-- A word that ends before the last `]` is the same before every text. -/
theorem word_append {inGroup : Bool} {text : List Char} (h_nonempty : q ≠ [])
    (h : afterWord inGroup text = q ++ r) (r' : List Char) :
    text = (wordTail inGroup text ++ q) ++ r ∧
      wordTail inGroup ((wordTail inGroup text ++ q) ++ r') = wordTail inGroup text ∧
        afterWord inGroup ((wordTail inGroup text ++ q) ++ r') = q ++ r' := by
  have h_split := Bracket.wordTail_append_afterWord inGroup text
  have h_end : AtWordEnd inGroup (q ++ r) := by
    rw [← h]
    exact Bracket.atWordEnd_afterWord inGroup text
  have h_inside : ∀ c ∈ wordTail inGroup text, endsWord inGroup c = false :=
    Bracket.endsWord_of_mem_wordTail
  rw [h] at h_split
  rw [List.append_assoc, List.append_assoc]
  exact ⟨h_split.symm, Bracket.wordTail_append h_inside (atWordEnd_append h_nonempty h_end r')⟩

/-- Raw attributes that do not come to an end before a text do not before one that is alike. -/
theorem not_rawOpening_append {r' : List Char} (h_alike : Alike r r') (h_closed : EndsClosed q)
    (h : ∀ raw openEnd, ¬ RawOpening (q ++ r) raw openEnd) (raw openEnd : List Char) :
    ¬ RawOpening (q ++ r') raw openEnd := by
  obtain ⟨c, q, rfl⟩ := List.exists_cons_of_ne_nil h_closed.ne_nil
  intro h_raw
  rw [List.cons_append] at h_raw
  generalize h_text : q ++ r' = text at h_raw
  cases h_raw with
  | bare => exact h _ _ (.bare (q ++ r))
  | spaced h_space balanced =>
    have h_rest : Alike (q ++ r) (q ++ r') := h_alike.append_tail h_closed
    have h_none : openAfter 0 (q ++ r) = none := by
      rw [← h_rest.brackets]
      exact Bracket.openAfter_eq_none_iff.2 ⟨raw, openEnd, h_text, balanced⟩
    obtain ⟨raw', openEnd', h_split, balanced'⟩ := Bracket.openAfter_eq_none_iff.1 h_none
    rw [List.cons_append, h_split] at h
    exact h _ _ (.spaced h_space balanced' openEnd')

end Words

/-! ## One step of the induction -/

/-- Tags at this text that are read up to a `]` before `r` are read so before `r'`. -/
def TagLocal (r r' text : List Char) : Prop :=
  ∀ (l : Nat) (opened : List Tag) (node : Node) (p q : List Char), text = p ++ r → EndsClosed q →
    TagAt false l opened text (some (node, q ++ r)) →
      TagAt false l opened (p ++ r') (some (node, q ++ r'))

/-- The tags of all texts that are shorter than `bound` are settled. -/
def Settles (r r' : List Char) (bound : Nat) : Prop :=
  ∀ text, text.length < bound → TagLocal r r' text

section Step

variable {r r' : List Char} {bound : Nat}

/-- A bracket that is tried in vain where the attributes around it come to an end. -/
theorem TagAt.local_none {l n : Nat} {mid : Bool} {opened : List Tag} {q stop : List Char}
    (h_alike : Alike r r') (h_closed : EndsClosed q)
    (h_run : Run opened n mid ('[' :: (q ++ r)) (some stop))
    (h_tag : TagAt false l opened ('[' :: (q ++ r)) none) :
    TagAt false l opened ('[' :: (q ++ r')) none := by
  have h_tag' := h_tag
  cases h_tag with
  | noOpener h_none =>
    refine .noOpener fun name after h_open => ?_
    obtain ⟨q', -, -, h_opening⟩ := opening_append h_closed h_open
    exact h_none _ _ (h_opening r)
  | unended h_calm h_open h_header =>
    -- Only raw text is left, which ends in both texts or in neither.
    rw [h_run.not_listed h_open h_tag'] at h_header
    obtain ⟨q', rfl, h_closed', h_opening⟩ := opening_append h_closed h_open
    refine .unended h_calm (h_opening r') ?_
    rw [h_run.not_listed h_open h_tag']
    cases h_header with
    | rawFails h_raw => exact .rawFails (not_rawOpening_append h_alike h_closed' h_raw)

mutual

theorem ItemsAt.local {l : Nat} {inGroup : Bool} {opened : List Tag} {text : List Char}
    {outcome : Option (List Node × List Char)} :
    ItemsAt false l inGroup opened text outcome → Settles r r' bound → Alike r r' →
      ∀ (n : Nat) (stop q : List Char) (items : List Node), outcome = some (items, q ++ r) →
        text.length < bound → EndsClosed (closingOf inGroup :: q) → inGroup = decide (n ≠ 0) →
          Run opened n false text (some stop) →
            ∃ p, text = p ++ r ∧ EndsClosed p ∧
              ItemsAt false l inGroup opened (p ++ r') (some (items, q ++ r'))
  | .nil => fun _ _ _ _ _ _ h_none => absurd h_none (by simp)
  | .blank h_blank h_items => by
    have ih := h_items.local
    intro h_settles h_alike n stop q items h_outcome h_length h_closed h_group h_run
    rw [List.length_cons] at h_length
    rw [Run.go_iff (ne_open_of_isBlank h_blank) (step_blank h_blank n false)] at h_run
    obtain ⟨p, rfl, h_p, h_items'⟩ :=
      ih h_settles h_alike n stop q items h_outcome (by omega) h_closed h_group h_run
    exact ⟨_ :: p, rfl, h_p.append [_], .blank h_blank h_items'⟩
  | .close h_closing => by
    intro _ _ n stop q items h_outcome _ h_closed _ _
    obtain ⟨rfl, rfl⟩ := Prod.mk.inj (Option.some.inj h_outcome)
    exact ⟨_ :: q, rfl, h_closing ▸ h_closed, .close h_closing⟩
  | .bracket => fun _ _ _ _ _ _ h_none => absurd h_none (by simp)
  | .closer _ => fun _ _ _ _ _ _ h_none => absurd h_none (by simp)
  | .itemFails _ => fun _ _ _ _ _ _ h_none => absurd h_none (by simp)
  | .item h_item h_items h_outcome => by
    have ih_item := h_item.local
    have ih_items := h_items.local
    intro h_settles h_alike n stop q items h_some h_length h_closed h_group h_run
    rw [h_outcome] at h_some
    obtain ⟨found, h_found, h_eq⟩ := Option.map_eq_some_iff.1 h_some
    obtain ⟨rfl, h_stop⟩ := Prod.mk.inj h_eq
    have h_next := (h_item.run_iff n (some stop) h_group).1 h_run
    have h_lt := h_item.length_lt
    -- From the far end: what follows the item tells where the item has to end.
    obtain ⟨p₁, rfl, h_p₁, h_items'⟩ := ih_items h_settles h_alike n stop q found.1
      (by rw [h_found, ← h_stop]) (by omega) h_closed h_group h_next
    obtain ⟨p, rfl, h_p, h_item'⟩ := ih_item h_settles h_alike n stop p₁ _ rfl h_length h_p₁
      h_group h_run
    exact ⟨p, rfl, h_p, .item h_item' h_items' rfl⟩

theorem ItemAt.local {l : Nat} {inGroup : Bool} {opened : List Tag} {text : List Char}
    {outcome : Option (Node × List Char)} :
    ItemAt false l inGroup opened text outcome → Settles r r' bound → Alike r r' →
      ∀ (n : Nat) (stop q : List Char) (node : Node), outcome = some (node, q ++ r) →
        text.length < bound → EndsClosed q → inGroup = decide (n ≠ 0) →
          Run opened n false text (some stop) →
            ∃ p, text = p ++ r ∧ EndsClosed p ∧
              ItemAt false l inGroup opened (p ++ r') (some (node, q ++ r'))
  | @ItemAt.word _ _ inGroup _ c text h_word h_group => by
    intro _ _ n stop q node h_outcome _ h_closed _ _
    obtain ⟨rfl, h_after⟩ := Prod.mk.inj (Option.some.inj h_outcome)
    obtain ⟨h_text, h_tail, h_rest⟩ := word_append h_closed.ne_nil h_after r'
    refine ⟨c :: (wordTail inGroup text ++ q), congrArg (c :: ·) h_text,
      h_closed.append (c :: wordTail inGroup text), ?_⟩
    have h_item : ItemAt false l inGroup opened (c :: ((wordTail inGroup text ++ q) ++ r')) _ :=
      .word h_word h_group
    rw [h_tail, h_rest] at h_item
    exact h_item
  | @ItemAt.bracket _ _ inGroup _ text h_closer h_tag => by
    intro _ h_alike n stop q node h_outcome _ h_closed _ h_run
    obtain ⟨rfl, h_after⟩ := Prod.mk.inj (Option.some.inj h_outcome)
    obtain ⟨h_text, h_tail, h_rest⟩ := word_append h_closed.ne_nil h_after r'
    have h_p : EndsClosed (wordTail inGroup text ++ q) := h_closed.append _
    refine ⟨'[' :: (wordTail inGroup text ++ q), congrArg ('[' :: ·) h_text, h_p.append ['['], ?_⟩
    have h_tag' : TagAt false l opened ('[' :: ((wordTail inGroup text ++ q) ++ r')) none := by
      rw [h_text] at h_run h_tag
      exact h_tag.local_none h_alike h_p h_run
    have h_closer' : ∀ tag after,
        ¬ Closing ('[' :: ((wordTail inGroup text ++ q) ++ r')) tag after := by
      intro tag after h_closing
      obtain ⟨q', -, h_closing'⟩ := closing_append (q := '[' :: (wordTail inGroup text ++ q))
        (h_p.append ['[']) h_closing
      have h_left := h_closing' r
      rw [List.cons_append, ← h_text] at h_left
      exact h_closer tag _ h_left
    have h_item : ItemAt false l inGroup opened _ _ := .bracket h_closer' h_tag'
    rw [h_tail, h_rest] at h_item
    exact h_item
  | .tag h_tag => by
    intro h_settles _ n stop q node h_outcome h_length h_closed _ _
    obtain ⟨rfl, rfl⟩ := Prod.mk.inj (Option.some.inj h_outcome)
    obtain ⟨taken, h_text⟩ := h_tag.split _ rfl
    have h_split : text = ('[' :: (taken ++ q)) ++ r := by
      rw [h_text]
      simp
    exact ⟨_, h_split, h_closed.append ('[' :: taken),
      .tag (h_settles text h_length _ _ _ _ q h_split h_closed h_tag)⟩
  | .group h_items => by
    have ih := h_items.local
    intro h_settles h_alike n stop q node h_outcome h_length h_closed _ h_run
    obtain ⟨rfl, rfl⟩ := Prod.mk.inj (Option.some.inj h_outcome)
    rw [List.length_cons] at h_length
    rw [Run.go_iff (by decide) (step_enter n)] at h_run
    obtain ⟨p, rfl, h_p, h_items'⟩ := ih h_settles h_alike (n + 1) stop q _ rfl (by omega)
      (h_closed.append [_]) (by simp) h_run
    exact ⟨'(' :: p, rfl, h_p.append ['('], .group h_items'⟩
  | .groupFails _ => fun _ _ _ _ _ _ h_none => absurd h_none (by simp)

end

theorem HeaderAt.local {l : Nat} {opened : List Tag} {raw : Bool} {after q : List Char}
    {attributes : List Node} (h_settles : Settles r r' bound) (h_alike : Alike r r')
    (h_length : after.length < bound) (h_closed : EndsClosed (']' :: q))
    (h : HeaderAt false l opened raw after (some (attributes, q ++ r))) :
    ∃ p, after = p ++ r ∧ HeaderAt false l opened raw (p ++ r') (some (attributes, q ++ r')) := by
  generalize h_end : q ++ r = openEnd at h
  cases h with
  | @raw _ _ _ value _ h_raw =>
    cases h_raw with
    | bare =>
      subst h_end
      exact ⟨']' :: q, rfl, .raw (.bare (q ++ r'))⟩
    | @spaced x _ h_space balanced =>
      subst h_end
      have h_right := RawOpening.spaced h_space balanced (q ++ r')
      refine ⟨x :: (value ++ ']' :: q), by simp, ?_⟩
      rw [List.cons_append, List.append_assoc]
      exact .raw h_right
  | listed h_items =>
    subst h_end
    have h_run := (h_items.run_iff 0 (some (q ++ r)) rfl).2 rfl
    obtain ⟨p, rfl, -, h_items'⟩ := h_items.local h_settles h_alike 0 (q ++ r) q attributes rfl
      h_length h_closed rfl h_run
    exact ⟨p, rfl, .listed h_items'⟩

/-- What an unknown tag takes after its opener ends with a bracket, like the opener. -/
theorem unknownEnd_closed (name : String) (openEnd : List Char) :
    ∃ taken, openEnd = taken ++ unknownEnd name openEnd ∧ EndsClosed (']' :: taken) := by
  unfold unknownEnd
  cases h_first : afterFirstCloser? (Tag.foldCase name).toList openEnd with
  | none => exact ⟨[], rfl, [], rfl⟩
  | some after =>
    obtain ⟨before, rest, rfl, spelled, -, rfl⟩ := Bracket.afterFirstCloser?_split h_first
    refine ⟨before ++ '[' :: '/' :: (spelled ++ [']']), by simp, ?_⟩
    exact ⟨']' :: (before ++ '[' :: '/' :: spelled), by simp⟩

/-- The text of an unknown tag ends where it did, if it ends before `r`. -/
theorem unknownEnd_append {name : String} {text after p q : List Char} (h_alike : Alike r r')
    (h_open : Opening text name after) (h_name : Tag.resolve? name = none)
    (h_closed : EndsClosed (']' :: q)) (h : unknownEnd name (p ++ r) = q ++ r) :
    unknownEnd name (p ++ r') = q ++ r' := by
  have h_unknown : UnknownName (Tag.foldCase name).toList :=
    ⟨name, h_name, h_open.nonempty, h_open.letters, rfl⟩
  unfold unknownEnd at h ⊢
  cases h_first : afterFirstCloser? (Tag.foldCase name).toList (p ++ r) with
  | some after =>
    rw [h_first, Option.getD_some] at h
    rw [h] at h_first
    rw [afterFirstCloser?_append h_unknown h_first r', Option.getD_some]
  | none =>
    -- No closer is found up to the end of the text; that is so of texts that are alike.
    rw [h_first, Option.getD_none] at h
    obtain rfl := List.append_cancel_right h
    have h_absent : afterFirstCloser? (Tag.foldCase name).toList (p ++ r') = none :=
      (h_alike.append_tail h_closed).absent _ h_unknown h_first
    rw [h_absent, Option.getD_none]

/-- An unknown tag is kept as it stands, whatever the text after it. -/
theorem TagAt.local_unknown {l : Nat} {opened : List Tag} {text after openEnd q : List Char}
    {name : String} {attributes : List Node} (h_settles : Settles r r' bound)
    (h_alike : Alike r r') (h_length : after.length < bound) (h_open : Opening text name after)
    (h_name : Tag.resolve? name = none)
    (h_header : HeaderAt false l opened false after (some (attributes, openEnd)))
    (h_stop : unknownEnd name openEnd = q ++ r) (h_closed : EndsClosed (']' :: q)) :
    ∃ passed, '[' :: text = passed ++ (q ++ r) ∧ EndsClosed passed ∧
      TagAt false (l + 1) opened (passed ++ (q ++ r'))
        (some (.text (String.ofList passed), q ++ r')) := by
  obtain ⟨taken, h_end, h_taken⟩ := unknownEnd_closed name openEnd
  rw [h_stop, ← List.append_assoc] at h_end
  subst h_end
  have h_closed' : EndsClosed (']' :: (taken ++ q)) := by
    rcases h_closed.tail with rfl | h_q
    · rw [List.append_nil]
      exact h_taken
    · exact h_q.append (']' :: taken)
  obtain ⟨p, rfl, h_header'⟩ := h_header.local h_settles h_alike h_length h_closed'
  obtain ⟨inside, h_inside⟩ := h_header.split _ rfl
  have h_split : p ++ r = (inside ++ ']' :: (taken ++ q)) ++ r := by
    rw [h_inside]
    simp
  have h_p := List.append_cancel_right h_split
  have h_open' := opening_replace h_open (by rw [h_p]; simp) r'
  have h_stop' := unknownEnd_append h_alike h_open h_name h_closed h_stop
  refine ⟨'[' :: (name.toList ++ (inside ++ ']' :: taken)), ?_, ?_, ?_⟩
  · rw [h_open.split, h_p]
    simp
  · exact (h_taken.append inside).append ('[' :: name.toList)
  · have h_text : '[' :: (name.toList ++ (p ++ r')) =
        '[' :: (name.toList ++ (inside ++ ']' :: taken)) ++ (q ++ r') := by
      rw [h_p]
      simp
    have h_tag := TagAt.unknown rfl h_open' h_name h_header' h_stop' h_text
    rw [h_text] at h_tag
    exact h_tag

theorem PiecesAt.local {l : Nat} {opened : List Tag} {text stop : List Char} {ps : List Piece}
    {closed : Bool} :
    PiecesAt false l opened text ps closed stop → Settles r r' bound → Alike r r' →
      text.length < bound → ∀ q, stop = q ++ r → EndsClosed q →
        ∃ p, text = p ++ r ∧ EndsClosed p ∧ Abreast opened (p ++ r) (p ++ r') ∧
          PiecesAt false l opened (p ++ r') ps closed (q ++ r')
  | .nil => by
    intro _ _ _ q h_stop h_closed
    exact absurd (List.append_eq_nil_iff.1 h_stop.symm).1 h_closed.ne_nil
  | .char h_char h_pieces => by
    have ih := h_pieces.local
    intro h_settles h_alike h_length q h_stop h_closed
    rw [List.length_cons] at h_length
    obtain ⟨p, rfl, h_p, h_abreast, h_pieces'⟩ := ih h_settles h_alike (by omega) q h_stop h_closed
    exact ⟨_ :: p, rfl, h_p.append [_], .char h_char h_abreast, .char h_char h_pieces'⟩
  | .own h_closing h_own => by
    intro _ h_alike _ q h_stop h_closed
    subst h_stop
    have h_split := h_closing
    obtain ⟨name, h_letters, rfl, h_tag⟩ := h_split
    have h_right : Closing ('[' :: '/' :: (name ++ ']' :: (q ++ r'))) _ (q ++ r') :=
      ⟨name, h_letters, rfl, h_tag⟩
    have h_p : EndsClosed ('[' :: '/' :: (name ++ ']' :: q)) := h_closed.after_closer [] name
    have h_text : ∀ s, '[' :: '/' :: (name ++ ']' :: (q ++ s)) =
        '[' :: '/' :: (name ++ ']' :: q) ++ s := by simp
    rw [h_text] at h_closing h_right
    refine ⟨_, h_text r, h_p, .halt (.inr ⟨_, _, h_closing⟩) (.inr ⟨_, _, h_right⟩) ?_
      (h_alike.append h_p), .own h_right h_own⟩
    intro after' h_dice
    obtain ⟨rfl, -⟩ := h_right.unique h_dice
    exact ⟨_, h_closing⟩
  | .outer h_closing h_own h_outer => by
    intro _ h_alike _ q h_stop h_closed
    subst h_stop
    obtain ⟨q', rfl, h_right⟩ := closing_append h_closed h_closing
    refine ⟨q, rfl, h_closed, .halt (.inr ⟨_, _, h_closing⟩) (.inr ⟨_, _, h_right r'⟩) ?_
      (h_alike.append h_closed), .outer (h_right r') h_own h_outer⟩
    intro after' h_dice
    obtain ⟨rfl, -⟩ := (h_right r').unique h_dice
    exact ⟨_, h_closing⟩
  | .bracket h_ending h_tag h_pieces => by
    have ih := h_pieces.local
    intro h_settles h_alike h_length q h_stop h_closed
    rw [List.length_cons] at h_length
    obtain ⟨p, rfl, h_p, h_abreast, h_pieces'⟩ := ih h_settles h_alike (by omega) q h_stop h_closed
    have h_ending' : NoEnding opened ('[' :: (p ++ r')) := by
      intro tag after h_closing
      obtain ⟨after', h_left⟩ := h_abreast.closing_right h_closing
      exact h_ending tag after' h_left
    exact ⟨'[' :: p, rfl, h_p.append ['['], .bracket h_tag h_abreast,
      .bracket h_ending' (h_tag.abreast _ _ rfl rfl h_abreast) h_pieces'⟩
  | @PiecesAt.node _ _ _ text _ _ found _ _ h_tag h_pieces => by
    have ih := h_pieces.local
    intro h_settles h_alike h_length q h_stop h_closed
    obtain ⟨taken, h_text⟩ := h_tag.split _ rfl
    have h_lt := h_tag.length_lt
    obtain ⟨p₁, rfl, h_p₁, h_abreast, h_pieces'⟩ :=
      ih h_settles h_alike (by omega) q h_stop h_closed
    have h_split : text = ('[' :: (taken ++ p₁)) ++ r := by
      rw [h_text]
      simp
    have h_p : EndsClosed ('[' :: (taken ++ p₁)) := h_p₁.append ('[' :: taken)
    have h_carry := fun k => h_settles text h_length k opened found _ p₁ h_split h_p₁
    refine ⟨_, h_split, h_p, ?_, .node (h_carry _ h_tag) h_pieces'⟩
    rw [← h_split]
    exact .node h_tag h_carry h_abreast (h_split ▸ h_alike.append h_p)

theorem BodyAt.local {l : Nat} {opened : List Tag} {tag : Tag} {openEnd q : List Char}
    {children : List Node} (h_settles : Settles r r' bound) (h_alike : Alike r r')
    (h_length : openEnd.length < bound) (h_closed : EndsClosed q)
    (h : BodyAt false l opened tag openEnd children (q ++ r)) :
    ∃ p, openEnd = p ++ r ∧ EndsClosed p ∧
      BodyAt false l opened tag (p ++ r') children (q ++ r') := by
  generalize h_stop : q ++ r = stop at h
  cases h with
  | bare h_kind h_stored =>
    subst h_stop
    refine ⟨q, rfl, h_closed, .bare h_kind fun h_stores value stop h_right => ?_⟩
    obtain ⟨stop', h_left⟩ := stored_append h_closed h_right r
    exact h_stored h_stores _ _ h_left
  | @stored _ _ _ _ value _ h_kind h_stores h_stored =>
    subst h_stop
    obtain ⟨rest, rfl, h_value, name, h_letters, rfl, h_tag⟩ := h_stored
    exact ⟨value ++ '[' :: '/' :: (name ++ ']' :: q), by simp, h_closed.after_closer value name,
      .stored h_kind h_stores ⟨_, by simp, h_value, name, h_letters, rfl, h_tag⟩⟩
  | inside h_kind h_pieces =>
    subst h_stop
    obtain ⟨p, rfl, h_p, -, h_pieces'⟩ := h_pieces.local h_settles h_alike h_length q rfl h_closed
    exact ⟨p, rfl, h_p, .inside h_kind h_pieces' (by simp)⟩

theorem TagAt.local_step {text : List Char} (h_settles : Settles r r' text.length)
    (h_alike : Alike r r') : TagLocal r r' text := by
  intro l opened node p q h_text h_closed h
  have h_closed' : EndsClosed (']' :: q) := h_closed.append [']']
  generalize h_outcome : some (node, q ++ r) = outcome at h
  cases h with
  | noOpener | unended => exact absurd h_outcome (by simp)
  | @unknown _ _ _ _ _ passed _ _ _ _ h_open h_name h_header h_stop h_passed =>
    obtain ⟨rfl, rfl⟩ := Prod.mk.inj (Option.some.inj h_outcome)
    obtain ⟨passed', h_split, -, h_tag⟩ := TagAt.local_unknown h_settles h_alike
      (Nat.lt_succ_of_lt h_open.length_lt) h_open h_name h_header h_stop h_closed'
    rw [h_passed] at h_split
    obtain rfl := List.append_cancel_right h_split
    have h_whole : p ++ r = (passed ++ q) ++ r := by rw [← h_text, h_passed, List.append_assoc]
    have h_p := List.append_cancel_right h_whole
    rw [h_p, List.append_assoc]
    exact h_tag
  | @known _ _ _ after openEnd _ name _ _ _ h_open h_name h_header h_body =>
    obtain ⟨rfl, rfl⟩ := Prod.mk.inj (Option.some.inj h_outcome)
    have h_after := h_open.length_lt
    obtain ⟨inside, h_inside⟩ := h_header.split _ rfl
    have h_openEnd := h_header.length_lt
    obtain ⟨q₁, rfl, h_q₁, h_body'⟩ := h_body.local h_settles h_alike
      (by rw [List.length_cons]; omega) h_closed
    obtain ⟨p₁, rfl, h_header'⟩ := h_header.local h_settles h_alike
      (by rw [List.length_cons]; omega) (h_q₁.append [']'])
    have h_whole : p ++ r = ('[' :: (name.toList ++ p₁)) ++ r := by
      rw [← h_text, h_open.split]
      simp
    have h_p := List.append_cancel_right h_whole
    have h_p₁ : p₁ ≠ [] := by
      rintro rfl
      have h_length := congrArg List.length h_inside
      simp only [List.nil_append, List.length_append, List.length_cons] at h_length
      omega
    have h_open' := opening_replace h_open h_p₁ r'
    rw [h_p, List.cons_append, List.append_assoc]
    exact .known h_open' h_name h_header' h_body'

end Step

/-- A tag that is read up to a `]` is read in the same way before every text that is alike. -/
theorem tagLocal {r r' : List Char} (h_alike : Alike r r') (text : List Char) :
    TagLocal r r' text := by
  induction h_length : text.length using Nat.strongRecOn generalizing text with
  | ind n ih =>
    refine TagAt.local_step (fun shorter h_shorter => ?_) h_alike
    rw [h_length] at h_shorter
    exact ih shorter.length h_shorter shorter rfl

end DiceMarkup.Rules
