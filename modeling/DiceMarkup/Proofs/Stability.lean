/-
  DiceMarkup.Proofs.Stability

  Written text is a fixed point of reading and writing, whatever the text was
  that it comes from: closers may be missing, tags unknown or broken off. Two
  things are asked of the text. It stays within the nesting limit, and no word
  among its attributes turns into a tag or a closer when the white space around
  it is written anew. The second one is needed: the space before the last `]`
  of an opener is dropped, and a word like `[/b` before it becomes a closer.
-/
import DiceMarkup.Proofs.Limit
import DiceMarkup.Proofs.Rereading

namespace DiceMarkup

namespace Document

/-- No word of the document turns into a tag or a closer when it is written. -/
def tidy (document : Document) : Bool :=
  Node.tidyAll .child document

/-- A document that was read, revised and written is read again. -/
theorem parse_toText_of_revises {source : String} {revised : Document}
    (h_limit : WithinLimit source) (h_tidy : (parse source).tidy = true)
    (h_revises : Rules.RevisesAll false (parse source) revised) :
    parse revised.toText = revised ∧ WithinLimit revised.toText ∧
      Rules.Alike source.toList revised.toText.toList := by
  obtain ⟨ps, h_pieces⟩ := h_limit
  have h_parse := Rules.parse_eq h_pieces
  rw [tidy, h_parse] at h_tidy
  rw [h_parse] at h_revises
  obtain ⟨h_alike, ps', h_pieces', h_revised⟩ := h_pieces.rereads_all h_tidy h_revises
  have h_text : (toText revised).toList = Node.writeAll revised := String.toList_ofList
  rw [← h_text] at h_pieces' h_alike
  exact ⟨(Rules.parse_eq h_pieces').trans h_revised, ⟨ps', h_pieces'⟩, h_alike⟩

/-- The written form of a text that was read is read as the same tree. -/
theorem parse_toText_parse {source : String} (h_limit : WithinLimit source)
    (h_tidy : (parse source).tidy = true) : parse (parse source).toText = parse source :=
  (parse_toText_of_revises h_limit h_tidy (Rules.RevisesAll.refl false _)).1

/-- Written text is a fixed point. -/
theorem toText_parse_toText {source : String} (h_limit : WithinLimit source)
    (h_tidy : (parse source).tidy = true) :
    (parse (parse source).toText).toText = (parse source).toText := by
  rw [parse_toText_parse h_limit h_tidy]

/-- Older spellings, an unknown tag, a bracket that opens nothing, a missing closer and white space
    that is not kept. -/
theorem toText_parse_toText_malformed :
    let source := "[clrred ( x  y ) ]a [i [foo u]b[/foo][dice 1  6]4[/dice] [calcn [x[/i"
    let once := (parse source).toText
    (WithinLimit source ∧ (parse source).tidy = true ∧
      once = "[clr red (x y)]a [i [foo u]b[/foo][dice 1 6]4[/dice] [calcn [x[/i[/clr]") ∧
        (parse once).toText = once := by
  have h_limit :
      WithinLimit "[clrred ( x  y ) ]a [i [foo u]b[/foo][dice 1  6]4[/dice] [calcn [x[/i" :=
    withinLimit_of_openings (by decide +kernel)
  have h_tidy :
      (parse "[clrred ( x  y ) ]a [i [foo u]b[/foo][dice 1  6]4[/dice] [calcn [x[/i").tidy =
        true := by
    cbv
  exact ⟨⟨h_limit, h_tidy, by cbv⟩, toText_parse_toText h_limit h_tidy⟩

/-- The word `[/b` is the last attribute, and its space is not written: it is a closer then, and the
    tag that it stands in is none. -/
theorem toText_parse_toText_untidy :
    let source := "[b][bld [/b ]x[/bld]y[/b]"
    let once := (parse source).toText
    once = "[bld][bld [/b]x[/bld]y[/bld]" ∧ (parse once).toText ≠ once := by
  constructor
  · cbv
  · intro h_stable
    have h_twice : (parse (parse "[b][bld [/b ]x[/bld]y[/b]").toText).toText =
      "[bld][bld [/bld]x[/bld]y[/bld]" := by cbv
    have h_once : (parse "[b][bld [/b ]x[/bld]y[/b]").toText = "[bld][bld [/b]x[/bld]y[/bld]" := by
      cbv
    rw [h_twice, h_once] at h_stable
    exact absurd h_stable (by decide)

end Document

end DiceMarkup
