/-
  DiceMarkup.Rolling.Source

  Where dice values come from: anything that answers a pair of bounds with a
  number and goes on to a next state. A source need not keep to the bounds.
-/
import DiceMarkup.Rolling.SplitMix

namespace DiceMarkup.Rolling

/-- A source of dice values whose state is a `σ`. -/
structure Source (σ : Type) where
  /-- The value for the bounds `min` and `max`, and the state after it. -/
  roll : σ → (min max : Int64) → Int64 × σ

/-- A question to a source and its answer. -/
structure Call where
  min : Int64
  max : Int64
  returned : Int64
deriving DecidableEq

namespace Source

/-- The source without memory that answers by a function of the bounds. -/
def ofFunction (f : Int64 → Int64 → Int64) : Source Unit where
  roll _ min max := (f min max, ())

/-- The source that takes its answers from a list, over and over. The state is the part of the list
    not yet used. An empty list answers with the lower bound. -/
def cycle (values : List Int64) : Source (List Int64) where
  roll remaining min _ :=
    match remaining, values with
    | value :: rest, _ => (value, rest)
    | [], value :: rest => (value, rest)
    | [], [] => (min, [])

/-- The seeded generator. -/
def seeded : Source SplitMix where
  roll g min max := g.roll min max

/-- The same source, with a record of the calls made to it, the last one first. -/
def traced {σ : Type} (source : Source σ) : Source (σ × List Call) where
  roll s min max :=
    let (returned, next) := source.roll s.1 min max
    (returned, next, ⟨min, max, returned⟩ :: s.2)

end Source

end DiceMarkup.Rolling
