import DiceMarkup.Main
import DiceMarkup.Proofs.Respelling
import DiceMarkup.Proofs.Stability
import DiceMarkup.Proofs.Replay
import DiceMarkup.Proofs.Bounds
import DiceMarkup.Proofs.Completion
import DiceMarkup.Proofs.Levels
import DiceMarkup.Proofs.Preview
import DiceMarkup.Proofs.Stored
import DiceMarkup.Proofs.WellFormed
import DiceMarkup.Proofs.Calls
import DiceMarkup.Proofs.Restoring
import DiceMarkup.Proofs.Grammar
import DiceMarkup.Proofs.Range
import DiceMarkup.Proofs.Shown
import DiceMarkup.Proofs.Unclosed
import DiceMarkup.Proofs.Opaque
import DiceMarkup.Proofs.Noted
import DiceMarkup.Proofs.Expression
import DiceMarkup.Proofs.Drawing
import DiceMarkup.Proofs.Translation
import DiceMarkup.Proofs.Termination
