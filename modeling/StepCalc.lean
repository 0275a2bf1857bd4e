import StepCalc.Main
import StepCalc.Proofs.Grammar.Conflicts
import StepCalc.Proofs.Grammar.Passes
import StepCalc.Proofs.Grammar.Choice
import StepCalc.Proofs.Grammar.Validation
import StepCalc.Proofs.Grammar.Contexts
import StepCalc.Proofs.Parsing.Correctness
import StepCalc.Proofs.Program.Language
import StepCalc.Proofs.Token.Scanned
import StepCalc.Proofs.Program.Meaning
import StepCalc.Proofs.Program.Phrases
import StepCalc.Proofs.Program.FrontEnd
import StepCalc.Proofs.Parsing.Termination
import StepCalc.Proofs.Program.RoundTrip
import StepCalc.Proofs.Machine.Execution
import StepCalc.Proofs.Parsing.FirstError
import StepCalc.Proofs.Program.Numbering
import StepCalc.Proofs.Program.Contents
import StepCalc.Proofs.Machine.Recording
import StepCalc.Proofs.Machine.Navigation
import StepCalc.Proofs.Machine.Calls
import StepCalc.Proofs.Machine.Budget
import StepCalc.Proofs.Text.Words
import StepCalc.Proofs.Machine.Effects
import StepCalc.Proofs.Machine.StepLimit
import StepCalc.Proofs.Machine.Output
import StepCalc.Proofs.Machine.Changes
import StepCalc.Proofs.Machine.Exits
import StepCalc.Proofs.Machine.Unread
import StepCalc.Proofs.Machine.ExactValue
import StepCalc.Proofs.Machine.MemoryLog
import StepCalc.Proofs.Program.StraightLine
import StepCalc.Proofs.Parsing.Locations
import StepCalc.Proofs.Token.Munch
import StepCalc.Proofs.Token.Pieces
import StepCalc.Proofs.Token.LongestMatch
import StepCalc.Proofs.Token.Layout
import StepCalc.Proofs.Viewer.Visibility
