import Lox.Console
import Lox.Main
import Lox.Proofs.Heap.Renaming
import Lox.Proofs.Simulation.World
import Lox.Proofs.Evaluation.Watched
import Lox.Proofs.Simulation.Correspondence
import Lox.Proofs.Simulation.Step
import Lox.Proofs.Simulation.Call
import Lox.Proofs.Simulation.Evaluation
import Lox.Proofs.Program.Relabel
import Lox.Proofs.Scope.Visit
import Lox.Proofs.Scope.Relabel
import Lox.Proofs.Simulation.Relabeled
import Lox.Proofs.Grammar.Phrase
import Lox.Proofs.Grammar.Relabel
import Lox.Proofs.Session.Recording
import Lox.Proofs.Session.Comparison
import Lox.Proofs.Session.Alike
import Lox.Proofs.Session.Rejection
import Lox.Proofs.Scope.Settled
import Lox.Proofs.Session.Agreement
import Lox.Proofs.Session.Watched
import Lox.Proofs.Session.Assignment
import Lox.Proofs.Evaluation.Discipline
import Lox.Proofs.Heap.Receiver
import Lox.Proofs.Evaluation.Receiver
import Lox.Proofs.Scope.Super
import Lox.Proofs.Session.Super
import Lox.Proofs.Program.Rename
import Lox.Proofs.Scope.Rename
import Lox.Proofs.Simulation.Renamed
import Lox.Proofs.Session.Renamed
import Lox.Proofs.Token.Joined
import Lox.Proofs.Grammar.Extension
import Lox.Proofs.Grammar.Joined
import Lox.Proofs.Session.Joined
import Lox.Proofs.Grammar.Spelling
import Lox.Proofs.Grammar.Shape
import Lox.Proofs.Grammar.Composition
import Lox.Proofs.Grammar.Faultless
import Lox.Proofs.Grammar.Acceptance
import Lox.Proofs.Grammar.Roundtrip
import Lox.Proofs.Grammar.Ebnf
import Lox.Proofs.Grammar.Derivation
import Lox.Proofs.Grammar.Recognition
import Lox.Proofs.Scope.WellScoped
import Lox.Proofs.Evaluation.Retention
import Lox.Proofs.Session.Retention
import Lox.Proofs.Session.Numbering
import Lox.Proofs.Token.Form
import Lox.Proofs.Token.Segment
import Lox.Proofs.Token.Spaced
import Lox.Proofs.Token.Bytes
import Lox.Proofs.Token.Cursor
import Lox.Proofs.Grammar.Zone
import Lox.Proofs.Grammar.Surrounded
import Lox.Proofs.Grammar.Fragment
import Lox.Proofs.Heap.Reachable
import Lox.Proofs.Heap.Region
import Lox.Proofs.Heap.Lookup
import Lox.Proofs.Evaluation.Isolation
import Lox.Proofs.Heap.Grounded
import Lox.Proofs.Evaluation.Grounding
import Lox.Proofs.Evaluation.Congruence
import Lox.Proofs.Evaluation.Sequence
import Lox.Proofs.Evaluation.Foresight
import Lox.Proofs.Session.Grounded
import Lox.Proofs.Evaluation.Initializer
import Lox.Proofs.Session.Initializer
import Lox.Proofs.Evaluation.Return
import Lox.Proofs.Scope.Return
import Lox.Proofs.Session.Return
import Lox.Proofs.Grammar.Relaxed
import Lox.Proofs.Grammar.Expectation
import Lox.Proofs.Grammar.Prediction
import Lox.Proofs.Grammar.EarliestError
import Lox.Proofs.Grammar.Outcome
import Lox.Proofs.Evaluation.Declaring
import Lox.Proofs.Evaluation.Halting
import Lox.Proofs.Session.Grammatical
import Lox.Proofs.Grammar.Progress
import Lox.Proofs.Evaluation.Truncation
import Lox.Proofs.Session.Truncation
import Lox.Proofs.Grammar.Renumbering
import Lox.Proofs.Grammar.Replacement
import Lox.Proofs.Grammar.Loop
import Lox.Proofs.Evaluation.Loop
import Lox.Proofs.Session.Renumbered
import Lox.Proofs.Session.Loop
import Lox.Proofs.Evaluation.ClassDeclaration
import Lox.Proofs.Number.Rounding
import Lox.Proofs.Number.Shortest
import Lox.Proofs.Number.Bits
import Lox.Proofs.Number.Text
