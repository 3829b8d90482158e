import Scriptlet.Machine.Finishes
import Scriptlet.Main
import Scriptlet.Proofs.Lines
import Scriptlet.Proofs.Lockstep
import Scriptlet.Proofs.Requests
import Scriptlet.Proofs.Store
import Scriptlet.Proofs.Immutability
import Scriptlet.Proofs.Territory
import Scriptlet.Proofs.Isolation
import Scriptlet.Proofs.Grammar
import Scriptlet.Proofs.Reads
import Scriptlet.Proofs.Derivation
import Scriptlet.Proofs.Recognition
import Scriptlet.Proofs.ParseJoin
import Scriptlet.Proofs.Piecewise
import Scriptlet.Proofs.Echo
import Scriptlet.Proofs.Rendering
import Scriptlet.Proofs.RoundTrip
import Scriptlet.Proofs.Patterns
import Scriptlet.Proofs.Quotes
import Scriptlet.Proofs.Openings
import Scriptlet.Proofs.FirstPiece
import Scriptlet.Proofs.Cuttings
import Scriptlet.Proofs.LongestMatch
import Scriptlet.Proofs.Positions
import Scriptlet.Proofs.Predictive
import Scriptlet.Proofs.Mistakes
import Scriptlet.Proofs.Writing
import Scriptlet.Proofs.Contract
import Scriptlet.Proofs.Invariant
import Scriptlet.Proofs.ScopeHeap
import Scriptlet.Proofs.ErrorPlaces
import Scriptlet.Proofs.Renaming
import Scriptlet.Proofs.Prints
import Scriptlet.Proofs.Following
import Scriptlet.Proofs.Truncation
import Scriptlet.Proofs.Names
import Scriptlet.Proofs.Dialogue
import Scriptlet.Proofs.IdleLines
import Scriptlet.Proofs.ControlFlow
import Scriptlet.Proofs.Evaluation
import Scriptlet.Proofs.Kinds
import Scriptlet.Proofs.Assignment
import Scriptlet.Proofs.Exactness
import Scriptlet.Proofs.Parallel
import Scriptlet.Proofs.Returns
import Scriptlet.Proofs.Termination
import Scriptlet.Proofs.Parallel.Expression
import Scriptlet.Proofs.EndMarker
import Scriptlet.Proofs.BlankLines
import Scriptlet.Proofs.Promotion
import Scriptlet.Proofs.ByteOrder
import Scriptlet.Proofs.Comparisons
import Scriptlet.Proofs.Procedures
import Scriptlet.Proofs.Unfolding
import Scriptlet.Proofs.Provenance
import Scriptlet.Proofs.Mentions
import Scriptlet.Proofs.Messages
import Scriptlet.Proofs.CallEntry
