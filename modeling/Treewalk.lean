import Treewalk.Scope.Text
import Treewalk.Session
import Treewalk.Syntax.Text
import Treewalk.Proofs.Table.Probing
import Treewalk.Proofs.Table.Refinement
import Treewalk.Proofs.Simulation.Basic
import Treewalk.Proofs.Simulation.Exec
import Treewalk.Proofs.Scope.Store
import Treewalk.Proofs.Frame
import Treewalk.Proofs.Scope.Dropped
import Treewalk.Proofs.Scope.Places
import Treewalk.Proofs.Scope.Leaving
import Treewalk.Proofs.Value.Copy
import Treewalk.Proofs.Release.Region
import Treewalk.Proofs.Release.Simulation
import Treewalk.Proofs.Release.Turns
import Treewalk.Proofs.Release.Unobservable
import Treewalk.Proofs.Limits.Copy
import Treewalk.Proofs.Limits.Store
import Treewalk.Proofs.Limits.Count
import Treewalk.Proofs.Limits.Simulation
import Treewalk.Proofs.Limits.Unobservable
import Treewalk.Proofs.Syntax.Parts
import Treewalk.Proofs.Signals
import Treewalk.Proofs.Trace.Basic
import Treewalk.Proofs.Trace.Course
import Treewalk.Proofs.Trace.Exec
import Treewalk.Proofs.Trace.Errors
import Treewalk.Proofs.Trace.Depth
import Treewalk.Proofs.Scope.Codes
import Treewalk.Proofs.Termination.Settling
import Treewalk.Proofs.Termination.Bounded
import Treewalk.Proofs.Scope.Forest
import Treewalk.Proofs.Scope.Lexical
import Treewalk.Proofs.Heap.Natives
import Treewalk.Proofs.Heap.Sound
import Treewalk.Proofs.Heap.WellFormed
import Treewalk.Proofs.Reach.Evaluation
import Treewalk.Proofs.Release.Reclaimed
import Treewalk.Proofs.Scope.Closing
import Treewalk.Proofs.Matching.Lines
import Treewalk.Proofs.Matching.Numbers
import Treewalk.Proofs.Parameters
import Treewalk.Proofs.Assignment
import Treewalk.Proofs.Fuel
import Treewalk.Proofs.CountedLoop
import Treewalk.Proofs.Splice.Unobservable
import Treewalk.Proofs.Number.Integers
import Treewalk.Proofs.Update
import Treewalk.Proofs.Number.General
import Treewalk.Proofs.ObjectLiteral
import Treewalk.Proofs.Number.Remainder
import Treewalk.Proofs.Operator.Outcomes
import Treewalk.Proofs.Operator.Comparisons
import Treewalk.Proofs.Number.Rounded
import Treewalk.Proofs.Number.Numerals
import Treewalk.Proofs.Value.Equality
import Treewalk.Proofs.Copies
import Treewalk.Proofs.Builder.Globals
import Treewalk.Proofs.Builder.Capacity
import Treewalk.Proofs.Pieces
import Treewalk.Proofs.Table.Homes
