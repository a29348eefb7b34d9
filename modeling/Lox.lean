import Lox.Cli.Scene
import Lox.Main
import Lox.Proofs.Storage.Probe
import Lox.Proofs.Storage.Writes
import Lox.Proofs.Storage.Interning
import Lox.Proofs.Compile.Moves
import Lox.Proofs.Machine.Moves
import Lox.Proofs.Reached
import Lox.Proofs.Machine.Safety
import Lox.Proofs.Machine.Failures
import Lox.Proofs.Compile.References
import Lox.Proofs.Machine.References
import Lox.Proofs.Layout
import Lox.Proofs.Token
import Lox.Proofs.Compile.Clean
import Lox.Proofs.Compile.Steps
import Lox.Proofs.Compile.Scopes
import Lox.Proofs.Compile.Expressions
import Lox.Proofs.Compile.Functions
import Lox.Proofs.Compile.Control
import Lox.Proofs.Compile.Accepted
import Lox.Proofs.Reference
import Lox.Proofs.Machine.Config
import Lox.Proofs.Machine.View
import Lox.Proofs.Machine.Instructions
import Lox.Proofs.Simulation.Meets
import Lox.Proofs.Simulation.Activation
import Lox.Proofs.Simulation.Expressions
import Lox.Proofs.Simulation.Statements
import Lox.Proofs.Simulation.Calls
import Lox.Proofs.History
import Lox.Proofs.Correctness
import Lox.Proofs.Flow
import Lox.Proofs.Discipline.Calls
import Lox.Proofs.Discipline.Runs
import Lox.Proofs.Discipline.Frames
import Lox.Proofs.Discipline.Effects
import Lox.Proofs.Discipline.Traces
import Lox.Proofs.Compile.Pools
import Lox.Proofs.Compile.WellFormed
import Lox.Proofs.Compile.Total
import Lox.Proofs.Compile.Termination
import Lox.Proofs.Token.Bytes
import Lox.Proofs.Twins.Compiling
import Lox.Proofs.Twins.Machines
import Lox.Proofs.Twins.Running
import Lox.Proofs.Twins.Sessions
import Lox.Proofs.Twins.Steps
import Lox.Proofs.Twins.Values
import Lox.Proofs.Compile.Safety
import Lox.Proofs.Compile.Recovery
import Lox.Proofs.Compile.Boundaries
import Lox.Proofs.Compile.Course
import Lox.Proofs.Compile.Renumbering
import Lox.Proofs.Compile.Orderly
import Lox.Proofs.Compile.Positions
import Lox.Proofs.Compile.Diagnostics
import Lox.Proofs.Compile.Lines
import Lox.Proofs.StaticRules
import Lox.Proofs.Compile.Points
import Lox.Proofs.Compile.Declarations
import Lox.Proofs.Compile.Operators
import Lox.Proofs.Compile.Clauses
import Lox.Proofs.Compile.Sequences
import Lox.Proofs.Compile.Language
import Lox.Proofs.Token.Coverage
import Lox.Proofs.Token.Spelling
import Lox.Proofs.Rendering
import Lox.Proofs.Compile.Translation
import Lox.Proofs.Discipline.Hosts
import Lox.Proofs.Token.Joined
import Lox.Proofs.Twins.Layouts
import Lox.Proofs.Twins.Lockstep
import Lox.Proofs.Twins.Tracks
import Lox.Proofs.Unambiguous
import Lox.Proofs.Twins.Endings
import Lox.Proofs.Splitting
import Lox.Proofs.Compile.Capacity
import Lox.Proofs.Storage.Accounting
import Lox.Proofs.Machine.Bounds
import Lox.Proofs.Machine.Frames
import Lox.Proofs.Machine.Printing
import Lox.Proofs.Listing
import Lox.Proofs.Machine.Decoding
import Lox.Proofs.Storage.Load
import Lox.Proofs.Machine.Jumps
import Lox.Proofs.Compile.Pointing
import Lox.Proofs.Excerpt
import Lox.Proofs.Discipline.Blame
import Lox.Proofs.Storage.Content
import Lox.Proofs.Compile.Bookkeeping
import Lox.Proofs.Compile.Nesting
import Lox.Proofs.Declared
import Lox.Proofs.Contents
