import ClassLowering.Compiler
import ClassLowering.Method.Build
import ClassLowering.Proofs.Flow.Edges
import ClassLowering.Proofs.Flow.Reachability
import ClassLowering.Proofs.Method.BodyFlow
import ClassLowering.Proofs.Method.Structure
import ClassLowering.Proofs.Liveness.Membership
import ClassLowering.Proofs.Liveness.Solution
import ClassLowering.Proofs.Reading
import ClassLowering.Proofs.Liveness.Paths
import ClassLowering.Proofs.Register.Coloring
import ClassLowering.Proofs.Execution.Semantics
import ClassLowering.Proofs.Method.Rehoming
import ClassLowering.Proofs.Method.Table
import ClassLowering.Proofs.Rounds
import ClassLowering.Proofs.Register.Allocation
import ClassLowering.Proofs.Register.Budget
import ClassLowering.Proofs.Execution.Registers
import ClassLowering.Proofs.Execution.Runs
import ClassLowering.Proofs.Execution.DeadStores
import ClassLowering.Proofs.Code.Depth
import ClassLowering.Proofs.Code.StackLimit
import ClassLowering.Proofs.Code.Lookups
import ClassLowering.Proofs.Code.Level
import ClassLowering.Proofs.Code.Balance
import ClassLowering.Proofs.Code.Shelter
import ClassLowering.Proofs.Code.Freshness
import ClassLowering.Proofs.Code.Acceptance
import ClassLowering.Proofs.Code.Forms
import ClassLowering.Proofs.Execution.StackMachine
import ClassLowering.Proofs.Execution.Meaning
import ClassLowering.Proofs.Execution.StackEffect
import ClassLowering.Proofs.Execution.Operands
import ClassLowering.Proofs.Execution.Selection
import ClassLowering.Proofs.Execution.Layout
import ClassLowering.Proofs.Execution.Simulation
import ClassLowering.Proofs.Register.Alike
import ClassLowering.Proofs.Register.Reassignment
import ClassLowering.Proofs.Register.Compact
import ClassLowering.Proofs.Liveness.Coincidence
import ClassLowering.Proofs.Code.Additions
import ClassLowering.Proofs.Code.Registers
import ClassLowering.Proofs.Code.Independence
import ClassLowering.Proofs.Execution.Exceptions
import ClassLowering.Proofs.Compilation.Preparation
import ClassLowering.Proofs.Compilation.KeptRegisters
import ClassLowering.Proofs.Compilation.Repetition
import ClassLowering.Proofs.Register.Density
import ClassLowering.Proofs.Register.Economy
import ClassLowering.Proofs.Compilation.Failures
import ClassLowering.Proofs.Compilation.Events
import ClassLowering.Proofs.Code.Mirroring
import ClassLowering.Proofs.Code.Lockstep
import ClassLowering.Proofs.Code.LabelBlock
import ClassLowering.Proofs.Method.Thinning
import ClassLowering.Proofs.Code.Trailing
import ClassLowering.Proofs.Code.Remnant
import ClassLowering.Proofs.Compilation.Optimized
import ClassLowering.Proofs.Code.Labels
import ClassLowering.Proofs.Register.Drawing
import ClassLowering.Proofs.Register.Degeneracy
import ClassLowering.Proofs.Execution.Frame
import ClassLowering.Proofs.Execution.ElementStores
import ClassLowering.Proofs.Elimination.Confluence
import ClassLowering.Proofs.Elimination.Account
import ClassLowering.Proofs.Code.Accesses
import ClassLowering.Proofs.Flow.Postorder
import ClassLowering.Proofs.Liveness.Passes
import ClassLowering.Proofs.Method.Removal
import ClassLowering.Proofs.Code.Headroom
import ClassLowering.Proofs.Code.Underflow
import ClassLowering.Proofs.Liveness.Iteration
import ClassLowering.Proofs.Liveness.Resolution
import ClassLowering.Proofs.Flow.Changes
import ClassLowering.Proofs.Method.Construction
import ClassLowering.Proofs.Method.Numbering
import ClassLowering.Proofs.Register.Adjacency
import ClassLowering.Proofs.Encoding.Grammar
import ClassLowering.Proofs.Encoding.Signatures
import ClassLowering.Proofs.Liveness.Blocks
import ClassLowering.Proofs.Liveness.Families
import ClassLowering.Proofs.Liveness.Ghosts
