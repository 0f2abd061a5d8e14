import ProcLowering.Number.Single
import ProcLowering.Number.Decimal
import ProcLowering.Text.Property
import ProcLowering.Text.Quoted
import ProcLowering.Text.Word
import ProcLowering.Path
import ProcLowering.Span
import ProcLowering.Diagnostic.Kind
import ProcLowering.Diagnostic.Sink
import ProcLowering.Value
import ProcLowering.Expr
import ProcLowering.Fold
import ProcLowering.Tree.Proc
import ProcLowering.Tree.Record
import ProcLowering.Code.Opcode
import ProcLowering.Code.Reference
import ProcLowering.Code.Constant
import ProcLowering.Fault
import ProcLowering.Code.Chunk
import ProcLowering.Code.Instruction
import ProcLowering.Emit.Label
import ProcLowering.Emit.Emitter
import ProcLowering.Scope
import ProcLowering.Options
import ProcLowering.Tree.Basic
import ProcLowering.Tree.Update
import ProcLowering.Tree.Finalize
import ProcLowering.Matrix
import ProcLowering.Lower.Context
import ProcLowering.Lower.Target
import ProcLowering.Lower.Step
import ProcLowering.Lower.Value
import ProcLowering.Lower.Problem
import ProcLowering.Lower.Proc
import ProcLowering.Session
import ProcLowering.Proofs.Decoding
import ProcLowering.Proofs.Emission
import ProcLowering.Proofs.Label
import ProcLowering.Proofs.Operation
import ProcLowering.Proofs.RoundTrip
import ProcLowering.Proofs.DepthPath
import ProcLowering.Proofs.Layout
import ProcLowering.Proofs.StepEmission
import ProcLowering.Proofs.BodySteps
import ProcLowering.Proofs.Balance
import ProcLowering.Proofs.Reachable
import ProcLowering.Proofs.Change
import ProcLowering.Proofs.Outcome
import ProcLowering.Proofs.Hierarchy
import ProcLowering.Proofs.Preorder
import ProcLowering.Proofs.Resolution
import ProcLowering.Proofs.OverrideChain
import ProcLowering.Proofs.Representation
import ProcLowering.Proofs.Verifiable
import ProcLowering.Proofs.Faultless
import ProcLowering.Proofs.Agreement
import ProcLowering.Proofs.Limits
import ProcLowering.Proofs.Frozen
import ProcLowering.Proofs.Valued
import ProcLowering.Proofs.Placeholder
import ProcLowering.Proofs.Evaluation
import ProcLowering.Proofs.Machine
import ProcLowering.Proofs.Refinement
import ProcLowering.Proofs.Folding
import ProcLowering.Proofs.SourceOrder
import ProcLowering.Proofs.SessionRun
import ProcLowering.Proofs.Parentheses
import ProcLowering.Proofs.CallNodes
import ProcLowering.Proofs.CallSites
import ProcLowering.Proofs.Boundaries
import ProcLowering.Proofs.Backing
import ProcLowering.Proofs.Introduction
import ProcLowering.Proofs.Qualified
import ProcLowering.Proofs.LineTable
import ProcLowering.Proofs.CallLines
import ProcLowering.Proofs.BitwiseFolding
import ProcLowering.Proofs.PathGrammar
import ProcLowering.Proofs.FailedEmission
import ProcLowering.Proofs.LocalSlots
import ProcLowering.Proofs.Interning
import ProcLowering.Proofs.MatrixCalls
import ProcLowering.Proofs.Inheritance
