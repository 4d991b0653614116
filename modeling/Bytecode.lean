import Bytecode.Assembler
import Bytecode.Assembler.Emission
import Bytecode.Assembler.Fixup
import Bytecode.Compilation
import Bytecode.Constant
import Bytecode.Constant.Pool
import Bytecode.Context
import Bytecode.Decimal
import Bytecode.Diagnostic
import Bytecode.Error
import Bytecode.FieldTable
import Bytecode.Flags
import Bytecode.Image
import Bytecode.Image.Listing
import Bytecode.Image.Verify
import Bytecode.Instruction
import Bytecode.Literal
import Bytecode.Locals
import Bytecode.Main
import Bytecode.Metrics
import Bytecode.Number
import Bytecode.Opcode
import Bytecode.OperandStack
import Bytecode.Options
import Bytecode.Proofs.Assembly.Effects
import Bytecode.Proofs.Assembly.Faults
import Bytecode.Proofs.Assembly.Linking
import Bytecode.Proofs.Assembly.LocalSlots
import Bytecode.Proofs.Assembly.Patching
import Bytecode.Proofs.Assembly.Progress
import Bytecode.Proofs.Assembly.References
import Bytecode.Proofs.Assembly.Rejection
import Bytecode.Proofs.Assembly.Renumbering
import Bytecode.Proofs.Assembly.Soundness
import Bytecode.Proofs.Assembly.Symbols
import Bytecode.Proofs.Assembly.Transcript
import Bytecode.Proofs.Assembly.WellFormed
import Bytecode.Proofs.Assembly.Withdrawal
import Bytecode.Proofs.Compilation.Contents
import Bytecode.Proofs.Compilation.Handovers
import Bytecode.Proofs.Compilation.Metrics
import Bytecode.Proofs.Compilation.Outcome
import Bytecode.Proofs.Compilation.ScopeRecords
import Bytecode.Proofs.Constant.Interning
import Bytecode.Proofs.Constant.Limits
import Bytecode.Proofs.Constant.Pool
import Bytecode.Proofs.Constant.RoundTrip
import Bytecode.Proofs.Constant.Taking
import Bytecode.Proofs.Descriptor
import Bytecode.Proofs.Geometry
import Bytecode.Proofs.Image.Canonical
import Bytecode.Proofs.Image.ControlFlow
import Bytecode.Proofs.Image.Duplicates
import Bytecode.Proofs.Image.Limits
import Bytecode.Proofs.Image.LongTexts
import Bytecode.Proofs.Image.Resilience
import Bytecode.Proofs.Image.RoundTrip
import Bytecode.Proofs.Image.Spelling
import Bytecode.Proofs.Image.Verification
import Bytecode.Proofs.Instruction.Flaws
import Bytecode.Proofs.Instruction.Layout
import Bytecode.Proofs.Instruction.Tiling
import Bytecode.Proofs.Literal
import Bytecode.Proofs.Outcome
import Bytecode.Proofs.Scope.Analysis
import Bytecode.Proofs.Scope.Composition
import Bytecode.Proofs.Scope.Locals
import Bytecode.Proofs.Scope.Marks
import Bytecode.Proofs.Scope.Occurrences
import Bytecode.Proofs.Scope.Preorder
import Bytecode.Proofs.Scope.Resolution
import Bytecode.Proofs.Scope.Walk
import Bytecode.Proofs.Typing
import Bytecode.Proofs.Unit.Acceptance
import Bytecode.Proofs.Unit.Accessors
import Bytecode.Proofs.Unit.Attribution
import Bytecode.Proofs.Unit.Constants
import Bytecode.Proofs.Unit.Construction
import Bytecode.Proofs.Unit.Counters
import Bytecode.Proofs.Unit.Identities
import Bytecode.Proofs.Unit.Interleaving
import Bytecode.Proofs.Unit.Lifecycle
import Bytecode.Proofs.Unit.Loading
import Bytecode.Proofs.Unit.Moves
import Bytecode.Proofs.Unit.Naming
import Bytecode.Proofs.Unit.Opening
import Bytecode.Proofs.Unit.Progress
import Bytecode.Proofs.Unit.Rollback
import Bytecode.Proofs.Unit.Routines
import Bytecode.Proofs.Unit.Slots
import Bytecode.Proofs.Unit.Steps
import Bytecode.Proofs.Unit.Tracing
import Bytecode.Proofs.Unit.Verification
import Bytecode.Proofs.Wire.Parsing
import Bytecode.Proofs.Wire.Stepwise
import Bytecode.Proofs.Wire.Taking
import Bytecode.Routine
import Bytecode.Sample
import Bytecode.Scope.Analysis
import Bytecode.Scope.Attributes
import Bytecode.Scope.Declarations
import Bytecode.Scope.References
import Bytecode.Scope.Walk
import Bytecode.Signature
import Bytecode.SymbolTable
import Bytecode.Text
import Bytecode.Tree
import Bytecode.Tree.Geometry
import Bytecode.UnitBuilder
import Bytecode.ValueType
import Bytecode.Wire
import Bytecode.Wire.Buffer
import Bytecode.Wire.Reader
