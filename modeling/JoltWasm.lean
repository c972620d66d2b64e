import JoltWasm.Lib.Numerals
import JoltWasm.Lib.Lucas
import JoltWasm.Lib.JoinHom
import JoltWasm.Lib.Keeps
import JoltWasm.Lib.Settles
import JoltWasm.Lib.Agrees
import JoltWasm.Lib.Sumcheck
import JoltWasm.Lib.Multilinear
import JoltWasm.Lib.PairSums
import JoltWasm.Lib.PairBits
import JoltWasm.Ir.Alu
import JoltWasm.Ir.Instruction
import JoltWasm.Ir.Row
import JoltWasm.Ir.Layout
import JoltWasm.Ir.Bytecode
import JoltWasm.Backend.Memory
import JoltWasm.Backend.Machine
import JoltWasm.Backend.Step
import JoltWasm.Backend.Straight
import JoltWasm.Frontend.Source
import JoltWasm.Frontend.Emitter
import JoltWasm.Frontend.Division
import JoltWasm.Tables.Interleave
import JoltWasm.Tables.Catalog
import JoltWasm.Tables.Shift
import JoltWasm.Tables.Correct
import JoltWasm.Tables.Mle
import JoltWasm.Tables.MleForms
import JoltWasm.Tables.WordBits
import JoltWasm.Tables.MleCorrect
import JoltWasm.Tables.PrefixSuffix
import JoltWasm.Tables.Decomposition
import JoltWasm.Tables.Phases
import JoltWasm.R1cs.Field
import JoltWasm.R1cs.Wasm
import JoltWasm.R1cs.Operands
import JoltWasm.R1cs.RowSoundness
import JoltWasm.Frontend.Lower
import JoltWasm.Frontend.WellFormed
import JoltWasm.Frontend.Validate
import JoltWasm.Frontend.Progress
import JoltWasm.Frontend.Safety
import JoltWasm.Frontend.Builds
import JoltWasm.Frontend.Covering
import JoltWasm.Backend.CheckRecord
import JoltWasm.Backend.Run
import JoltWasm.Program.TraceRow
import JoltWasm.Program.CycleWitness
import JoltWasm.Program.Completeness
import JoltWasm.Sumcheck.Verifier
import JoltWasm.Sumcheck.Soundness
import JoltWasm.Program.Image
import JoltWasm.Program.ImageAgreement
import JoltWasm.Program.ExecutableSpec
import JoltWasm.Blindfold.WitnessAssembly
import JoltWasm.Sumcheck.Completeness
import JoltWasm.Program.PublicBinding
import JoltWasm.Claims.BytecodeBinding
import JoltWasm.Claims.ReductionComplete
import JoltWasm.Field.SignedCorrect
import JoltWasm.Field.WideReduce
import JoltWasm.Opening.FinalPoint
import JoltWasm.Opening.Points
import JoltWasm.Poly.Ranges
import JoltWasm.Poly.Interpolation
import JoltWasm.Poly.SplitEqRounds
import JoltWasm.Poly.EqPlusOne
import JoltWasm.Kernels.ProductCorrect
import JoltWasm.Kernels.LazyRa
import JoltWasm.R1cs.KeyExtension
import JoltWasm.Claims.PhaseSplitIndependence
import JoltWasm.Kernels.ShiftCorrect
import JoltWasm.Tables.LookupBits
import JoltWasm.Claims.ShiftedEq
import JoltWasm.Program.TranscriptBinding
import JoltWasm.Lib.MatrixView
import JoltWasm.Lib.Plans
import JoltWasm.Poly.MultilinearPoly
import JoltWasm.Opening.CommittedViews
import JoltWasm.Program.RamDomain
import JoltWasm.Kernels.RamRaReduction
import JoltWasm.Kernels.InstructionReduction
import JoltWasm.Opening.CommitAgreement
import JoltWasm.Kernels.SplitRounds
import JoltWasm.Kernels.InstructionInput
import JoltWasm.Kernels.InstructionRa
import JoltWasm.Kernels.RamRaVirtualization
import JoltWasm.Claims.CycleRelations
import JoltWasm.Claims.RegistersArgument
import JoltWasm.Claims.RamArgument
import JoltWasm.Claims.OneHotArgument
import JoltWasm.Claims.AccessChunks
import JoltWasm.Claims.MemoryArgument
import JoltWasm.Claims.FetchArgument
import JoltWasm.Claims.LookupArgument
import JoltWasm.Program.TraceSoundness
import JoltWasm.Witness.Backend
import JoltWasm.Witness.Oracle
import JoltWasm.Witness.Replay
import JoltWasm.Witness.Columns
import JoltWasm.Witness.Completeness
