import ThreeAddress.Main
import ThreeAddress.Exchange.Limits
import ThreeAddress.Proofs.Json.Values
import ThreeAddress.Proofs.Eval.Recursion
import ThreeAddress.Proofs.Eval.Truncation
import ThreeAddress.Proofs.Eval.Loop
import ThreeAddress.Proofs.Liveness.DeadBindings
import ThreeAddress.Proofs.Lowering.Labels
import ThreeAddress.Proofs.Lowering.Interning
import ThreeAddress.Proofs.Lowering.WellFormed
import ThreeAddress.Proofs.Asm.Relocation
import ThreeAddress.Proofs.Native.Disassembly
import ThreeAddress.Proofs.Native.Convention
import ThreeAddress.Proofs.Exchange.Program
import ThreeAddress.Proofs.Asm.Acceptance
import ThreeAddress.Proofs.Asm.Decoding
import ThreeAddress.Proofs.Lowering.Failures
import ThreeAddress.Proofs.Eval.Depth
import ThreeAddress.Proofs.Eval.Footprint
import ThreeAddress.Proofs.Lowering.Independence
import ThreeAddress.Proofs.Heap.History
import ThreeAddress.Proofs.Liveness.Paths
import ThreeAddress.Proofs.Registers.Cycles
import ThreeAddress.Proofs.Eval.InPlace
import ThreeAddress.Proofs.Eval.Budget
import ThreeAddress.Proofs.Registers.Pressure
import ThreeAddress.Proofs.Heap.Grants
import ThreeAddress.Proofs.Native.WordAccess
import ThreeAddress.Proofs.Liveness.Sweeps
import ThreeAddress.Proofs.Asm.Strings
import ThreeAddress.Proofs.Lowering.Operators
import ThreeAddress.Proofs.Registers.Preference
import ThreeAddress.Proofs.Lowering.Prologue
