import Dynarec.Cli.Store
import Dynarec.Ir.Notation
import Dynarec.Main
import Dynarec.Proofs.Flow.Follow
import Dynarec.Proofs.Flow.Classify
import Dynarec.Proofs.Flow.Coalesce
import Dynarec.Proofs.Flow.Total
import Dynarec.Proofs.Compiler.Emits
import Dynarec.Proofs.Compiler.Emitters
import Dynarec.Proofs.Compiler.Cache
import Dynarec.Proofs.Emulator.Budget
import Dynarec.Proofs.Emulator.Links
import Dynarec.Proofs.Emulator.Limits
import Dynarec.Proofs.Wasm.References
import Dynarec.Proofs.Wasm.Typing
import Dynarec.Proofs.Wasm.Valid
import Dynarec.Proofs.Wasm.Addresses
import Dynarec.Proofs.Compiler.Total
import Dynarec.Proofs.Flow.Doorway
import Dynarec.Proofs.Flow.Headers
import Dynarec.Proofs.Flow.Charges
import Dynarec.Proofs.Emulator.Siblings
import Dynarec.Proofs.Linking.Alike
import Dynarec.Proofs.Compiler.Additions
import Dynarec.Proofs.Compiler.Bitfields
import Dynarec.Proofs.Compiler.Tuning
import Dynarec.Proofs.Emulator.Tuning
import Dynarec.Proofs.Flow.Dispatchers
import Dynarec.Proofs.Flow.Contents
import Dynarec.Proofs.Compiler.SysRegs
import Dynarec.Proofs.Compiler.Positions
import Dynarec.Proofs.Wasm.GuestAccess
import Dynarec.Proofs.Wasm.Agreement
import Dynarec.Proofs.Compiler.Accesses
import Dynarec.Proofs.Ir.Operators
import Dynarec.Proofs.Cpu.Conditions
import Dynarec.Proofs.Compiler.Conditions
import Dynarec.Proofs.Compiler.Spellings
import Dynarec.Proofs.Flat.Blocks
import Dynarec.Proofs.Flat.Functions
import Dynarec.Proofs.Flat.Runs
import Dynarec.Proofs.Encoding.Partition
import Dynarec.Proofs.Cpu.Layout
import Dynarec.Proofs.Memory.History
import Dynarec.Proofs.Flow.Strong
import Dynarec.Proofs.Flow.Dominance
import Dynarec.Proofs.Ir.Scratch
import Dynarec.Proofs.Linking.FunctionTable
