import StackNative.Source
import StackNative.Bytecode.Listing
import StackNative.Lowering
import StackNative.Ir.Printer
import StackNative.Ir.View
import StackNative.Ir.Validate
import StackNative.X64.Codegen
import StackNative.Allocation.Allocator
import StackNative.Image.Elf
import StackNative.Image.Pe
import StackNative.Image.Format
import StackNative.FileSystem
import StackNative.Build.Compiler
import StackNative.Build.Config
import StackNative.Command.Run
import StackNative.Main
import StackNative.Proofs.Allocation.Flow
import StackNative.Proofs.Allocation.Interference
import StackNative.Proofs.Lowering.StackMachine
import StackNative.Proofs.Lowering.Conversion
import StackNative.Proofs.X64.Decoder
import StackNative.Proofs.X64.Encoding
import StackNative.Proofs.X64.Layout
import StackNative.Proofs.X64.Disassembly
import StackNative.Proofs.Ir.Interpreter
import StackNative.Proofs.X64.Machine
import StackNative.Proofs.Ir.Validate
import StackNative.Proofs.X64.Work
import StackNative.Proofs.X64.Frame
import StackNative.Proofs.X64.Program
import StackNative.Proofs.X64.Values
import StackNative.Proofs.X64.Simulation
import StackNative.Proofs.Lowering.Acceptance
import StackNative.Proofs.Lowering.Straight
import StackNative.Proofs.Allocation.Places
import StackNative.Proofs.X64.Binding
import StackNative.Proofs.Build.Pipeline
import StackNative.Proofs.Cbor.RoundTrip
import StackNative.Proofs.Text.Utf8
import StackNative.Proofs.Bytecode.RoundTrip
import StackNative.Proofs.Cbor.Bounds
import StackNative.Proofs.Bytecode.Canonical
import StackNative.Proofs.Bytecode.Building
import StackNative.Proofs.Bytecode.Verified
import StackNative.Proofs.Assembly.Reassembly
import StackNative.Proofs.Source
import StackNative.Proofs.Allocation.Settled
import StackNative.Proofs.Allocation.Tables
import StackNative.Proofs.Allocation.Spilling
import StackNative.Proofs.X64.Compilable
import StackNative.Proofs.X64.Extents
import StackNative.Proofs.Cbor.Limits
import StackNative.Proofs.Bytecode.Readable
import StackNative.Proofs.Assembly.Positions
import StackNative.Proofs.Assembly.Lines
import StackNative.Proofs.X64.Generation
import StackNative.Proofs.X64.Patching
import StackNative.Proofs.X64.Relocation
import StackNative.Proofs.Bytecode.Listing
import StackNative.Proofs.Image.Elf
import StackNative.Proofs.Image.Pe
import StackNative.Proofs.Text.Path
import StackNative.Proofs.FileSystem
import StackNative.Proofs.Build.Effects
import StackNative.Proofs.Build.Search
import StackNative.Proofs.Command.Layers
import StackNative.Proofs.Command.Output
