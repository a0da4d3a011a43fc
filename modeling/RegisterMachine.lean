import RegisterMachine.BoundedStack
import RegisterMachine.Checksum
import RegisterMachine.Code.Alignment
import RegisterMachine.Code.Basic
import RegisterMachine.Code.Directive
import RegisterMachine.Code.Image
import RegisterMachine.Code.Link
import RegisterMachine.Code.Listing
import RegisterMachine.Code.Record
import RegisterMachine.CommandLine
import RegisterMachine.Fault
import RegisterMachine.Host.Builtins
import RegisterMachine.Host.FunctionTable
import RegisterMachine.Host.Routine
import RegisterMachine.Instruction
import RegisterMachine.Layout
import RegisterMachine.LittleEndian
import RegisterMachine.Machine.Basic
import RegisterMachine.Machine.Run
import RegisterMachine.Main
import RegisterMachine.Memory.Integer
import RegisterMachine.Memory.Register
import RegisterMachine.Memory.Registers
import RegisterMachine.Monitor.Command
import RegisterMachine.Monitor.Completion
import RegisterMachine.Monitor.Display
import RegisterMachine.Monitor.Session
import RegisterMachine.Op
import RegisterMachine.Opcode
import RegisterMachine.Operand
import RegisterMachine.Packed
import RegisterMachine.Payload
import RegisterMachine.Program
import RegisterMachine.Text.Blank
import RegisterMachine.Text.Column
import RegisterMachine.Text.Numeral
import RegisterMachine.Proofs.Outcomes
import RegisterMachine.Proofs.Records
import RegisterMachine.Proofs.Linking
import RegisterMachine.Proofs.Images
import RegisterMachine.Proofs.Directives
import RegisterMachine.Proofs.Construction
import RegisterMachine.Proofs.Operations
import RegisterMachine.Proofs.Transitions
import RegisterMachine.Proofs.Runs
import RegisterMachine.Proofs.Realignment
import RegisterMachine.Proofs.Safety
import RegisterMachine.Proofs.Bookkeeping
import RegisterMachine.Proofs.Pairing
import RegisterMachine.Proofs.Nesting
import RegisterMachine.Proofs.Edits
import RegisterMachine.Proofs.EditsInPlace
import RegisterMachine.Proofs.Layouts
import RegisterMachine.Proofs.Decoding
import RegisterMachine.Proofs.Slices
import RegisterMachine.Proofs.Stores
import RegisterMachine.Proofs.InPlace
import RegisterMachine.Proofs.Atomicity
import RegisterMachine.Proofs.Allocations
import RegisterMachine.Proofs.Capacities
import RegisterMachine.Proofs.Invocations
import RegisterMachine.Proofs.Transcripts
import RegisterMachine.Proofs.Acceptance
import RegisterMachine.Proofs.LoadedLayouts
import RegisterMachine.Proofs.Windows
import RegisterMachine.Proofs.Footprints
import RegisterMachine.Proofs.Copies
import RegisterMachine.Proofs.Words
import RegisterMachine.Proofs.Resolution
import RegisterMachine.Proofs.Rounds
import RegisterMachine.Proofs.Values
import RegisterMachine.Proofs.Arithmetic
import RegisterMachine.Proofs.Walks
import RegisterMachine.Proofs.Prefixes
import RegisterMachine.Proofs.Bursts
import RegisterMachine.Proofs.EntryTables
import RegisterMachine.Proofs.Legibility
import RegisterMachine.Proofs.Listings
import RegisterMachine.Proofs.Readouts
import RegisterMachine.Proofs.Completions
import RegisterMachine.Proofs.Payloads
