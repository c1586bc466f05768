import PlcMachine.Machine.Operation
import PlcMachine.Proofs.Storage.ByteStore
import PlcMachine.Settings.Loader
import PlcMachine.Settings.Parsing
import PlcMachine.Proofs.Storage.Memory
import PlcMachine.Proofs.LocalStack.Cursor
import PlcMachine.Proofs.Machine.Access
import PlcMachine.Proofs.Machine.Bindings
import PlcMachine.Proofs.Machine.Delivery
import PlcMachine.Proofs.Machine.Planning
import PlcMachine.Proofs.Machine.Entering
import PlcMachine.Proofs.Machine.Leaving
import PlcMachine.Proofs.Machine.History
import PlcMachine.Proofs.Machine.StackInvariant
import PlcMachine.Proofs.Calls.Bracket
import PlcMachine.Proofs.Calls.Atomicity
import PlcMachine.Proofs.Calls.ForwardedPointer
import PlcMachine.Proofs.Calls.InOutChain
import PlcMachine.Proofs.Calls.Rewinding
import PlcMachine.Proofs.Calls.StatelessParameters
import PlcMachine.Proofs.Program.Pointer
import PlcMachine.Proofs.Machine.Instance
import PlcMachine.Proofs.Calls.InstanceParameters
import PlcMachine.Proofs.Machine.Dimensions
import PlcMachine.Proofs.Calls.PointerParameters
import PlcMachine.Proofs.Calls.EmptyCall
import PlcMachine.Proofs.Calls.WriteBack
import PlcMachine.Proofs.Calls.SlotLookup
import PlcMachine.Proofs.Machine.Footprint
import PlcMachine.Proofs.Machine.Agree
import PlcMachine.Proofs.Machine.AgreePlanning
import PlcMachine.Proofs.Calls.Pooling
import PlcMachine.Proofs.Settings.Layers
import PlcMachine.Proofs.LocalStack.Pool
import PlcMachine.Proofs.Calls.Retention
import PlcMachine.Proofs.Storage.History
import PlcMachine.Proofs.Strict.Step
import PlcMachine.Proofs.Strict.Storage
import PlcMachine.Proofs.Strict.Allocation
import PlcMachine.Proofs.Strict.Machine
import PlcMachine.Proofs.Strict.Planning
import PlcMachine.Proofs.Strict.Call
import PlcMachine.Proofs.Strict.Operation
import PlcMachine.Proofs.Machine.Aliasing
import PlcMachine.Proofs.Calls.Returning
import PlcMachine.Proofs.Calls.BindingOrder
import PlcMachine.Proofs.Calls.InstanceBase
import PlcMachine.Proofs.Storage.Bits
import PlcMachine.Proofs.Machine.Bits
import PlcMachine.Proofs.Calls.PlannedWrites
import PlcMachine.Proofs.LocalStack.Ledger
import PlcMachine.Proofs.Program.PointerFormat
import PlcMachine.Proofs.Storage.Widths
import PlcMachine.Proofs.LocalStack.Reuse
import PlcMachine.Proofs.Settings.Search
import PlcMachine.Proofs.Settings.Remembering
import PlcMachine.Proofs.Address.BitAddress
import PlcMachine.Proofs.Calls.NestedInstances
