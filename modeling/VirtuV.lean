import VirtuV.Lib.Stateful
import VirtuV.Lib.FlatMemory
import VirtuV.Lib.Bits
import VirtuV.Lib.BitFields
import VirtuV.Lib.Rv32i
import VirtuV.Lib.Rv32iMachine
import VirtuV.Lib.Resumed
import VirtuV.Lib.Interference
import VirtuV.CPU
import VirtuV.Translation
import VirtuV.PageTable
import VirtuV.Immediate
import VirtuV.Cycle
import VirtuV.Alu
import VirtuV.Program
import VirtuV.ControlFlow
import VirtuV.Rejection
import VirtuV.Integrity
import VirtuV.Confidentiality
import VirtuV.History
import VirtuV.ExecutePermission
import VirtuV.Privilege
import VirtuV.Reachable
import VirtuV.VirtualMemory
import VirtuV.WordAccess
import VirtuV.Store
import VirtuV.Load
import VirtuV.Jump
import VirtuV.Fault
import VirtuV.Frame
import VirtuV.Loader
import VirtuV.Trajectory
import VirtuV.Exceptions
import VirtuV.Log
import VirtuV.Main
import VirtuV.MemorySystem
import VirtuV.Session
import VirtuV.Machine
import VirtuV.Conformance
import VirtuV.Footprint
import VirtuV.Resume
import VirtuV.Bindings
import VirtuV.Isolation
