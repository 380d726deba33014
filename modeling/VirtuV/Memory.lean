import VirtuV.Basic
import VirtuV.Lib.Stateful

/-!
# VirtuV.Memory

The memory system: `PhysicalMemory`, `PageTableEntry`, `PageTable` and the
`MMU` that ties them together.

The reading methods change nothing and are queries (`Except Exception`); the
writing methods change the memory they are called on and, when they throw,
leave what they had already written (`EStateM Exception`).
-/

namespace VirtuV

open Stateful

/-! ## PhysicalMemory -/

structure PhysicalMemory where
  memory : List Byte
deriving DecidableEq, Repr

namespace PhysicalMemory

/-- `PhysicalMemory(size)`: `size` zero bytes. -/
def new (size : Nat) : PhysicalMemory := ⟨List.replicate size 0⟩

def size (self : PhysicalMemory) : Nat := self.memory.length

def read (self : PhysicalMemory) (address : Word) : Except Exception Byte :=
  if h : address.toNat < self.memory.length then
    .ok self.memory[address.toNat]
  else
    .error (.outOfRange "PhysicalMemory::read - Address out of range")

def write (self : PhysicalMemory) (address : Word) (value : Byte) :
    Except Exception PhysicalMemory :=
  if address.toNat < self.memory.length then
    .ok { self with memory := self.memory.set address.toNat value }
  else
    .error (.outOfRange "PhysicalMemory::write - Address out of range")

end PhysicalMemory

/-! ## PageTableEntry -/

structure PageTableEntry where
  entryValue : Word
deriving DecidableEq, Repr

namespace PageTableEntry

def validBit : Word := 0x1
def readBit : Word := 0x2
def writeBit : Word := 0x4
def executeBit : Word := 0x8
def userAccessibleBit : Word := 0x10

def isValid (self : PageTableEntry) : Bool := self.entryValue &&& validBit != 0

/-- The test the three permission checks share: the entry is valid, carries
the permission bit, and is user accessible when the mode is USER. -/
def permits (bit : Word) (self : PageTableEntry) (mode : PrivilegeMode) : Bool :=
  if !self.isValid then false
  else if !(self.entryValue &&& bit != 0) then false
  else if mode == .user && !(self.entryValue &&& userAccessibleBit != 0) then false
  else true

def isReadable (self : PageTableEntry) (mode : PrivilegeMode) : Bool := permits readBit self mode
def isWritable (self : PageTableEntry) (mode : PrivilegeMode) : Bool := permits writeBit self mode
def isExecutable (self : PageTableEntry) (mode : PrivilegeMode) : Bool :=
  permits executeBit self mode

def getPhysicalAddress (self : PageTableEntry) (virtualAddress : Word) : Word :=
  (self.entryValue &&& 0xFFFFF000) ||| (virtualAddress &&& 0xFFF)

end PageTableEntry

/-! ## PageTable -/

/-- The `unordered_map` from 32-bit keys to entries. -/
structure PageTable where
  entries : Word → Option PageTableEntry

namespace PageTable

def new : PageTable := ⟨fun _ => none⟩

/-- The key is the address as given: it is not reduced to its page. -/
def addEntry (self : PageTable) (virtualAddress : Word) (entry : PageTableEntry) : PageTable :=
  ⟨fun key => if key = virtualAddress then some entry else self.entries key⟩

def getEntry (self : PageTable) (virtualAddress : Word) : Except Exception PageTableEntry :=
  match self.entries (virtualAddress &&& 0xFFFFF000) with
  | some entry => .ok entry
  | none => .error (.pageFaultException "PageTable::get_entry - No entry for virtual address")

end PageTable

/-! ## MMU -/

/-- The MMU with the physical memory and the page table it points to. -/
@[ext]
structure MMU where
  physicalMemory : PhysicalMemory
  pageTable : PageTable
  privilegeMode : PrivilegeMode

namespace MMU

def translateAddress (self : MMU) (virtualAddress : Word) (isWrite : Bool) :
    Except Exception Word := do
  let pageNumber := virtualAddress &&& 0xFFFFF000
  let entry ← self.pageTable.getEntry pageNumber
  if !entry.isValid then
    .error (.pageFaultException "MMU::translate_address - Invalid page entry")
  else if isWrite && !entry.isWritable self.privilegeMode then
    .error (.accessViolationException "MMU::translate_address - Write not permitted on this page")
  else if !isWrite && !entry.isReadable self.privilegeMode then
    .error (.accessViolationException "MMU::translate_address - Read not permitted on this page")
  else
    .ok (entry.getPhysicalAddress virtualAddress)

def read (self : MMU) (virtualAddress : Word) : Except Exception Byte := do
  let physicalAddress ← self.translateAddress virtualAddress false
  self.physicalMemory.read physicalAddress

def write (virtualAddress : Word) (value : Byte) : EStateM Exception MMU Unit := do
  let physicalAddress ← tries (·.translateAddress virtualAddress true)
  let physicalMemory ← tries (·.physicalMemory.write physicalAddress value)
  modify ({ · with physicalMemory })

def readWord (self : MMU) (virtualAddress : Word) : Except Exception Word := do
  let byte0 ← self.read virtualAddress
  let byte1 ← self.read (virtualAddress + 1)
  let byte2 ← self.read (virtualAddress + 2)
  let byte3 ← self.read (virtualAddress + 3)
  return byte0.setWidth 32 ||| byte1.setWidth 32 <<< 8 ||| byte2.setWidth 32 <<< 16 |||
    byte3.setWidth 32 <<< 24

def writeWord (virtualAddress : Word) (value : Word) : EStateM Exception MMU Unit := do
  write virtualAddress ((value &&& 0xFF).setWidth 8)
  write (virtualAddress + 1) (((value >>> 8) &&& 0xFF).setWidth 8)
  write (virtualAddress + 2) (((value >>> 16) &&& 0xFF).setWidth 8)
  write (virtualAddress + 3) (((value >>> 24) &&& 0xFF).setWidth 8)

def setPrivilegeMode (self : MMU) (mode : PrivilegeMode) : MMU :=
  { self with privilegeMode := mode }

end MMU

end VirtuV
