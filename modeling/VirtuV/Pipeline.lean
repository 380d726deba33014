import VirtuV.Instruction
import VirtuV.Memory

/-!
# VirtuV.Pipeline

The register bank, the five pipeline stages and `Pipeline::run_cycle`.

Every stage keeps its own fields between cycles and refers to the register
bank and the MMU it shares with the others, so the state of a `Pipeline` is
the stages' fields together with the shared bank and MMU, and every `process`
runs in that state.  What a stage assigned before it threw stays assigned.
-/

namespace VirtuV

open Stateful

/-! ## RegisterBank -/

structure RegisterBank where
  registers : Vector Word 32
  pc : Word
deriving DecidableEq, Repr

namespace RegisterBank

def new : RegisterBank := ⟨Vector.replicate 32 0, 0⟩

def read (self : RegisterBank) (reg : BitVec 8) : Except Exception Word :=
  if h : reg.toNat < 32 then
    .ok self.registers[reg.toNat]
  else
    .error (.outOfRange "Register index out of range")

def write (self : RegisterBank) (reg : BitVec 8) (value : Word) : Except Exception RegisterBank :=
  if reg = 0 then
    .error (.invalidArgument "Cannot write to x0 (read-only register)")
  else if h : reg.toNat < 32 then
    .ok { self with registers := self.registers.set reg.toNat value }
  else
    .error (.outOfRange "Register index out of range")

def getPc (self : RegisterBank) : Word := self.pc

def setPc (self : RegisterBank) (value : Word) : RegisterBank := { self with pc := value }

end RegisterBank

/-! ## results handed from stage to stage -/

structure ExecutionResult where
  aluResult : Word
  branchTaken : Bool
  branchTarget : Word
deriving DecidableEq, Repr

/-- `ExecutionResult` as default-initialized: `alu_result` has no initializer
and holds whatever was in its place. -/
def ExecutionResult.new (aluResult : Word) : ExecutionResult := ⟨aluResult, false, 0⟩

structure MemoryAccessResult where
  loadData : Option Word
  storeSuccess : Bool
deriving DecidableEq, Repr

def MemoryAccessResult.new : MemoryAccessResult := ⟨none, false⟩

/-! ## stages -/

structure FetchStage where
  fetchedInstruction : Word
deriving DecidableEq, Repr

structure DecodeStage where
  fetchedInstruction : Word
  decodedInstruction : DecodedInstructionVariant
deriving DecidableEq, Repr

structure ExecuteStage where
  decodedInstruction : DecodedInstructionVariant
  rs1Value : Word
  rs2Value : Word
  immediate : Word
  result : ExecutionResult
deriving DecidableEq, Repr

structure MemoryAccessStage where
  executionResult : ExecutionResult
  decodedInstruction : DecodedInstructionVariant
  result : MemoryAccessResult
deriving DecidableEq, Repr

structure WriteBackStage where
  executionResult : ExecutionResult
  memoryAccessResult : MemoryAccessResult
  decodedInstruction : DecodedInstructionVariant
deriving DecidableEq, Repr

structure Pipeline where
  registerBank : RegisterBank
  mmu : MMU
  fetchStage : FetchStage
  decodeStage : DecodeStage
  executeStage : ExecuteStage
  memAccesStage : MemoryAccessStage
  writeBackStage : WriteBackStage

/-- The three `alu_result`s that no constructor initializes. -/
structure Uninitialized where
  execute : Word
  memAcces : Word
  writeBack : Word

/-- `Pipeline(register_bank, mmu)`. -/
def Pipeline.new (registerBank : RegisterBank) (mmu : MMU) (garbage : Uninitialized) : Pipeline where
  registerBank
  mmu
  fetchStage := ⟨0⟩
  decodeStage := ⟨0, .invalidType ⟨0⟩⟩
  executeStage := ⟨.invalidType ⟨0⟩, 0, 0, 0, .new garbage.execute⟩
  memAccesStage := ⟨.new garbage.memAcces, .invalidType ⟨0⟩, .new⟩
  writeBackStage := ⟨.new garbage.writeBack, .new, .invalidType ⟨0⟩⟩

/-- A method running in the state of the pipeline. -/
abbrev PipelineM := EStateM Exception Pipeline

/-- A method of the register bank, called through the reference a stage holds. -/
def readRegister (reg : BitVec 5) : PipelineM Word :=
  tries (·.registerBank.read (reg.setWidth 8))

def writeRegister (reg : BitVec 5) (value : Word) : PipelineM Unit := do
  let registerBank ← tries (·.registerBank.write (reg.setWidth 8) value)
  modify ({ · with registerBank })

/-! ## FetchStage -/

namespace FetchStage

def process : PipelineM Unit := do
  let pc ← reads (·.registerBank.getPc)
  let fetchedInstruction ← tries (·.mmu.readWord pc)
  modify fun s => { s with fetchStage := { s.fetchStage with fetchedInstruction } }
  modify fun s => { s with registerBank := s.registerBank.setPc (pc + 4) }

def getFetchedInstruction (self : FetchStage) : Word := self.fetchedInstruction

end FetchStage

/-! ## DecodeStage -/

namespace DecodeStage

def setDecoded (decodedInstruction : DecodedInstructionVariant) : PipelineM Unit :=
  modify fun s => { s with decodeStage := { s.decodeStage with decodedInstruction } }

def process : PipelineM Unit := do
  let fetchedInstruction ← reads (·.decodeStage.fetchedInstruction)
  let opcode := (DecodedInstructionBase.mk fetchedInstruction).getOpcode
  if opcode = InstructionFormat.rType.value then setDecoded (.rType ⟨fetchedInstruction⟩)
  else if opcode = InstructionFormat.iType.value then setDecoded (.iType ⟨fetchedInstruction⟩)
  else if opcode = InstructionFormat.sType.value then setDecoded (.sType ⟨fetchedInstruction⟩)
  else if opcode = InstructionFormat.bType.value then setDecoded (.bType ⟨fetchedInstruction⟩)
  else if opcode = InstructionFormat.uType.value then setDecoded (.uType ⟨fetchedInstruction⟩)
  else if opcode = InstructionFormat.jType.value then setDecoded (.jType ⟨fetchedInstruction⟩)
  else throw (.invalidArgument "Unsupported instruction format")

def getDecodedInstruction (self : DecodeStage) : DecodedInstructionVariant :=
  self.decodedInstruction

def setFetchedInstruction (self : DecodeStage) (instruction : Word) : DecodeStage :=
  { self with fetchedInstruction := instruction }

end DecodeStage

/-! ## ExecuteStage -/

namespace ExecuteStage

/-- Assign to a field of the stage. -/
def assign (f : ExecuteStage → ExecuteStage) : PipelineM Unit :=
  modify fun s => { s with executeStage := f s.executeStage }

def setRs1Value (rs1Value : Word) : PipelineM Unit := assign ({ · with rs1Value })
def setRs2Value (rs2Value : Word) : PipelineM Unit := assign ({ · with rs2Value })
def setImmediate (immediate : Word) : PipelineM Unit := assign ({ · with immediate })

def setAluResult (aluResult : Word) : PipelineM Unit :=
  assign fun stage => { stage with result := { stage.result with aluResult } }

def setBranchTaken (branchTaken : Bool) : PipelineM Unit :=
  assign fun stage => { stage with result := { stage.result with branchTaken } }

def setBranchTarget (branchTarget : Word) : PipelineM Unit :=
  assign fun stage => { stage with result := { stage.result with branchTarget } }

def processR (inst : DecodedInstruction .rType) : PipelineM Unit := do
  let rs1Value ← readRegister inst.rs1
  setRs1Value rs1Value
  let rs2Value ← readRegister inst.rs2
  setRs2Value rs2Value
  match inst.funct3 with
  | 0x0 => setAluResult (if inst.funct7 = 0x20 then rs1Value - rs2Value else rs1Value + rs2Value)
  | _ => throw (.invalidArgument "Unsupported R-Type funct3")

def processI (inst : DecodedInstruction .iType) : PipelineM Unit := do
  let rs1Value ← readRegister inst.rs1
  setRs1Value rs1Value
  let immediate := getImmediateI inst
  setImmediate immediate
  match inst.funct3 with
  | 0x0 => setAluResult (rs1Value + immediate)
  | 0x2 => setAluResult (if rs1Value.toInt < immediate.toInt then 1 else 0)
  | 0x3 => setAluResult (if rs1Value.toNat < immediate.toNat then 1 else 0)
  | 0x4 => setAluResult (rs1Value ^^^ immediate)
  | 0x6 => setAluResult (rs1Value ||| immediate)
  | 0x7 => setAluResult (rs1Value &&& immediate)
  | 0x1 =>
    let shamt := immediate &&& 0x1F
    setAluResult (rs1Value <<< shamt.toNat)
  | 0x5 =>
    let shamt := immediate &&& 0x1F
    setAluResult (rs1Value >>> shamt.toNat)
  | _ => throw (.invalidArgument "Unsupported I-Type funct3")

def processB (inst : DecodedInstruction .bType) : PipelineM Unit := do
  let rs1Value ← readRegister inst.rs1
  setRs1Value rs1Value
  let rs2Value ← readRegister inst.rs2
  setRs2Value rs2Value
  let immediate := getImmediateB inst
  setImmediate immediate
  match inst.funct3 with
  | 0x0 =>
    setBranchTaken (rs1Value == rs2Value)
    let branchTaken ← reads (·.executeStage.result.branchTaken)
    setBranchTarget (if branchTaken then immediate else 0)
  | 0x1 =>
    setBranchTaken (rs1Value != rs2Value)
    let branchTaken ← reads (·.executeStage.result.branchTaken)
    setBranchTarget (if branchTaken then immediate else 0)
  | _ => throw (.invalidArgument "Unsupported B-Type funct3")

/-- No test of `funct3`: every store is executed as a word store. -/
def processS (inst : DecodedInstruction .sType) : PipelineM Unit := do
  let rs1Value ← readRegister inst.rs1
  setRs1Value rs1Value
  let rs2Value ← readRegister inst.rs2
  setRs2Value rs2Value
  let immediate := getImmediateS inst
  setImmediate immediate
  setAluResult (rs1Value + immediate)

def processU (inst : DecodedInstruction .uType) : PipelineM Unit := do
  let immediate := getImmediateU inst
  setImmediate immediate
  setAluResult immediate

/-- `get_pc()` is the pc the fetch stage has already advanced. -/
def processJ (inst : DecodedInstruction .jType) : PipelineM Unit := do
  let immediate := getImmediateJ inst
  setImmediate immediate
  setBranchTaken true
  let pc ← reads (·.registerBank.getPc)
  setBranchTarget (pc + immediate)
  let branchTarget ← reads (·.executeStage.result.branchTarget)
  let pc ← reads (·.registerBank.getPc)
  if branchTarget = pc then
    throw (.endOfProgramException "End of program reached")

def process : PipelineM Unit := do
  let decodedInstruction ← reads (·.executeStage.decodedInstruction)
  if decodedInstruction.index = 0 then
    throw (.runtimeError "Decoded instruction is not set for execution")
  else
    match decodedInstruction with
    | .rType inst => processR inst
    | .iType inst => processI inst
    | .bType inst => processB inst
    | .sType inst => processS inst
    | .uType inst => processU inst
    | .jType inst => processJ inst
    | .invalidType _ =>
      throw (.invalidArgument "Unsupported instruction format for execution stage")

def getResult (self : ExecuteStage) : ExecutionResult := self.result

def setDecodedInstruction (self : ExecuteStage) (instruction : DecodedInstructionVariant) :
    ExecuteStage :=
  { self with decodedInstruction := instruction }

end ExecuteStage

/-! ## MemoryAccessStage -/

namespace MemoryAccessStage

/-- Assign to a field of the result. -/
def assign (f : MemoryAccessResult → MemoryAccessResult) : PipelineM Unit :=
  modify fun s =>
    { s with memAccesStage := { s.memAccesStage with result := f s.memAccesStage.result } }

def process : PipelineM Unit := do
  assign ({ · with loadData := none })
  assign ({ · with storeSuccess := false })
  let effectiveAddress ← reads (·.memAccesStage.executionResult.aluResult)
  let decodedInstruction ← reads (·.memAccesStage.decodedInstruction)
  match decodedInstruction with
  | .iType inst =>
    if inst.opcode = 0x03 then
      let word ← tries (·.mmu.readWord effectiveAddress)
      assign ({ · with loadData := some word })
  | .sType _ =>
    let sInst ← tries (·.memAccesStage.decodedInstruction.getSType)
    let dataToStore ← readRegister sInst.rs2
    zoom Pipeline.mmu (fun mmu s => { s with mmu }) (MMU.writeWord effectiveAddress dataToStore)
    assign ({ · with storeSuccess := true })
  | _ => return

def setExecutionResult (self : MemoryAccessStage) (execResult : ExecutionResult) :
    MemoryAccessStage :=
  { self with executionResult := execResult }

def setDecodedInstruction (self : MemoryAccessStage) (instruction : DecodedInstructionVariant) :
    MemoryAccessStage :=
  { self with decodedInstruction := instruction }

def getResult (self : MemoryAccessStage) : MemoryAccessResult := self.result

end MemoryAccessStage

/-! ## WriteBackStage -/

namespace WriteBackStage

/-- `rd`, guarded: register 0 is never written. -/
def writeRd (rd : BitVec 5) (value : Word) : PipelineM Unit :=
  if rd ≠ 0 then writeRegister rd value else pure ()

def process : PipelineM Unit := do
  let self ← reads (·.writeBackStage)
  match self.decodedInstruction with
  | .rType inst => writeRd inst.rd self.executionResult.aluResult
  | .iType inst =>
    if inst.opcode = 0x03 then
      match self.memoryAccessResult.loadData with
      | some word => writeRd inst.rd word
      | none => return
    else
      writeRd inst.rd self.executionResult.aluResult
  | .uType inst => writeRd inst.rd self.executionResult.aluResult
  | .jType inst => writeRd inst.rd self.executionResult.aluResult
  | _ => return

def setExecutionResult (self : WriteBackStage) (execResult : ExecutionResult) : WriteBackStage :=
  { self with executionResult := execResult }

def setMemoryAccessResult (self : WriteBackStage) (memResult : MemoryAccessResult) :
    WriteBackStage :=
  { self with memoryAccessResult := memResult }

def setDecodedInstruction (self : WriteBackStage) (decodedInstr : DecodedInstructionVariant) :
    WriteBackStage :=
  { self with decodedInstruction := decodedInstr }

end WriteBackStage

/-! ## run_cycle -/

namespace Pipeline

/-- Fetch: the instruction word. -/
def runFetch : PipelineM Word := do
  FetchStage.process
  reads (·.fetchStage.getFetchedInstruction)

/-- Decode: the instruction variant for the next stages. -/
def runDecode (instruction : Word) : PipelineM DecodedInstructionVariant := do
  modify fun s => { s with decodeStage := s.decodeStage.setFetchedInstruction instruction }
  DecodeStage.process
  reads (·.decodeStage.getDecodedInstruction)

/-- Execute: the execution result. -/
def runExecute (decodedInst : DecodedInstructionVariant) : PipelineM ExecutionResult := do
  modify fun s => { s with executeStage := s.executeStage.setDecodedInstruction decodedInst }
  ExecuteStage.process
  reads (·.executeStage.getResult)

/-- Memory access: the memory result. -/
def runMemoryAccess (decodedInst : DecodedInstructionVariant) (execResult : ExecutionResult) :
    PipelineM MemoryAccessResult := do
  modify fun s => { s with memAccesStage := s.memAccesStage.setExecutionResult execResult }
  modify fun s => { s with memAccesStage := s.memAccesStage.setDecodedInstruction decodedInst }
  MemoryAccessStage.process
  reads (·.memAccesStage.getResult)

/-- Write back. -/
def runWriteBack (decodedInst : DecodedInstructionVariant) (execResult : ExecutionResult)
    (memResult : MemoryAccessResult) : PipelineM Unit := do
  modify fun s => { s with writeBackStage := s.writeBackStage.setExecutionResult execResult }
  modify fun s => { s with writeBackStage := s.writeBackStage.setMemoryAccessResult memResult }
  modify fun s => { s with writeBackStage := s.writeBackStage.setDecodedInstruction decodedInst }
  WriteBackStage.process

/-- The first three sections of `run_cycle`, up to the instruction and the
execution result handed on to the last two. -/
def runToExecute : PipelineM (DecodedInstructionVariant × ExecutionResult) := do
  let instruction ← runFetch
  let decodedInst ← runDecode instruction
  let execResult ← runExecute decodedInst
  return (decodedInst, execResult)

def runCycle : PipelineM Unit := do
  let (decodedInst, execResult) ← runToExecute
  let memResult ← runMemoryAccess decodedInst execResult
  runWriteBack decodedInst execResult memResult

end Pipeline

end VirtuV
