import SolanaM.Substreams.Log

namespace SolanaM.Substreams

inductive WrappedInstruction
  | compiled (instruction : CompiledInstruction)
  | inner (instruction : InnerInstruction)
  deriving DecidableEq

namespace WrappedInstruction

def programIdIndex : WrappedInstruction → Nat
  | compiled ix => ix.programIdIndex
  | inner ix => ix.programIdIndex

def accounts : WrappedInstruction → Bytes
  | compiled ix => ix.accounts
  | inner ix => ix.accounts

def data : WrappedInstruction → Bytes
  | compiled ix => ix.data
  | inner ix => ix.data

def stackHeight : WrappedInstruction → Option Nat
  | compiled _ => some 1
  | inner ix => ix.stackHeight

end WrappedInstruction

/-- An entry of inner_instructions is taken when it is next in line and names instruction i. -/
def flattenedFrom : Nat → List CompiledInstruction → List InnerInstructions →
    List WrappedInstruction
  | _,[],_ => []
  | i,ix::ixs,[] => .compiled ix::flattenedFrom (i+1) ixs []
  | i,ix::ixs,inner::rest =>
    if inner.index=i then
      .compiled ix::(inner.instructions.map .inner++flattenedFrom (i+1) ixs rest)
    else .compiled ix::flattenedFrom (i+1) ixs (inner::rest)

/-- Panics without a message and without a meta. -/
def getFlattenedInstructions (t : ConfirmedTransaction) : Option (List WrappedInstruction) := do
  let transaction ← t.transaction
  let message ← transaction.message
  let status ← t.status
  return flattenedFrom 0 message.instructions status.innerInstructions

/-- The fields of a StructuredInstruction other than its children. Instructions are shared by
reference: ref numbers them in the order they are made, and a parent is such a number. -/
structure StructuredInstruction where
  ref : Nat
  instruction : WrappedInstruction
  accounts : List Bytes
  programId : Bytes
  parentInstruction : Option Nat
  logs : Option (List Log)
  deriving DecidableEq

def StructuredInstruction.stackHeight (ix : StructuredInstruction) : Option Nat :=
  ix.instruction.stackHeight

/-- A list of instructions, each with its inner_instructions. -/
inductive Forest
  | nil
  | cons (ix : StructuredInstruction) (inner rest : Forest)
  deriving DecidableEq

namespace Forest

/-- Vec::push -/
def push : Forest → StructuredInstruction → Forest → Forest
  | nil,ix,inner => cons ix inner nil
  | cons first firstInner rest,ix,inner => cons first firstInner (rest.push ix inner)

def flattened : Forest → List StructuredInstruction
  | nil => []
  | cons ix inner rest => ix::(inner.flattened++rest.flattened)

end Forest

def newStructured (accounts : List Bytes) (ref : Nat) (instruction : WrappedInstruction) :
    Option StructuredInstruction := do
  let instructionAccounts ← instruction.accounts.mapM fun i => accounts[i.val]?
  let programId ← accounts[instruction.programIdIndex]?
  return ⟨ref,instruction,instructionAccounts,programId,none,none⟩

/-- The lines of the instructions still open, the innermost first. -/
structure LogStack where
  stack : List (List Log)
  isTruncated : Bool
  deriving DecidableEq

def withoutLogging (programId : Bytes) : Bool :=
  programsWithoutLogging.any fun x => x.bytes==programId

namespace LogStack

def openLoop : List (List Log) → List Log → Option (LogStack × List Log)
  | _,[] => none
  | stack,log::logs =>
    if log.isTruncated then some (⟨stack,true⟩,logs)
    else if log.isInvoke then some (⟨[log]::stack,false⟩,logs)
    else match stack with
      | [] => none
      | top::below => openLoop ((top++[log])::below) logs

def openLogs (s : LogStack) (logs : List Log) (programId : Bytes) : Option (LogStack × List Log) :=
  if withoutLogging programId ∨ s.isTruncated then some (s,logs) else openLoop s.stack logs

def closeLoop : List (List Log) → List Log → Option (Option (List Log) × LogStack × List Log)
  | _,[] => none
  | stack,log::logs =>
    if log.isTruncated then some (none,⟨stack,true⟩,logs)
    else if log.isInvoke then none
    else match stack with
      | [] => none
      | top::below =>
        if log.isSuccess then some (some (top++[log]),⟨below,false⟩,logs)
        else closeLoop ((top++[log])::below) logs

def closeLogs (s : LogStack) (logs : List Log) (programId : Bytes) :
    Option (Option (List Log) × LogStack × List Log) :=
  if withoutLogging programId then some (some [],s,logs)
  else if s.isTruncated then some (none,s,logs)
  else closeLoop s.stack logs

end LogStack

/-- >= of two Option<u32>: None is below every Some. -/
def heightGe : Option Nat → Option Nat → Bool
  | _,none => true
  | none,some _ => false
  | some a,some b => b≤a

/-- The locals of the structuring loop; an open instruction carries the children it has so far. -/
structure Structuring where
  structuredInstructions : Forest
  instructionStack : List (StructuredInstruction × Forest)
  logStack : LogStack
  logs : List Log
  deriving DecidableEq

/-- Body of both loops that pop an instruction; only the first one records the parent. -/
def popInstruction (recordParent : Bool) (s : Structuring) : Option Structuring :=
  match s.instructionStack with
  | [] => some s
  | (popped,inner)::below => do
    let (own,logStack,logs) ← s.logStack.closeLogs s.logs popped.programId
    match below with
    | [] =>
      let popped := {popped with logs := own}
      return ⟨s.structuredInstructions.push popped inner,[],logStack,logs⟩
    | (parent,siblings)::rest =>
      let popped := {popped with
        logs := own
        parentInstruction := if recordParent then some parent.ref else popped.parentInstruction}
      return ⟨s.structuredInstructions,(parent,siblings.push popped inner)::rest,logStack,logs⟩

/-- Pops while the top is at least as high as the given height. The recursion gets as many
turns as there are open instructions; the structuring loop records parents. -/
def popWhile (recordParent : Bool) (height : Option Nat) : Nat → Structuring → Option Structuring
  | 0,s => some s
  | turns+1,s =>
    match s.instructionStack with
    | [] => some s
    | (top,_)::_ =>
      if heightGe top.stackHeight height then do
        popWhile recordParent height turns (← popInstruction recordParent s)
      else some s

def popAll : Nat → Structuring → Option Structuring
  | 0,s => some s
  | turns+1,s => do popAll turns (← popInstruction false s)

def structureStep (accounts : List Bytes) (s : Structuring) (ref : Nat)
    (instruction : WrappedInstruction) : Option Structuring := do
  let structured ← newStructured accounts ref instruction
  let s ← popWhile true structured.stackHeight s.instructionStack.length s
  let (logStack,logs) ← s.logStack.openLogs s.logs structured.programId
  return ⟨s.structuredInstructions,(structured,.nil)::s.instructionStack,logStack,logs⟩

def structureLoop (accounts : List Bytes) : Nat → List WrappedInstruction → Structuring →
    Option Structuring
  | _,[],s => some s
  | ref,instruction::rest,s => do
    structureLoop accounts (ref+1) rest (← structureStep accounts s ref instruction)

def structureFlattenedInstructionsWithLogs (flattenedInstructions : List WrappedInstruction)
    (logs : List Log) (accounts : List Bytes) : Option Forest := do
  let s ← structureLoop accounts 0 flattenedInstructions ⟨.nil,[],⟨[],false⟩,logs⟩
  let s ← popAll s.instructionStack.length s
  return s.structuredInstructions

/-- Panics (none), fails on a failed transaction (some none), or gives the instructions. -/
def getStructuredInstructions (crates : Crates) (t : ConfirmedTransaction) :
    Option (Option Forest) := do
  let status ← t.status
  if status.err.isSome then return none
  let flattenedInstructions ← getFlattenedInstructions t
  let accounts ← crates.resolvedAccounts t
  let forest ← structureFlattenedInstructionsWithLogs flattenedInstructions
    (status.logMessages.map Log.new) accounts
  return some forest

end SolanaM.Substreams
