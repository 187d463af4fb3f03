import SolanaM.Substreams.Instruction

namespace SolanaM.Substreams

/-- What runs inside one instruction, or in a transaction when it writes no line itself: lines,
instructions of programs that log nothing, and instructions that log their invocation, what
they do and their success. -/
inductive Execution
  | done
  | line (log : Log) (rest : Execution)
  | silent (ix : WrappedInstruction) (rest : Execution)
  | call (ix : WrappedInstruction) (invoke : Log) (body : Execution) (success : Log)
      (rest : Execution)

namespace Execution

/-- The instructions in the order they start. -/
def instructions : Execution → List WrappedInstruction
  | done => []
  | line _ rest => rest.instructions
  | silent ix rest => ix::rest.instructions
  | call ix _ body _ rest => ix::(body.instructions++rest.instructions)

def logs : Execution → List Log
  | done => []
  | line log rest => log::rest.logs
  | silent _ rest => rest.logs
  | call _ invoke body success rest => invoke::(body.logs++success::rest.logs)

/-- The lines written here, without those of the instructions called. -/
def own : Execution → List Log
  | done => []
  | line log rest => log::rest.own
  | silent _ rest => rest.own
  | call _ _ _ _ rest => rest.own

/-- The programs of the instructions that leave no line, not even that of their invocation. -/
def unlogged (accounts : List Bytes) : Execution → List Bytes
  | done => []
  | line _ rest => rest.unlogged accounts
  | silent ix rest => (accounts[ix.programIdIndex]?).getD []::rest.unlogged accounts
  | call _ _ body _ rest => body.unlogged accounts++rest.unlogged accounts

/-- What is left of each instruction's lines when the log keeps its first n lines: all of them if
the success line is kept, and otherwise no list at all. -/
def linesWithin (n : Nat) : Execution → List (Option (List Log))
  | done => []
  | line _ rest => rest.linesWithin (n-1)
  | silent _ rest => some []::rest.linesWithin n
  | call _ invoke body success rest =>
    (if body.logs.length+2≤n then some (invoke::(body.own++[success])) else none)::
      (body.linesWithin (n-1)++rest.linesWithin (n-(body.logs.length+2)))

end Execution

/-- Neither an invocation, nor a success, nor the mark of a truncated log. -/
def Log.Plain (log : Log) : Prop :=
  log.isInvoke=false ∧ log.isSuccess=false ∧ log.isTruncated=false

instance (log : Log) : Decidable log.Plain :=
  inferInstanceAs (Decidable (log.isInvoke=false ∧ log.isSuccess=false ∧ log.isTruncated=false))

/-- The instruction runs at the depth, and its accounts and program are among the accounts. -/
structure Located (accounts : List Bytes) (depth : Nat) (ix : WrappedInstruction)
    (programId : Bytes) : Prop where
  height : ix.stackHeight=some depth
  program : accounts[ix.programIdIndex]?=some programId
  inRange : ∀ n∈ix.accounts,n.val<accounts.length

/-- The execution writes plain lines of its own and starts its instructions at the depth. -/
inductive Runs (accounts : List Bytes) : Nat → Execution → Prop
  | done {depth} : Runs accounts depth .done
  | line {depth log rest} (hlog : log.Plain) (hrest : Runs accounts depth rest) :
      Runs accounts depth (.line log rest)
  | silent {depth ix programId rest} (hix : Located accounts depth ix programId)
      (hsilent : withoutLogging programId=true) (hrest : Runs accounts depth rest) :
      Runs accounts depth (.silent ix rest)
  | call {depth ix programId invoke body success rest} (hix : Located accounts depth ix programId)
      (hlogging : withoutLogging programId=false) (hinvoke : invoke.isInvoke=true)
      (hbody : Runs accounts (depth+1) body) (hsuccess : success.isSuccess=true)
      (hrest : Runs accounts depth rest) :
      Runs accounts depth (.call ix invoke body success rest)

/-- As Runs, but the instructions of any program may leave no line: a runtime has programs without
logging that programsWithoutLogging does not name. -/
inductive Executes (accounts : List Bytes) : Nat → Execution → Prop
  | done {depth} : Executes accounts depth .done
  | line {depth log rest} (hlog : log.Plain) (hrest : Executes accounts depth rest) :
      Executes accounts depth (.line log rest)
  | silent {depth ix programId rest} (hix : Located accounts depth ix programId)
      (hrest : Executes accounts depth rest) : Executes accounts depth (.silent ix rest)
  | call {depth ix programId invoke body success rest} (hix : Located accounts depth ix programId)
      (hlogging : withoutLogging programId=false) (hinvoke : invoke.isInvoke=true)
      (hbody : Executes accounts (depth+1) body) (hsuccess : success.isSuccess=true)
      (hrest : Executes accounts depth rest) :
      Executes accounts depth (.call ix invoke body success rest)

/-- The structured instruction stands for ix and has exactly these lines. -/
structure Describes (accounts : List Bytes) (ix : WrappedInstruction) (logs : List Log)
    (node : StructuredInstruction) : Prop where
  instruction : node.instruction=ix
  program : accounts[ix.programIdIndex]?=some node.programId
  logs : node.logs=some logs

/-- The forest is the execution: the same calls, nested in the same way, with their own lines. -/
inductive Records (accounts : List Bytes) : Execution → Forest → Prop
  | done : Records accounts .done .nil
  | line {log rest forest} (hrest : Records accounts rest forest) :
      Records accounts (.line log rest) forest
  | silent {ix rest node forest} (hix : Describes accounts ix [] node)
      (hrest : Records accounts rest forest) :
      Records accounts (.silent ix rest) (.cons node .nil forest)
  | call {ix invoke body success rest node inner forest}
      (hix : Describes accounts ix (invoke::(body.own++[success])) node)
      (hbody : Records accounts body inner) (hrest : Records accounts rest forest) :
      Records accounts (.call ix invoke body success rest) (.cons node inner forest)

/-- The structured instruction stands for ix and was given these lines, if any. -/
structure Labelled (accounts : List Bytes) (ix : WrappedInstruction) (own : Option (List Log))
    (node : StructuredInstruction) : Prop where
  instruction : node.instruction=ix
  program : accounts[ix.programIdIndex]?=some node.programId
  logs : node.logs=own

/-- The forest is the execution, its instructions labelled with these lines in pre-order. -/
inductive Labels (accounts : List Bytes) : Execution → List (Option (List Log)) → Forest → Prop
  | done : Labels accounts .done [] .nil
  | line {log rest owns forest} (hrest : Labels accounts rest owns forest) :
      Labels accounts (.line log rest) owns forest
  | silent {ix rest node own owns forest} (hix : Labelled accounts ix own node)
      (hrest : Labels accounts rest owns forest) :
      Labels accounts (.silent ix rest) (own::owns) (.cons node .nil forest)
  | call {ix invoke body success rest node own inside owns inner forest}
      (hix : Labelled accounts ix own node) (hbody : Labels accounts body inside inner)
      (hrest : Labels accounts rest owns forest) :
      Labels accounts (.call ix invoke body success rest) (own::(inside++owns))
        (.cons node inner forest)

/-- What opening and closing an execution's instructions does to the log, whatever it contains,
and the lines each instruction is given on the way, in pre-order. -/
inductive Reads (accounts : List Bytes) : Execution → LogStack × List Log →
    LogStack × List Log → List (Option (List Log)) → Prop
  | done {p} : Reads accounts .done p p []
  | line {log rest p q owns} (hrest : Reads accounts rest p q owns) :
      Reads accounts (.line log rest) p q owns
  | silent {ix rest p q owns} (hrest : Reads accounts rest p q owns) :
      Reads accounts (.silent ix rest) p q (some []::owns)
  | call {ix programId invoke body success rest p opened ended closed q own inside owns}
      (hprogram : accounts[ix.programIdIndex]?=some programId)
      (hopen : p.1.openLogs p.2 programId=some opened)
      (hbody : Reads accounts body opened ended inside)
      (hclose : ended.1.closeLogs ended.2 programId=some (own,closed))
      (hrest : Reads accounts rest closed q owns) :
      Reads accounts (.call ix invoke body success rest) p q (own::(inside++owns))

namespace Forest

def append : Forest → Forest → Forest
  | nil,forest => forest
  | cons ix inner rest,forest => cons ix inner (rest.append forest)

theorem append_nil (forest : Forest) : forest.append nil=forest := by
  induction forest with
  | nil => rfl
  | cons ix inner rest _ ih => rw [append,ih]

theorem append_assoc (a b c : Forest) : (a.append b).append c=a.append (b.append c) := by
  induction a with
  | nil => rfl
  | cons ix inner rest _ ih => rw [append,append,append,ih]

theorem push_eq_append (forest : Forest) (ix : StructuredInstruction) (inner : Forest) :
    forest.push ix inner=forest.append (cons ix inner nil) := by
  induction forest with
  | nil => rfl
  | cons first firstInner rest _ ih => rw [push,append,ih]

end Forest

abbrev Nest := Forest × List (StructuredInstruction × Forest)

namespace Nest

/-- Closed instructions go to the innermost open one, or to the result. -/
def adopt : Nest → Forest → Nest
  | (closed,[]),forest => (closed.append forest,[])
  | (closed,(parent,siblings)::rest),forest => (closed,(parent,siblings.append forest)::rest)

def on (n : Nest) (p : LogStack × List Log) : Structuring := ⟨n.1,n.2,p.1,p.2⟩

/-- The innermost open instruction is lower than the height. -/
def Below (n : Nest) (height : Option Nat) : Prop :=
  ∀ top∈n.2.head?,heightGe top.1.stackHeight height=false

theorem adopt_nil (n : Nest) : n.adopt .nil=n := by
  obtain ⟨closed,stack⟩ := n
  cases stack with
  | nil => simp [adopt,Forest.append_nil]
  | cons top rest => simp [adopt,Forest.append_nil]

theorem adopt_adopt (n : Nest) (a b : Forest) : (n.adopt a).adopt b=n.adopt (a.append b) := by
  obtain ⟨closed,stack⟩ := n
  cases stack with
  | nil => simp [adopt,Forest.append_assoc]
  | cons top rest => simp [adopt,Forest.append_assoc]

theorem below_adopt {n : Nest} {height : Option Nat} (h : n.Below height) (forest : Forest) :
    (n.adopt forest).Below height := by
  obtain ⟨closed,stack⟩ := n
  cases stack with
  | nil => simp [Below,adopt]
  | cons top rest => simpa [Below,adopt] using h

end Nest

end SolanaM.Substreams
