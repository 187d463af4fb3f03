import SolanaM.Substreams.Confirmed
import SolanaM.Substreams.Silence

namespace SolanaM.Substreams

/-- The log is the whole one, or keeps its first n lines and has the mark behind them. -/
def Keeps (e : Execution) (logs : List Log) (n : Nat) : Prop :=
  logs=e.logs ∧ n=e.logs.length ∨ ∃ kept lost mark junk,e.logs=kept++lost ∧
    mark.isTruncated=true ∧ logs=kept++mark::junk ∧ n=kept.length

/-- The program of each instruction, with what is left of its lines when the log keeps n. -/
def Execution.attributedWithin (accounts : List Bytes) (n : Nat) (e : Execution) :
    List (Bytes × Option (List Log)) :=
  (e.instructions.map fun ix => (accounts[ix.programIdIndex]?).getD []).zip (e.linesWithin n)

/-- How a confirmed transaction ran: what its instructions did and logged, and how many of those
lines its log keeps. -/
structure Trace (crates : Crates) (t : ConfirmedTransaction) extends Confirmed crates t where
  execution : Execution
  executes : Executes accounts 1 execution
  quiet : execution.own=[]
  executed : instructions=execution.instructions
  kept : Nat
  keeps : Keeps execution (status.logMessages.map Log.new) kept

private theorem Labels.attributed {accounts : List Bytes} {e : Execution}
    {owns : List (Option (List Log))} {forest : Forest} (h : Labels accounts e owns forest) :
    forest.flattened.map (fun ix => (ix.programId,ix.logs))=
      (e.instructions.map fun ix => (accounts[ix.programIdIndex]?).getD []).zip owns := by
  induction h with
  | done => rfl
  | line _ ih => exact ih
  | silent hix _ ih =>
    simp [Forest.flattened,Execution.instructions,ih,hix.program,hix.logs]
  | @call _ _ body _ _ _ _ inside _ _ _ hix hbody _ ihb ih =>
    have hlen : (body.instructions.map fun ix => (accounts[ix.programIdIndex]?).getD []).length=
        inside.length := by rw [List.length_map,hbody.length]
    simp [Forest.flattened,Execution.instructions,ihb,ih,hix.program,hix.logs,
      List.zip_append hlen]

namespace Trace

variable {crates : Crates} {t : ConfirmedTransaction} (x : Trace crates t)

/-- What its log still has of each instruction's own lines. -/
def lines : List (Bytes × Option (List Log)) :=
  x.execution.attributedWithin x.accounts x.kept

/-- The programs that leave no line in a log are those the code knows for it. -/
def Known : Prop := ∀ p∈x.execution.unlogged x.accounts,withoutLogging p=true

/-- The log is complete, or at least every program that logs its instructions shows in it. -/
def Readable : Prop := x.status.logMessages.map Log.new=x.execution.logs ∨ x.Known

private theorem structure_eq : getStructuredInstructions crates t=
    (structureFlattenedInstructionsWithLogs x.execution.instructions
      (x.status.logMessages.map Log.new) x.accounts).map some := by
  simp only [getStructuredInstructions,x.status_eq,x.succeeded,x.flattened_eq,x.accounts_eq,
    x.executed,bind,Option.bind_some,Option.isSome_none,Bool.false_eq_true,if_false]
  exact Option.map_eq_bind.symm

/-- The structuring gives each instruction what the log has of its own lines. -/
theorem structured (hknown : x.Known) :
    ∃ forest,getStructuredInstructions crates t=some (some forest) ∧
      forest.flattened.map (fun ix => (ix.programId,ix.logs))=x.lines := by
  have hruns : Runs x.accounts 1 x.execution := x.executes.runs hknown
  have hread : ∃ forest,structureFlattenedInstructionsWithLogs x.execution.instructions
      (x.status.logMessages.map Log.new) x.accounts=some forest ∧
        Labels x.accounts x.execution (x.execution.linesWithin x.kept) forest := by
    rcases x.keeps with ⟨hlogs,hkept⟩|⟨kept,lost,mark,junk,hlogs,hmark,hcut,hkept⟩
    · rw [hlogs,hkept]
      exact structure_whole hruns x.quiet
    · rw [hcut,hkept]
      exact structure_within (fun _ => ⟨mark,junk,rfl,hmark⟩) hruns x.quiet hlogs
  obtain ⟨forest,hforest,hlabels⟩ := hread
  exact ⟨forest,by rw [x.structure_eq,hforest,Option.map_some],hlabels.attributed⟩

/-- A complete log is taken apart only if the programs that leave no line in it are known. -/
theorem known_of_structured (hreadable : x.Readable) (h : Structured crates t) : x.Known := by
  obtain hwhole | hknown := hreadable
  · obtain ⟨instructions,hinstructions⟩ := h
    rw [x.structure_eq,hwhole] at hinstructions
    obtain ⟨forest,hforest,_⟩ := Option.map_eq_some_iff.mp hinstructions
    exact x.executes.silent_of_structured hforest
  · exact hknown

theorem structured_iff (hreadable : x.Readable) : Structured crates t ↔ x.Known := by
  refine ⟨x.known_of_structured hreadable,?_⟩
  intro hknown
  obtain ⟨forest,hforest,_⟩ := x.structured hknown
  exact ⟨some forest,hforest⟩

/-- The rows of the transaction are made of its instructions and these lines. -/
theorem indexed (hreadable : x.Readable) {block : Block} {blockTime : String} {i : Nat}
    {changes : List TableChange}
    (h : transactionChanges crates block blockTime i t=some changes) :
    ∃ y : Indexed crates t,changes=y.changes block blockTime i ∧
      y.context.signature=crates.bs58Encode x.signature ∧
      y.instructions.flattened.map (fun ix => (ix.programId,ix.logs))=x.lines := by
  obtain ⟨y,hy,hsignature⟩ := x.toConfirmed.indexed h
  have hknown := x.known_of_structured hreadable (structured_of_changes h)
  obtain ⟨forest,hforest,hlines⟩ := x.structured hknown
  rw [y.instructions_eq,Option.some_inj,Option.some_inj] at hforest
  exact ⟨y,hy,hsignature,hforest ▸ hlines⟩

end Trace

end SolanaM.Substreams
