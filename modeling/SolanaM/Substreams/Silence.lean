import SolanaM.Substreams.Reading

namespace SolanaM.Substreams

/-- The transaction's instructions run as the structuring expects. -/
theorem Executes.runs {accounts : List Bytes} {depth : Nat} {e : Execution}
    (h : Executes accounts depth e)
    (hsilent : ∀ p∈e.unlogged accounts,withoutLogging p=true) : Runs accounts depth e := by
  induction h with
  | done => exact .done
  | line hlog _ ih => exact .line hlog (ih hsilent)
  | silent hix _ ih =>
    rw [Execution.unlogged,hix.program,Option.getD_some,List.forall_mem_cons] at hsilent
    exact .silent hix hsilent.1 (ih hsilent.2)
  | call hix hlogging hinvoke _ hsuccess _ ihb ih =>
    rw [Execution.unlogged,List.forall_mem_append] at hsilent
    exact .call hix hlogging hinvoke (ihb hsilent.1) hsuccess (ih hsilent.2)

/-- No mark of a cut has been met or lies ahead, and so many invocations lie ahead. -/
structure Unread (n : Nat) (p : LogStack × List Log) : Prop where
  unmet : p.1.isTruncated=false
  unmarked : ∀ log∈p.2,log.isTruncated=false
  invocations : p.2.countP Log.isInvoke=n

namespace Unread

variable {n : Nat} {p q : LogStack × List Log} {programId : Bytes}

private theorem openLoop {stack : List (List Log)} {logs : List Log}
    (hlogs : ∀ log∈logs,log.isTruncated=false) (h : LogStack.openLoop stack logs=some q) :
    ∃ m,logs.countP Log.isInvoke=m+1 ∧ Unread m q := by
  induction logs generalizing stack with
  | nil => simp [LogStack.openLoop] at h
  | cons log logs ih =>
    obtain ⟨hlog,hrest⟩ := List.forall_mem_cons.mp hlogs
    simp only [LogStack.openLoop,hlog,Bool.false_eq_true,if_false] at h
    by_cases hinvoke : log.isInvoke=true
    · rw [if_pos hinvoke,Option.some_inj] at h
      exact ⟨logs.countP Log.isInvoke,by simp [hinvoke],h ▸ ⟨rfl,hrest,rfl⟩⟩
    · rw [if_neg hinvoke] at h
      rw [List.countP_cons_of_neg hinvoke]
      cases stack with
      | nil => simp at h
      | cons top below => exact ih hrest h

private theorem closeLoop {stack : List (List Log)} {logs : List Log}
    (hlogs : ∀ log∈logs,log.isTruncated=false) {own : Option (List Log)}
    (h : LogStack.closeLoop stack logs=some (own,q)) :
    Unread (logs.countP Log.isInvoke) q := by
  induction logs generalizing stack with
  | nil => simp [LogStack.closeLoop] at h
  | cons log logs ih =>
    obtain ⟨hlog,hrest⟩ := List.forall_mem_cons.mp hlogs
    simp only [LogStack.closeLoop,hlog,Bool.false_eq_true,if_false] at h
    by_cases hinvoke : log.isInvoke=true
    · simp [hinvoke] at h
    · rw [if_neg hinvoke] at h
      rw [List.countP_cons_of_neg hinvoke]
      cases stack with
      | nil => simp at h
      | cons top below =>
        dsimp only at h
        split at h
        · rw [Option.some_inj,Prod.mk.injEq] at h
          exact h.2 ▸ ⟨rfl,hrest,rfl⟩
        · exact ih hrest h

/-- Opening an instruction takes one invocation, unless its program is known not to log. -/
theorem openLogs (hp : Unread n p) (h : p.1.openLogs p.2 programId=some q) :
    ∃ m,n=m+(if withoutLogging programId then 0 else 1) ∧ Unread m q := by
  by_cases hw : withoutLogging programId=true
  · rw [LogStack.openLogs,if_pos (.inl hw),Option.some_inj] at h
    exact ⟨n,by simp [hw],h ▸ hp⟩
  · rw [LogStack.openLogs,if_neg (by simp [hw,hp.unmet])] at h
    obtain ⟨m,hm,hq⟩ := openLoop hp.unmarked h
    exact ⟨m,by rw [if_neg hw,← hm,hp.invocations],hq⟩

/-- Closing one takes none. -/
theorem closeLogs (hp : Unread n p) {own : Option (List Log)}
    (h : p.1.closeLogs p.2 programId=some (own,q)) : Unread n q := by
  rw [LogStack.closeLogs] at h
  by_cases hw : withoutLogging programId=true
  · rw [if_pos hw,Option.some_inj,Prod.mk.injEq] at h
    exact h.2 ▸ hp
  · rw [if_neg hw,if_neg (by simp [hp.unmet])] at h
    exact hp.invocations ▸ closeLoop hp.unmarked h

end Unread

/-- The position in the log. -/
private def Structuring.position (s : Structuring) : LogStack × List Log := (s.logStack,s.logs)

section
variable {n : Nat} {recordParent : Bool} {s t : Structuring}

private theorem popInstruction_unread (hs : Unread n s.position)
    (h : popInstruction recordParent s=some t) : Unread n t.position := by
  cases hstack : s.instructionStack with
  | nil =>
    rw [popInstruction,hstack,Option.some_inj] at h
    exact h ▸ hs
  | cons top below =>
    simp only [popInstruction,hstack,bind,Option.bind_eq_some_iff] at h
    obtain ⟨⟨own,q⟩,hclose,h⟩ := h
    have hq : Unread n q := hs.closeLogs hclose
    cases below with
    | nil => exact Option.some_inj.mp h ▸ hq
    | cons parent rest => exact Option.some_inj.mp h ▸ hq

private theorem popWhile_unread {height : Option Nat} (turns : Nat) (hs : Unread n s.position)
    (h : popWhile recordParent height turns s=some t) : Unread n t.position := by
  induction turns generalizing s with
  | zero => exact Option.some_inj.mp h ▸ hs
  | succ turns ih =>
    rw [popWhile] at h
    split at h
    · exact Option.some_inj.mp h ▸ hs
    · split at h
      · obtain ⟨next,hnext,hrest⟩ := Option.bind_eq_some_iff.mp h
        exact ih (popInstruction_unread hs hnext) hrest
      · exact Option.some_inj.mp h ▸ hs

variable {accounts : List Bytes} {ref : Nat}

/-- The structuring waits for an invocation of the instruction's program. -/
private def awaits (accounts : List Bytes) (ix : WrappedInstruction) : Bool :=
  !withoutLogging ((accounts[ix.programIdIndex]?).getD [])

/-- The step lemma: an instruction takes the invocation that it awaits. -/
private theorem structureStep_unread {ix : WrappedInstruction} (hs : Unread n s.position)
    (h : structureStep accounts s ref ix=some t) :
    ∃ m,n=m+(if awaits accounts ix then 1 else 0) ∧ Unread m t.position := by
  simp only [structureStep,bind,Option.bind_eq_some_iff] at h
  obtain ⟨node,hnode,popped,hpopped,q,hopen,h⟩ := h
  obtain ⟨m,hm,hq⟩ := (popWhile_unread _ hs hpopped).openLogs hopen
  simp only [newStructured,bind,Option.bind_eq_some_iff] at hnode
  obtain ⟨_,_,programId,hprogram,hnode⟩ := hnode
  refine ⟨m,?_,Option.some_inj.mp h ▸ hq⟩
  rw [hm,← Option.some_inj.mp hnode,awaits,hprogram,Option.getD_some]
  cases withoutLogging programId <;> rfl

/-- The run lemma: there are as many invocations as instructions that await one. -/
private theorem structureLoop_unread (ixs : List WrappedInstruction) (hs : Unread n s.position)
    (h : structureLoop accounts ref ixs s=some t) : ixs.countP (awaits accounts) ≤ n := by
  induction ixs generalizing n ref s with
  | nil => simp
  | cons ix rest ih =>
    obtain ⟨next,hnext,hrest⟩ := Option.bind_eq_some_iff.mp h
    obtain ⟨m,hm,hunread⟩ := structureStep_unread hs hnext
    have hle := ih hunread hrest
    rw [List.countP_cons]
    omega

end

section
variable {accounts : List Bytes} {depth : Nat} {e : Execution}

theorem Executes.unmarked (h : Executes accounts depth e) :
    ∀ log∈e.logs,log.isTruncated=false := by
  induction h with
  | done => simp [Execution.logs]
  | line hlog _ ih => exact List.forall_mem_cons.mpr ⟨hlog.2.2,ih⟩
  | silent _ _ ih => exact ih
  | call _ _ hinvoke _ hsuccess _ ihb ih =>
    refine List.forall_mem_cons.mpr ⟨not_truncated_of_invoke hinvoke,?_⟩
    refine List.forall_mem_append.mpr ⟨ihb,List.forall_mem_cons.mpr ⟨?_,ih⟩⟩
    exact (plain_end_of_success hsuccess).2

/-- Instructions that await an invocation: those that have one, and those of the programs that
leave no line without being known for it. -/
private theorem Executes.invocations (h : Executes accounts depth e) :
    e.instructions.countP (awaits accounts)=e.logs.countP Log.isInvoke+
      (e.unlogged accounts).countP fun p => !withoutLogging p := by
  induction h with
  | done => rfl
  | line hlog _ ih =>
    rw [Execution.logs,List.countP_cons_of_neg (by simp [hlog.1])]
    exact ih
  | silent hix _ ih =>
    rw [Execution.instructions,Execution.unlogged,List.countP_cons,List.countP_cons,ih,awaits,
      Execution.logs]
    exact Nat.add_assoc _ _ _
  | @call _ ix _ _ _ _ _ hix hlogging hinvoke _ hsuccess _ ihb ih =>
    have hawaits : awaits accounts ix=true := by
      rw [awaits,hix.program,Option.getD_some,hlogging]
      rfl
    rw [Execution.instructions,Execution.logs,Execution.unlogged,List.countP_cons_of_pos hawaits,
      List.countP_cons_of_pos hinvoke,List.countP_append,List.countP_append,List.countP_append,
      List.countP_cons_of_neg (by simp [(plain_end_of_success hsuccess).1]),ihb,ih]
    omega

/-- Structuring a whole log returns only where all programs that leave no line in it are known
for it: every other one takes an invocation that is not its own. -/
theorem Executes.silent_of_structured (h : Executes accounts 1 e) {forest : Forest}
    (hforest : structureFlattenedInstructionsWithLogs e.instructions e.logs accounts=some forest) :
    ∀ p∈e.unlogged accounts,withoutLogging p=true := by
  simp only [structureFlattenedInstructionsWithLogs,bind,Option.bind_eq_some_iff] at hforest
  obtain ⟨s,hs,_⟩ := hforest
  have hstart : Unread (e.logs.countP Log.isInvoke)
      (Structuring.position ⟨.nil,[],⟨[],false⟩,e.logs⟩) := ⟨rfl,h.unmarked,rfl⟩
  have hle := structureLoop_unread e.instructions hstart hs
  rw [h.invocations] at hle
  have hzero : (e.unlogged accounts).countP (fun p => !withoutLogging p)=0 := by omega
  intro p hp
  simpa using List.countP_eq_zero.mp hzero p hp

end

end SolanaM.Substreams
