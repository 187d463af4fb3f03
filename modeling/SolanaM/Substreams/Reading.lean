import SolanaM.Substreams.Structure

namespace SolanaM.Substreams

theorem not_truncated_of_invoke {log : Log} (h : log.isInvoke=true) : log.isTruncated=false := by
  cases log <;> simp_all [Log.isInvoke,Log.isTruncated]

theorem plain_end_of_success {log : Log} (h : log.isSuccess=true) :
    log.isInvoke=false ∧ log.isTruncated=false := by
  cases log <;> simp_all [Log.isSuccess,Log.isInvoke,Log.isTruncated]

private theorem openLoop_plain {stack : List (List Log)} {pending logs : List Log} {invoke : Log}
    (hplain : ∀ log∈pending,log.Plain) (hinvoke : invoke.isInvoke=true)
    (hstack : stack=[] → pending=[]) :
    LogStack.openLoop stack (pending++invoke::logs)=
      some (⟨[invoke]::stack.modifyHead (·++pending),false⟩,logs) := by
  induction pending generalizing stack with
  | nil =>
    have hid : stack.modifyHead (·++[])=stack := by cases stack <;> simp
    rw [hid]
    simp [LogStack.openLoop,not_truncated_of_invoke hinvoke,hinvoke]
  | cons log pending ih =>
    obtain ⟨hi,_,ht⟩ := hplain log (by simp)
    cases stack with
    | nil => simp at hstack
    | cons top below =>
      have hrest : LogStack.openLoop ((top++[log])::below) (pending++invoke::logs)=
          some (⟨[invoke]::((top++[log])::below).modifyHead (·++pending),false⟩,logs) :=
        ih (fun l hl => hplain l (by simp [hl])) (by simp)
      simpa [LogStack.openLoop,hi,ht] using hrest

private theorem closeLoop_plain {top : List Log} {stack : List (List Log)} {pending logs : List Log}
    {success : Log} (hplain : ∀ log∈pending,log.Plain) (hsuccess : success.isSuccess=true) :
    LogStack.closeLoop (top::stack) (pending++success::logs)=
      some (some (top++pending++[success]),⟨stack,false⟩,logs) := by
  induction pending generalizing top with
  | nil =>
    obtain ⟨hi,ht⟩ := plain_end_of_success hsuccess
    simp [LogStack.closeLoop,hi,ht,hsuccess]
  | cons log pending ih =>
    obtain ⟨hi,hs,ht⟩ := hplain log (by simp)
    have hrest : LogStack.closeLoop ((top++[log])::stack) (pending++success::logs)=
        some (some (top++[log]++pending++[success]),⟨stack,false⟩,logs) :=
      ih fun l hl => hplain l (by simp [hl])
    simpa [LogStack.closeLoop,hi,hs,ht] using hrest

private theorem openLoop_mark {stack : List (List Log)} {kept junk : List Log} {mark : Log}
    (hplain : ∀ log∈kept,log.Plain) (hmark : mark.isTruncated=true)
    (hstack : stack=[] → kept=[]) :
    LogStack.openLoop stack (kept++mark::junk)=some (⟨stack.modifyHead (·++kept),true⟩,junk) := by
  induction kept generalizing stack with
  | nil =>
    have hid : stack.modifyHead (·++[])=stack := by cases stack <;> simp
    rw [hid]
    simp [LogStack.openLoop,hmark]
  | cons log kept ih =>
    obtain ⟨hi,_,ht⟩ := hplain log (by simp)
    cases stack with
    | nil => simp at hstack
    | cons top below =>
      have hrest : LogStack.openLoop ((top++[log])::below) (kept++mark::junk)=
          some (⟨((top++[log])::below).modifyHead (·++kept),true⟩,junk) :=
        ih (fun l hl => hplain l (by simp [hl])) (by simp)
      simpa [LogStack.openLoop,hi,ht] using hrest

private theorem closeLoop_mark {top : List Log} {stack : List (List Log)} {kept junk : List Log}
    {mark : Log} (hplain : ∀ log∈kept,log.Plain) (hmark : mark.isTruncated=true) :
    LogStack.closeLoop (top::stack) (kept++mark::junk)=
      some (none,⟨(top++kept)::stack,true⟩,junk) := by
  induction kept generalizing top with
  | nil => simp [LogStack.closeLoop,hmark]
  | cons log kept ih =>
    obtain ⟨hi,hs,ht⟩ := hplain log (by simp)
    have hrest : LogStack.closeLoop ((top++[log])::stack) (kept++mark::junk)=
        some (none,⟨(top++[log]++kept)::stack,true⟩,junk) :=
      ih fun l hl => hplain l (by simp [hl])
    simpa [LogStack.closeLoop,hi,hs,ht] using hrest

/-- A cut falls among the first lines or after the one that follows them. -/
theorem cut_before_or_after {first rest kept lost : List Log} {log : Log}
    (h : first++log::rest=kept++lost) :
    (∃ missing,first=kept++missing ∧ lost≠[]) ∨
      ∃ more,kept=first++log::more ∧ rest=more++lost := by
  rcases List.append_eq_append_iff.mp h with ⟨more,hkept,hrest⟩|⟨missing,hfirst,hlost⟩
  · cases more with
    | nil => exact .inl ⟨[],by simpa using hkept.symm,by rw [← List.nil_append lost,← hrest]; simp⟩
    | cons log' more =>
      rw [List.cons_append,List.cons.injEq] at hrest
      exact .inr ⟨more,by rw [hkept,hrest.1],hrest.2⟩
  · exact .inl ⟨missing,hfirst,by rw [hlost]; simp⟩

section
variable {accounts : List Bytes} {depth : Nat}

private theorem Runs.own_plain {e : Execution} (h : Runs accounts depth e) :
    ∀ log∈e.own,log.Plain := by
  induction h with
  | done => simp [Execution.own]
  | line hlog _ ih => simpa [Execution.own] using ⟨hlog,ih⟩
  | silent _ _ _ ih => exact ih
  | call _ _ _ _ _ _ _ ih => exact ih

/-- Once the mark has been met no line is read any more. -/
theorem reads_truncated {e : Execution} (h : Runs accounts depth e) {p : LogStack × List Log}
    (hp : p.1.isTruncated=true) : Reads accounts e p p (e.linesWithin 0) := by
  induction h with
  | done => exact .done
  | line _ _ ih => exact .line (by rwa [Execution.linesWithin,Nat.zero_sub])
  | silent _ _ _ ih => exact .silent ih
  | @call depth ix programId invoke body success rest hix hlogging _ _ _ _ ihb ih =>
    have hopen : p.1.openLogs p.2 programId=some p := by simp [LogStack.openLogs,hp]
    have hclose : p.1.closeLogs p.2 programId=some (none,p) := by
      simp [LogStack.closeLogs,hp,hlogging]
    rw [Execution.linesWithin,Nat.zero_sub,Nat.zero_sub,if_neg (by omega)]
    exact .call hix.program hopen ihb hclose ih

theorem linesWithin_lost {n : Nat} {ix : WrappedInstruction} {invoke success : Log}
    {body rest : Execution} (h : n<body.logs.length+2) :
    (Execution.call ix invoke body success rest).linesWithin n=
      none::(body.linesWithin (n-1)++rest.linesWithin 0) := by
  rw [Execution.linesWithin,if_neg (by omega),Nat.sub_eq_zero_of_le h.le]

theorem linesWithin_kept {n m : Nat} {ix : WrappedInstruction} {invoke success : Log}
    {body rest : Execution} (h : n=body.logs.length+2+m) :
    (Execution.call ix invoke body success rest).linesWithin n=
      some (invoke::(body.own++[success]))::(body.linesWithin (n-1)++rest.linesWithin m) := by
  have hm : n-(body.logs.length+2)=m := by omega
  rw [Execution.linesWithin,if_pos (by omega),hm]

/-- How reading an execution ends: at the mark, where lines of it are missing; or with the lines
taken on the way and those still pending, together the ones pending before and its own. -/
inductive ReadWithin (accounts : List Bytes) (tail lost : List Log) (e : Execution)
    (stack : List (List Log)) (pending after kept : List Log) : Prop
  | marked (q : LogStack × List Log) (met : q.1.isTruncated=true)
      (short : kept.length<pending.length+e.logs.length)
      (reads : Reads accounts e (⟨stack,false⟩,kept++tail) q
        (e.linesWithin (kept.length-pending.length)))
  | unmarked (taken pending' kept' : List Log) (taken_eq : taken++pending'=pending++e.own)
      (kept_eq : pending'++after=kept'++lost)
      (reads : Reads accounts e (⟨stack,false⟩,kept++tail)
        (⟨stack.modifyHead (·++taken),false⟩,kept'++tail)
        (e.linesWithin (kept.length-pending.length)))

namespace ReadWithin

variable {tail lost : List Log} {stack : List (List Log)} {pending after kept : List Log}

theorem done (hlogs : pending++after=kept++lost) :
    ReadWithin accounts tail lost .done stack pending after kept := by
  have hid : stack.modifyHead (·++[])=stack := by cases stack <;> simp
  refine .unmarked [] pending kept (by simp [Execution.own]) hlogs ?_
  rw [hid]
  exact .done

/-- A line of the execution's own stays pending until the next operation takes it. -/
theorem line {log : Log} {rest : Execution}
    (h : ReadWithin accounts tail lost rest stack (pending++[log]) after kept) :
    ReadWithin accounts tail lost (.line log rest) stack pending after kept := by
  have hn : kept.length-(pending++[log]).length=kept.length-pending.length-1 := by
    rw [List.length_append,List.length_singleton]
    omega
  cases h with
  | marked q met short reads =>
    rw [hn] at reads
    refine .marked q met ?_ (.line reads)
    rw [List.length_append,List.length_singleton] at short
    rw [Execution.logs,List.length_cons]
    omega
  | unmarked taken pending' kept' taken_eq kept_eq reads =>
    rw [hn] at reads
    exact .unmarked taken pending' kept' (taken_eq.trans (by simp [Execution.own])) kept_eq
      (.line reads)

theorem silent {ix : WrappedInstruction} {rest : Execution}
    (h : ReadWithin accounts tail lost rest stack pending after kept) :
    ReadWithin accounts tail lost (.silent ix rest) stack pending after kept := by
  cases h with
  | marked q met short reads => exact .marked q met short (.silent reads)
  | unmarked taken pending' kept' taken_eq kept_eq reads =>
    exact .unmarked taken pending' kept' taken_eq kept_eq (.silent reads)

section Call

variable {ix : WrappedInstruction} {programId : Bytes} {invoke success : Log}
  {body rest : Execution} (hprogram : accounts[ix.programIdIndex]?=some programId)

include hprogram

/-- The mark comes before the invocation. -/
theorem call_unopened (hlogging : withoutLogging programId=false)
    (hbody : Runs accounts (depth+1) body) (hrest : Runs accounts depth rest)
    {q : LogStack × List Log} (met : q.1.isTruncated=true) (hlen : kept.length≤pending.length)
    (hopen : LogStack.openLogs ⟨stack,false⟩ (kept++tail) programId=some q) :
    ReadWithin accounts tail lost (.call ix invoke body success rest) stack pending after kept := by
  have hclose : q.1.closeLogs q.2 programId=some (none,q) := by
    simp [LogStack.closeLogs,met,hlogging]
  have hlogs : 0<(Execution.call ix invoke body success rest).logs.length := by
    simp [Execution.logs]
  refine .marked q met (by omega) ?_
  rw [Nat.sub_eq_zero_of_le hlen,linesWithin_lost (by omega)]
  exact .call hprogram hopen (reads_truncated hbody met) hclose (reads_truncated hrest met)

section Opened

variable {inBody : List Log} (hkept : kept=pending++invoke::inBody)
  (hopen : LogStack.openLogs ⟨stack,false⟩ (kept++tail) programId=
    some (⟨[invoke]::stack.modifyHead (·++pending),false⟩,inBody++tail))

include hkept hopen

/-- The mark comes behind the invocation, in the body or before the success. -/
theorem call_unclosed (hrest : Runs accounts depth rest) {ended q : LogStack × List Log}
    (met : q.1.isTruncated=true) (hshort : inBody.length<body.logs.length+1)
    (hbody : Reads accounts body (⟨[invoke]::stack.modifyHead (·++pending),false⟩,inBody++tail)
      ended (body.linesWithin inBody.length))
    (hclose : ended.1.closeLogs ended.2 programId=some (none,q)) :
    ReadWithin accounts tail lost (.call ix invoke body success rest) stack pending after kept := by
  have hn : kept.length-pending.length=inBody.length+1 := by simp [hkept]
  refine .marked q met ?_ ?_
  · simp only [hkept,Execution.logs,List.length_append,List.length_cons]
    omega
  · rw [hn,linesWithin_lost (by omega),Nat.add_sub_cancel]
    exact .call hprogram hopen hbody hclose (reads_truncated hrest met)

/-- The success is there: what follows decides. -/
theorem call_closed {taken pendingb keptb more : List Log} (hown : taken++pendingb=body.own)
    (hcount : inBody.length=body.logs.length+1+more.length)
    (hbody : Reads accounts body (⟨[invoke]::stack.modifyHead (·++pending),false⟩,inBody++tail)
      (⟨(invoke::taken)::stack.modifyHead (·++pending),false⟩,keptb++tail)
      (body.linesWithin inBody.length))
    (hclose : LogStack.closeLogs ⟨(invoke::taken)::stack.modifyHead (·++pending),false⟩
      (keptb++tail) programId=some (some (invoke::taken++pendingb++[success]),
        ⟨stack.modifyHead (·++pending),false⟩,more++tail))
    (h : ReadWithin accounts tail lost rest (stack.modifyHead (·++pending)) [] after more) :
    ReadWithin accounts tail lost (.call ix invoke body success rest) stack pending after kept := by
  have hn : kept.length-pending.length=inBody.length+1 := by simp [hkept]
  have hlines : (Execution.call ix invoke body success rest).linesWithin
      (kept.length-pending.length)=some (invoke::taken++pendingb++[success])::
        (body.linesWithin inBody.length++rest.linesWithin more.length) := by
    have hm : kept.length-pending.length=body.logs.length+2+more.length := by omega
    have htext : invoke::taken++pendingb++[success]=invoke::(body.own++[success]) := by
      simp [← hown]
    rw [linesWithin_kept hm,htext,hn,Nat.add_sub_cancel]
  cases h with
  | marked q met short reads =>
    refine .marked q met ?_ ?_
    · simp only [hkept,Execution.logs,List.length_append,List.length_cons,List.length_nil] at short ⊢
      omega
    · rw [hlines]
      exact .call hprogram hopen hbody hclose reads
  | unmarked takenr pending' kept' taken_eq kept_eq reads =>
    have hhead : (stack.modifyHead (·++pending)).modifyHead (·++takenr)=
        stack.modifyHead (·++(pending++takenr)) := by cases stack <;> simp
    rw [hhead] at reads
    refine .unmarked (pending++takenr) pending' kept' ?_ kept_eq ?_
    · rw [List.append_assoc,taken_eq]
      rfl
    · rw [hlines]
      exact .call hprogram hopen hbody hclose reads

end Opened

end Call

end ReadWithin

section
variable {tail lost : List Log}
  (hmark : lost≠[] → ∃ mark junk,tail=mark::junk ∧ mark.isTruncated=true)

include hmark

private theorem openLogs_within {programId : Bytes} (hlogging : withoutLogging programId=false)
    {stack : List (List Log)} {pending rest kept : List Log} {invoke : Log}
    (hplain : ∀ log∈pending,log.Plain) (hinvoke : invoke.isInvoke=true)
    (hstack : stack=[] → pending=[]) (hlogs : pending++invoke::rest=kept++lost) :
    (∃ q : LogStack × List Log,q.1.isTruncated=true ∧ kept.length≤pending.length ∧
      LogStack.openLogs ⟨stack,false⟩ (kept++tail) programId=some q) ∨
    ∃ more,kept=pending++invoke::more ∧ rest=more++lost ∧
      LogStack.openLogs ⟨stack,false⟩ (kept++tail) programId=
        some (⟨[invoke]::stack.modifyHead (·++pending),false⟩,more++tail) := by
  have hopens (logs : List Log) : LogStack.openLogs ⟨stack,false⟩ logs programId=
      LogStack.openLoop stack logs := by simp [LogStack.openLogs,hlogging]
  rcases cut_before_or_after hlogs with ⟨missing,hkept,hlost⟩|⟨more,hkept,hrest⟩
  · obtain ⟨mark,junk,rfl,ht⟩ := hmark hlost
    refine .inl ⟨(⟨stack.modifyHead (·++kept),true⟩,junk),rfl,by simp [hkept],?_⟩
    rw [hopens]
    refine openLoop_mark (fun l hl => hplain l (by simp [hkept,hl])) ht fun h => ?_
    have hnil := hstack h
    rw [hkept,List.append_eq_nil_iff] at hnil
    exact hnil.1
  · have hlines : kept++tail=pending++invoke::(more++tail) := by simp [hkept]
    refine .inr ⟨more,hkept,hrest,?_⟩
    rw [hopens,hlines]
    exact openLoop_plain hplain hinvoke hstack

private theorem closeLogs_within {programId : Bytes} (hlogging : withoutLogging programId=false)
    {top : List Log} {stack : List (List Log)} {pending rest kept : List Log} {success : Log}
    (hplain : ∀ log∈pending,log.Plain) (hsuccess : success.isSuccess=true)
    (hlogs : pending++success::rest=kept++lost) :
    (∃ q : LogStack × List Log,q.1.isTruncated=true ∧ kept.length≤pending.length ∧
      LogStack.closeLogs ⟨top::stack,false⟩ (kept++tail) programId=some (none,q)) ∨
    ∃ more,kept=pending++success::more ∧ rest=more++lost ∧
      LogStack.closeLogs ⟨top::stack,false⟩ (kept++tail) programId=
        some (some (top++pending++[success]),⟨stack,false⟩,more++tail) := by
  have hcloses (logs : List Log) : LogStack.closeLogs ⟨top::stack,false⟩ logs programId=
      LogStack.closeLoop (top::stack) logs := by simp [LogStack.closeLogs,hlogging]
  rcases cut_before_or_after hlogs with ⟨missing,hkept,hlost⟩|⟨more,hkept,hrest⟩
  · obtain ⟨mark,junk,rfl,ht⟩ := hmark hlost
    refine .inl ⟨(⟨(top++kept)::stack,true⟩,junk),rfl,by simp [hkept],?_⟩
    rw [hcloses]
    exact closeLoop_mark (fun l hl => hplain l (by simp [hkept,hl])) ht
  · have hlines : kept++tail=pending++success::(more++tail) := by simp [hkept]
    refine .inr ⟨more,hkept,hrest,?_⟩
    rw [hcloses,hlines]
    exact closeLoop_plain hplain hsuccess

/-- What is read of a log whose lines are lost from some point on, where a mark stands instead:
either the mark is met, or the lines read so far are those of the execution. -/
theorem reads_within {e : Execution} (h : Runs accounts depth e) :
    ∀ (stack : List (List Log)) (pending after kept : List Log),(∀ log∈pending,log.Plain) →
      (stack=[] → pending++e.own=[]) → pending++(e.logs++after)=kept++lost →
      ReadWithin accounts tail lost e stack pending after kept := by
  induction h with
  | done =>
    intro stack pending after kept _ _ hlogs
    exact .done hlogs
  | @line depth log rest hlog _ ih =>
    intro stack pending after kept hplain hstack hlogs
    have hplain' : ∀ l∈pending++[log],l.Plain := by
      intro l hl
      cases List.mem_append.mp hl with
      | inl hl => exact hplain l hl
      | inr hl => exact List.mem_singleton.mp hl ▸ hlog
    have hown : pending++[log]++rest.own=pending++Execution.own (.line log rest) := by
      simp [Execution.own]
    have hlogs' : pending++[log]++(rest.logs++after)=kept++lost := by
      rw [← hlogs]
      simp [Execution.logs]
    exact .line (ih stack (pending++[log]) after kept hplain' (hown ▸ hstack) hlogs')
  | silent _ _ _ ih =>
    intro stack pending after kept hplain hstack hlogs
    exact .silent (ih stack pending after kept hplain hstack hlogs)
  | @call depth ix programId invoke body success rest hix hlogging hinvoke hbody hsuccess hrest
      ihb ih =>
    intro stack pending after kept hplain hstack hlogs
    have hpend : stack=[] → pending=[] := fun h => (List.append_eq_nil_iff.mp (hstack h)).1
    have hsplit : pending++invoke::(body.logs++success::(rest.logs++after))=kept++lost := by
      rw [← hlogs]
      simp [Execution.logs]
    rcases openLogs_within hmark hlogging hplain hinvoke hpend hsplit with
      ⟨q,hq,hlen,hopen⟩|⟨inBody,hkept,hbodyLogs,hopen⟩
    · exact .call_unopened hix.program hlogging hbody hrest hq hlen hopen
    have hwhole := congrArg List.length hbodyLogs
    simp only [List.length_append,List.length_cons] at hwhole
    cases ihb ([invoke]::stack.modifyHead (·++pending)) [] (success::(rest.logs++after)) inBody
      (by simp) (by simp) hbodyLogs with
    | marked q met short reads =>
      have hclose : q.1.closeLogs q.2 programId=some (none,q) := by
        simp [LogStack.closeLogs,met,hlogging]
      rw [List.length_nil] at short
      exact .call_unclosed hix.program hkept hopen hrest met (by omega) reads hclose
    | unmarked taken pendingb keptb htaken hkeptb hread =>
      have hplainb : ∀ log∈pendingb,log.Plain := by
        intro log hlog
        have hmem : log∈taken++pendingb := List.mem_append.mpr (Or.inr hlog)
        rw [htaken] at hmem
        exact hbody.own_plain log hmem
      have hpart := congrArg List.length hkeptb
      simp only [List.length_append,List.length_cons] at hpart
      rcases closeLogs_within hmark hlogging hplainb hsuccess hkeptb with
        ⟨q,hq,hlen,hclose⟩|⟨more,_,hrestLogs,hclose⟩
      · exact .call_unclosed hix.program hkept hopen hrest hq (by omega) hread hclose
      · have hmore := congrArg List.length hrestLogs
        simp only [List.length_append] at hmore
        have hstack' : stack.modifyHead (·++pending)=[] → []++rest.own=[] := by
          intro h
          have hnil : stack=[] := by cases stack <;> simp_all
          exact (List.append_eq_nil_iff.mp (hstack hnil)).2
        exact .call_closed hix.program hkept hopen htaken (by omega) hread hclose
          (ih (stack.modifyHead (·++pending)) [] after more (by simp) hstack' hrestLogs)

/-- The whole log, or what was kept of it before the mark, is read back. -/
theorem structure_within {e : Execution} (h : Runs accounts 1 e) (hown : e.own=[])
    {kept : List Log} (hlogs : e.logs=kept++lost) :
    ∃ forest,structureFlattenedInstructionsWithLogs e.instructions (kept++tail) accounts=
        some forest ∧ Labels accounts e (e.linesWithin kept.length) forest := by
  cases reads_within hmark h [] [] [] kept (by simp) (fun _ => hown) (by simp [hlogs]) with
  | marked q met short reads => exact structure_reads h reads
  | unmarked taken pending' kept' taken_eq kept_eq reads => exact structure_reads h reads

end

theorem Labels.length {e : Execution} {owns : List (Option (List Log))} {forest : Forest}
    (h : Labels accounts e owns forest) : owns.length=e.instructions.length := by
  induction h with
  | done => rfl
  | line _ ih => exact ih
  | silent _ _ ih => simp [Execution.instructions,ih]
  | call _ _ _ ihb ih => simp [Execution.instructions,ihb,ih]

private theorem linesWithin_length (e : Execution) (n : Nat) :
    (e.linesWithin n).length=e.instructions.length := by
  induction e generalizing n with
  | done => rfl
  | line log rest ih => exact ih (n-1)
  | silent ix rest ih => simp [Execution.linesWithin,Execution.instructions,ih]
  | call ix invoke body success rest ihb ih =>
    simp [Execution.linesWithin,Execution.instructions,ihb,ih]

theorem Labelled.describes {ix : WrappedInstruction} {logs : List Log}
    {node : StructuredInstruction} (h : Labelled accounts ix (some logs) node) :
    Describes accounts ix logs node :=
  ⟨h.instruction,h.program,h.logs⟩

/-- With no line lost every instruction has its own. -/
theorem Labels.records {e : Execution} {owns : List (Option (List Log))} {forest : Forest}
    (h : Labels accounts e owns forest) :
    ∀ n,e.logs.length≤n → owns=e.linesWithin n → Records accounts e forest := by
  induction h with
  | done => exact fun _ _ _ => .done
  | @line log rest owns forest _ ih =>
    intro n hn howns
    rw [Execution.logs,List.length_cons] at hn
    exact .line (ih (n-1) (by omega) howns)
  | @silent ix rest node own owns forest hix _ ih =>
    intro n hn howns
    obtain ⟨rfl,hrest⟩ := List.cons.inj howns
    exact .silent hix.describes (ih n hn hrest)
  | @call ix invoke body success rest node own inside owns inner forest hix hbody _ ihb ih =>
    intro n hn howns
    simp only [Execution.logs,List.length_cons,List.length_append] at hn
    rw [linesWithin_kept (m := n-(body.logs.length+2)) (by omega)] at howns
    obtain ⟨rfl,happend⟩ := List.cons.inj howns
    obtain ⟨hinside,hrest⟩ := List.append_inj happend
      (hbody.length.trans (linesWithin_length body (n-1)).symm)
    exact .call hix.describes (ihb (n-1) (by omega) hinside) (ih _ (by omega) hrest)

theorem structure_whole {e : Execution} (h : Runs accounts 1 e) (hown : e.own=[]) :
    ∃ forest,structureFlattenedInstructionsWithLogs e.instructions e.logs accounts=some forest ∧
      Labels accounts e (e.linesWithin e.logs.length) forest := by
  have hlogs : e.logs=e.logs++[] := (List.append_nil e.logs).symm
  have hmark : ([] : List Log)≠[] → ∃ mark junk,([] : List Log)=mark::junk ∧
      mark.isTruncated=true := fun h => absurd rfl h
  obtain ⟨forest,hforest,hlabels⟩ := structure_within hmark h hown hlogs
  rw [List.append_nil] at hforest
  exact ⟨forest,hforest,hlabels⟩

/-- Structuring the instructions and the log of an execution gives its forest back. -/
theorem structure_records {e : Execution} (h : Runs accounts 1 e) (hown : e.own=[]) :
    ∃ forest,structureFlattenedInstructionsWithLogs e.instructions e.logs accounts=some forest ∧
      Records accounts e forest := by
  obtain ⟨forest,hforest,hlabels⟩ := structure_whole h hown
  exact ⟨forest,hforest,hlabels.records _ le_rfl rfl⟩

theorem Records.flattened {e : Execution} {forest : Forest} (h : Records accounts e forest) :
    forest.flattened.map StructuredInstruction.instruction=e.instructions := by
  induction h with
  | done => rfl
  | line _ ih => exact ih
  | silent hix _ ih => simp [Forest.flattened,Execution.instructions,ih,hix.instruction]
  | call hix _ _ ihb ih => simp [Forest.flattened,Execution.instructions,ihb,ih,hix.instruction]

end

/-- Structuring what an execution leaves behind, its instructions in pre-order and its log, gives
back its forest with each instruction's own lines, and flattening that gives the instructions. -/
theorem structuring_inverts_execution (accounts : List Bytes) (e : Execution)
    (hruns : Runs accounts 1 e) (hquiet : e.own=[]) :
    ∃ forest,structureFlattenedInstructionsWithLogs e.instructions e.logs accounts=some forest ∧
      Records accounts e forest ∧
      forest.flattened.map StructuredInstruction.instruction=e.instructions := by
  obtain ⟨forest,hforest,hrecords⟩ := structure_records hruns hquiet
  exact ⟨forest,hforest,hrecords,hrecords.flattened⟩

/-- Cut short anywhere and continued in any way after the mark, the log still gives the forest: an
instruction whose success line was kept has its own lines, any other that logs has none. -/
theorem truncated_log_structured (accounts : List Bytes) (e : Execution)
    (hruns : Runs accounts 1 e) (hquiet : e.own=[]) (kept lost junk : List Log) (mark : Log)
    (hlogs : e.logs=kept++lost) (hmark : mark.isTruncated=true) :
    ∃ forest,structureFlattenedInstructionsWithLogs e.instructions (kept++mark::junk) accounts=
        some forest ∧ Labels accounts e (e.linesWithin kept.length) forest :=
  structure_within (fun _ => ⟨mark,junk,rfl,hmark⟩) hruns hquiet hlogs

section Sample

/-- A token program, an instruction it calls between two lines of its own, and the check of a
signature before it. -/
def nestedExecution : Execution :=
  .silent (.compiled ⟨1,[],[]⟩) (.call (.compiled ⟨0,[0],[7]⟩) (.invoke "outer")
    (.line (.program "before") (.call (.inner ⟨0,[1,0],[8],some 2⟩) (.invoke "inner")
      (.line (.data "within") .done) (.success "inner") (.line (.unknown "after") .done)))
    (.success "outer") .done)

def nestedAccounts : List Bytes :=
  [tokenProgramId.bytes,(b58 "Ed25519SigVerify111111111111111111111111111").bytes]

theorem nestedExecution_runs : Runs nestedAccounts 1 nestedExecution := by
  have hlogging : withoutLogging tokenProgramId.bytes=false := by decide +kernel
  have hsilent :
      withoutLogging (b58 "Ed25519SigVerify111111111111111111111111111").bytes=true := by
    decide +kernel
  refine .silent ⟨rfl,rfl,by simp [WrappedInstruction.accounts]⟩ hsilent ?_
  refine .call ⟨rfl,rfl,by simp [WrappedInstruction.accounts,nestedAccounts]⟩ hlogging rfl
    (.line ⟨rfl,rfl,rfl⟩ ?_) rfl .done
  exact .call ⟨rfl,rfl,by simp [WrappedInstruction.accounts,nestedAccounts]⟩ hlogging rfl
    (.line ⟨rfl,rfl,rfl⟩ .done) rfl (.line ⟨rfl,rfl,rfl⟩ .done)

theorem structuring_inverts_nested :
    ∃ forest,structureFlattenedInstructionsWithLogs nestedExecution.instructions
        nestedExecution.logs nestedAccounts=some forest ∧
      Records nestedAccounts nestedExecution forest ∧
      forest.flattened.map StructuredInstruction.instruction=nestedExecution.instructions :=
  structuring_inverts_execution nestedAccounts nestedExecution nestedExecution_runs rfl

/-- The mark comes after the inner instruction and before the success of the outer one. -/
theorem truncated_log_nested :
    ∃ forest,structureFlattenedInstructionsWithLogs nestedExecution.instructions
        (nestedExecution.logs.take 5++[.truncated "Log truncated",.success "outer"])
        nestedAccounts=some forest ∧
      Labels nestedAccounts nestedExecution
        [some [],none,some [.invoke "inner",.data "within",.success "inner"]] forest :=
  truncated_log_structured nestedAccounts nestedExecution nestedExecution_runs rfl
    (nestedExecution.logs.take 5) (nestedExecution.logs.drop 5) [.success "outer"]
    (.truncated "Log truncated") rfl rfl

end Sample

end SolanaM.Substreams
