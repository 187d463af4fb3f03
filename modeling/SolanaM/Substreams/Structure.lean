import SolanaM.Substreams.Execution

namespace SolanaM.Substreams

/-- As many turns as there are open instructions are enough. -/
def popTo (recordParent : Bool) (height : Option Nat) (s : Structuring) : Option Structuring :=
  popWhile recordParent height s.instructionStack.length s

theorem popInstruction_length {recordParent : Bool} {s s' : Structuring}
    {top : StructuredInstruction × Forest} {below : List (StructuredInstruction × Forest)}
    (hs : s.instructionStack=top::below) (h : popInstruction recordParent s=some s') :
    s'.instructionStack.length=below.length := by
  obtain ⟨popped,inner⟩ := top
  simp only [popInstruction,hs,bind,Option.bind_eq_some_iff] at h
  obtain ⟨⟨own,logStack,logs⟩,_,h⟩ := h
  cases below with
  | nil => simp [← Option.some_inj.mp h]
  | cons parent rest => simp [← Option.some_inj.mp h]

theorem popTo_stop {recordParent : Bool} {height : Option Nat} {s : Structuring}
    (h : ∀ top∈s.instructionStack.head?,heightGe top.1.stackHeight height=false) :
    popTo recordParent height s=some s := by
  rw [popTo]
  cases hs : s.instructionStack with
  | nil => rfl
  | cons top below =>
    have hlow := h top (by simp [hs])
    simp [popWhile,hs,hlow]

theorem popTo_pop {recordParent : Bool} {height : Option Nat} {s : Structuring}
    {top : StructuredInstruction × Forest} {below : List (StructuredInstruction × Forest)}
    (hs : s.instructionStack=top::below) (h : heightGe top.1.stackHeight height=true) :
    popTo recordParent height s=(popInstruction recordParent s).bind (popTo recordParent height) := by
  have hlen : s.instructionStack.length=below.length+1 := by rw [hs,List.length_cons]
  rw [popTo,hlen]
  simp only [popWhile,hs,h,if_true,bind]
  cases hpop : popInstruction recordParent s with
  | none => rfl
  | some s' =>
    show popWhile recordParent height below.length s'=popTo recordParent height s'
    rw [popTo,popInstruction_length hs hpop]

/-- Popping to a height and then further is popping to the last height at once. -/
theorem popTo_popTo {recordParent : Bool} {high low : Option Nat}
    (hle : ∀ h,heightGe h high=true → heightGe h low=true) (s : Structuring) :
    (popTo recordParent high s).bind (popTo recordParent low)=popTo recordParent low s := by
  generalize hn : s.instructionStack.length=n
  induction n generalizing s with
  | zero =>
    have hs : s.instructionStack=[] := List.eq_nil_of_length_eq_zero hn
    rw [popTo_stop (by simp [hs])]
    rfl
  | succ n ih =>
    cases hs : s.instructionStack with
    | nil => simp [hs] at hn
    | cons top below =>
      by_cases hge : heightGe top.1.stackHeight high=true
      · rw [popTo_pop hs hge,popTo_pop hs (hle _ hge),Option.bind_assoc]
        cases hpop : popInstruction recordParent s with
        | none => rfl
        | some s' =>
          apply ih
          have hlen := popInstruction_length hs hpop
          simp only [hs,List.length_cons] at hn
          omega
      · rw [popTo_stop (by simpa [hs] using hge)]
        rfl

private theorem popAll_eq (s : Structuring) :
    popAll s.instructionStack.length s=popTo false none s := by
  have hall (turns : Nat) : ∀ s : Structuring,turns=s.instructionStack.length →
      popAll turns s=popWhile false none turns s := by
    induction turns with
    | zero => intro s _; rfl
    | succ turns ih =>
      intro s hs
      cases hstack : s.instructionStack with
      | nil => simp [hstack] at hs
      | cons top below =>
        simp only [popAll,popWhile,hstack,heightGe,if_true,bind]
        cases hpop : popInstruction false s with
        | none => rfl
        | some s' =>
          apply ih
          rw [popInstruction_length hstack hpop]
          simpa [hstack] using hs
  exact hall _ s rfl

private theorem structureLoop_append {accounts : List Bytes} {ref : Nat}
    (xs ys : List WrappedInstruction) (s : Structuring) :
    structureLoop accounts ref (xs++ys) s=
      (structureLoop accounts ref xs s).bind (structureLoop accounts (ref+xs.length) ys) := by
  induction xs generalizing ref s with
  | nil => rfl
  | cons x xs ih =>
    rw [List.cons_append,structureLoop,structureLoop]
    cases hstep : structureStep accounts s ref x with
    | none => rfl
    | some s' =>
      have hidx : ref+(x::xs).length=ref+1+xs.length := by rw [List.length_cons]; omega
      rw [hidx]
      exact ih s'

private theorem mapM_inRange {accounts : List Bytes} {indices : Bytes}
    (h : ∀ n∈indices,n.val<accounts.length) :
    ∃ named,indices.mapM (fun n => accounts[n.val]?)=some named := by
  induction indices with
  | nil => exact ⟨[],rfl⟩
  | cons n rest ih =>
    obtain ⟨named,hnamed⟩ := ih fun m hm => h m (by simp [hm])
    have hn : n.val<accounts.length := h n (by simp)
    exact ⟨accounts[n.val]::named,by simp [List.mapM_cons,hn,hnamed]⟩

/-- The structured instruction is fresh: it has no lines yet. -/
structure Made (ix : WrappedInstruction) (programId : Bytes) (node : StructuredInstruction) :
    Prop where
  instruction : node.instruction=ix
  programId : node.programId=programId

private theorem newStructured_located {accounts : List Bytes} {depth : Nat}
    {ix : WrappedInstruction}
    {programId : Bytes} (h : Located accounts depth ix programId) (ref : Nat) :
    ∃ node,newStructured accounts ref ix=some node ∧ Made ix programId node := by
  obtain ⟨named,hnamed⟩ := mapM_inRange h.inRange
  exact ⟨⟨ref,ix,named,programId,none,none⟩,by simp [newStructured,hnamed,h.program],rfl,rfl⟩

theorem newStructured_height {accounts : List Bytes} {ref : Nat} {ix : WrappedInstruction}
    {node : StructuredInstruction} (h : newStructured accounts ref ix=some node) :
    node.stackHeight=ix.stackHeight := by
  simp only [newStructured,bind,Option.bind_eq_some_iff] at h
  obtain ⟨_,_,_,_,h⟩ := h
  rw [← Option.some_inj.mp h]
  rfl

/-- The new instruction opens inside the innermost open one. -/
def Nest.start (n : Nest) (node : StructuredInstruction) : Nest := (n.1,(node,.nil)::n.2)

section
variable {accounts : List Bytes} {depth ref : Nat} {ix : WrappedInstruction} {programId : Bytes}
  {n : Nest}

theorem structureStep_eq {node : StructuredInstruction}
    (hnew : newStructured accounts ref ix=some node) (s : Structuring) :
    structureStep accounts s ref ix=(popTo true node.stackHeight s).bind fun s' =>
      (s'.logStack.openLogs s'.logs node.programId).bind fun p =>
        some ⟨s'.structuredInstructions,(node,.nil)::s'.instructionStack,p.1,p.2⟩ := by
  simp [structureStep,hnew,popTo]

private theorem structureStep_on (h : Located accounts depth ix programId)
    (hn : n.Below (some depth))
    {p opened : LogStack × List Log} (hopen : p.1.openLogs p.2 programId=some opened) (ref : Nat) :
    ∃ node,Made ix programId node ∧
      structureStep accounts (n.on p) ref ix=some ((n.start node).on opened) := by
  obtain ⟨node,hnew,hmade⟩ := newStructured_located h ref
  have hheight : node.stackHeight=some depth := (newStructured_height hnew).trans h.height
  have hpop : popTo true (some depth) (n.on p)=some (n.on p) := popTo_stop hn
  refine ⟨node,hmade,?_⟩
  rw [structureStep_eq hnew,hheight,hpop,hmade.programId,Option.bind_some]
  have hopen' : (n.on p).logStack.openLogs (n.on p).logs programId=some opened := hopen
  rw [hopen']
  rfl

/-- Popping hands the instruction, with its lines, to the next open one. -/
theorem popInstruction_on (recordParent : Bool) (closed inner : Forest)
    {popped : StructuredInstruction} (below : List (StructuredInstruction × Forest))
    {p q : LogStack × List Log} {own : Option (List Log)}
    (h : p.1.closeLogs p.2 popped.programId=some (own,q)) :
    ∃ parent,popInstruction recordParent (Nest.on (closed,(popped,inner)::below) p)=
      some ((Nest.adopt (closed,below)
        (.cons {popped with logs := own,parentInstruction := parent} inner .nil)).on q) := by
  cases below with
  | nil =>
    exact ⟨popped.parentInstruction,by
      simp [popInstruction,Nest.on,h,Nest.adopt,Forest.push_eq_append]⟩
  | cons top rest =>
    obtain ⟨parent,siblings⟩ := top
    exact ⟨if recordParent then some parent.ref else popped.parentInstruction,by
      simp [popInstruction,Nest.on,h,Nest.adopt,Forest.push_eq_append]⟩

/-- A step pops first, so popping before it changes nothing. -/
theorem structureStep_popTo (hix : ix.stackHeight=some depth) (s : Structuring) :
    structureStep accounts s ref ix=
      (popTo true (some depth) s).bind fun s' => structureStep accounts s' ref ix := by
  cases hnew : newStructured accounts ref ix with
  | none => simp [structureStep,hnew]
  | some node =>
    have hheight : node.stackHeight=some depth := (newStructured_height hnew).trans hix
    have hfun : (fun s => structureStep accounts s ref ix)=_ :=
      funext fun s => structureStep_eq hnew s
    rw [hfun,structureStep_eq hnew,hheight,← Option.bind_assoc,popTo_popTo fun _ h => h]

private theorem Runs.first_height {e : Execution} (h : Runs accounts depth e)
    {rest : List WrappedInstruction} (he : e.instructions=ix::rest) :
    ix.stackHeight=some depth := by
  induction h with
  | done => simp [Execution.instructions] at he
  | line _ _ ih => exact ih he
  | silent hix _ _ _ =>
    have hfirst := (List.cons.inj he).1
    exact hfirst ▸ hix.height
  | call hix _ _ _ _ _ _ _ =>
    have hfirst := (List.cons.inj he).1
    exact hfirst ▸ hix.height

private theorem heightGe_of_above {h height : Option Nat} (hh : heightGe h (some (depth+1))=true)
    (hd : heightGe (some depth) height=true) : heightGe h height=true := by
  cases h with
  | none => simp [heightGe] at hh
  | some m =>
    cases height with
    | none => rfl
    | some k =>
      simp only [heightGe,decide_eq_true_eq] at hh hd ⊢
      omega

/-- What follows an instruction starts by popping it: the next instruction at its height does,
and without one the loop at the end. -/
theorem loop_popTo {e : Execution} (h : Runs accounts depth e) (recordParent : Bool)
    {height : Option Nat} (hge : heightGe (some depth) height=true) :
    ∃ recordParent' height',heightGe (some depth) height'=true ∧
      (∀ n : Nest,n.Below (some depth) → n.Below height → n.Below height') ∧ ∀ ref s,
      (structureLoop accounts ref e.instructions s).bind (popTo recordParent height)=
        (popTo recordParent' height' s).bind fun s =>
          (structureLoop accounts ref e.instructions s).bind (popTo recordParent height) := by
  cases hixs : e.instructions with
  | nil =>
    refine ⟨recordParent,height,hge,fun _ _ h => h,?_⟩
    intro ref s
    exact (popTo_popTo (fun _ h => h) s).symm
  | cons ix rest =>
    refine ⟨true,some depth,by simp [heightGe],fun _ h _ => h,?_⟩
    intro ref s
    simp only [structureLoop,bind]
    rw [structureStep_popTo (h.first_height hixs) s]
    simp only [Option.bind_assoc]

theorem Made.height {node : StructuredInstruction} (h : Made ix programId node)
    (hix : Located accounts depth ix programId) : node.stackHeight=some depth := by
  rw [StructuredInstruction.stackHeight,h.instruction,hix.height]

/-- Closing the innermost open instruction and stopping at the one it ran in. -/
theorem popTo_close {node : StructuredInstruction} (hmade : Made ix programId node)
    (hix : Located accounts depth ix programId) (recordParent : Bool) {height : Option Nat}
    (hge : heightGe (some depth) height=true) (hbelow : n.Below height) (inner : Forest)
    {p q : LogStack × List Log} {own : Option (List Log)}
    (h : p.1.closeLogs p.2 programId=some (own,q)) :
    ∃ closed,Labelled accounts ix own closed ∧
      popTo recordParent height (Nest.on (n.1,(node,inner)::n.2) p)=
        some ((n.adopt (.cons closed inner .nil)).on q) := by
  rw [← hmade.programId] at h
  obtain ⟨parent,hpop⟩ := popInstruction_on recordParent n.1 inner n.2 h
  refine ⟨{node with logs := own,parentInstruction := parent},⟨hmade.instruction,?_,rfl⟩,?_⟩
  · rw [hmade.programId]
    exact hix.program
  · rw [popTo_pop rfl (hmade.height hix ▸ hge),hpop,Option.bind_some]
    exact popTo_stop (Nest.below_adopt hbelow _)

/-- From any nest the loop over the instructions of an execution, and the popping after it, append
a forest there that is labelled with the lines read. -/
def Structures (accounts : List Bytes) (depth : Nat) (e : Execution) (p q : LogStack × List Log)
    (owns : List (Option (List Log))) : Prop :=
  ∀ (n : Nest) (ref : Nat) (recordParent : Bool) (height : Option Nat),
    n.Below (some depth) → n.Below height → heightGe (some depth) height=true →
    ∃ forest,Labels accounts e owns forest ∧
      (structureLoop accounts ref e.instructions (n.on p)).bind (popTo recordParent height)=
        some ((n.adopt forest).on q)

theorem Structures.done {p : LogStack × List Log} :
    Structures accounts depth .done p p [] := by
  intro n ref recordParent height _ hheight _
  refine ⟨.nil,.done,?_⟩
  rw [n.adopt_nil]
  exact popTo_stop hheight

/-- One instruction with what runs under it, in front of the others at its depth. -/
theorem Structures.framed {body rest : Execution} (hix : Located accounts depth ix programId)
    (hrest : Runs accounts depth rest) {p opened ended closing q : LogStack × List Log}
    {own : Option (List Log)} {inside owns : List (Option (List Log))}
    (hopen : p.1.openLogs p.2 programId=some opened)
    (hbody : Structures accounts (depth+1) body opened ended inside)
    (hclose : ended.1.closeLogs ended.2 programId=some (own,closing))
    (hothers : Structures accounts depth rest closing q owns)
    (n : Nest) (ref : Nat) (recordParent : Bool) (height : Option Nat)
    (hd : n.Below (some depth)) (hheight : n.Below height)
    (hge : heightGe (some depth) height=true) :
    ∃ closed inner forest,Labelled accounts ix own closed ∧ Labels accounts body inside inner ∧
      Labels accounts rest owns forest ∧
      (structureLoop accounts ref (ix::(body.instructions++rest.instructions)) (n.on p)).bind
        (popTo recordParent height)=some ((n.adopt (.cons closed inner forest)).on q) := by
  obtain ⟨node,hmade,hstep⟩ := structureStep_on hix hd hopen ref
  obtain ⟨recordParent',height',hge',hbelow,hflush⟩ := loop_popTo hrest recordParent hge
  -- the body runs above the instruction
  have hstart : (n.start node).Below (some (depth+1)) := by
    simp [Nest.Below,Nest.start,hmade.height hix,heightGe]
  obtain ⟨inner,hinner,hrunb⟩ := hbody (n.start node) (ref+1) recordParent' (some (depth+1))
    hstart hstart (by simp [heightGe])
  -- the instruction stays open until the next one, or the end, pops it
  obtain ⟨closed,hclosed,hpop⟩ := popTo_close hmade hix recordParent' hge'
    (hbelow n hd hheight) inner hclose
  have hbodyrun : (structureLoop accounts (ref+1) body.instructions
      ((n.start node).on opened)).bind (popTo recordParent' height')=
        some ((n.adopt (.cons closed inner .nil)).on closing) := by
    have hsplit : popTo recordParent' height'=fun s =>
        (popTo recordParent' (some (depth+1)) s).bind (popTo recordParent' height') :=
      funext fun s => (popTo_popTo (fun _ h => heightGe_of_above h hge') s).symm
    rw [hsplit,← Option.bind_assoc,hrunb,Option.bind_some]
    exact hpop
  obtain ⟨forest,hforest,hrun⟩ := hothers (n.adopt (.cons closed inner .nil))
    (ref+1+body.instructions.length) recordParent height (Nest.below_adopt hd _)
    (Nest.below_adopt hheight _) hge
  have htail : (fun s => (structureLoop accounts (ref+1+body.instructions.length)
      rest.instructions s).bind (popTo recordParent height))=_ := funext (hflush _)
  refine ⟨closed,inner,forest,hclosed,hinner,hforest,?_⟩
  rw [n.adopt_adopt] at hrun
  rw [structureLoop]
  simp only [bind,hstep,Option.bind_some]
  rw [structureLoop_append,Option.bind_assoc,htail,← Option.bind_assoc,hbodyrun,
    Option.bind_some,hrun]
  rfl

/-- The run lemma: what is read of the log of an execution is what its forest is labelled with. -/
theorem run_reads {e : Execution} (h : Runs accounts depth e) {p q : LogStack × List Log}
    {owns : List (Option (List Log))} (hread : Reads accounts e p q owns) :
    Structures accounts depth e p q owns := by
  induction h generalizing p q owns with
  | done =>
    cases hread
    exact .done
  | line _ _ ih =>
    cases hread with
    | line hreads =>
      intro n ref recordParent height hd hheight hge
      obtain ⟨forest,hforest,hrun⟩ := ih hreads n ref recordParent height hd hheight hge
      exact ⟨forest,.line hforest,hrun⟩
  | @silent depth ix programId rest hix hsilent hrest ih =>
    cases hread with
    | silent hreads =>
      have hopen : p.1.openLogs p.2 programId=some p := by simp [LogStack.openLogs,hsilent]
      have hclose : p.1.closeLogs p.2 programId=some (some [],p) := by
        simp [LogStack.closeLogs,hsilent]
      intro n ref recordParent height hd hheight hge
      obtain ⟨closed,inner,forest,hclosed,hinner,hforest,hrun⟩ := Structures.framed hix hrest
        hopen .done hclose (ih hreads) n ref recordParent height hd hheight hge
      cases hinner
      exact ⟨.cons closed .nil forest,.silent hclosed hforest,hrun⟩
  | @call depth ix programId invoke body success rest hix hlogging hinvoke hbody hsuccess hrest
      ihb ih =>
    cases hread with
    | @call _ programId' _ _ _ _ _ opened ended closing _ own inside owns hprogram hopen hreadb
        hclose hreads =>
      have hsame : programId'=programId := Option.some_inj.mp (hprogram.symm.trans hix.program)
      subst hsame
      intro n ref recordParent height hd hheight hge
      obtain ⟨closed,inner,forest,hclosed,hinner,hforest,hrun⟩ := Structures.framed hix hrest
        hopen (ihb hreadb) hclose (ih hreads) n ref recordParent height hd hheight hge
      exact ⟨.cons closed inner forest,.call hclosed hinner hforest,hrun⟩

/-- What can be read of a log decides how it is structured. -/
theorem structure_reads {e : Execution} (h : Runs accounts 1 e) {logs : List Log}
    {q : LogStack × List Log} {owns : List (Option (List Log))}
    (hread : Reads accounts e (⟨[],false⟩,logs) q owns) :
    ∃ forest,structureFlattenedInstructionsWithLogs e.instructions logs accounts=some forest ∧
      Labels accounts e owns forest := by
  have hempty (height : Option Nat) : Nest.Below (.nil,[]) height := by simp [Nest.Below]
  obtain ⟨forest,hforest,hrun⟩ := run_reads h hread (.nil,[]) 0 false none (hempty _) (hempty _) rfl
  refine ⟨forest,?_,hforest⟩
  have hall : (fun s : Structuring => popAll s.instructionStack.length s)=popTo false none :=
    funext popAll_eq
  have hstart : Nest.on (.nil,[]) (⟨[],false⟩,logs)=⟨.nil,[],⟨[],false⟩,logs⟩ := rfl
  rw [hstart] at hrun
  simp only [structureFlattenedInstructionsWithLogs,bind]
  rw [← Option.bind_assoc,hall,hrun]
  rfl

end

end SolanaM.Substreams
