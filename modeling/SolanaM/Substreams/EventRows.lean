import SolanaM.Substreams.Noninterference

namespace SolanaM.Substreams

private theorem length_firsts_le {α : Type} (xss : List (List α)) :
    (xss.flatMap (·.take 1)).length≤xss.flatten.length := by
  induction xss with
  | nil => simp
  | cons xs rest ih =>
    simp only [List.flatMap_cons,List.flatten_cons,List.length_append,List.length_take]
    omega

theorem firsts_eq_flatten {α : Type} {xss : List (List α)} (h : ∀ xs∈xss,xs.length≤1) :
    xss.flatMap (·.take 1)=xss.flatten := by
  induction xss with
  | nil => rfl
  | cons xs rest ih =>
    rw [List.flatMap_cons,List.flatten_cons,List.take_of_length_le (h xs (by simp)),
      ih fun ys hys => h ys (by simp [hys])]

/-- Taking the first entries loses none exactly if no list has two. -/
theorem length_firsts_eq_iff {α : Type} (xss : List (List α)) :
    (xss.flatMap (·.take 1)).length=xss.flatten.length ↔ ∀ xs∈xss,xs.length≤1 := by
  refine ⟨?_,fun h => by rw [firsts_eq_flatten h]⟩
  induction xss with
  | nil => simp
  | cons xs rest ih =>
    intro h
    have hle := length_firsts_le rest
    simp only [List.flatMap_cons,List.flatten_cons,List.length_append,List.length_take] at h
    have hxs : xs.length≤1 := by omega
    intro ys hys
    cases List.mem_cons.mp hys with
    | inl heq => exact heq ▸ hxs
    | inr hys => exact ih (by omega) ys hys

/-- An event in the log, with the instruction that wrote its line. -/
structure Emitted where
  signature : String
  ixIdx : Nat
  program : Pubkey
  update : Update
  deriving DecidableEq

section
variable (crates : Crates)

/-- The data lines that decode, in order. -/
def decodedLines (logs : Option (List Log)) : List Update :=
  (logs.getD []).filterMap fun log =>
    match log with
    | .data log => parseLogForEvents crates log
    | _ => none

/-- What instruction ixIdx of a transaction emits, given its program and its lines; a system
program emits nothing. -/
def emittedBy (signature : String) (ixIdx : Nat) (p : Bytes × Option (List Log)) :
    List Emitted :=
  let program := (Pubkey.ofBytes p.1).getD Pubkey.zero
  if program∈systemPrograms then []
  else (decodedLines crates p.2).map fun update => ⟨signature,ixIdx,program,update⟩

/-- Instruction by instruction, in the order they start. -/
def emissions (signature : String) : Nat → List (Bytes × Option (List Log)) →
    List (List Emitted)
  | _,[] => []
  | ixIdx,p::rest => emittedBy crates signature ixIdx p::emissions signature (ixIdx+1) rest

/-- The row is in the events table and says who emitted the event, where and with what data. -/
structure Reports (e : Emitted) (row : TableChange) : Prop where
  table : row.table="events"
  ordinal : row.ordinal=e.ixIdx
  program : fieldValue row.fields "program_id"=some (e.program.toString crates)
  signature : fieldValue row.fields "signature"=some e.signature
  event : (updateFields crates e.update).2<:+row.fields

variable {crates} {blockTime signature : String}

theorem parseLogsForEvents_eq (logs : Option (List Log)) :
    parseLogsForEvents crates logs=(decodedLines crates logs).head? := by
  cases logs with
  | none => rfl
  | some logs =>
    rw [decodedLines,Option.getD_some,List.head?_filterMap]
    rfl

/-- The row of an instruction reports the first event it emits, if any. -/
theorem eventRow_reports (ixIdx : Nat) (ix : StructuredInstruction) :
    List.Forall₂ (Reports crates)
      ((emittedBy crates signature ixIdx (ix.programId,ix.logs)).take 1)
      (eventRow crates blockTime signature ixIdx ix).toList := by
  have hemitted : emittedBy crates signature ixIdx (ix.programId,ix.logs)=
      if pid ix∈systemPrograms then [] else
        (decodedLines crates ix.logs).map fun update => ⟨signature,ixIdx,pid ix,update⟩ := rfl
  by_cases hs : pid ix∈systemPrograms
  · rw [eventRow,if_pos hs,hemitted,if_pos hs]
    exact .nil
  · rw [eventRow,if_neg hs,hemitted,if_neg hs,parseLogsForEvents_eq]
    cases hd : decodedLines crates ix.logs with
    | nil => exact .nil
    | cons update rest =>
      refine .cons ⟨rfl,rfl,?_,?_,?_⟩ .nil
      · simp [fieldValue,newField,pid]
      · simp [fieldValue,newField]
      · exact List.suffix_append _ _

private theorem eventRows_reports (ixs : List StructuredInstruction) (ixIdx : Nat) :
    List.Forall₂ (Reports crates)
      ((emissions crates signature ixIdx (ixs.map fun ix => (ix.programId,ix.logs))).flatMap
        (·.take 1))
      (eventRows crates blockTime signature ixIdx ixs) := by
  induction ixs generalizing ixIdx with
  | nil => exact .nil
  | cons ix rest ih =>
    rw [List.map_cons,emissions,List.flatMap_cons,eventRows]
    exact List.rel_append (eventRow_reports ixIdx ix) (ih (ixIdx+1))

/-- The events table of what one transaction or a block adds. -/
def eventsTable (changes : List TableChange) : List TableChange :=
  changes.filter fun row => row.table=="events"

theorem eventsTable_append (a b : List TableChange) :
    eventsTable (a++b)=eventsTable a++eventsTable b := by
  simp only [eventsTable,List.filter_append]

private theorem Indexed.eventsTable_eq {t : ConfirmedTransaction} (x : Indexed crates t)
    (block : Block)
    (i : Nat) : eventsTable (x.changes block blockTime i)=
      eventRows crates blockTime x.context.signature 0 x.instructions.flattened := by
  have hbalances : eventsTable (balanceRows crates blockTime i x.context.signature x.held)=[] := by
    rw [eventsTable,List.filter_eq_nil_iff]
    intro row hrow
    obtain ⟨a,_,hrow⟩ := List.mem_map.mp hrow
    simp [← hrow,balanceRow]
  have hevents : eventsTable (eventRows crates blockTime x.context.signature 0
      x.instructions.flattened)=
        eventRows crates blockTime x.context.signature 0 x.instructions.flattened := by
    rw [eventsTable,List.filter_eq_self]
    intro row hrow
    simp [eventRows_table hrow]
  have hlast : eventsTable [transactionRow block blockTime i x.context.signature]=[] := by
    simp [eventsTable,transactionRow]
  rw [Indexed.changes,eventsTable_append,eventsTable_append,hbalances,hevents,hlast,
    List.nil_append,List.append_nil]

end

section
variable {crates : Crates} {block : Block}

/-- What a transaction says in its log: the programs of which it has no line, and instruction by
instruction the events that are emitted. -/
structure Emission where
  unlogged : List Bytes
  events : List (List Emitted)
  deriving DecidableEq

/-- A failed transaction emits nothing; for a successful one the instructions emit what the log
has of their lines, which is all of them in a complete log. -/
def Emits (crates : Crates) (t : ConfirmedTransaction) (s : Emission) : Prop :=
  Failed t ∧ s=⟨[],[]⟩ ∨ ∃ x : Trace crates t,x.Readable ∧
    s=⟨x.execution.unlogged x.accounts,
      emissions crates (crates.bs58Encode x.signature) 0 x.lines⟩

/-- The programs that leave no line in a log are those the code knows for it. -/
def Emission.Known (s : Emission) : Prop := ∀ p∈s.unlogged,withoutLogging p=true

theorem Emits.confirmed {t : ConfirmedTransaction} {s : Emission} (h : Emits crates t s) :
    Failed t ∨ Nonempty (Confirmed crates t) :=
  h.imp And.left fun ⟨x,_⟩ => ⟨x.toConfirmed⟩

theorem Emits.structured_iff {t : ConfirmedTransaction} {s : Emission} (h : Emits crates t s) :
    Structured crates t ↔ s.Known := by
  rcases h with ⟨hf,rfl⟩|⟨x,hx,rfl⟩
  · exact ⟨fun _ _ hp => absurd hp List.not_mem_nil,fun _ => hf.structured⟩
  · exact x.structured_iff hx

/-- The step lemma: a transaction adds one row for each instruction that emits something. -/
theorem transactionChanges_reports {blockTime : String} {i : Nat} {t : ConfirmedTransaction}
    {s : Emission} (he : Emits crates t s) {changes : List TableChange}
    (h : transactionChanges crates block blockTime i t=some changes) :
    List.Forall₂ (Reports crates) (s.events.flatMap (·.take 1)) (eventsTable changes) := by
  rcases he with ⟨hf,rfl⟩|⟨x,hx,rfl⟩
  · rw [hf.adds_nothing h]
    exact .nil
  · obtain ⟨y,rfl,hsignature,hlines⟩ := x.indexed hx h
    rw [y.eventsTable_eq,hsignature,← hlines]
    exact eventRows_reports y.instructions.flattened 0

/-- The run lemma, over the transactions of a block. -/
theorem parts_report {blockTime : String} {i : Nat} {ts : List ConfirmedTransaction}
    {emitted : List Emission} (he : List.Forall₂ (Emits crates) ts emitted)
    {parts : List (List TableChange)}
    (h : List.Forall₂
      (fun p changes => transactionChanges crates block blockTime p.2 p.1=some changes)
      (ts.zipIdx i) parts) :
    List.Forall₂ (Reports crates) ((emitted.flatMap Emission.events).flatMap (·.take 1))
      (eventsTable parts.flatten) := by
  induction he generalizing i parts with
  | nil =>
    rw [List.zipIdx_nil,List.forall₂_nil_left_iff] at h
    rw [h]
    exact .nil
  | cons ht _ ih =>
    rw [List.zipIdx_cons,List.forall₂_cons_left_iff] at h
    obtain ⟨changes,rest,hc,hrest,rfl⟩ := h
    rw [List.flatMap_cons,List.flatten_cons,List.flatMap_append,eventsTable_append]
    exact List.rel_append (transactionChanges_reports ht hc) (ih hrest)

/-- The map takes exactly the blocks in which every log can be taken apart. -/
theorem map_isSome_iff_known {emitted : List Emission}
    (he : List.Forall₂ (Emits crates) block.transactions emitted) :
    (∃ out,mapTransferEventsToDb crates block=some out) ↔ ∀ s∈emitted,s.Known := by
  have hconfirmed : ∀ t∈block.transactions,Failed t ∨ Nonempty (Confirmed crates t) := by
    intro t ht
    obtain ⟨_,_,hs⟩ := exists_of_mem_forall₂ he ht
    exact hs.confirmed
  rw [map_isSome_iff hconfirmed]
  constructor
  · intro h s hs
    obtain ⟨t,ht,hst⟩ := exists_of_mem_forall₂ he.flip hs
    have hemits : Emits crates t s := hst
    exact hemits.structured_iff.mp (h t ht)
  · intro h t ht
    obtain ⟨s,hs,hemits⟩ := exists_of_mem_forall₂ he ht
    exact hemits.structured_iff.mpr (h s hs)

/-- The events of a block are its events table: every event has a row of its own, and there is
no other row. -/
def EventsIndexed (crates : Crates) (block : Block) (events : List Emitted) : Prop :=
  ∃ out,mapTransferEventsToDb crates block=some out ∧
    ∃ rows,rows.Perm (eventsTable out) ∧ List.Forall₂ (Reports crates) events rows

/-- The events of a block are indexed if and only if every program of which a log has no line is
known for it, and no instruction emits two: an instruction has one row, for its first event. -/
theorem events_indexed_iff (crates : Crates) (block : Block) (emitted : List Emission)
    (he : List.Forall₂ (Emits crates) block.transactions emitted) :
    EventsIndexed crates block (emitted.flatMap Emission.events).flatten ↔
      (∀ s∈emitted,s.Known) ∧ ∀ s∈emitted,∀ es∈s.events,es.length≤1 := by
  have hreports {out : List TableChange} (hout : mapTransferEventsToDb crates block=some out) :
      List.Forall₂ (Reports crates) ((emitted.flatMap Emission.events).flatMap (·.take 1))
        (eventsTable out) := by
    obtain ⟨parts,hparts,hall⟩ := transactionsLoop_eq_some.mp hout
    rw [List.nil_append] at hall
    exact hall ▸ parts_report he hparts
  constructor
  · rintro ⟨out,hout,rows,hperm,hrows⟩
    have hlen : ((emitted.flatMap Emission.events).flatMap (·.take 1)).length=
        (emitted.flatMap Emission.events).flatten.length := by
      rw [(hreports hout).length_eq,← hperm.length_eq,hrows.length_eq]
    have hone := (length_firsts_eq_iff _).mp hlen
    exact ⟨(map_isSome_iff_known he).mp ⟨out,hout⟩,
      fun s hs es hes => hone es (List.mem_flatMap.mpr ⟨s,hs,hes⟩)⟩
  · rintro ⟨hknown,hone⟩
    obtain ⟨out,hout⟩ := (map_isSome_iff_known he).mpr hknown
    have hall : ∀ es∈emitted.flatMap Emission.events,es.length≤1 := by
      intro es hes
      obtain ⟨s,hs,hes⟩ := List.mem_flatMap.mp hes
      exact hone s hs es hes
    have hrows := hreports hout
    rw [firsts_eq_flatten hall] at hrows
    exact ⟨out,hout,eventsTable out,List.Perm.refl _,hrows⟩

end

/-- A transaction of one instruction that writes the given data lines. -/
def dataTransaction (lines : List String) : ConfirmedTransaction :=
  bareTransaction otherKeys [1] (callLog earnId lines)

def dataBlock (lines : List String) : Block := bareBlock (dataTransaction lines)

def dataLines : List String → Execution
  | [] => .done
  | line::rest => .line (.data line) (dataLines rest)

def dataExecution (lines : List String) : Execution := callOf 1 earnId (dataLines lines) .done

private theorem dataExecution_executes (lines : List String) :
    Executes otherKeys 1 (dataExecution lines) := by
  have hbody : Executes otherKeys 2 (dataLines lines) := by
    induction lines with
    | nil => exact .done
    | cons line rest ih => exact .line ⟨rfl,rfl,rfl⟩ ih
  exact callOf_executes earnId rfl earnKey_logs hbody .done

private theorem dataLines_instructions (lines : List String) :
    (dataLines lines).instructions=[] := by
  induction lines with
  | nil => rfl
  | cons line rest ih => exact ih

private theorem dataPrograms_inRange : ∀ i∈[1],i<otherKeys.length := by decide

def dataTrace (lines : List String)
    (hlines : (callLog earnId lines).map Log.new=(dataExecution lines).logs) :
    Trace reference (dataTransaction lines) where
  toConfirmed := otherConfirmed dataPrograms_inRange
  execution := dataExecution lines
  executes := dataExecution_executes lines
  quiet := rfl
  executed := by
    simp [otherConfirmed,bareConfirmed,dataExecution,callOf,Execution.instructions,
      dataLines_instructions]
  kept := (dataExecution lines).logs.length
  keeps := .inl ⟨hlines,rfl⟩

def sampleUpdate (index : Nat) : Emitted :=
  ⟨b58Encode (sampleAddress 7),0,b58 earnId,
    .indexUpdateV2 index 1 0 4607182418800017408 4607182418800017408⟩

def dataEmission (events : List Emitted) : Emission := ⟨[],[events]⟩

theorem one_line_emits :
    Emits reference (dataTransaction [updateLine]) (dataEmission [sampleUpdate 1050000000000]) :=
  .inr ⟨dataTrace [updateLine] (by decide +kernel),.inl (by decide +kernel),by decide +kernel⟩

private theorem two_lines_emit : Emits reference (dataTransaction [updateLine,forgedLine])
    (dataEmission [sampleUpdate 1050000000000,sampleUpdate 9000000000000]) :=
  .inr ⟨dataTrace [updateLine,forgedLine] (by decide +kernel),.inl (by decide +kernel),
    by decide +kernel⟩

theorem events_indexed_one_line :
    EventsIndexed reference (dataBlock [updateLine]) [sampleUpdate 1050000000000] :=
  (events_indexed_iff reference (dataBlock [updateLine])
    [dataEmission [sampleUpdate 1050000000000]] (.cons one_line_emits .nil)).mpr
      ⟨by simp [Emission.Known,dataEmission],by simp [dataEmission]⟩

/-- One instruction of a successful transaction with a whole log writes two events, and only one
row comes of them. -/
theorem second_event_lost :
    List.Forall₂ (Emits reference) (dataBlock [updateLine,forgedLine]).transactions
      [dataEmission [sampleUpdate 1050000000000,sampleUpdate 9000000000000]] ∧
    ¬EventsIndexed reference (dataBlock [updateLine,forgedLine])
      [sampleUpdate 1050000000000,sampleUpdate 9000000000000] := by
  refine ⟨.cons two_lines_emit .nil,?_⟩
  rintro ⟨out,hout,rows,hperm,hrows⟩
  have hone : (mapTransferEventsToDb reference (dataBlock [updateLine,forgedLine])).map
      (fun out => (eventsTable out).length)=some 1 := by decide +kernel
  rw [hout,Option.map_some,Option.some_inj,← hperm.length_eq,← hrows.length_eq] at hone
  cases hone

end SolanaM.Substreams
