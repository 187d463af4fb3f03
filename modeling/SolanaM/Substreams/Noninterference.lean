import SolanaM.Sdk.Db
import SolanaM.Substreams.Reference
import SolanaM.Substreams.Trace

namespace SolanaM.Substreams

/-- The documents of a table: each of its table changes becomes one. -/
def documents (table : String) (changes : List TableChange) : List (List Field) :=
  (changes.filter fun row => row.table=table).map TableChange.fields

/-- $match of the event in both index queries; neither looks at the program. -/
def indexRows (changes : List TableChange) : List (List Field) :=
  (documents "events" changes).filter fun event =>
    fieldValue event "event"=some "index_update_v2"

/-- $lookup and $unwind: every event with each transaction of its signature. -/
def withTransactions (events transactions : List (List Field)) :
    List (List Field × List Field) :=
  events.flatMap fun event =>
    (transactions.filter fun t => fieldValue t "signature"=fieldValue event "signature").map
      fun t => (event,t)

def joined (changes : List TableChange) : List (List Field × List Field) :=
  withTransactions (indexRows changes) (documents "transactions" changes)

/-- What the two queries take from a joined document. -/
def readIndexUpdate (document : List Field × List Field) : Option Sdk.IndexUpdate := do
  let index ← (← fieldValue document.1 "index") |> parseU64
  let ts ← (← fieldValue document.2 "block_time") |> parseU64
  let blockHeight ← (← fieldValue document.2 "block_height") |> parseU64
  return ⟨index,ts,blockHeight⟩

/-- The row says that an instruction of the earn program logged it. -/
def byEarn (event : List Field) : Bool := fieldValue event "program_id"=some earnId

def earnRows (changes : List TableChange) : List (List Field) :=
  (indexRows changes).filter byEarn

theorem documents_append (table : String) (a b : List TableChange) :
    documents table (a++b)=documents table a++documents table b := by
  simp [documents]

theorem earnRows_append (a b : List TableChange) :
    earnRows (a++b)=earnRows a++earnRows b := by
  simp [earnRows,indexRows,documents_append]

theorem withTransactions_byEarn (events transactions : List (List Field)) :
    (withTransactions events transactions).filter (fun d => byEarn d.1)=
      withTransactions (events.filter byEarn) transactions := by
  induction events with
  | nil => rfl
  | cons event rest ih =>
    simp only [withTransactions,List.flatMap_cons,List.filter_append,List.filter_map] at ih ⊢
    rw [ih]
    by_cases he : byEarn event=true
    · simp [he,Function.comp_def]
    · simp [he,Function.comp_def]

section
variable (crates : Crates) (blockTime signature : String)

/-- The fields of the row, which leave out the number of the instruction. -/
def eventFields (p : Bytes × Option (List Log)) : Option (List Field) :=
  let program := (Pubkey.ofBytes p.1).getD Pubkey.zero
  if program∈systemPrograms then none
  else (parseLogsForEvents crates p.2).map fun logEvent =>
    [newField "program_id" (program.toString crates),
      newField "instruction" ((parseLogsForInstructionName p.2).getD ""),
      newField "signature" signature,newField "ts" blockTime]++(updateFields crates logEvent).2

variable {crates blockTime signature}

private theorem eventRow_fields (ixIdx : Nat) (ix : StructuredInstruction) :
    (eventRow crates blockTime signature ixIdx ix).map TableChange.fields=
      eventFields crates blockTime signature (ix.programId,ix.logs) := by
  by_cases hs : pid ix∈systemPrograms
  · simp only [pid] at hs
    simp [eventRow,eventFields,pid,hs]
  · simp only [pid] at hs
    cases he : parseLogsForEvents crates ix.logs with
    | none => simp [eventRow,eventFields,pid,hs,he]
    | some logEvent => simp [eventRow,eventFields,pid,hs,he]

/-- The instruction belongs to the program with the declared id. -/
def ofEarn (crates : Crates) (p : Bytes × Option (List Log)) : Bool :=
  ((Pubkey.ofBytes p.1).getD Pubkey.zero).toString crates=earnId

private theorem eventFields_byEarn {p : Bytes × Option (List Log)} {fields : List Field}
    (h : eventFields crates blockTime signature p=some fields) :
    byEarn fields=ofEarn crates p := by
  simp only [eventFields] at h
  split at h
  · simp at h
  · obtain ⟨logEvent,_,hfields⟩ := Option.map_eq_some_iff.mp h
    simp [← hfields,byEarn,ofEarn,fieldValue,newField]

/-- Rows by the earn program come from its instructions alone. -/
theorem filterMap_byEarn (ps : List (Bytes × Option (List Log))) :
    (ps.filterMap (eventFields crates blockTime signature)).filter byEarn=
      (ps.filter (ofEarn crates)).filterMap (eventFields crates blockTime signature) := by
  induction ps with
  | nil => rfl
  | cons p rest ih =>
    cases hp : eventFields crates blockTime signature p with
    | none =>
      by_cases he : ofEarn crates p=true
      · simp [hp,he,ih]
      · simp [hp,he,ih]
    | some fields =>
      have hsame := eventFields_byEarn hp
      by_cases he : ofEarn crates p=true
      · simp [hp,he,hsame,ih]
      · simp [hp,he,hsame,ih]

private theorem eventRows_documents (ixs : List StructuredInstruction) (ixIdx : Nat) :
    (eventRows crates blockTime signature ixIdx ixs).map TableChange.fields=
      (ixs.map fun ix => (ix.programId,ix.logs)).filterMap
        (eventFields crates blockTime signature) := by
  induction ixs generalizing ixIdx with
  | nil => rfl
  | cons ix rest ih =>
    rw [eventRows,List.map_append,ih,List.map_cons,List.filterMap_cons,← eventRow_fields ixIdx ix]
    cases eventRow crates blockTime signature ixIdx ix with
    | none => rfl
    | some row => rfl

variable {block : Block} {t u : ConfirmedTransaction}

theorem documents_balanceRows {table : String} (h : table≠"balance_updates") (i : Nat)
    (accounts : List TokenAccount) :
    documents table (balanceRows crates blockTime i signature accounts)=[] := by
  simp only [documents,List.map_eq_nil_iff,List.filter_eq_nil_iff]
  intro row hrow
  obtain ⟨a,_,hrow⟩ := List.mem_map.mp hrow
  simp [← hrow,balanceRow,h.symm]

theorem documents_eventRows {table : String} (h : table≠"events")
    (ixs : List StructuredInstruction) (ixIdx : Nat) :
    documents table (eventRows crates blockTime signature ixIdx ixs)=[] := by
  simp only [documents,List.map_eq_nil_iff,List.filter_eq_nil_iff]
  intro row hrow
  simp [eventRows_table hrow,h.symm]

theorem Indexed.events (x : Indexed crates t) (i : Nat) :
    documents "events" (x.changes block blockTime i)=
      (x.instructions.flattened.map fun ix => (ix.programId,ix.logs)).filterMap
        (eventFields crates blockTime x.context.signature) := by
  have hall : documents "events"
      (eventRows crates blockTime x.context.signature 0 x.instructions.flattened)=
        (eventRows crates blockTime x.context.signature 0 x.instructions.flattened).map
          TableChange.fields := by
    rw [documents,List.filter_eq_self.mpr]
    intro row hrow
    simp [eventRows_table hrow]
  rw [Indexed.changes,documents_append,documents_append,documents_balanceRows (by decide),hall,
    eventRows_documents]
  simp [documents,transactionRow]

theorem Indexed.transactions (x : Indexed crates t) (i : Nat) :
    documents "transactions" (x.changes block blockTime i)=
      [(transactionRow block blockTime i x.context.signature).fields] := by
  rw [Indexed.changes,documents_append,documents_append,documents_balanceRows (by decide),
    documents_eventRows (by decide)]
  simp [documents,transactionRow]

theorem Indexed.earnRows_eq (x : Indexed crates t) (i : Nat) :
    earnRows (x.changes block blockTime i)=
      (((x.instructions.flattened.map fun ix => (ix.programId,ix.logs)).filter
        (ofEarn crates)).filterMap (eventFields crates blockTime x.context.signature)).filter
          (fun event => fieldValue event "event"=some "index_update_v2") := by
  rw [earnRows,indexRows,x.events,List.filter_filter,← filterMap_byEarn,List.filter_filter]
  simp only [Bool.and_comm]

/-- The two transactions may run any other programs and log anything in them: only what the logs
have of the lines of the earn program's instructions is the same. -/
structure AgreeTransaction (crates : Crates) (t u : ConfirmedTransaction) : Prop where
  signature : firstSignature t=firstSignature u
  earn : Failed t ∧ Failed u ∨ ∃ (x : Trace crates t) (y : Trace crates u),x.Readable ∧
    y.Readable ∧ x.lines.filter (ofEarn crates)=y.lines.filter (ofEarn crates)

structure AgreeBlock (crates : Crates) (b c : Block) : Prop where
  blockhash : b.blockhash=c.blockhash
  slot : b.slot=c.slot
  blockHeight : b.blockHeight=c.blockHeight
  blockTime : b.blockTime=c.blockTime
  transactions : List.Forall₂ (AgreeTransaction crates) b.transactions c.transactions

/-- The rows by the earn program are those of the lines that its instructions wrote. -/
theorem Trace.earnRows_eq (x : Trace crates t) (hreadable : x.Readable) {i : Nat}
    {changes : List TableChange}
    (h : transactionChanges crates block blockTime i t=some changes) :
    earnRows changes=((x.lines.filter (ofEarn crates)).filterMap
        (eventFields crates blockTime (crates.bs58Encode x.signature))).filter
          (fun event => fieldValue event "event"=some "index_update_v2") ∧
      documents "transactions" changes=
        [(transactionRow block blockTime i (crates.bs58Encode x.signature)).fields] := by
  obtain ⟨y,rfl,hsignature,hlines⟩ := x.indexed hreadable h
  rw [y.earnRows_eq,y.transactions,hsignature,hlines]
  exact ⟨rfl,rfl⟩

/-- The step lemma: two agreeing transactions push the same rows by the earn program and the
same row of their own. -/
theorem agree_changes {c : Block} {i : Nat} {changes changes' : List TableChange}
    (hhash : block.blockhash=c.blockhash) (hslot : block.slot=c.slot)
    (hheight : block.blockHeight=c.blockHeight) (hagree : AgreeTransaction crates t u)
    (h : transactionChanges crates block blockTime i t=some changes)
    (h' : transactionChanges crates c blockTime i u=some changes') :
    earnRows changes=earnRows changes' ∧
      documents "transactions" changes=documents "transactions" changes' := by
  obtain ⟨hf,hf'⟩ | ⟨x,y,hx,hy,hearn⟩ := hagree.earn
  · rw [hf.adds_nothing h,hf'.adds_nothing h']
    exact ⟨rfl,rfl⟩
  · obtain ⟨hrows,htransaction⟩ := x.earnRows_eq hx h
    obtain ⟨hrows',htransaction'⟩ := y.earnRows_eq hy h'
    have hsame : x.signature=y.signature := Option.some_inj.mp
      (x.firstSignature_eq.symm.trans (hagree.signature.trans y.firstSignature_eq))
    rw [hrows,hrows',htransaction,htransaction',hearn,hsame]
    simp [transactionRow,hhash,hslot,hheight]

/-- The run lemma, over all transactions of the two blocks. -/
theorem agree_parts {c : Block} (hhash : block.blockhash=c.blockhash) (hslot : block.slot=c.slot)
    (hheight : block.blockHeight=c.blockHeight) {ts us : List ConfirmedTransaction}
    (hagree : List.Forall₂ (AgreeTransaction crates) ts us) {i : Nat}
    {parts parts' : List (List TableChange)}
    (h : List.Forall₂
      (fun p changes => transactionChanges crates block blockTime p.2 p.1=some changes)
      (ts.zipIdx i) parts)
    (h' : List.Forall₂
      (fun p changes => transactionChanges crates c blockTime p.2 p.1=some changes)
      (us.zipIdx i) parts') :
    earnRows parts.flatten=earnRows parts'.flatten ∧
      documents "transactions" parts.flatten=documents "transactions" parts'.flatten := by
  induction hagree generalizing i parts parts' with
  | nil =>
    rw [List.zipIdx_nil,List.forall₂_nil_left_iff] at h h'
    simp [h,h']
  | @cons t u ts us ht _ ih =>
    rw [List.zipIdx_cons,List.forall₂_cons_left_iff] at h h'
    obtain ⟨changes,rest,hc,hrest,hparts⟩ := h
    obtain ⟨changes',rest',hc',hrest',hparts'⟩ := h'
    have hhead := agree_changes hhash hslot hheight ht hc hc'
    have htail := ih hrest hrest'
    simp [hparts,hparts',earnRows_append,documents_append,hhead,htail]

end

/-- Two blocks that differ in what other programs run and log have the same index_update_v2 rows
by the earn program, numbers of instructions aside, and add the same documents by it to what the
index queries read. -/
theorem earn_updates_noninterfering {crates : Crates} {b c : Block} {out out' : List TableChange}
    (hagree : AgreeBlock crates b c) (h : mapTransferEventsToDb crates b=some out)
    (h' : mapTransferEventsToDb crates c=some out') :
    earnRows out=earnRows out' ∧ ∀ stored,
      (joined (stored++out)).filter (fun d => byEarn d.1)=
        (joined (stored++out')).filter (fun d => byEarn d.1) := by
  obtain ⟨parts,hparts,hout⟩ := transactionsLoop_eq_some.mp h
  obtain ⟨parts',hparts',hout'⟩ := transactionsLoop_eq_some.mp h'
  rw [List.nil_append] at hout hout'
  rw [hagree.blockTime] at hparts
  obtain ⟨hrows,htransactions⟩ := agree_parts hagree.blockhash hagree.slot hagree.blockHeight
    hagree.transactions hparts hparts'
  rw [← hout,← hout'] at hrows htransactions
  refine ⟨hrows,?_⟩
  intro stored
  have hstored : earnRows (stored++out)=earnRows (stored++out') := by
    rw [earnRows_append,earnRows_append,hrows]
  rw [joined,joined,withTransactions_byEarn,withTransactions_byEarn]
  rw [earnRows] at hstored
  rw [hstored,documents_append,documents_append,htransactions]
  rfl

def bareMeta (logs : List String) : TransactionStatusMeta where
  err := none
  preBalances := []
  postBalances := []
  innerInstructions := []
  logMessages := logs
  preTokenBalances := []
  postTokenBalances := []
  loadedWritableAddresses := []
  loadedReadonlyAddresses := []

def bareMessage (keys : List Bytes) (programs : List Nat) : Message :=
  ⟨some ⟨1⟩,keys,programs.map fun i => ⟨i,[],[]⟩⟩

/-- A transaction of top-level calls without accounts or data, and its log. -/
def bareTransaction (keys : List Bytes) (programs : List Nat) (logs : List String) :
    ConfirmedTransaction :=
  ⟨some ⟨[sampleAddress 7],some (bareMessage keys programs)⟩,some (bareMeta logs)⟩

def bareBlock (t : ConfirmedTransaction) : Block := ⟨"hash",1,some 1,some 1,[t]⟩

private theorem flattenedFrom_compiled (i : Nat) (ixs : List CompiledInstruction) :
    flattenedFrom i ixs []=ixs.map .compiled := by
  induction ixs generalizing i with
  | nil => rfl
  | cons ix rest ih => rw [flattenedFrom,ih,List.map_cons]

section
variable {keys : List Bytes} {programs : List Nat} {logs : List String}

def bareConfirmed (distinct : keys.Nodup) (keySize : ∀ account∈keys,account.length=32)
    (signer : 1≤keys.length) (inRange : ∀ i∈programs,i<keys.length) :
    Confirmed reference (bareTransaction keys programs logs) where
  accounts := keys
  status := bareMeta logs
  transaction := ⟨[sampleAddress 7],some (bareMessage keys programs)⟩
  message := bareMessage keys programs
  header := ⟨1⟩
  signature := sampleAddress 7
  instructions := programs.map fun i => .compiled ⟨i,[],[]⟩
  accounts_eq := by simp [reference,bareTransaction,bareMessage,bareMeta]
  distinct := distinct
  keys := keySize
  transaction_eq := rfl
  message_eq := rfl
  header_eq := rfl
  signed := rfl
  signers := signer
  status_eq := rfl
  succeeded := rfl
  pre := by simp [bareMeta]
  post := by simp [bareMeta]
  instructions_eq := by simp [bareMessage,bareMeta,flattenedFrom_compiled]
  program := by simpa [WrappedInstruction.programIdIndex] using inRange
  inRange := by simp [WrappedInstruction.accounts]
  initialized := by
    intro ix hix _ init hinit
    obtain ⟨i,_,rfl⟩ := List.mem_map.mp hix
    cases hinit

end

/-- What the runtime logs of a call, around the lines of the program. -/
def callLog (program : String) (lines : List String) : List String :=
  ("Program "++program++" invoke [1]")::(lines++["Program "++program++" success"])

def callOf (i : Nat) (program : String) (body rest : Execution) : Execution :=
  .call (.compiled ⟨i,[],[]⟩) (.invoke ("Program "++program++" invoke [1]")) body
    (.success ("Program "++program++" success")) rest

theorem callOf_executes {keys : List Bytes} {i : Nat} {programId : Bytes} (program : String)
    {body rest : Execution} (hprogram : keys[i]?=some programId)
    (hlogging : withoutLogging programId=false) (hbody : Executes keys 2 body)
    (hrest : Executes keys 1 rest) : Executes keys 1 (callOf i program body rest) :=
  .call ⟨rfl,hprogram,by simp [WrappedInstruction.accounts]⟩ hlogging rfl hbody rfl hrest

def otherId : String := "1111111111111111111111111111111A"

def updateLine : String :=
  "Program data: ZUE5CMH+EMEAhOB49AAAAAEAAAAAAAAAAAAAAAAAAAAAAAAAAADwPwAAAAAAAPA/"

def nothingLine : String := "Program log: Instruction: Nothing"

def forgedLine : String :=
  "Program data: ZUE5CMH+EMEAkM15LwgAAAEAAAAAAAAAAAAAAAAAAAAAAAAAAADwPwAAAAAAAPA/"

def otherKeys : List Bytes :=
  [sampleAddress 1,(b58 earnId).bytes,sampleAddress 9,
    (b58 "Secp256r1SigVerify1111111111111111111111111").bytes]

private theorem otherKeys_nodup : otherKeys.Nodup := by decide +kernel

private theorem otherKeys_size : ∀ account∈otherKeys,account.length=32 := by decide +kernel

/-- Confirmed calls of the programs among these keys. -/
def otherConfirmed {programs : List Nat} {logs : List String}
    (inRange : ∀ i∈programs,i<otherKeys.length) :
    Confirmed reference (bareTransaction otherKeys programs logs) :=
  bareConfirmed otherKeys_nodup otherKeys_size (by decide) inRange

theorem earnKey_logs : withoutLogging (b58 earnId).bytes=false := by decide +kernel

theorem otherKey_logs : withoutLogging (sampleAddress 9)=false := by decide +kernel

/-- The earn program logs one update; before it another program logs a line of its choice. -/
def otherTransaction (line : String) : ConfirmedTransaction :=
  bareTransaction otherKeys [2,1] (callLog otherId [line]++callLog earnId [updateLine])

def otherBlock (line : String) : Block := bareBlock (otherTransaction line)

def quietBlock : Block := otherBlock nothingLine

def forgingBlock : Block := otherBlock forgedLine

def otherTrace (line : String) (hline : (Log.new line).Plain)
    (hlogs : (callLog otherId [line]++callLog earnId [updateLine]).map Log.new=
      (callOf 2 otherId (.line (Log.new line) .done)
        (callOf 1 earnId (.line (.data updateLine) .done) .done)).logs) :
    Trace reference (otherTransaction line) where
  toConfirmed := otherConfirmed (by decide)
  execution := callOf 2 otherId (.line (Log.new line) .done)
    (callOf 1 earnId (.line (.data updateLine) .done) .done)
  executes := callOf_executes otherId rfl otherKey_logs (.line hline .done)
    (callOf_executes earnId rfl earnKey_logs (.line ⟨rfl,rfl,rfl⟩ .done) .done)
  quiet := rfl
  executed := rfl
  kept := 6
  keeps := .inl ⟨hlogs,rfl⟩

def quietTrace : Trace reference (otherTransaction nothingLine) :=
  otherTrace nothingLine (by decide +kernel) (by decide +kernel)

def forgingTrace : Trace reference (otherTransaction forgedLine) :=
  otherTrace forgedLine (by decide +kernel) (by decide +kernel)

theorem quiet_agrees_forging : AgreeBlock reference quietBlock forgingBlock where
  blockhash := rfl
  slot := rfl
  blockHeight := rfl
  blockTime := rfl
  transactions := .cons ⟨rfl,.inr ⟨quietTrace,forgingTrace,.inl (by decide +kernel),
    .inl (by decide +kernel),by decide +kernel⟩⟩ .nil

/-- The number of index_update_v2 rows and what the index queries read of the output. -/
def readBack (out : List TableChange) : Nat × List Sdk.IndexUpdate :=
  ((indexRows out).length,(joined out).filterMap readIndexUpdate)

theorem quiet_reads : ∃ out,mapTransferEventsToDb reference quietBlock=some out ∧
    readBack out=(1,[⟨1050000000000,1,1⟩]) :=
  Option.map_eq_some_iff.mp (by decide +kernel)

theorem forging_reads : ∃ out,mapTransferEventsToDb reference forgingBlock=some out ∧
    readBack out=(2,[⟨9000000000000,1,1⟩,⟨1050000000000,1,1⟩]) :=
  Option.map_eq_some_iff.mp (by decide +kernel)

theorem earn_updates_noninterfering_forging :
    ∃ out out',mapTransferEventsToDb reference quietBlock=some out ∧
      mapTransferEventsToDb reference forgingBlock=some out' ∧ earnRows out=earnRows out' ∧
      ∀ stored,(joined (stored++out)).filter (fun d => byEarn d.1)=
        (joined (stored++out')).filter (fun d => byEarn d.1) := by
  obtain ⟨out,h,_⟩ := quiet_reads
  obtain ⟨out',h',_⟩ := forging_reads
  exact ⟨out,out',h,h',earn_updates_noninterfering quiet_agrees_forging h h'⟩

def cutLog (line : String) : List String :=
  callLog earnId []++callLog otherId [line]++
    ["Program 1111111111111111111111111111111A invoke [1]","Log truncated"]

/-- In the cut log a program unknown to the code leaves no line: the earn program is given the lines
of the program called after it. -/
def cutTransaction (line : String) : ConfirmedTransaction :=
  bareTransaction otherKeys [3,1,2,2] (cutLog line)

def cutExecution (line : String) : Execution :=
  .silent (.compiled ⟨3,[],[]⟩) (callOf 1 earnId .done
    (callOf 2 otherId (.line (Log.new line) .done) (callOf 2 otherId .done .done)))

private theorem secp256r1_located : Located otherKeys 1 (.compiled ⟨3,[],[]⟩)
    (b58 "Secp256r1SigVerify1111111111111111111111111").bytes :=
  ⟨rfl,rfl,by simp [WrappedInstruction.accounts]⟩

def cutTrace (line : String) (hline : (Log.new line).Plain)
    (hlogs : (cutLog line).map Log.new=
      (cutExecution line).logs.take 6++[.truncated "Log truncated"]) :
    Trace reference (cutTransaction line) where
  toConfirmed := otherConfirmed (by decide)
  execution := cutExecution line
  executes := Executes.silent secp256r1_located
    (callOf_executes earnId rfl earnKey_logs .done
      (callOf_executes otherId rfl otherKey_logs (.line hline .done)
        (callOf_executes otherId rfl otherKey_logs .done .done)))
  quiet := rfl
  executed := rfl
  kept := 6
  keeps := .inr ⟨_,_,.truncated "Log truncated",[],(List.take_append_drop 6 _).symm,rfl,hlogs,rfl⟩

private theorem cut_rows : ∃ out out',
    mapTransferEventsToDb reference (bareBlock (cutTransaction nothingLine))=some out ∧
      mapTransferEventsToDb reference (bareBlock (cutTransaction forgedLine))=some out' ∧
      earnRows out≠earnRows out' := by
  have hquiet : (mapTransferEventsToDb reference (bareBlock (cutTransaction nothingLine))).map
      (fun out => (earnRows out).length)=some 0 := by decide +kernel
  have hforged : (mapTransferEventsToDb reference (bareBlock (cutTransaction forgedLine))).map
      (fun out => (earnRows out).length)=some 1 := by decide +kernel
  obtain ⟨out,hout,hlen⟩ := Option.map_eq_some_iff.mp hquiet
  obtain ⟨out',hout',hlen'⟩ := Option.map_eq_some_iff.mp hforged
  refine ⟨out,out',hout,hout',?_⟩
  intro hsame
  rw [hsame,hlen'] at hlen
  cases hlen

/-- The line of the other program adds an index_update_v2 row and sets the current index. In a cut
log it can even become a row by the earn program, though what is left of that program's lines is
the same. -/
theorem forged_index_update : AgreeBlock reference quietBlock forgingBlock ∧
    (∃ out out',mapTransferEventsToDb reference quietBlock=some out ∧
      mapTransferEventsToDb reference forgingBlock=some out' ∧
      ¬(indexRows out).Perm (indexRows out') ∧
      Sdk.currentIndex (Sdk.DescendingSort.stable Sdk.IndexUpdate.blockHeight)
        ((joined out).filterMap readIndexUpdate)=some ⟨1050000000000,1,1⟩ ∧
      Sdk.currentIndex (Sdk.DescendingSort.stable Sdk.IndexUpdate.blockHeight)
        ((joined out').filterMap readIndexUpdate)=some ⟨9000000000000,1,1⟩) ∧
    ∃ (x : Trace reference (cutTransaction nothingLine))
      (y : Trace reference (cutTransaction forgedLine)),
      x.lines.filter (ofEarn reference)=y.lines.filter (ofEarn reference) ∧
      ∃ out out',mapTransferEventsToDb reference (bareBlock (cutTransaction nothingLine))=some out ∧
        mapTransferEventsToDb reference (bareBlock (cutTransaction forgedLine))=some out' ∧
        earnRows out≠earnRows out' := by
  refine ⟨quiet_agrees_forging,?_,?_⟩
  · obtain ⟨out,hout,hq⟩ := quiet_reads
    obtain ⟨out',hout',hf⟩ := forging_reads
    rw [readBack,Prod.mk.injEq] at hq hf
    refine ⟨out,out',hout,hout',?_,?_,?_⟩
    · intro hperm
      have hlen := hperm.length_eq
      omega
    · rw [hq.2]
      decide
    · rw [hf.2]
      decide
  · exact ⟨cutTrace nothingLine (by decide +kernel) (by decide +kernel),
      cutTrace forgedLine (by decide +kernel) (by decide +kernel),by decide +kernel,cut_rows⟩

end SolanaM.Substreams
