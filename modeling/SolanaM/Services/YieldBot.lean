import Mathlib.Data.List.Basic

namespace SolanaM.Services

abbrev Signature := String

/-- A built and signed transaction: its first signature, and what serialize() gives in base64. -/
structure VersionedTransaction where
  signature : Signature
  base64 : String

structure Blockhash where
  blockhash : String
  lastValidBlockHeight : Nat

/-- The RPC node as the bot meets it: whether attempt j at transaction i is accepted, the latest
blockhash unless the request fails, and whether a confirmation resolves. -/
structure Connection where
  sendTransaction : Nat → Nat → Bool
  getLatestBlockhash : Option Blockhash
  confirmTransaction : Blockhash → Signature → Bool

/-- What the loop has collected: returnData and the 'sent transaction' log lines. -/
structure Progress where
  returnData : List String
  sent : List (String×Option String)

/-- confirming are the confirmTransaction calls that Promise.all awaits; result is none where
the call rejects. -/
structure Outcome where
  sent : List (String×Option String)
  confirming : List Signature
  result : Option (List String)

/-- Attempt j; a refused one throws and the empty catch swallows it. -/
def sendAttempt (connection : Connection) (i : Nat) (txn : VersionedTransaction)
    (returnData : List String) (j : Nat) : List String :=
  if connection.sendTransaction i j then
    if j=0 then returnData++[txn.signature] else returnData
  else returnData

/-- One entry of the list: a dry run keeps the base64 text, else up to three attempts are made. -/
def sendEntry (connection : Connection) (dryRun : Bool) (progress : Progress)
    (entry : VersionedTransaction×Nat) : Progress :=
  let (txn,i) := entry
  if dryRun then {progress with returnData := progress.returnData++[txn.base64]}
  else
    let returnData := (List.range 3).foldl (sendAttempt connection i txn) progress.returnData
    ⟨returnData,progress.sent++[(txn.base64,returnData.getLast?)]⟩

/-- The bot's send over the transactions that buildTransactions made. -/
def buildAndSendTransaction (connection : Connection) (dryRun : Bool)
    (txns : List VersionedTransaction) : Outcome :=
  let progress := txns.zipIdx.foldl (sendEntry connection dryRun) ⟨[],[]⟩
  if dryRun then ⟨progress.sent,[],some progress.returnData⟩
  else
    match connection.getLatestBlockhash with
    | none => ⟨progress.sent,[],none⟩
    | some latest =>
        let confirmed := progress.returnData.all (connection.confirmTransaction latest)
        ⟨progress.sent,progress.returnData,if confirmed then some progress.returnData else none⟩

/-- Some attempt at the entry's transaction was accepted, so it was sent. -/
def Connection.accepted (connection : Connection) (entry : VersionedTransaction×Nat) : Bool :=
  (List.range 3).any (connection.sendTransaction entry.2)

def Connection.acceptedFirst (connection : Connection) (entry : VersionedTransaction×Nat) : Bool :=
  connection.sendTransaction entry.2 0

/-- The signatures of the transactions that were sent, in order. -/
def acceptedSignatures (connection : Connection) (txns : List VersionedTransaction) :
    List Signature :=
  (txns.zipIdx.filter connection.accepted).map (·.1.signature)

/-- Every transaction that was sent is returned and its confirmation awaited, and no other. -/
structure Reported (connection : Connection) (txns : List VersionedTransaction)
    (outcome : Outcome) : Prop where
  returned : outcome.result=some (acceptedSignatures connection txns)
  awaited : outcome.confirming=acceptedSignatures connection txns

/-- The requests after the loop are answered: the blockhash, and the confirmation of each
transaction that was sent. -/
def Connection.Answers (connection : Connection) (txns : List VersionedTransaction) : Prop :=
  ∃ latest,connection.getLatestBlockhash=some latest ∧
    ∀ s∈acceptedSignatures connection txns,connection.confirmTransaction latest s=true

/-- The signatures of the transactions accepted at the first attempt. -/
def recordedSignatures (connection : Connection) (txns : List VersionedTransaction) :
    List Signature :=
  (txns.zipIdx.filter connection.acceptedFirst).map (·.1.signature)

private theorem attempts_eq (connection : Connection) (i : Nat) (txn : VersionedTransaction)
    (returnData : List String) :
    (List.range 3).foldl (sendAttempt connection i txn) returnData=
      returnData++(if connection.acceptedFirst (txn,i) then [txn.signature] else []) := by
  have hrange : List.range 3=[0,1,2] := rfl
  rw [hrange,Connection.acceptedFirst]
  cases h : connection.sendTransaction i 0 <;> simp [sendAttempt,h]

/-- One entry records its transaction exactly where the first attempt was accepted. -/
theorem sendEntry_returnData (connection : Connection) (progress : Progress)
    (entry : VersionedTransaction×Nat) :
    (sendEntry connection false progress entry).returnData=
      progress.returnData++
        ([entry].filter connection.acceptedFirst).map (·.1.signature) := by
  rw [sendEntry,if_neg Bool.false_ne_true]
  dsimp only
  rw [attempts_eq]
  cases h : connection.acceptedFirst entry <;> simp [h]

private theorem sendEntries_returnData (connection : Connection)
    (entries : List (VersionedTransaction×Nat))
    (progress : Progress) :
    (entries.foldl (sendEntry connection false) progress).returnData=
      progress.returnData++(entries.filter connection.acceptedFirst).map (·.1.signature) := by
  induction entries generalizing progress with
  | nil => simp
  | cons entry entries ih =>
    have hsplit : entry::entries=[entry]++entries := rfl
    rw [List.foldl_cons,ih,sendEntry_returnData,hsplit,List.filter_append,List.map_append,
      List.append_assoc]

private theorem buildAndSend_none (connection : Connection) (txns : List VersionedTransaction)
    (h : connection.getLatestBlockhash=none) :
    (buildAndSendTransaction connection false txns).result=none := by
  simp only [buildAndSendTransaction,Bool.false_eq_true,if_false,h]

theorem buildAndSend_some (connection : Connection) (txns : List VersionedTransaction)
    (latest : Blockhash) (h : connection.getLatestBlockhash=some latest) :
    (buildAndSendTransaction connection false txns).confirming=
        recordedSignatures connection txns ∧
      (buildAndSendTransaction connection false txns).result=
        if (recordedSignatures connection txns).all (connection.confirmTransaction latest) then
          some (recordedSignatures connection txns)
        else none := by
  have hdata := sendEntries_returnData connection txns.zipIdx ⟨[],[]⟩
  simp only [buildAndSendTransaction,Bool.false_eq_true,if_false,h,hdata,List.nil_append]
  exact ⟨rfl,rfl⟩

theorem zipIdx_base64 (txns : List VersionedTransaction) :
    txns.zipIdx.map (·.1.base64)=txns.map (·.base64) := by
  calc txns.zipIdx.map (·.1.base64)
      _ = (txns.zipIdx.map Prod.fst).map (·.base64) := by simp only [List.map_map,Function.comp_def]
      _ = txns.map (·.base64) := by rw [List.zipIdx_map_fst]

/-- A dry run sends nothing and returns every transaction's text. -/
theorem buildAndSend_dryRun (connection : Connection) (txns : List VersionedTransaction) :
    buildAndSendTransaction connection true txns=⟨[],[],some (txns.map (·.base64))⟩ := by
  have hrun (entries : List (VersionedTransaction×Nat)) (progress : Progress) :
      entries.foldl (sendEntry connection true) progress=
        {progress with returnData := progress.returnData++entries.map (·.1.base64)} := by
    induction entries generalizing progress with
    | nil => simp
    | cons entry entries ih =>
      rw [List.foldl_cons,ih]
      simp [sendEntry]
  simp only [buildAndSendTransaction,hrun,zipIdx_base64,if_true,List.nil_append]

theorem acceptedFirst_le (connection : Connection) (entry : VersionedTransaction×Nat)
    (h : connection.acceptedFirst entry=true) : connection.accepted entry=true := by
  rw [Connection.accepted,List.any_eq_true]
  exact ⟨0,by simp,h⟩

/-- No signature is lost exactly where no transaction was first refused and then accepted. -/
theorem recorded_eq_accepted_iff (connection : Connection) (txns : List VersionedTransaction) :
    recordedSignatures connection txns=acceptedSignatures connection txns ↔
      ∀ entry∈txns.zipIdx,connection.accepted entry=true →
        connection.acceptedFirst entry=true := by
  constructor
  · intro h entry hmem haccepted
    have hsub : (txns.zipIdx.filter connection.acceptedFirst).Sublist
        (txns.zipIdx.filter connection.accepted) := by
      apply List.monotone_filter_right
      exact acceptedFirst_le connection
    have hlen := congrArg List.length h
    rw [recordedSignatures,acceptedSignatures,List.length_map,List.length_map] at hlen
    have hin : entry∈txns.zipIdx.filter connection.accepted :=
      List.mem_filter.mpr ⟨hmem,haccepted⟩
    rw [← hsub.eq_of_length hlen] at hin
    exact (List.mem_filter.mp hin).2
  · intro h
    rw [recordedSignatures,acceptedSignatures]
    apply congrArg
    apply List.filter_congr
    intro entry hmem
    rw [Bool.eq_iff_iff]
    exact ⟨acceptedFirst_le connection entry,h entry hmem⟩

private theorem acceptedFirst_of_accepted_iff (connection : Connection)
    (txns : List VersionedTransaction) :
    (∀ entry∈txns.zipIdx,connection.accepted entry=true → connection.acceptedFirst entry=true) ↔
      ∀ i<txns.length,connection.sendTransaction i 0=true ∨
        ∀ j<3,connection.sendTransaction i j=false := by
  constructor
  · intro h i hi
    by_cases hf : connection.sendTransaction i 0=true
    · exact Or.inl hf
    · apply Or.inr
      intro j hj
      by_contra hne
      apply hf
      apply h (txns[i],i) (List.mem_zipIdx_iff_getElem?.mpr (List.getElem?_eq_getElem hi))
      rw [Connection.accepted,List.any_eq_true]
      exact ⟨j,List.mem_range.mpr hj,by simpa using hne⟩
  · intro h entry hmem haccepted
    have hi := (List.getElem?_eq_some_iff.mp (List.mem_zipIdx_iff_getElem?.mp hmem)).1
    rw [Connection.accepted,List.any_eq_true] at haccepted
    obtain ⟨j,hj,htrue⟩ := haccepted
    rcases h entry.2 hi with hf|hn
    · exact hf
    · rw [hn j (List.mem_range.mp hj)] at htrue
      cases htrue

/-- The send reports every transaction that was sent exactly where each one's first attempt was
accepted or all three were refused, and the requests after the loop are answered. -/
theorem reported_iff (connection : Connection) (txns : List VersionedTransaction) :
    Reported connection txns (buildAndSendTransaction connection false txns) ↔
      (∀ i<txns.length,connection.sendTransaction i 0=true ∨
        ∀ j<3,connection.sendTransaction i j=false) ∧ connection.Answers txns := by
  rw [← acceptedFirst_of_accepted_iff,← recorded_eq_accepted_iff]
  constructor
  · intro h
    cases hl : connection.getLatestBlockhash with
    | none =>
      have hr := h.returned
      rw [buildAndSend_none connection txns hl] at hr
      cases hr
    | some latest =>
      obtain ⟨hawaited,hresult⟩ := buildAndSend_some connection txns latest hl
      have heq := hawaited.symm.trans h.awaited
      refine ⟨heq,latest,hl,?_⟩
      rw [h.returned] at hresult
      split at hresult
      · rename_i hall
        rw [heq] at hall
        exact List.all_eq_true.mp hall
      · cases hresult
  · intro h
    obtain ⟨heq,latest,hl,hconfirm⟩ := h
    obtain ⟨hawaited,hresult⟩ := buildAndSend_some connection txns latest hl
    rw [heq,if_pos (List.all_eq_true.mpr hconfirm)] at hresult
    exact ⟨hresult,hawaited.trans heq⟩

/-- A transaction refused once and then accepted twice is neither returned nor confirmed. -/
theorem retried_unreported :
    acceptedSignatures ⟨fun _ j => j≠0,some ⟨"b",1⟩,fun _ _ => true⟩ [⟨"s","t"⟩]=["s"] ∧
      buildAndSendTransaction ⟨fun _ j => j≠0,some ⟨"b",1⟩,fun _ _ => true⟩ false [⟨"s","t"⟩]=
        ⟨[("t",none)],[],some []⟩ ∧
      ¬Reported ⟨fun _ j => j≠0,some ⟨"b",1⟩,fun _ _ => true⟩ [⟨"s","t"⟩]
        (buildAndSendTransaction ⟨fun _ j => j≠0,some ⟨"b",1⟩,fun _ _ => true⟩ false
          [⟨"s","t"⟩]) := by
  refine ⟨rfl,rfl,?_⟩
  intro h
  cases h.awaited

end SolanaM.Services
