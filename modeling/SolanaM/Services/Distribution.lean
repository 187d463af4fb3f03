import SolanaM.Services.YieldBot
import SolanaM.Sdk.EarnAuthority
import SolanaM.Math.Batches
import SolanaM.Math.Double
import Mathlib.Data.List.ReduceOption

namespace SolanaM.Services

open Sdk Sdk.TransactionBuilder Stateful

/-- Without an index on chain, Number(undefined) compares with nothing. -/
def validateDatabaseData (authority : EarnAuthority) : Except BotError Unit := do
  let dbIndex ← authority.loadIndexFromDB
  match authority.global.index with
  | none => .ok ()
  | some index =>
    if dbIndex<number index then
      .error (.thrown ("Database index is not up to date: "++toString dbIndex++" vs "++
        toString index))
    else .ok ()

/-- The gas tracker's response: its 75th percentile where it has percentiles. -/
structure GasTracker where
  ok : Bool
  percentiles : Option (Option Nat)

def getPriorityFee (response : Option GasTracker) : Option Nat :=
  match response with
  | some ⟨true,some percentile⟩ => percentile
  | _ => some 250000

/-- vaultPda is what getVaultPda derives for index 0. -/
structure SquadsEnvOption where
  squadsPda : Key
  vaultPda : Key

/-- sign is the local keypair or turnkey; lookupTables are the SDK's two addresses. -/
structure ParsedOptions where
  isDevnet : Bool
  dryRun : Bool
  signerPubkey : Key
  squads : Option SquadsEnvOption
  sign : UnsignedTransaction → Option VersionedTransaction
  lookupTables : List Key

namespace ParsedOptions

variable (opt : ParsedOptions)

def buildAndSign (rpc : Rpc) (ixs : List Instruction) (priorityFee : Nat) :
    Builder VersionedTransaction := do
  let tx ← buildTransaction rpc opt.lookupTables ixs opt.signerPubkey priorityFee
  ofExcept (required (opt.sign tx) .sign)

/-- The two instructions that put a message before a multisig, under the number after its last. -/
def proposal (squads : SquadsEnvOption) (recentBlockhash : String) (transactionIndex : Nat)
    (ixs : List Instruction) (memo : Option String) : List Instruction :=
  let newTransactionIndex := number (number transactionIndex+1)
  [.vaultTransactionCreate squads.squadsPda newTransactionIndex opt.signerPubkey squads.vaultPda
      recentBlockhash ixs ("yield bot: "++memo.getD "proposal with no memo"),
    .proposalCreate squads.squadsPda opt.signerPubkey newTransactionIndex]

def proposeSquadsTransaction (squads : SquadsEnvOption) (rpc : Rpc) (ixs : List Instruction)
    (priorityFee : Nat) (memo : Option String) : Builder VersionedTransaction := do
  let recentBlockhash ← ofExcept (requested rpc.getLatestBlockhash)
  let transactionIndex ← ofExcept (requested (rpc.transactionIndex squads.squadsPda))
  opt.buildAndSign rpc (opt.proposal squads recentBlockhash transactionIndex ixs memo) priorityFee

def buildBatch (rpc : Rpc) (batchIxs : List Instruction) (priorityFee : Nat)
    (memo : Option String) : Builder VersionedTransaction :=
  match opt.squads with
  | some squads =>
    opt.proposeSquadsTransaction squads rpc (.setComputeUnitPrice priorityFee::batchIxs) priorityFee
      memo
  | none => opt.buildAndSign rpc batchIxs priorityFee

/-- All transactions, built before any is sent; rpc i answers while batch i is built. -/
def buildTransactions (rpc : Nat → Rpc) (ixs : List Instruction) (priorityFee : Option Nat)
    (batchSize : Nat) (memo : Option String) : Builder (List VersionedTransaction) :=
  (batches batchSize ixs.length ixs).zipIdx.mapM fun (batchIxs,i) =>
    opt.buildBatch (rpc i) batchIxs (priorityFee.getD 250000) memo

end ParsedOptions

/-- amountUsd in whole dollars, a half up: below 2^53 the quotient by 1e6 and the double nearest
to it lie on the same side of every half. -/
def dollars (distributed : Nat) : Nat := (distributed+500000)/1000000

structure Distributed where
  distributed : Nat
  earners : Nat
  deriving DecidableEq

structure DistributeResult where
  signature : Option Signature
  distribution : Option Distributed

/-- One extension's turn as the bot meets it: the loaded class, and the answers during validation,
while each batch is built and while the transactions are sent. -/
structure Turn where
  name : String
  programId : String
  auth : Option EarnAuthority
  validation : Rpc
  gasTracker : Option GasTracker
  building : Nat → Rpc
  connection : Connection

/-- What distributeYield does before it sends. -/
def collectInstructions (lookupTables : List Key) (validation : Rpc) (auth : EarnAuthority) :
    Except BotError (List Instruction×Option Distributed) := do
  let sync ← auth.buildIndexSyncInstruction
  if auth.global.variant="Crank" then
    validateDatabaseData auth
    let earners ← auth.getAllEarners
    let claims ← earners.mapM fun earner => auth.buildClaimInstruction earner true
    let ixs := sync::claims.reduceOption
    let claimIxs := ixs.length-1
    if claimIxs>0 then
      let distributed ← auth.simulateAndValidateClaimIxs validation lookupTables ixs
      if distributed<2^53 then .ok (ixs,some ⟨distributed,claimIxs⟩)
      else .error (.validation .bigNumber)
    else .ok (ixs,none)
  else .ok ([sync],none)

/-- outcome is none where no transaction came to be sent. -/
structure Attempt where
  outcome : Option Outcome
  result : Except BotError DistributeResult

def distributeYield (opt : ParsedOptions) (turn : Turn) (luts : List LookupTable) :
    Attempt×List LookupTable :=
  let collected := do
    let auth ← requested turn.auth
    collectInstructions opt.lookupTables turn.validation auth
  match collected with
  | .error e => (⟨none,.error e⟩,luts)
  | .ok (ixs,distribution) =>
    let fee := getPriorityFee turn.gasTracker
    match (opt.buildTransactions turn.building ixs fee 10 none).run.run luts with
    | (.error e,luts) => (⟨none,.error e⟩,luts)
    | (.ok txns,luts) =>
      let outcome := buildAndSendTransaction turn.connection opt.dryRun txns
      let result := do
        let signature ← requested outcome.result
        .ok ⟨signature.head?,distribution⟩
      (⟨some outcome,result⟩,luts)

/-- A bare link; a missing signature prints as undefined. -/
def explorerTxUrl (signature : Option Signature) (isDevnet : Bool) : String :=
  let base := "https://explorer.solana.com/tx/"++signature.getD "undefined"
  if isDevnet then base++"?cluster=devnet" else base

def buildSuccessText (opt : ParsedOptions) (result : DistributeResult) : String :=
  let distribution := result.distribution.map fun d =>
    "Distributed $"++toString (dollars d.distributed)++" to "++toString d.earners++" earners"
  let sent := if opt.dryRun then "Dry run — transaction built & simulated, not sent."
    else explorerTxUrl result.signature opt.isDevnet
  "\n".intercalate (distribution.toList++[sent])

/-- text is what the template prints of an error. -/
structure YieldToExtensionLog where
  name : String
  programId : String
  success : Bool
  text : String

def yieldLog (errorText : BotError → String) (opt : ParsedOptions) (turn : Turn)
    (result : Except BotError DistributeResult) : YieldToExtensionLog :=
  match result with
  | .ok result => ⟨turn.name,turn.programId,true,buildSuccessText opt result⟩
  | .error e => ⟨turn.name,turn.programId,false,errorText e⟩

/-- The loop of the distribute command over the extensions: the one builder keeps its tables, an
extension that fails leaves a failed log. -/
def distribute (errorText : BotError → String) (opt : ParsedOptions) :
    List LookupTable → List Turn → List (YieldToExtensionLog×Option Outcome)
  | _,[] => []
  | luts,turn::turns =>
    let (attempt,luts) := distributeYield opt turn luts
    (yieldLog errorText opt turn attempt.result,attempt.outcome)::
      distribute errorText opt luts turns

/-- The database's newest index is at least the one on chain, as far as a double tells them
apart, and where there are claims to it altogether. -/
def UpToDate (auth : EarnAuthority) (claims : List Instruction) : Prop :=
  ∃ row,auth.db.currentIndex=some row ∧ ∀ index,auth.global.index=some index →
    number index≤row.index ∧ (claims≠[] → index≤row.index)

/-- The instructions of an extension: the sync alone, or with the claims of its earners in their
order, once these were simulated and found covered. -/
structure Prepared (validation : Rpc) (auth : EarnAuthority) (sync : Instruction)
    (claims : List Instruction) (distribution : Option Distributed) : Prop where
  synced : auth.buildIndexSyncInstruction=.ok sync
  crank : auth.global.variant="Crank" → UpToDate auth claims ∧ ∃ earners answers,
    auth.earners=some earners ∧ claims=answers.reduceOption ∧
    List.Forall₂ (fun earner claim => auth.buildClaimInstruction earner true=.ok claim) earners
      answers
  other : auth.global.variant≠"Crank" → claims=[]
  validated : claims≠[] → ∃ totalRewards<2^53,auth.Validated validation (sync::claims) totalRewards ∧
    distribution=some ⟨totalRewards,claims.length⟩
  unclaimed : claims=[] → distribution=none

/-- A signed transaction of the bot's own key that carries the batch, or the multisig's proposal
of it, behind the compute budget. -/
def Carries (opt : ParsedOptions) (priorityFee : Nat) (batch : List Instruction)
    (txn : VersionedTransaction) : Prop :=
  ∃ transaction units body,opt.sign transaction=some txn ∧
    transaction.message.payerKey=opt.signerPubkey ∧
    transaction.message.instructions=
      .setComputeUnitPrice priorityFee::.setComputeUnitLimit units::body ∧
    match opt.squads with
    | none => body=batch
    | some squads => ∃ recentBlockhash transactionIndex,body=opt.proposal squads recentBlockhash
        transactionIndex (.setComputeUnitPrice priorityFee::batch) none

/-- Batches of at most ten in the order of the instructions, a transaction for each. -/
def Shipped (opt : ParsedOptions) (priorityFee : Nat) (ixs : List Instruction)
    (txns : List VersionedTransaction) : Prop :=
  ∃ parts,parts.flatten=ixs ∧ (∀ part∈parts,part≠[] ∧ part.length≤10) ∧
    parts.length=(ixs.length+9)/10 ∧ List.Forall₂ (Carries opt priorityFee) parts txns

/-- What must have happened where an extension's transactions come to be sent. -/
def Cleared (opt : ParsedOptions) (turn : Turn) (outcome : Outcome) : Prop :=
  ∃ auth sync claims distribution txns,turn.auth=some auth ∧
    Prepared turn.validation auth sync claims distribution ∧
    Shipped opt ((getPriorityFee turn.gasTracker).getD 250000) (sync::claims) txns ∧
    outcome=buildAndSendTransaction turn.connection opt.dryRun txns ∧
    outcome.sent.map Prod.fst=if opt.dryRun then [] else txns.map (·.base64)

private theorem validateDatabaseData_ok {auth : EarnAuthority}
    (h : validateDatabaseData auth=.ok ()) :
    ∃ row,auth.db.currentIndex=some row ∧
      ∀ index,auth.global.index=some index → number index≤row.index := by
  simp only [validateDatabaseData,EarnAuthority.loadIndexFromDB,bind_eq_ok,required_eq_ok,
    Option.map_eq_some_iff] at h
  obtain ⟨_,⟨row,hrow,rfl⟩,h⟩ := h
  refine ⟨row,hrow,?_⟩
  intro index hindex
  rw [hindex] at h
  dsimp only at h
  split at h
  · cases h
  · rename_i hge
    exact Nat.le_of_not_lt hge

/-- A claim is built at an index of the database that is exact. -/
theorem buildClaimInstruction_safe {auth : EarnAuthority} {earner : Earner}
    {claim : Option Instruction} {row : IndexUpdate}
    (h : auth.buildClaimInstruction earner true=.ok claim) (hrow : auth.db.currentIndex=some row) :
    row.index<2^53 := by
  rw [EarnAuthority.buildClaimInstruction,mapError_eq_ok] at h
  cases hbuilt : Sdk.buildClaimInstruction auth.feeTokenAccount auth.db
      auth.global.toGlobalAccountData earner true with
  | error e =>
    rw [hbuilt] at h
    cases h
  | ok built =>
    simp only [Sdk.buildClaimInstruction,claimWalk,hrow,defined,bind_eq_ok,if_true] at hbuilt
    obtain ⟨_,⟨_,hok,n,hn,_⟩,_⟩ := hbuilt
    cases hok
    unfold safeInteger at hn
    split at hn
    · assumption
    · cases hn

private theorem upToDate {auth : EarnAuthority} {earners : List Earner}
    {answers : List (Option Instruction)} (hvalid : validateDatabaseData auth=.ok ())
    (hbuilt : List.Forall₂ (fun earner claim => auth.buildClaimInstruction earner true=.ok claim)
      earners answers) : UpToDate auth answers.reduceOption := by
  obtain ⟨row,hrow,hindex⟩ := validateDatabaseData_ok hvalid
  refine ⟨row,hrow,?_⟩
  intro index hi
  have hle := hindex index hi
  refine ⟨hle,?_⟩
  intro hne
  -- A claim was built, so that the row's index is exact and rounding hides nothing.
  have hsafe : row.index<2^53 := by
    cases hbuilt with
    | nil => exact absurd rfl hne
    | cons hfirst _ => exact buildClaimInstruction_safe hfirst hrow
  by_cases hexact : index<2^53
  · rwa [number_eq hexact] at hle
  · have hge := number_ge (Nat.le_of_not_lt hexact)
    omega

theorem collectInstructions_ok {lookupTables : List Key} {validation : Rpc} {auth : EarnAuthority}
    {ixs : List Instruction} {distribution : Option Distributed}
    (h : collectInstructions lookupTables validation auth=.ok (ixs,distribution)) :
    ∃ sync claims,ixs=sync::claims ∧ Prepared validation auth sync claims distribution := by
  simp only [collectInstructions,bind_eq_ok] at h
  obtain ⟨sync,hsync,h⟩ := h
  by_cases hcrank : auth.global.variant="Crank"
  · simp only [hcrank,if_true,bind_eq_ok,EarnAuthority.getAllEarners,requested_eq_ok,
      List.length_cons,Nat.add_sub_cancel] at h
    obtain ⟨_,hvalid,earners,hearners,answers,hanswers,h⟩ := h
    have hbuilt := forall₂_of_mapM hanswers
    have hcurrent := upToDate hvalid hbuilt
    refine ⟨sync,answers.reduceOption,?_⟩
    by_cases hclaims : answers.reduceOption=[]
    · rw [hclaims,if_neg (by simp)] at h
      cases h
      exact ⟨by rw [hclaims],hsync,fun _ => ⟨hcurrent,earners,answers,hearners,rfl,hbuilt⟩,
        fun hne => absurd hcrank hne,fun hne => absurd hclaims hne,fun _ => rfl⟩
    · rw [if_pos (List.length_pos_iff.mpr hclaims),bind_eq_ok] at h
      obtain ⟨totalRewards,htotal,h⟩ := h
      split at h
      · rename_i hsafe
        cases h
        exact ⟨rfl,hsync,fun _ => ⟨hcurrent,earners,answers,hearners,rfl,hbuilt⟩,
          fun hne => absurd hcrank hne,
          fun _ => ⟨totalRewards,hsafe,auth.simulateAndValidateClaimIxs_eq_ok htotal,rfl⟩,
          fun hnil => absurd hnil hclaims⟩
      · cases h
  · rw [if_neg hcrank] at h
    cases h
    exact ⟨sync,[],rfl,hsync,fun hc => absurd hc hcrank,fun _ => rfl,fun hne => absurd rfl hne,
      fun _ => rfl⟩

theorem buildAndSign_returns {opt : ParsedOptions} {rpc : Rpc} {ixs : List Instruction}
    {priorityFee : Nat} {txn : VersionedTransaction} {luts luts' : List LookupTable}
    (h : (opt.buildAndSign rpc ixs priorityFee).Returns luts txn luts') :
    ∃ transaction units,opt.sign transaction=some txn ∧
      transaction.message.payerKey=opt.signerPubkey ∧ transaction.message.instructions=
        .setComputeUnitPrice priorityFee::.setComputeUnitLimit units::ixs := by
  simp only [ParsedOptions.buildAndSign,returns_bind,returns_ofExcept,required_eq_ok] at h
  obtain ⟨transaction,_,hbuilt,hsign,_⟩ := h
  obtain ⟨hpayer,units,hixs⟩ := buildTransaction_returns hbuilt
  exact ⟨transaction,units,hsign,hpayer,hixs⟩

/-- One batch: as it is, or as the proposal of it. -/
theorem buildBatch_returns {opt : ParsedOptions} {rpc : Rpc} {batch : List Instruction}
    {priorityFee : Nat} {txn : VersionedTransaction} {luts luts' : List LookupTable}
    (h : (opt.buildBatch rpc batch priorityFee none).Returns luts txn luts') :
    Carries opt priorityFee batch txn := by
  rw [ParsedOptions.buildBatch] at h
  rw [Carries]
  cases hsquads : opt.squads with
  | none =>
    rw [hsquads] at h
    obtain ⟨transaction,units,hsign,hpayer,hixs⟩ := buildAndSign_returns h
    exact ⟨transaction,units,batch,hsign,hpayer,hixs,rfl⟩
  | some squads =>
    rw [hsquads] at h
    simp only [ParsedOptions.proposeSquadsTransaction,returns_bind] at h
    obtain ⟨recentBlockhash,_,_,transactionIndex,_,_,h⟩ := h
    obtain ⟨transaction,units,hsign,hpayer,hixs⟩ := buildAndSign_returns h
    exact ⟨transaction,units,_,hsign,hpayer,hixs,recentBlockhash,transactionIndex,rfl⟩

private theorem buildTransactions_returns {opt : ParsedOptions} {rpc : Nat → Rpc}
    {ixs : List Instruction} {priorityFee : Option Nat} {txns : List VersionedTransaction}
    {luts luts' : List LookupTable}
    (h : (opt.buildTransactions rpc ixs priorityFee 10 none).Returns luts txns luts') :
    Shipped opt (priorityFee.getD 250000) ixs txns := by
  have hten : 0<10 := by decide
  refine ⟨batches 10 ixs.length ixs,Batches.flatten_batches hten _ _ (le_refl _),
    Batches.bounds hten _ _,Batches.length_batches hten _ _ (le_refl _),?_⟩
  have hcarried : List.Forall₂ (fun entry => Carries opt (priorityFee.getD 250000) entry.1)
      (batches 10 ixs.length ixs).zipIdx txns := by
    apply (returns_mapM h).imp
    intro entry txn hreturns
    obtain ⟨luts,luts',hreturns⟩ := hreturns
    exact buildBatch_returns hreturns
  rw [← List.forall₂_map_left_iff,List.zipIdx_map_fst] at hcarried
  exact hcarried

/-- A dry run hands nothing to the node, another run every transaction. -/
theorem buildAndSend_sent (connection : Connection) (dryRun : Bool)
    (txns : List VersionedTransaction) :
    (buildAndSendTransaction connection dryRun txns).sent.map Prod.fst=
      if dryRun then [] else txns.map (·.base64) := by
  cases dryRun with
  | true =>
    rw [buildAndSend_dryRun]
    rfl
  | false =>
    have hrun (entries : List (VersionedTransaction×Nat)) (progress : Progress) :
        (entries.foldl (sendEntry connection false) progress).sent.map Prod.fst=
          progress.sent.map Prod.fst++entries.map (·.1.base64) := by
      induction entries generalizing progress with
      | nil => simp
      | cons entry entries ih =>
        rw [List.foldl_cons,ih]
        simp [sendEntry]
    rw [buildAndSendTransaction]
    cases connection.getLatestBlockhash <;> simp [hrun,zipIdx_base64]

theorem distributeYield_cleared {opt : ParsedOptions} {turn : Turn} {luts luts' : List LookupTable}
    {attempt : Attempt} (h : distributeYield opt turn luts=(attempt,luts')) :
    (∀ outcome,attempt.outcome=some outcome → Cleared opt turn outcome) ∧
      (attempt.outcome=none → ∃ e,attempt.result=.error e) := by
  simp only [distributeYield] at h
  split at h
  · cases h
    exact ⟨by simp,fun _ => ⟨_,rfl⟩⟩
  · rename_i ixs distribution hcollected
    simp only [bind_eq_ok,requested_eq_ok] at hcollected
    obtain ⟨auth,hauth,hcollected⟩ := hcollected
    obtain ⟨sync,claims,rfl,hprepared⟩ := collectInstructions_ok hcollected
    split at h
    · cases h
      exact ⟨by simp,fun _ => ⟨_,rfl⟩⟩
    · rename_i txns luts'' hbuilt
      cases h
      refine ⟨?_,by simp⟩
      intro outcome ho
      cases ho
      exact ⟨auth,sync,claims,distribution,txns,hauth,hprepared,buildTransactions_returns hbuilt,rfl,
        buildAndSend_sent turn.connection opt.dryRun txns⟩

end SolanaM.Services
