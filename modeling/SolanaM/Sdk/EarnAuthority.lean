import SolanaM.Sdk.Rewards
import SolanaM.Framework.Stateful

namespace SolanaM.Sdk

structure AccountMeta where
  pubkey : Key
  isSigner : Bool
  isWritable : Bool
  deriving DecidableEq

/-- The instructions the bot sends: those of libraries and of the Anchor client by their
arguments, and the one the SDK writes out. -/
inductive Instruction
  | setComputeUnitPrice (microLamports : Nat)
  | setComputeUnitLimit (units : Nat)
  | sync (programId : Key) (earnAuthority : Option Key)
  | raw (programId : Key) (keys : List AccountMeta) (data : List Byte)
  | claimFor (programId : Key) (claim : ClaimFor)
  | vaultTransactionCreate (multisigPda : Key) (transactionIndex : Nat) (creator payerKey : Key)
      (recentBlockhash : String) (instructions : List Instruction) (memo : String)
  | proposalCreate (multisigPda creator : Key) (transactionIndex : Nat)

structure TransactionMessage where
  payerKey : Key
  recentBlockhash : String
  instructions : List Instruction

structure LookupTable where
  address : Key
  addresses : List Key

/-- A message with its address tables, as compileToV0Message takes them. -/
structure UnsignedTransaction where
  message : TransactionMessage
  tables : List LookupTable

structure SimulationResult where
  err : Option String
  logs : Option (List String)
  unitsConsumed : Option Nat

inductive BotError
  | thrown (message : String)
  | claim (e : ClaimError)
  | validation (e : ValidationError)
  | request
  | compile
  | sign

/-- The RPC node's answers; the outer none is a request that fails. compiles tells whether
compileToV0Message accepts a message, transactionIndex reads a multisig. -/
structure Rpc where
  transactionIndex : Key → Option Nat
  getAddressLookupTable : Key → Option (Option LookupTable)
  getLatestBlockhash : Option String
  simulateTransaction : UnsignedTransaction → Option SimulationResult
  compiles : UnsignedTransaction → Bool

def required {α : Type} (o : Option α) (e : BotError) : Except BotError α :=
  match o with
  | some a => .ok a
  | none => .error e

/-- A request the node does not answer throws. -/
def requested {α : Type} (o : Option α) : Except BotError α := required o .request

@[simp] theorem required_eq_ok {α : Type} {o : Option α} {e : BotError} {a : α} :
    required o e=.ok a ↔ o=some a := by
  cases o with
  | none => exact ⟨nofun,nofun⟩
  | some b => exact ⟨fun h => congrArg some (Except.ok.inj h),fun h => congrArg _ (Option.some.inj h)⟩

@[simp] theorem requested_eq_ok {α : Type} {o : Option α} {a : α} :
    requested o=.ok a ↔ o=some a := required_eq_ok

def compiled (rpc : Rpc) (transaction : UnsignedTransaction) : Except BotError Unit :=
  if rpc.compiles transaction then .ok () else .error .compile

namespace TransactionBuilder

open Stateful

def DEFAULT_COMPUTE_BUDGET : Nat := 500000

/-- A method of the builder, with the tables it has fetched. -/
abbrev Builder (α : Type) := Stateful BotError (List LookupTable) α

/-- The two tables of the SDK, the devnet one first, where their accounts exist; what was found
once is not asked for again. -/
def getAddressLookupTables (rpc : Rpc) (addresses : List Key) : Builder (List LookupTable) := do
  if (← get).length=0 then
    let _ ← addresses.mapM fun address => do
      let table ← ofExcept (requested (rpc.getAddressLookupTable address))
      modify (·++table.toList)
  get

/-- What simulation says, a tenth more, rounded down: 1.1 as a double lies so little above 11/10
that no product of it with a number of units reaches the next integer. -/
def unitsConsumed (simulation : Option SimulationResult) : Nat :=
  match simulation.bind (·.unitsConsumed) with
  | some (units+1) => (units+1)*11/10
  | _ => DEFAULT_COMPUTE_BUDGET

/-- The two instructions of the compute budget are put in front of the caller's array, which every
caller has made for the call. -/
def buildTransaction (rpc : Rpc) (addresses : List Key) (instructions : List Instruction)
    (payer : Key) (priorityFee : Nat) : Builder UnsignedTransaction := do
  let tables ← getAddressLookupTables rpc addresses
  let recentBlockhash ← ofExcept (requested rpc.getLatestBlockhash)
  let transaction : UnsignedTransaction := ⟨⟨payer,recentBlockhash,instructions⟩,tables⟩
  ofExcept (compiled rpc transaction)
  let units := unitsConsumed (rpc.simulateTransaction transaction)
  let budgeted : UnsignedTransaction := {transaction with message := {transaction.message with
    instructions := .setComputeUnitPrice priorityFee::.setComputeUnitLimit units::instructions}}
  ofExcept (compiled rpc budgeted)
  return budgeted

/-- The caller's instructions stand in the transaction as they are, behind those of the budget. -/
theorem buildTransaction_returns {rpc : Rpc} {addresses : List Key} {luts luts' : List LookupTable}
    {instructions : List Instruction} {payer : Key} {priorityFee : Nat}
    {transaction : UnsignedTransaction}
    (h : (buildTransaction rpc addresses instructions payer priorityFee).Returns luts transaction
      luts') :
    transaction.message.payerKey=payer ∧ ∃ units,transaction.message.instructions=
      .setComputeUnitPrice priorityFee::.setComputeUnitLimit units::instructions := by
  simp only [buildTransaction,returns_bind,returns_pure] at h
  obtain ⟨tables,_,_,recentBlockhash,_,_,_,_,_,_,_,_,rfl,_⟩ := h
  exact ⟨rfl,_,rfl⟩

end TransactionBuilder

/-- The fields of the loaded account that the bot's run reads; earnAuthority is there for the Crank
variant. The other fields are those of the claim computation. -/
structure ExtGlobal extends GlobalAccountData where
  variant : String
  mMint : Key
  earnAuthority : Option Key

/-- The class, with the addresses that the libraries derive for it and the answers it gets: the
earner accounts, the fee account of a manager, the rows and the balances. -/
structure EarnAuthority where
  programId : Key
  global : ExtGlobal
  pda : String → Key
  associatedToken : Key → Key → Key
  tokenProgram : Key
  earners : Option (List Earner)
  feeTokenAccount : Key → Option Key
  db : Database
  collateral : Collateral

namespace EarnAuthority

variable (auth : EarnAuthority)

/-- The account order of the sync of a ScaledUi program; the first eight bytes of the hash of
global:sync are its whole data. -/
def scaledUiSync : Instruction :=
  let vault := auth.pda "m_vault"
  .raw auth.programId
    [⟨auth.pda "global",false,true⟩,⟨auth.global.mMint,false,false⟩,⟨vault,false,false⟩,
      ⟨auth.associatedToken auth.global.mMint vault,false,false⟩,⟨auth.global.extMint,false,true⟩,
      ⟨auth.pda "mint_authority",false,false⟩,⟨auth.tokenProgram,false,false⟩]
    [4,219,40,164,21,157,189,88]

def buildIndexSyncInstruction : Except BotError Instruction :=
  if auth.global.variant="NoYield" then .error (.thrown "No index to sync for NoYield variant")
  else if auth.global.variant="Crank" then .ok (.sync auth.programId auth.global.earnAuthority)
  else if auth.global.variant="ScaledUi" then .ok auth.scaledUiSync
  else .error (.thrown ("Unknown yield variant: "++auth.global.variant))

def getAllEarners : Except BotError (List Earner) := requested auth.earners

/-- The instruction for one earner, or null. -/
def buildClaimInstruction (earner : Earner) (pendingSync : Bool) :
    Except BotError (Option Instruction) :=
  ((Sdk.buildClaimInstruction auth.feeTokenAccount auth.db auth.global.toGlobalAccountData earner
    pendingSync).map (Option.map (.claimFor auth.programId))).mapError .claim

/-- An empty result has no field to read. -/
def loadIndexFromDB : Except BotError Nat :=
  required (auth.db.currentIndex.map (·.index)) (.claim .typeError)

/-- The builder of the class is its own, so that its cache is empty. -/
def simulateAndValidateClaimIxs (rpc : Rpc) (addresses : List Key) (ixs : List Instruction) :
    Except BotError Nat := do
  let feePayer ← required auth.global.earnAuthority (.validation .publicKey)
  let transaction ←
    ((TransactionBuilder.buildTransaction rpc addresses ixs feePayer 250000).run.run []).1
  let result ← requested (rpc.simulateTransaction transaction)
  (Sdk.simulateAndValidateClaimIxs ⟨result.err,result.logs⟩ auth.collateral).mapError .validation

/-- What a validated list of instructions has passed: it was simulated without an error, and the
supply with the rewards that the log pays out is covered. -/
structure Validated (rpc : Rpc) (ixs : List Instruction) (totalRewards : Nat) : Prop where
  simulated : ∃ transaction result units logs rewards,
    transaction.message.instructions=
      .setComputeUnitPrice 250000::.setComputeUnitLimit units::ixs ∧
    rpc.simulateTransaction transaction=some result ∧ result.err=none ∧ result.logs=some logs ∧
    getRewardAmounts logs=.ok rewards ∧
    totalRewards=(rewards.map fun reward => reward.user+reward.fee).sum
  covered : ∃ supply amount index,auth.collateral.mintSupply=some supply ∧
    auth.collateral.vaultAmount=some amount ∧ auth.collateral.index=some index ∧
    supply+totalRewards ≤ amount*index/1000000000000

theorem present_eq_ok {α : Type} {o : Option α} {e : ValidationError} {a : α} :
    present o e=.ok a ↔ o=some a := by
  cases o with
  | none => exact ⟨nofun,nofun⟩
  | some b => exact ⟨fun h => congrArg some (Except.ok.inj h),fun h => congrArg _ (Option.some.inj h)⟩

private theorem checkCollateral_eq_ok {c : Collateral} {total n : Nat}
    (h : checkCollateral c total=.ok n) :
    n=total ∧ ∃ supply amount index,c.mintSupply=some supply ∧ c.vaultAmount=some amount ∧
      c.index=some index ∧ supply+total ≤ amount*index/1000000000000 := by
  simp only [checkCollateral,bind_eq_ok,present_eq_ok] at h
  obtain ⟨supply,hs,amount,ha,index,hi,h⟩ := h
  split at h
  · exact nomatch h
  · split at h
    · exact nomatch h
    · rename_i hle
      exact ⟨(Except.ok.inj h).symm,supply,amount,index,hs,ha,hi,Nat.le_of_not_lt hle⟩

private theorem simulateAndValidate_eq_ok {simulation : Simulation} {c : Collateral} {total : Nat}
    (h : Sdk.simulateAndValidateClaimIxs simulation c=.ok total) :
    simulation.err=none ∧ ∃ logs rewards,simulation.logs=some logs ∧
      getRewardAmounts logs=.ok rewards ∧
      checkCollateral c (rewards.map fun reward => reward.user+reward.fee).sum=.ok total := by
  unfold Sdk.simulateAndValidateClaimIxs at h
  split at h
  · exact nomatch h
  · rename_i herr
    simp only [bind_eq_ok,present_eq_ok,foldl_rewards,Nat.zero_add] at h
    obtain ⟨logs,hlogs,rewards,hrewards,hcheck⟩ := h
    exact ⟨herr,logs,rewards,hlogs,hrewards,hcheck⟩

theorem simulateAndValidateClaimIxs_eq_ok {rpc : Rpc} {addresses : List Key}
    {ixs : List Instruction} {totalRewards : Nat}
    (h : auth.simulateAndValidateClaimIxs rpc addresses ixs=.ok totalRewards) :
    auth.Validated rpc ixs totalRewards := by
  simp only [simulateAndValidateClaimIxs,bind_eq_ok,requested_eq_ok,mapError_eq_ok] at h
  obtain ⟨feePayer,_,transaction,hbuilt,result,hresult,h⟩ := h
  have hreturns : (TransactionBuilder.buildTransaction rpc addresses ixs feePayer 250000).Returns []
      transaction _ := Prod.ext hbuilt rfl
  obtain ⟨_,units,hixs⟩ := TransactionBuilder.buildTransaction_returns hreturns
  obtain ⟨herr,logs,rewards,hlogs,hrewards,hcheck⟩ := simulateAndValidate_eq_ok h
  obtain ⟨htotal,hcovered⟩ := checkCollateral_eq_ok hcheck
  rw [← htotal] at hcovered
  exact ⟨⟨transaction,result,units,logs,rewards,hixs,hresult,herr,hlogs,hrewards,htotal⟩,hcovered⟩

end EarnAuthority

end SolanaM.Sdk
