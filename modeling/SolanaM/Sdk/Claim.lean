import SolanaM.Sdk.Db

namespace SolanaM.Sdk

inductive ClaimError
  | typeError
  | bigNumber
  | invalidIndexOrTimestamp
  deriving DecidableEq

/-- The three queries of db.ts, each answered from what is stored when it runs. -/
structure Database where
  currentIndex : Option IndexUpdate
  indexUpdates : Nat → Option Nat → List IndexUpdate
  getBalanceAt : Key → Key → Nat → Nat

structure GlobalAccountData where
  extMint : Key
  index : Option Nat
  timestamp : Option Nat

structure Earner where
  pubkey : Key
  lastClaimIndex : Nat
  lastClaimTimestamp : Nat
  userTokenAccount : Key
  earnManager : Key
  recipientTokenAccount : Option Key

structure ClaimFor where
  claimBalance : Int
  userTokenAccount : Key
  earnManagerTokenAccount : Key
  earnerAccount : Key
  deriving DecidableEq

/-- Where the loop started, where it ended and the balance it came to. -/
structure ClaimWalk where
  first : IndexUpdate
  last : IndexUpdate
  claimBalance : Int

/-- new BN(n) and toNumber() assert a safe integer. -/
def safeInteger (n : Nat) : Except ClaimError Nat :=
  if n<2^53 then .ok n else .error .bigNumber

/-- BN division truncates and asserts a divisor that is not zero. -/
def bnDiv (a b : Int) : Except ClaimError Int := if b=0 then .error .bigNumber else .ok (a.tdiv b)

def defined {α : Type} (o : Option α) : Except ClaimError α :=
  match o with
  | some a => .ok a
  | none => .error .typeError

/-- The loop over the updates after steps[0]. One in the second of the last one counted is
skipped, and that last one stays the reference. -/
def claimLoop (indexBalance : Nat → Nat) (last : IndexUpdate) (claimYield : Int) :
    List IndexUpdate → Except ClaimError (IndexUpdate×Int)
  | [] => .ok (last,claimYield)
  | current::steps =>
      if current.ts=last.ts then claimLoop indexBalance last claimYield steps
      else if current.index<last.index ∨ current.ts<last.ts then .error .invalidIndexOrTimestamp
      else do
        let balance := indexBalance current.ts
        let currentBN ← safeInteger current.index
        let lastBN ← safeInteger last.index
        let grown ← bnDiv ((claimYield+balance)*currentBN) lastBN
        claimLoop indexBalance current (grown-balance) steps

/-- The claim snapshot b* = y * I_l / (I_n - I_l); null where there is nothing to claim. -/
def claimWalk (db : Database) (global : GlobalAccountData) (earner : Earner) (pendingSync : Bool) :
    Except ClaimError (Option ClaimWalk) := do
  let lastestIndex ← defined db.currentIndex
  let latestIndex ← if pendingSync then safeInteger lastestIndex.index else defined global.index
  if earner.lastClaimIndex≥latestIndex then .ok none
  else do
    let fromTime ← safeInteger earner.lastClaimTimestamp
    let toTime ← if pendingSync then .ok (lastestIndex.ts+1) else do
      let timestamp ← defined global.timestamp
      let number ← safeInteger timestamp
      .ok (number+1)
    match (db.indexUpdates fromTime (some toTime)).reverse with
    | [] => .ok none
    | first::steps => do
        let (last,claimYield) ← claimLoop
          (db.getBalanceAt earner.userTokenAccount global.extMint) first 0 steps
        let claimBalance ← bnDiv (claimYield*earner.lastClaimIndex)
          (latestIndex-earner.lastClaimIndex)
        if claimBalance≤0 then .ok none else .ok (some ⟨first,last,claimBalance⟩)

/-- feeTokenAccount loads the manager; the u64 argument of claimFor must fit its eight bytes. -/
def buildClaimInstruction (feeTokenAccount : Key → Option Key) (db : Database)
    (global : GlobalAccountData) (earner : Earner) (pendingSync : Bool) :
    Except ClaimError (Option ClaimFor) := do
  let walk ← claimWalk db global earner pendingSync
  match walk with
  | none => .ok none
  | some walk => do
      let feeAccount ← defined (feeTokenAccount earner.earnManager)
      if walk.claimBalance<2^64 then
        .ok (some ⟨walk.claimBalance,earner.recipientTokenAccount.getD earner.userTokenAccount,
          feeAccount,earner.pubkey⟩)
      else .error .bigNumber

end SolanaM.Sdk
