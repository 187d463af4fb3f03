import SolanaM.Substreams.Transaction

namespace SolanaM.Substreams

def newField (name value : String) : Field := ⟨name,"",value⟩

section
variable (crates : Crates)

/-- An entry of post_token_balances opens its account with nothing held before. -/
def postTokenAccount (accounts : List Bytes) (tokenBalance : TokenBalance) :
    Option TokenAccount := do
  let amount ← tokenBalance.uiTokenAmount
  let address ← accounts[tokenBalance.accountIndex]?
  let mint ← Pubkey.tryFromString crates tokenBalance.mint
  let owner ← Pubkey.tryFromString crates tokenBalance.owner
  return ⟨address,mint,owner,some 0,some ((parseU64 amount).getD 0)⟩

def insertPostBalances (accounts : List Bytes) : List TokenBalance → TokenAccounts →
    Option TokenAccounts
  | [],slots => some slots
  | tokenBalance::rest,slots => do
    let tokenAccount ← postTokenAccount crates accounts tokenBalance
    insertPostBalances accounts rest (slots.insert tokenAccount.address tokenAccount)

/-- An entry of pre_token_balances only patches an account that is there already. -/
def patchPreBalances (accounts : List Bytes) : List TokenBalance → TokenAccounts →
    Option TokenAccounts
  | [],slots => some slots
  | tokenBalance::rest,slots => do
    let amount ← tokenBalance.uiTokenAmount
    let address ← accounts[tokenBalance.accountIndex]?
    patchPreBalances accounts rest
      (slots.andModify address fun e => {e with preBalance := some ((parseU64 amount).getD 0)})

def tokenAccounts (t : ConfirmedTransaction) : Option (List TokenAccount) := do
  let accounts ← crates.resolvedAccounts t
  let status ← t.status
  let slots ← insertPostBalances crates accounts status.postTokenBalances []
  let slots ← patchPreBalances accounts status.preTokenBalances slots
  return crates.values (slots.map Prod.snd)

def transactionRow (block : Block) (blockTime : String) (i : Nat) (signature : String) :
    TableChange where
  table := "transactions"
  ordinal := i
  operation := .create
  pk := signature
  fields := [newField "blockhash" block.blockhash,newField "slot" (toString block.slot),
    newField "signature" signature,newField "block_time" blockTime]++
    (block.blockHeight.map fun height => newField "block_height" (toString height)).toList

def balanceRow (blockTime : String) (i : Nat) (signature : String) (account : TokenAccount) :
    TableChange where
  table := "balance_updates"
  ordinal := i
  operation := .create
  pk := "pubkey::"++crates.bs58Encode account.address++"-signature::"++signature
  fields := [newField "pubkey" (crates.bs58Encode account.address),
    newField "mint" (account.mint.toString crates),
    newField "owner" (account.owner.toString crates),
    newField "pre_balance" (toString (account.preBalance.getD 0)),
    newField "post_balance" (toString (account.postBalance.getD 0)),
    newField "signature" signature,newField "ts" blockTime]

def balanceRows (blockTime : String) (i : Nat) (signature : String)
    (accounts : List TokenAccount) : List TableChange :=
  (accounts.filter fun a => a.preBalance≠a.postBalance).map
    (balanceRow crates blockTime i signature)

/-- The suffix of the key and the fields of an event. -/
def updateFields : Update → String × List Field
  | .bridgeEvent amount tokenSupply sender recipient chain =>
    ("-bridge",[newField "event" "bridge",newField "amount" (toString amount),
      newField "token_supply" (toString tokenSupply),
      newField "from" (crates.base64Encode sender),newField "to" (crates.base64Encode recipient),
      newField "chain" chain])
  | .indexUpdate index ts tokenSupply maxYield =>
    ("-index_update",[newField "event" "index_update",newField "index" (toString index),
      newField "ts" (toString ts),newField "token_supply" (toString tokenSupply),
      newField "max_yield" (toString maxYield)])
  | .indexUpdateV2 index ts tokenSupply currentMultiplier newMultiplier =>
    ("-index_update_v2",[newField "event" "index_update_v2",newField "index" (toString index),
      newField "ts" (toString ts),newField "token_supply" (toString tokenSupply),
      newField "current_multiplier" (crates.f64ToString currentMultiplier),
      newField "new_multiplier" (crates.f64ToString newMultiplier)])
  | .claim tokenAccount recipientTokenAccount amount managerFee index =>
    ("-claim",[newField "event" "claim",newField "token_account" tokenAccount,
      newField "recipient_token_account" recipientTokenAccount,
      newField "amount" (toString amount),newField "manager_fee" (toString managerFee),
      newField "index" (toString index)])

def pid (ix : StructuredInstruction) : Pubkey := (Pubkey.ofBytes ix.programId).getD Pubkey.zero

/-- The row of instruction ixIdx: none for a system program and for logs without an event. -/
def eventRow (blockTime signature : String) (ixIdx : Nat) (ix : StructuredInstruction) :
    Option TableChange :=
  if pid ix∈systemPrograms then none
  else
    let ixName := (parseLogsForInstructionName ix.logs).getD ""
    match parseLogsForEvents crates ix.logs with
    | none => none
    | some logEvent =>
      let (suffix,fields) := updateFields crates logEvent
      some {
        table := "events"
        ordinal := ixIdx
        operation := .create
        pk := "instruction::"++toString ixIdx++"-signature::"++signature++suffix
        fields := [newField "program_id" ((pid ix).toString crates),
          newField "instruction" ixName,newField "signature" signature,
          newField "ts" blockTime]++fields}

def eventRows (blockTime signature : String) : Nat → List StructuredInstruction →
    List TableChange
  | _,[] => []
  | ixIdx,ix::rest =>
    (eventRow crates blockTime signature ixIdx ix).toList++
      eventRows blockTime signature (ixIdx+1) rest

/-- What the loop body pushes for transaction i; nothing for a failed transaction. -/
def transactionChanges (block : Block) (blockTime : String) (i : Nat)
    (t : ConfirmedTransaction) : Option (List TableChange) := do
  let some context ← getContext crates t | return []
  let balances := balanceRows crates blockTime i context.signature (← tokenAccounts crates t)
  let some instructions ← getStructuredInstructions crates t | return balances
  return balances++eventRows crates blockTime context.signature 0 instructions.flattened++
    [transactionRow block blockTime i context.signature]

def transactionsLoop (block : Block) (blockTime : String) : Nat → List ConfirmedTransaction →
    List TableChange → Option (List TableChange)
  | _,[],dbChanges => some dbChanges
  | i,t::rest,dbChanges => do
    let changes ← transactionChanges crates block blockTime i t
    transactionsLoop block blockTime (i+1) rest (dbChanges++changes)

/-- The table changes of a block, or none when the handler panics. -/
def mapTransferEventsToDb (block : Block) : Option (List TableChange) :=
  transactionsLoop crates block (toString (block.blockTime.getD 0)) 0 block.transactions []

end

end SolanaM.Substreams
