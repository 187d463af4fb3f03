import SolanaM.Math.Slots
import SolanaM.Substreams.Events
import SolanaM.Substreams.Instruction

namespace SolanaM.Substreams

structure AccountBalance where
  preBalance : Nat
  postBalance : Nat
  deriving DecidableEq

abbrev TokenAccounts := Slots Bytes TokenAccount

structure TransactionContext where
  accounts : List Bytes
  accountBalances : List AccountBalance
  tokenAccounts : TokenAccounts
  signers : List Bytes
  signature : String
  deriving DecidableEq

/-- The token instructions that update_accounts acts on; it ignores the others and the errors. -/
inductive TokenInstruction
  | initializeAccount
  | initializeAccount2 (owner : Pubkey)
  | initializeAccount3 (owner : Pubkey)
  deriving DecidableEq

namespace TokenInstruction

def unpackPubkey (input : Bytes) : Option Pubkey :=
  if 32 ≤ input.length then Pubkey.ofBytes (input.take 32) else none

def unpack : Bytes → Option TokenInstruction
  | [] => none
  | tag::rest =>
    if tag=1 then some initializeAccount
    else if tag=16 then (unpackPubkey rest).map initializeAccount2
    else if tag=18 then (unpackPubkey rest).map initializeAccount3
    else none

end TokenInstruction

/-- The account an Initialize instruction of the token program sets up; wrapped SOL has no
balance of its own. -/
def parseTokenAccountFromInitializeAccountInstruction (instruction : WrappedInstruction)
    (context : TransactionContext) (owner : Option Pubkey) : Option TokenAccount := do
  let account (i : Nat) : Option Bytes :=
    (instruction.accounts[i]?).bind fun n => context.accounts[n.val]?
  let address ← account 0
  let mint ← (← account 1) |> Pubkey.ofBytes
  let owner ← match owner with
    | some pubkey => some pubkey
    | none => (account 2).bind Pubkey.ofBytes
  let balance := if mint≠wrappedSolMint then some 0 else none
  return ⟨address,mint,owner,balance,balance⟩

def insertInitializedAccount (context : TransactionContext) (instruction : WrappedInstruction)
    (owner : Option Pubkey) : Option TransactionContext := do
  let tokenAccount ← parseTokenAccountFromInitializeAccountInstruction instruction context owner
  return {context with
    tokenAccounts := context.tokenAccounts.insert tokenAccount.address tokenAccount}

def updateAccounts (context : TransactionContext) (instruction : WrappedInstruction) :
    Option TransactionContext := do
  let programId ← context.accounts[instruction.programIdIndex]?
  if programId≠tokenProgramId.bytes then return context
  match TokenInstruction.unpack instruction.data with
  | some .initializeAccount => insertInitializedAccount context instruction none
  | some (.initializeAccount2 owner) | some (.initializeAccount3 owner) =>
    insertInitializedAccount context instruction (some owner)
  | none => return context

section
variable (crates : Crates)

def TransactionContext.new (t : ConfirmedTransaction) : Option TransactionContext := do
  let accounts ← crates.resolvedAccounts t
  let transaction ← t.transaction
  let signature ← transaction.signatures[0]?
  let message ← transaction.message
  let header ← message.header
  if accounts.length<header.numRequiredSignatures then none
  return ⟨accounts,[],[],accounts.take header.numRequiredSignatures,crates.bs58Encode signature⟩

/-- The account of an entry of pre_token_balances; here an amount that does not parse panics. -/
def preTokenAccount (accounts : List Bytes) (tokenBalance : TokenBalance) :
    Option TokenAccount := do
  let address ← accounts[tokenBalance.accountIndex]?
  let balance ← (← tokenBalance.uiTokenAmount) |> parseU64
  let mint ← Pubkey.tryFromString crates tokenBalance.mint
  let owner ← Pubkey.tryFromString crates tokenBalance.owner
  return ⟨address,mint,owner,some balance,some balance⟩

def insertPreTokenAccounts (accounts : List Bytes) : List TokenBalance → TokenAccounts →
    Option TokenAccounts
  | [],slots => some slots
  | tokenBalance::rest,slots => do
    let tokenAccount ← preTokenAccount crates accounts tokenBalance
    insertPreTokenAccounts accounts rest (slots.insert tokenAccount.address tokenAccount)

def TransactionContext.build (t : ConfirmedTransaction) : Option TransactionContext := do
  let context ← TransactionContext.new crates t
  let status ← t.status
  let tokenAccounts ← insertPreTokenAccounts crates context.accounts status.preTokenBalances []
  let accountBalances := List.zipWith AccountBalance.mk status.preBalances status.postBalances
  let instructions ← getFlattenedInstructions t
  instructions.foldlM updateAccounts {context with accountBalances,tokenAccounts}

/-- Panics (none), refuses a failed transaction (some none), or gives the context. -/
def getContext (t : ConfirmedTransaction) : Option (Option TransactionContext) := do
  let status ← t.status
  if status.err.isSome then return none
  let context ← TransactionContext.build crates t
  return some context

end

end SolanaM.Substreams
