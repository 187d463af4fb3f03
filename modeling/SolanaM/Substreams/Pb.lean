import SolanaM.Keys

namespace SolanaM.Substreams

abbrev Bytes := List Byte

/-- ui_token_amount keeps only its amount, the one part the indexer reads. -/
structure TokenBalance where
  accountIndex : Nat
  mint : String
  uiTokenAmount : Option String
  owner : String
  deriving DecidableEq

structure CompiledInstruction where
  programIdIndex : Nat
  accounts : Bytes
  data : Bytes
  deriving DecidableEq

structure InnerInstruction where
  programIdIndex : Nat
  accounts : Bytes
  data : Bytes
  stackHeight : Option Nat
  deriving DecidableEq

structure InnerInstructions where
  index : Nat
  instructions : List InnerInstruction
  deriving DecidableEq

structure TransactionStatusMeta where
  err : Option Bytes
  preBalances : List Nat
  postBalances : List Nat
  innerInstructions : List InnerInstructions
  logMessages : List String
  preTokenBalances : List TokenBalance
  postTokenBalances : List TokenBalance
  loadedWritableAddresses : List Bytes
  loadedReadonlyAddresses : List Bytes
  deriving DecidableEq

structure MessageHeader where
  numRequiredSignatures : Nat
  deriving DecidableEq

structure Message where
  header : Option MessageHeader
  accountKeys : List Bytes
  instructions : List CompiledInstruction
  deriving DecidableEq

structure Transaction where
  signatures : List Bytes
  message : Option Message
  deriving DecidableEq

structure ConfirmedTransaction where
  transaction : Option Transaction
  status : Option TransactionStatusMeta
  deriving DecidableEq

/-- block_height and block_time are wrapper messages around one number each. -/
structure Block where
  blockhash : String
  slot : Nat
  blockHeight : Option Nat
  blockTime : Option Int
  transactions : List ConfirmedTransaction
  deriving DecidableEq

/-- old_value is "" in every field the indexer builds. -/
structure Field where
  name : String
  oldValue : String
  newValue : String
  deriving DecidableEq

inductive Operation | unspecified | create | update | delete
  deriving DecidableEq

structure TableChange where
  table : String
  ordinal : Nat
  operation : Operation
  pk : String
  fields : List Field
  deriving DecidableEq

/-- [u8; 32] of the utils crate. -/
structure Pubkey where
  bytes : Bytes
  size : bytes.length=32
  deriving DecidableEq

namespace Pubkey

/-- Pubkey::try_from a slice, and PubkeyRef::to_pubkey. -/
def ofBytes (bytes : Bytes) : Option Pubkey :=
  if h : bytes.length=32 then some ⟨bytes,h⟩ else none

/-- Pubkey::default -/
def zero : Pubkey := ⟨List.replicate 32 0,rfl⟩

end Pubkey

structure TokenAccount where
  address : Bytes
  mint : Pubkey
  owner : Pubkey
  preBalance : Option Nat
  postBalance : Option Nat
  deriving DecidableEq

/-- What the indexer calls outside its own sources: the accounts of a confirmed transaction,
the two text encodings, the text of a float (by its bits), the discriminators the event macro
derives, and the order in which a hash map lists its values. -/
structure Crates where
  resolvedAccounts : ConfirmedTransaction → Option (List Bytes)
  bs58Encode : Bytes → String
  bs58Decode : String → Option Bytes
  base64Encode : Bytes → String
  base64Decode : String → Option Bytes
  f64ToString : Nat → String
  discriminator : String → Bytes
  values : List TokenAccount → List TokenAccount
  values_perm : ∀ accounts,(values accounts).Perm accounts

namespace Pubkey

def tryFromString (crates : Crates) (pubkey : String) : Option Pubkey :=
  (crates.bs58Decode pubkey).bind ofBytes

def toString (crates : Crates) (pubkey : Pubkey) : String := crates.bs58Encode pubkey.bytes

end Pubkey

/-- str::parse::<u64>: an optional plus sign, then decimal digits, no overflow. -/
def parseU64 (s : String) : Option Nat :=
  let digits : List Char := match s.toList with
    | '+'::rest => rest
    | all => all
  let value := digits.foldl (fun n c => 10*n+(c.toNat-48)) 0
  if digits≠[] ∧ digits.all Char.isDigit ∧ value<2^64 then some value else none

def valueOf (base : Nat) (digits : List Nat) : Nat := digits.foldl (fun n d => base*n+d) 0

/-- The Bitcoin alphabet, which leaves out 0, O, I and l. -/
def b58Alphabet : List Char :=
  "123456789ABCDEFGHJKLMNPQRSTUVWXYZabcdefghijkmnopqrstuvwxyz".toList

/-- The 32 bytes of a base58 literal, the b58! and pubkey! macros. -/
def b58 (literal : String) : Pubkey :=
  let value := valueOf 58 (literal.toList.map b58Alphabet.idxOf)
  ⟨(List.range 32).map (fun i => Fin.ofNat 256 (value/256^(31-i))),rfl⟩

def systemPid : Pubkey := b58 "11111111111111111111111111111111"

def computePid : Pubkey := b58 "ComputeBudget111111111111111111111111111111"

def memoPid : Pubkey := b58 "Memo1UhkJRfHyvLMcVucJwxXeuD728EqVDDwQDxFMNo"

def systemPrograms : List Pubkey := [systemPid,computePid,memoPid]

def wrappedSolMint : Pubkey := b58 "So11111111111111111111111111111111111111112"

def tokenProgramId : Pubkey := b58 "TokenkegQfeZyiNwAJbNbGKPFXCWuBvf9Ss623VQ5DA"

def programsWithoutLogging : List Pubkey :=
  [b58 "Ed25519SigVerify111111111111111111111111111",
    b58 "KeccakSecp256k11111111111111111111111111111"]

/-- The id the earn program declares. -/
def earnId : String := "mz2vDzjbQDUDXBH6FPF5s4odCJ4y8YLE5QWaZ8XdZ9Z"

end SolanaM.Substreams
