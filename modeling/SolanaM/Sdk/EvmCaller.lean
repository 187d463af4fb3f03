import SolanaM.Math.Hex
import SolanaM.Sdk.Rewards

namespace SolanaM.Sdk

def ETH_MERKLE_TREE_BUILDER : String := "0xCab755D715f312AD946d6982b8778BFAD7E322d7"

def ETH_MERKLE_TREE_BUILDER_DEVNET : String := "0x050258e4761650ad774b5090a5DA0e204348Eb48"

inductive RegistrarList | earners | managers
  deriving DecidableEq

/-- REGISTRAR_LISTS, the names of the two lists padded to a word. -/
def RegistrarList.name : RegistrarList → String
  | earners => "0x736f6c616e612d6561726e657273000000000000000000000000000000000000"
  | managers => "0x736f6c616e612d6561726e2d6d616e6167657273000000000000000000000000"

/-- The answers of a Merkle tree builder contract, words as hex strings. -/
structure MerkleTreeContract where
  getRoot : String → String
  getList : String → List String

/-- The contracts of the chain the client talks to, by address. -/
structure EvmCaller where
  contracts : String → MerkleTreeContract
  merkleTreeAddress : String

namespace EvmCaller

variable (caller : EvmCaller)

def getMerkleContract : MerkleTreeContract := caller.contracts caller.merkleTreeAddress

def getMerkleRoot (list : RegistrarList) : String := caller.getMerkleContract.getRoot list.name

/-- map of new PublicKey(Buffer.from(a.slice(2), 'hex')): a new object for every entry. -/
def publicKeys : Nat → List String → Except ValidationError (List PublicKey)
  | _,[] => .ok []
  | ref,a::as => do
    let key ← publicKey (Hex.decode (a.toList.drop 2))
    let rest ← publicKeys (ref+1) as
    .ok (⟨ref,key⟩::rest)

def getList (list : RegistrarList) : Except ValidationError (List PublicKey) :=
  publicKeys 1 (caller.getMerkleContract.getList list.name)

def getEarners : Except ValidationError (List PublicKey) := caller.getList .earners

end EvmCaller

/-- A word as viem shows it. -/
def hexWord (key : Key) : String := String.ofList ('0':: 'x'::Hex.encode key.bytes)

theorem hexWord_injective : Function.Injective hexWord := by
  intro a b h
  have hchars := congrArg String.toList h
  rw [hexWord,hexWord,String.toList_ofList,String.toList_ofList,List.cons_inj_right,
    List.cons_inj_right] at hchars
  exact Key.bytes_injective (Hex.encode_injective hchars)

/-- A new object for every key, numbered from ref. -/
def newKeys : Nat → List Key → List PublicKey
  | _,[] => []
  | ref,key::keys => ⟨ref,key⟩::newKeys (ref+1) keys

theorem newKeys_bytes (ref : Nat) (keys : List Key) :
    (newKeys ref keys).map PublicKey.bytes=keys := by
  induction keys generalizing ref with
  | nil => rfl
  | cons key keys ih => rw [newKeys,List.map_cons,ih]

/-- The list is read as the keys whose words the contract answers with. -/
theorem EvmCaller.publicKeys_words (keys : List Key) (ref : Nat) :
    EvmCaller.publicKeys ref (keys.map hexWord)=.ok (newKeys ref keys) := by
  induction keys generalizing ref with
  | nil => rfl
  | cons key keys ih =>
    have hkey : publicKey (Hex.decode ((hexWord key).toList.drop 2))=.ok key := by
      rw [hexWord,String.toList_ofList]
      show publicKey (Hex.decode (Hex.encode key.bytes))=.ok key
      rw [Hex.decode_encode,publicKey_bytes]
    rw [List.map_cons,EvmCaller.publicKeys,hkey]
    show (EvmCaller.publicKeys (ref+1) (keys.map hexWord)>>=_)=_
    rw [ih]
    rfl

end SolanaM.Sdk
