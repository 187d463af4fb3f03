import SolanaM.Substreams.Events

namespace SolanaM.Substreams

/-- The digits of n without leading zeros, at most fuel of them. -/
def digitsOf (base : Nat) : Nat → Nat → List Nat
  | 0,_ => []
  | _+1,0 => []
  | fuel+1,n+1 => digitsOf base fuel ((n+1)/base)++[(n+1)%base]

def toByte (n : Nat) : Byte := Fin.ofNat 256 n

/-- Leading zero bytes become ones; the rest is the number in base 58. -/
def b58Encode (bytes : Bytes) : String :=
  let zeros := (bytes.takeWhile (·=0)).length
  let n := valueOf 256 (bytes.map Fin.val)
  String.ofList (List.replicate zeros '1'++
    (digitsOf 58 (2*bytes.length) n).map fun d => b58Alphabet.getD d '1')

def b58Decode (s : String) : Option Bytes :=
  let cs := s.toList
  let zeros := (cs.takeWhile (·= '1')).length
  let n := valueOf 58 (cs.map b58Alphabet.idxOf)
  if cs.all b58Alphabet.contains then
    some (List.replicate zeros 0++(digitsOf 256 cs.length n).map toByte)
  else none

def b64Alphabet : List Char :=
  "ABCDEFGHIJKLMNOPQRSTUVWXYZabcdefghijklmnopqrstuvwxyz0123456789+/".toList

def b64Char (n : Nat) : Char := b64Alphabet.getD n 'A'

def b64EncodeChars : List Nat → List Char
  | [] => []
  | [a] => [b64Char (a/4),b64Char (a%4*16),'=','=']
  | [a,b] => [b64Char (a/4),b64Char (a%4*16+b/16),b64Char (b%16*4),'=']
  | a::b::c::rest => b64Char (a/4)::b64Char (a%4*16+b/16)::b64Char (b%16*4+c/64)::
      b64Char (c%64)::b64EncodeChars rest

/-- Padded groups of four; bits that a padded group leaves over must be zero. -/
def b64DecodeChars : List Char → Option Bytes
  | [] => some []
  | [a,b,'=','='] =>
    let (a,b) := (b64Alphabet.idxOf a,b64Alphabet.idxOf b)
    if a<64 ∧ b<64 ∧ b%16=0 then some [toByte (a*4+b/16)] else none
  | [a,b,c,'='] =>
    let (a,b,c) := (b64Alphabet.idxOf a,b64Alphabet.idxOf b,b64Alphabet.idxOf c)
    if a<64 ∧ b<64 ∧ c<64 ∧ c%4=0 then
      some [toByte (a*4+b/16),toByte (b%16*16+c/4)] else none
  | a::b::c::d::rest =>
    let (a,b,c,d) :=
      (b64Alphabet.idxOf a,b64Alphabet.idxOf b,b64Alphabet.idxOf c,b64Alphabet.idxOf d)
    if a<64 ∧ b<64 ∧ c<64 ∧ d<64 then
      (b64DecodeChars rest).map fun bytes =>
        toByte (a*4+b/16)::toByte (b%16*16+c/4)::toByte (c%4*64+d)::bytes
    else none
  | _ => none

/-- The eight bytes sha256 gives for event:IndexUpdate and its likes. -/
def eventDiscriminator : String → Bytes
  | "IndexUpdate" => [8,115,122,188,54,206,122,87]
  | "IndexUpdateV2" => [101,65,57,8,193,254,16,193]
  | "BridgeEvent" => [108,69,20,26,36,126,180,89]
  | _ => []

/-- One run of the handler; the text of a float is given for 1.0, the only one used below. -/
def reference : Crates where
  resolvedAccounts t := do
    let transaction ← t.transaction
    let message ← transaction.message
    let status ← t.status
    return message.accountKeys++status.loadedWritableAddresses++status.loadedReadonlyAddresses
  bs58Encode := b58Encode
  bs58Decode := b58Decode
  base64Encode bytes := String.ofList (b64EncodeChars (bytes.map Fin.val))
  base64Decode s := b64DecodeChars s.toList
  f64ToString bits := if bits=1023*2^52 then "1" else ""
  discriminator := eventDiscriminator
  values accounts := accounts
  values_perm accounts := List.Perm.refl accounts

/-- A key whose bytes are zero but for the last. -/
def sampleAddress (n : Nat) : Bytes := List.replicate 31 0++[toByte n]

-- the unit test of the repository, a line from devnet
example : parseLogForEvents reference
    "Program data: CHN6vDbOelfI5i/h6QAAAJ9J5GcAAAAAP3cbAAAAAAAjEgAAAAAAAA==" =
      some (.indexUpdate 1004505392840 1743014303 1799999 4643) := by
  decide +kernel

end SolanaM.Substreams
