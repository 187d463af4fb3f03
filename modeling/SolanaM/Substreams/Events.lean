import SolanaM.Substreams.Log
import SolanaM.Math.LittleEndian

namespace SolanaM.Substreams

/-- An f64 travels as its 64 bits. -/
inductive Update
  | indexUpdate (index ts tokenSupply maxYield : Nat)
  | claim (tokenAccount recipientTokenAccount : String) (amount managerFee index : Nat)
  | bridgeEvent (amount : Int) (tokenSupply : Nat) (sender recipient : Bytes) (chain : String)
  | indexUpdateV2 (index ts tokenSupply currentMultiplier newMultiplier : Nat)
  deriving DecidableEq

def discriminatorSize : Nat := 8

/-- A little-endian unsigned integer. -/
def fromLeBytes : Bytes → Nat
  | [] => 0
  | b::bs => b.val+256*fromLeBytes bs

theorem fromLeBytes_eq (bytes : Bytes) : fromLeBytes bytes=LittleEndian.read bytes := by
  induction bytes with
  | nil => rfl
  | cons b bs ih => rw [fromLeBytes,LittleEndian.read,ih]

/-- The two's complement reading of 64 bits. -/
def toI64 (n : Nat) : Int := if n<2^63 then n else n-2^64

/-- borsh refuses to read a NaN: exponent all ones and a fraction. -/
def isNan (bits : Nat) : Bool := bits/2^52%2^11==2^11-1 && bits%2^52!=0

/-- try_from_slice of consecutive fields of fixed width: no byte may be missing or left over. -/
def tryFromSlice : List Nat → Bytes → Option (List Bytes)
  | [],[] => some []
  | [],_::_ => none
  | width::widths,buffer =>
    if buffer.length<width then none
    else (tryFromSlice widths (buffer.drop width)).map fun fields => buffer.take width::fields

def wormholeIdToChain : Nat → String
  | 1 => "Solana"
  | 2 => "Ethereum"
  | 10002 => "Sepolia"
  | 23 => "Arbitrum"
  | 10003 => "Arbitrum Sepolia"
  | 21 => "Sui"
  | 24 => "Optimism"
  | 10005 => "Optimism Sepolia"
  | 30 => "Base"
  | 10004 => "Base Sepolia"
  | id => "Unknown("++toString id++")"

def parseIndexUpdate (buffer : Bytes) : Option Update :=
  match tryFromSlice [8,8,8,8] buffer with
  | some [index,ts,supply,maxYield] =>
    some (.indexUpdate (fromLeBytes index) (fromLeBytes ts) (fromLeBytes supply)
      (fromLeBytes maxYield))
  | _ => none

/-- ts is an i64 cast to u64, which leaves its bits. -/
def parseIndexUpdateV2 (buffer : Bytes) : Option Update :=
  match tryFromSlice [8,8,8,8,8] buffer with
  | some [index,ts,supply,currentMultiplier,newMultiplier] =>
    if isNan (fromLeBytes currentMultiplier) || isNan (fromLeBytes newMultiplier) then none
    else some (.indexUpdateV2 (fromLeBytes index) (fromLeBytes ts) (fromLeBytes supply)
      (fromLeBytes currentMultiplier) (fromLeBytes newMultiplier))
  | _ => none

def parseBridgeEvent (buffer : Bytes) : Option Update :=
  match tryFromSlice [8,8,32,32,2] buffer with
  | some [amount,tokenSupply,sender,recipient,wormholeChainId] =>
    some (.bridgeEvent (toI64 (fromLeBytes amount)) (fromLeBytes tokenSupply) sender recipient
      (wormholeIdToChain (fromLeBytes wormholeChainId)))
  | _ => none

section
variable (crates : Crates)

def parseLogForEvents (log : String) : Option Update :=
  match dataLogData crates log with
  | none => none
  | some data =>
    if data.length<discriminatorSize then none
    else
      let discriminator := data.take discriminatorSize
      let buffer := data.drop discriminatorSize
      if crates.discriminator "IndexUpdate"=discriminator then parseIndexUpdate buffer
      else if crates.discriminator "IndexUpdateV2"=discriminator then parseIndexUpdateV2 buffer
      else if crates.discriminator "BridgeEvent"=discriminator then parseBridgeEvent buffer
      else none

/-- The first data line that decodes; later ones of the same instruction are dropped. -/
def parseLogsForEvents : Option (List Log) → Option Update
  | none => none
  | some logs => logs.findSome? fun log =>
    match log with
    | .data log => parseLogForEvents crates log
    | _ => none

end

def parseLogsForInstructionName : Option (List Log) → Option String
  | none => none
  | some logs => logs.findSome? fun l =>
    (captureAfter "Program log: Instruction: ".toList l.toString.toList).map String.ofList

end SolanaM.Substreams
