import SolanaM.Sdk.Claim
import SolanaM.Substreams.Base64
import SolanaM.Math.LittleEndian
import Mathlib.Data.List.TakeWhile

namespace SolanaM.Sdk

open Substreams (b64Alphabet b64Char b64EncodeChars)

/-- new Error carries its message; the others are thrown by the language and the libraries. -/
inductive ValidationError
  | thrown (message : String)
  | typeError
  | rangeError
  | publicKey
  | tokenAccount
  | bigNumber
  deriving DecidableEq

def present {α : Type} (o : Option α) (e : ValidationError) : Except ValidationError α :=
  match o with
  | some a => .ok a
  | none => .error e

/-- String.prototype.split at a literal; part is the piece being read and skip counts the
characters of the literal still to be passed over. -/
def split (literal : List Char) : Nat → List Char → List Char → List (List Char)
  | _,part,[] => [part]
  | skip+1,part,_::cs => split literal skip part cs
  | 0,part,c::cs =>
    if literal.isPrefixOf (c::cs) then part::split literal (literal.length-1) [] cs
    else split literal 0 (part++[c]) cs

/-- The six bits of a character, in the standard alphabet or the one for URLs. -/
def sextet (c : Char) : Option Nat :=
  if b64Alphabet.idxOf c<64 then some (b64Alphabet.idxOf c)
  else if c= '-' then some 62
  else if c= '_' then some 63
  else none

/-- Buffer.from(_, 'base64'): up to the first pad, and without the characters of no alphabet. -/
def bufferFrom (text : List Char) : List Byte :=
  Substreams.octets ((text.takeWhile (·≠ '=')).filterMap sextet)

/-- buffer.subarray, clamped to the buffer. -/
def subarray (data : List Byte) (start stop : Nat) : List Byte := (data.drop start).take (stop-start)

def readBigUInt64LE (data : List Byte) (offset : Nat) : Except ValidationError Nat :=
  if offset+8≤data.length then .ok (LittleEndian.read (subarray data offset (offset+8)))
  else .error .rangeError

/-- new PublicKey takes at most 32 bytes and fills up in front. -/
def publicKey (bytes : List Byte) : Except ValidationError Key :=
  if h : bytes.length≤32 then .ok ⟨List.replicate (32-bytes.length) 0++bytes,by simp; omega⟩
  else .error .publicKey

structure Reward where
  tokenAccount : Key
  user : Nat
  fee : Nat
  deriving DecidableEq

def rewardOf (data : List Byte) : Except ValidationError Reward := do
  let tokenAccount ← publicKey (subarray data 8 40)
  let user ← readBigUInt64LE data 72
  let fee ← readBigUInt64LE data 96
  .ok ⟨tokenAccount,user,fee⟩

def getRewardAmounts : List String → Except ValidationError (List Reward)
  | [] => .ok []
  | log::logs =>
    if "Program data: VKjUbMsK".toList.isPrefixOf log.toList then do
      let text ← present (split "Program data: ".toList 0 [] log.toList)[1]? .typeError
      let reward ← rewardOf (bufferFrom text)
      let rewards ← getRewardAmounts logs
      .ok (reward::rewards)
    else getRewardAmounts logs

/-- What the RPC node answered; an error by its JSON text. -/
structure Simulation where
  err : Option String
  logs : Option (List String)

/-- The mint, the vault and the newest index row, where they could be read. -/
structure Collateral where
  mintSupply : Option Nat
  vaultAmount : Option Nat
  index : Option Nat

/-- Supply and rewards must be covered by the vault's $M at the index. -/
def checkCollateral (c : Collateral) (totalRewards : Nat) : Except ValidationError Nat := do
  let supply ← present c.mintSupply .tokenAccount
  let amount ← present c.vaultAmount .tokenAccount
  let index ← present c.index .typeError
  if 2^53 ≤ index then .error .bigNumber
  else if supply+totalRewards>amount*index/1000000000000 then
    .error (.thrown "Claim amount exceeds max claimable rewards")
  else .ok totalRewards

def simulateAndValidateClaimIxs (simulation : Simulation) (c : Collateral) :
    Except ValidationError Nat :=
  match simulation.err with
  | some err => .error (.thrown ("Claim batch simulation failed: "++err))
  | none => do
    let logs ← present simulation.logs .typeError
    let rewards ← getRewardAmounts logs
    checkCollateral c (rewards.foldl (fun totalRewards reward =>
      totalRewards+reward.user+reward.fee) 0)

/-- An event of the extension program, as its IDL lays it out. -/
structure RewardsClaim where
  tokenAccount : Key
  recipientTokenAccount : Key
  amount : UInt64
  ts : UInt64
  index : UInt64
  fee : UInt64

structure FeesClaimed where
  recipientTokenAccount : Key
  amount : UInt64
  principal : UInt64

structure SyncIndexUpdate where
  mIndex : UInt64
  extIndex : UInt64
  ts : UInt64

def u64 (n : UInt64) : List Byte := LittleEndian.write 256 8 n.toNat

def RewardsClaim.discriminator : List Byte := [84,168,212,108,203,10,250,107]

def RewardsClaim.fields (e : RewardsClaim) : List (List Byte) :=
  [e.tokenAccount.bytes,e.recipientTokenAccount.bytes,u64 e.amount,u64 e.ts,u64 e.index,u64 e.fee]

def FeesClaimed.discriminator : List Byte := [22,104,110,222,38,157,14,62]

def FeesClaimed.fields (e : FeesClaimed) : List (List Byte) :=
  [e.recipientTokenAccount.bytes,u64 e.amount,u64 e.principal]

def SyncIndexUpdate.discriminator : List Byte := [170,178,107,120,158,139,32,113]

def SyncIndexUpdate.fields (e : SyncIndexUpdate) : List (List Byte) :=
  [u64 e.mIndex,u64 e.extIndex,u64 e.ts]

/-- The line the runtime logs for the data of an event. -/
def dataLine (data : List Byte) : String :=
  "Program data: "++String.ofList (b64EncodeChars (data.map Fin.val))

/-- A line of the simulation's log: one of the program's events, or no data line at all. -/
inductive LogLine
  | rewardsClaim (e : RewardsClaim)
  | feesClaimed (e : FeesClaimed)
  | syncIndexUpdate (e : SyncIndexUpdate)
  | other (log : String) (h : ¬"Program data: ".toList.isPrefixOf log.toList)

namespace LogLine

def text : LogLine → String
  | rewardsClaim e => dataLine (RewardsClaim.discriminator++e.fields.flatten)
  | feesClaimed e => dataLine (FeesClaimed.discriminator++e.fields.flatten)
  | syncIndexUpdate e => dataLine (SyncIndexUpdate.discriminator++e.fields.flatten)
  | other log _ => log

def claim? : LogLine → Option RewardsClaim
  | rewardsClaim e => some e
  | _ => none

end LogLine

def RewardsClaim.reward (e : RewardsClaim) : Reward :=
  ⟨e.tokenAccount,e.amount.toNat,e.fee.toNat⟩

private theorem split_rest {literal : List Char} (hspace : ' '∈literal) {rest : List Char} :
    ∀ {part : List Char},' '∉rest → split literal 0 part rest=[part++rest] := by
  induction rest with
  | nil => simp [split]
  | cons c cs ih =>
    intro part hrest
    have hstarts : literal.isPrefixOf (c::cs)=false := by
      rw [← Bool.not_eq_true,List.isPrefixOf_iff_prefix]
      exact fun h => hrest (h.subset hspace)
    rw [split,hstarts]
    simp only [Bool.false_eq_true,if_false]
    rw [ih (fun h => hrest (List.mem_cons_of_mem c h)),List.append_assoc,List.singleton_append]

/-- A literal is passed over character by character. -/
theorem split_skip {literal skipped rest part : List Char} :
    split literal skipped.length part (skipped++rest)=split literal 0 part rest := by
  induction skipped with
  | nil => rfl
  | cons c cs ih => exact ih

/-- The one piece behind a literal at the start, where the rest has no space. -/
theorem split_literal {c : Char} {literal rest : List Char} (hspace : ' '∈c::literal)
    (hrest : ' '∉rest) : (split (c::literal) 0 [] (c::literal++rest))[1]? =some rest := by
  have hstarts : (c::literal).isPrefixOf (c::(literal++rest))=true :=
    List.isPrefixOf_iff_prefix.mpr ⟨rest,rfl⟩
  rw [List.cons_append,split,hstarts]
  simp only [if_true,List.length_cons,Nat.add_sub_cancel]
  rw [split_skip,split_rest hspace hrest]
  rfl

private theorem sextet_b64Char {n : Nat} (h : n<64) : sextet (b64Char n)=some n := by
  rw [sextet,Substreams.idxOf_b64Char h,if_pos h]

/-- The lenient decoder reads what the encoder writes. -/
theorem bufferFrom_encode (data : List Byte) :
    bufferFrom (b64EncodeChars (data.map Fin.val))=data := by
  have hlt := Substreams.bytes_lt data
  have htake : (b64EncodeChars (data.map Fin.val)).takeWhile (·≠ '=')=
      (Substreams.sextets (data.map Fin.val)).map b64Char := by
    rw [Substreams.b64EncodeChars_eq,List.takeWhile_append_of_pos]
    · rw [Substreams.pads,List.takeWhile_replicate]
      simp
    · intro c hc
      obtain ⟨n,_,rfl⟩ := List.mem_map.mp hc
      simpa using Substreams.b64Char_ne_pad n
  have hread : ((Substreams.sextets (data.map Fin.val)).map b64Char).filterMap sextet=
      Substreams.sextets (data.map Fin.val) := by
    rw [List.filterMap_map]
    have hsome : ∀ n∈Substreams.sextets (data.map Fin.val),(sextet∘b64Char) n=some n :=
      fun n hn => sextet_b64Char (Substreams.sextets_lt hlt n hn)
    rw [List.filterMap_congr hsome,List.filterMap_some]
  rw [bufferFrom,htake,hread,Substreams.octets_sextets hlt,List.map_map]
  exact List.map_id'' Substreams.toByte_val data

/-- A field is cut out of the data by what stands before it. -/
theorem subarray_flatten {before after : List (List Byte)} {field : List Byte} {start stop : Nat}
    (hstart : before.flatten.length=start) (hstop : start+field.length=stop) :
    subarray (before++field::after).flatten start stop=field := by
  rw [subarray,List.flatten_append,List.flatten_cons,← hstart,List.drop_left,hstart,← hstop,
    Nat.add_sub_cancel_left,List.take_left]

theorem publicKey_bytes (key : Key) : publicKey key.bytes=.ok key := by
  have hlen := key.size
  rw [publicKey,dif_pos hlen.le]
  congr 1
  apply Key.bytes_injective
  simp [hlen]

@[simp] theorem length_u64 (n : UInt64) : (u64 n).length=8 := LittleEndian.length_write 8 n.toNat

private theorem read_u64 (n : UInt64) : LittleEndian.read (u64 n)=n.toNat :=
  LittleEndian.read_write_of_lt n.toNat_lt

theorem readBigUInt64LE_flatten {before after : List (List Byte)} {n : UInt64} {offset : Nat}
    (h : before.flatten.length=offset) :
    readBigUInt64LE (before++u64 n::after).flatten offset=.ok n.toNat := by
  have hlen : offset+8≤(before++u64 n::after).flatten.length := by
    rw [List.flatten_append,List.flatten_cons,List.length_append,List.length_append,length_u64,h]
    omega
  rw [readBigUInt64LE,if_pos hlen,subarray_flatten h (by rw [length_u64]),read_u64]

/-- The written offsets are those of the layout. -/
theorem rewardOf_claim (e : RewardsClaim) :
    rewardOf (RewardsClaim.discriminator++e.fields.flatten)=.ok e.reward := by
  have hta := e.tokenAccount.size
  have hrta := e.recipientTokenAccount.size
  have hdisc : RewardsClaim.discriminator.length=8 := rfl
  have hkey : subarray (RewardsClaim.discriminator++e.fields.flatten) 8 40=
      e.tokenAccount.bytes :=
    subarray_flatten (show [RewardsClaim.discriminator].flatten.length=8 from rfl) (by rw [hta])
  have huser : readBigUInt64LE (RewardsClaim.discriminator++e.fields.flatten) 72=
      .ok e.amount.toNat :=
    readBigUInt64LE_flatten (show [RewardsClaim.discriminator,e.tokenAccount.bytes,
      e.recipientTokenAccount.bytes].flatten.length=72 by simp [hdisc,hta,hrta])
  have hfee : readBigUInt64LE (RewardsClaim.discriminator++e.fields.flatten) 96=
      .ok e.fee.toNat :=
    readBigUInt64LE_flatten (show [RewardsClaim.discriminator,e.tokenAccount.bytes,
      e.recipientTokenAccount.bytes,u64 e.amount,u64 e.ts,u64 e.index].flatten.length=96 by
        simp [hdisc,hta,hrta])
  rw [rewardOf,hkey,publicKey_bytes,huser,hfee]
  rfl

theorem toList_dataLine (data : List Byte) : (dataLine data).toList=
    "Program data: ".toList++b64EncodeChars (data.map Fin.val) := by
  rw [dataLine,String.toList_append]
  exact congrArg _ String.toList_ofList

/-- Eight characters stand for the first six bytes of the data. -/
theorem prefix_dataLine {head body : List Byte} (h : head.length=6) :
    "Program data: VKjUbMsK".toList.isPrefixOf (dataLine (head++body)).toList=
      decide ("VKjUbMsK".toList=b64EncodeChars (head.map Fin.val)) := by
  have hlen : (b64EncodeChars (head.map Fin.val)).length=8 := by
    rw [Substreams.length_b64EncodeChars,List.length_map,h]
  have hgroups : b64EncodeChars ((head++body).map Fin.val)=
      b64EncodeChars (head.map Fin.val)++b64EncodeChars (body.map Fin.val) := by
    rw [List.map_append]
    exact Substreams.b64EncodeChars_append (by rw [List.length_map,h]) _
  have hliteral : "Program data: VKjUbMsK".toList=
      "Program data: ".toList++"VKjUbMsK".toList := by decide
  rw [toList_dataLine,hgroups,hliteral,Bool.eq_iff_iff,List.isPrefixOf_iff_prefix,
    List.prefix_append_right_inj,decide_eq_true_iff,List.prefix_iff_eq_take]
  rw [show "VKjUbMsK".toList.length=(b64EncodeChars (head.map Fin.val)).length from hlen.symm,
    List.take_left]

/-- What is read off a line that the literal selects. -/
theorem text_dataLine (data : List Byte) :
    (split "Program data: ".toList 0 [] (dataLine data).toList)[1]? =
      some (b64EncodeChars (data.map Fin.val)) := by
  have hspace : ' '∉b64EncodeChars (data.map Fin.val) := by
    intro h
    rcases Substreams.b64EncodeChars_mem h with h|h
    · exact absurd h (by decide)
    · exact absurd h (by decide)
  rw [toList_dataLine]
  exact split_literal (by decide) hspace

theorem getRewardAmounts_skip {log : String} {logs : List String}
    (h : "Program data: VKjUbMsK".toList.isPrefixOf log.toList=false) :
    getRewardAmounts (log::logs)=getRewardAmounts logs := by
  rw [getRewardAmounts,h]
  rfl

/-- One line: a claim is read as it was written, every other line is passed over. -/
theorem getRewardAmounts_cons (line : LogLine) (logs : List String) :
    getRewardAmounts (line.text::logs)=
      match line.claim? with
      | some e => (getRewardAmounts logs).map (e.reward::·)
      | none => getRewardAmounts logs := by
  cases line with
  | rewardsClaim e =>
    have hselect : "Program data: VKjUbMsK".toList.isPrefixOf
        (dataLine (RewardsClaim.discriminator++e.fields.flatten)).toList=true := by
      apply (prefix_dataLine (show (RewardsClaim.discriminator.take 6).length=6 from rfl)).trans
      decide
    rw [LogLine.text,getRewardAmounts,if_pos hselect,text_dataLine]
    simp only [present,bind,Except.bind,bufferFrom_encode,rewardOf_claim]
    cases getRewardAmounts logs <;> rfl
  | feesClaimed e =>
    apply getRewardAmounts_skip
    apply (prefix_dataLine (show (FeesClaimed.discriminator.take 6).length=6 from rfl)).trans
    decide
  | syncIndexUpdate e =>
    apply getRewardAmounts_skip
    apply (prefix_dataLine (show (SyncIndexUpdate.discriminator.take 6).length=6 from rfl)).trans
    decide
  | other log h =>
    apply getRewardAmounts_skip
    rw [← Bool.not_eq_true]
    intro hp
    apply h
    rw [List.isPrefixOf_iff_prefix] at hp ⊢
    exact (List.prefix_append "Program data: ".toList "VKjUbMsK".toList).trans hp

private theorem getRewardAmounts_text (lines : List LogLine) :
    getRewardAmounts (lines.map LogLine.text)=
      .ok ((lines.filterMap LogLine.claim?).map RewardsClaim.reward) := by
  induction lines with
  | nil => rfl
  | cons line lines ih =>
    rw [List.map_cons,getRewardAmounts_cons,ih,List.filterMap_cons]
    cases line.claim? <;> rfl

theorem foldl_rewards (total : Nat) (rewards : List Reward) :
    rewards.foldl (fun totalRewards reward => totalRewards+reward.user+reward.fee) total=
      total+(rewards.map fun r => r.user+r.fee).sum := by
  induction rewards generalizing total with
  | nil => rfl
  | cons r rewards ih =>
    rw [List.foldl_cons,ih,List.map_cons,List.sum_cons]
    omega

/-- The decoder reads exactly the claims, in the order of the log, and the collateral is compared
with the sum of what they pay out. -/
theorem rewardAmounts_exact (lines : List LogLine) (c : Collateral) :
    getRewardAmounts (lines.map LogLine.text)=
        .ok ((lines.filterMap LogLine.claim?).map fun e =>
          ⟨e.tokenAccount,e.amount.toNat,e.fee.toNat⟩) ∧
      simulateAndValidateClaimIxs ⟨none,some (lines.map LogLine.text)⟩ c=
        checkCollateral c
          ((lines.filterMap LogLine.claim?).map fun e => e.amount.toNat+e.fee.toNat).sum := by
  have hrewards := getRewardAmounts_text lines
  refine ⟨hrewards,?_⟩
  rw [simulateAndValidateClaimIxs]
  simp only [present,hrewards,bind,Except.bind]
  rw [foldl_rewards,Nat.zero_add,List.map_map]
  rfl

end SolanaM.Sdk
