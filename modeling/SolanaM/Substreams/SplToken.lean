import SolanaM.Math.Reader
import SolanaM.Substreams.Transaction

namespace SolanaM.Substreams.SplToken

open Reader

inductive AuthorityType
  | mintTokens
  | freezeAccount
  | accountOwner
  | closeAccount
  deriving DecidableEq

/-- Every instruction of the token program, as the crate reads it. -/
inductive TokenInstruction
  | initializeMint (decimals : Byte) (mintAuthority : Pubkey) (freezeAuthority : Option Pubkey)
  | initializeAccount
  | initializeMultisig (m : Byte)
  | transfer (amount : UInt64)
  | approve (amount : UInt64)
  | revoke
  | setAuthority (authorityType : AuthorityType) (newAuthority : Option Pubkey)
  | mintTo (amount : UInt64)
  | burn (amount : UInt64)
  | closeAccount
  | freezeAccount
  | thawAccount
  | transferChecked (amount : UInt64) (decimals : Byte)
  | approveChecked (amount : UInt64) (decimals : Byte)
  | mintToChecked (amount : UInt64) (decimals : Byte)
  | burnChecked (amount : UInt64) (decimals : Byte)
  | initializeAccount2 (owner : Pubkey)
  | syncNative
  | initializeAccount3 (owner : Pubkey)
  | initializeMultisig2 (m : Byte)
  | initializeMint2 (decimals : Byte) (mintAuthority : Pubkey) (freezeAuthority : Option Pubkey)
  | getAccountDataSize
  | initializeImmutableOwner
  | amountToUiAmount (amount : UInt64)
  | uiAmountToAmount (uiAmount : String)
  deriving DecidableEq

def invalid : String := "Invalid instruction"

def AuthorityType.from (index : Byte) : Except String AuthorityType :=
  match index.val with
  | 0 => .ok mintTokens
  | 1 => .ok freezeAccount
  | 2 => .ok accountOwner
  | 3 => .ok closeAccount
  | _ => .error invalid

def byteArray (bytes : Bytes) : ByteArray := ⟨(bytes.map UInt8.ofFin).toArray⟩

def utf8Bytes (text : String) : Bytes := text.toByteArray.data.toList.map UInt8.toFin

def fromUtf8 (bytes : Bytes) : Except String String :=
  match String.fromUTF8? (byteArray bytes) with
  | some text => .ok text
  | none => .error invalid

namespace TokenInstruction

def unpackPubkey : Reader String Byte Pubkey := block invalid 32 Pubkey.ofBytes

def unpackPubkeyOption : Reader String Byte (Option Pubkey) := optional invalid 0 1 unpackPubkey

def unpackU64 : Reader String Byte UInt64 :=
  block invalid 8 fun slice => some (UInt64.ofNat (fromLeBytes slice))

def unpackAmountDecimals : Reader String Byte (UInt64×Byte) := pair unpackU64 (splitFirst invalid)

/-- The fields of the two mint instructions, in the order they are read. -/
def unpackMint : Reader String Byte (Byte×Pubkey×Option Pubkey) :=
  pair (splitFirst invalid) (pair unpackPubkey unpackPubkeyOption)

def unpack : Bytes → Except String TokenInstruction
  | [] => .error invalid
  | tag::rest =>
    match tag.val with
    | 0 => do
      let ((decimals,mintAuthority,freezeAuthority),_) ← unpackMint rest
      .ok (initializeMint decimals mintAuthority freezeAuthority)
    | 1 => .ok initializeAccount
    | 2 => do
      let (m,_) ← splitFirst invalid rest
      .ok (initializeMultisig m)
    | 3 => do
      let (amount,_) ← unpackU64 rest
      .ok (transfer amount)
    | 4 => do
      let (amount,_) ← unpackU64 rest
      .ok (approve amount)
    | 5 => .ok revoke
    | 6 => do
      let (t,rest) ← splitFirst invalid rest
      let authorityType ← AuthorityType.from t
      let (newAuthority,_) ← unpackPubkeyOption rest
      .ok (setAuthority authorityType newAuthority)
    | 7 => do
      let (amount,_) ← unpackU64 rest
      .ok (mintTo amount)
    | 8 => do
      let (amount,_) ← unpackU64 rest
      .ok (burn amount)
    | 9 => .ok closeAccount
    | 10 => .ok freezeAccount
    | 11 => .ok thawAccount
    | 12 => do
      let ((amount,decimals),_) ← unpackAmountDecimals rest
      .ok (transferChecked amount decimals)
    | 13 => do
      let ((amount,decimals),_) ← unpackAmountDecimals rest
      .ok (approveChecked amount decimals)
    | 14 => do
      let ((amount,decimals),_) ← unpackAmountDecimals rest
      .ok (mintToChecked amount decimals)
    | 15 => do
      let ((amount,decimals),_) ← unpackAmountDecimals rest
      .ok (burnChecked amount decimals)
    | 16 => do
      let (owner,_) ← unpackPubkey rest
      .ok (initializeAccount2 owner)
    | 17 => .ok syncNative
    | 18 => do
      let (owner,_) ← unpackPubkey rest
      .ok (initializeAccount3 owner)
    | 19 => do
      let (m,_) ← splitFirst invalid rest
      .ok (initializeMultisig2 m)
    | 20 => do
      let ((decimals,mintAuthority,freezeAuthority),_) ← unpackMint rest
      .ok (initializeMint2 decimals mintAuthority freezeAuthority)
    | 21 => .ok getAccountDataSize
    | 22 => .ok initializeImmutableOwner
    | 23 => do
      let (amount,_) ← unpackU64 rest
      .ok (amountToUiAmount amount)
    | 24 => do
      let uiAmount ← fromUtf8 rest
      .ok (uiAmountToAmount uiAmount)
    | _ => .error invalid

end TokenInstruction

def AuthorityType.index : AuthorityType → Byte
  | mintTokens => 0
  | freezeAccount => 1
  | accountOwner => 2
  | closeAccount => 3

def packU64 (n : UInt64) : Bytes := LittleEndian.write 256 8 n.toNat

def packPubkeyOption : Option Pubkey → Bytes := writeOptional 0 1 Pubkey.bytes

namespace TokenInstruction

def tag : TokenInstruction → Byte
  | initializeMint .. => 0
  | initializeAccount => 1
  | initializeMultisig _ => 2
  | transfer _ => 3
  | approve _ => 4
  | revoke => 5
  | setAuthority .. => 6
  | mintTo _ => 7
  | burn _ => 8
  | closeAccount => 9
  | freezeAccount => 10
  | thawAccount => 11
  | transferChecked .. => 12
  | approveChecked .. => 13
  | mintToChecked .. => 14
  | burnChecked .. => 15
  | initializeAccount2 _ => 16
  | syncNative => 17
  | initializeAccount3 _ => 18
  | initializeMultisig2 _ => 19
  | initializeMint2 .. => 20
  | getAccountDataSize => 21
  | initializeImmutableOwner => 22
  | amountToUiAmount _ => 23
  | uiAmountToAmount _ => 24

def fields : TokenInstruction → Bytes
  | initializeMint decimals mintAuthority freezeAuthority
  | initializeMint2 decimals mintAuthority freezeAuthority =>
    decimals::(mintAuthority.bytes++packPubkeyOption freezeAuthority)
  | initializeMultisig m | initializeMultisig2 m => [m]
  | transfer amount | approve amount | mintTo amount | burn amount | amountToUiAmount amount =>
    packU64 amount
  | setAuthority authorityType newAuthority => authorityType.index::packPubkeyOption newAuthority
  | transferChecked amount decimals | approveChecked amount decimals
  | mintToChecked amount decimals | burnChecked amount decimals => packU64 amount++[decimals]
  | initializeAccount2 owner | initializeAccount3 owner => owner.bytes
  | uiAmountToAmount uiAmount => utf8Bytes uiAmount
  | _ => []

def pack (i : TokenInstruction) : Bytes := i.tag::i.fields

/-- The data starts with the instruction; the text of an amount has no end of its own. -/
def StartsWith (input : Bytes) (i : TokenInstruction) : Prop :=
  match i with
  | uiAmountToAmount _ => input=i.pack
  | _ => i.pack<+:input

end TokenInstruction

theorem pubkey_reads : Reader.Reads TokenInstruction.unpackPubkey Pubkey.bytes := by
  apply block_reads
  intro part key
  constructor
  · intro h
    rw [Pubkey.ofBytes,dif_pos h.1] at h
    rw [← Option.some.inj h.2]
  · intro h
    rw [h]
    exact ⟨key.size,dif_pos key.size⟩

theorem pubkeyOption_reads : Reader.Reads TokenInstruction.unpackPubkeyOption packPubkeyOption :=
  optional_reads (by decide) pubkey_reads

theorem u64_reads : Reader.Reads TokenInstruction.unpackU64 packU64 := by
  apply block_reads
  intro slice n
  constructor
  · intro h
    obtain ⟨hlen,hn⟩ := h
    have hwrite := LittleEndian.write_read slice
    have hlt : LittleEndian.read slice<2^64 := by
      rw [← hwrite,LittleEndian.read_write,hlen]
      exact Nat.mod_lt _ (by decide)
    rw [← Option.some.inj hn,packU64,UInt64.toNat_ofNat',fromLeBytes_eq,Nat.mod_eq_of_lt hlt]
    rw [hlen] at hwrite
    exact hwrite.symm
  · intro h
    have hread : LittleEndian.read (packU64 n)=n.toNat :=
      LittleEndian.read_write_of_lt n.toNat_lt
    rw [h,fromLeBytes_eq,hread,UInt64.ofNat_toNat]
    exact ⟨LittleEndian.length_write 8 _,rfl⟩

theorem amountDecimals_reads : Reader.Reads TokenInstruction.unpackAmountDecimals
    fun p => packU64 p.1++[p.2] := pair_reads u64_reads splitFirst_reads

theorem mint_reads : Reader.Reads TokenInstruction.unpackMint
    fun p => [p.1]++(p.2.1.bytes++packPubkeyOption p.2.2) :=
  pair_reads splitFirst_reads (pair_reads pubkey_reads pubkeyOption_reads)

theorem authorityType_from {t : Byte} {authorityType : AuthorityType} :
    AuthorityType.from t=.ok authorityType ↔ t=authorityType.index := by
  constructor
  · intro h
    unfold AuthorityType.from at h
    split at h
    case h_5 => exact nomatch h
    all_goals
      cases h
      apply Fin.ext
      assumption
  · intro h
    rw [h]
    cases authorityType <;> rfl

private theorem authorityType_from_error {t : Byte} {e : String}
    (h : AuthorityType.from t=.error e) :
    e=invalid := by
  unfold AuthorityType.from at h
  split at h
  case h_5 => exact (Except.error.inj h).symm
  all_goals exact nomatch h

private theorem utf8Bytes_byteArray (bytes : Bytes) :
    (byteArray bytes).data.toList.map UInt8.toFin=bytes := by
  rw [byteArray,List.toList_toArray,List.map_map]
  exact List.map_id bytes

private theorem byteArray_utf8Bytes (text : String) : byteArray
    (utf8Bytes text)=text.toByteArray := by
  rw [byteArray,utf8Bytes,List.map_map]
  apply ByteArray.ext
  exact congrArg List.toArray (List.map_id _)

theorem fromUtf8_eq_ok {bytes : Bytes} {text : String} :
    fromUtf8 bytes=.ok text ↔ bytes=utf8Bytes text := by
  constructor
  · intro h
    unfold fromUtf8 String.fromUTF8? at h
    split at h
    · rename_i hsome
      split at hsome
      · cases h
        rw [← Option.some.inj hsome]
        exact (utf8Bytes_byteArray bytes).symm
      · exact nomatch hsome
    · exact nomatch h
  · intro h
    rw [h,fromUtf8,byteArray_utf8Bytes,String.fromUTF8?,dif_pos text.isValidUTF8]
    rfl

private theorem fromUtf8_error {bytes : Bytes} {e : String} (h : fromUtf8 bytes=.error e) :
    e=invalid := by
  unfold fromUtf8 at h
  split at h
  · exact nomatch h
  · exact (Except.error.inj h).symm

namespace TokenInstruction

theorem startsWith_of {tag : Byte} {rest tail : Bytes} {i : TokenInstruction}
    (htag : tag.val=i.tag.val) (hrest : rest=i.fields++tail)
    (hend : ∀ text,i=uiAmountToAmount text → tail=[]) : StartsWith (tag::rest) i := by
  rw [Fin.ext htag,hrest]
  cases i with
  | uiAmountToAmount text => rw [hend text rfl,List.append_nil]; rfl
  | _ => exact ⟨tail,rfl⟩

/-- One case for each layout of the fields. -/
theorem startsWith_of_unpack {input : Bytes} {i : TokenInstruction} (h : unpack input=.ok i) :
    StartsWith input i := by
  cases input with
  | nil => exact nomatch h
  | cons tag rest =>
    rw [unpack] at h
    split at h
    case h_1 htag | h_21 htag =>
      obtain ⟨⟨decimals,mintAuthority,freezeAuthority⟩,tail,hrest,h⟩ := mint_reads.bind.mp h
      cases h
      exact startsWith_of htag (by rw [hrest]; rfl) nofun
    case h_3 htag | h_20 htag =>
      obtain ⟨m,tail,hrest,h⟩ := splitFirst_reads.bind.mp h
      cases h
      exact startsWith_of htag hrest nofun
    case h_4 htag | h_5 htag | h_8 htag | h_9 htag | h_24 htag =>
      obtain ⟨amount,tail,hrest,h⟩ := u64_reads.bind.mp h
      cases h
      exact startsWith_of htag hrest nofun
    case h_7 htag =>
      obtain ⟨t,tail,hrest,h⟩ := splitFirst_reads.bind.mp h
      obtain ⟨authorityType,ht,h⟩ := bind_eq_ok.mp h
      obtain ⟨newAuthority,tail',htail,h⟩ := pubkeyOption_reads.bind.mp h
      cases h
      rw [htail,authorityType_from.mp ht] at hrest
      exact startsWith_of htag hrest nofun
    case h_13 htag | h_14 htag | h_15 htag | h_16 htag =>
      obtain ⟨⟨amount,decimals⟩,tail,hrest,h⟩ := amountDecimals_reads.bind.mp h
      cases h
      exact startsWith_of htag hrest nofun
    case h_17 htag | h_19 htag =>
      obtain ⟨owner,tail,hrest,h⟩ := pubkey_reads.bind.mp h
      cases h
      exact startsWith_of htag hrest nofun
    case h_25 htag =>
      obtain ⟨uiAmount,htext,h⟩ := bind_eq_ok.mp h
      cases h
      apply startsWith_of htag
      · rw [fromUtf8_eq_ok.mp htext]
        exact (List.append_nil _).symm
      · exact fun _ _ => rfl
    case h_26 => exact nomatch h
    all_goals
      cases h
      apply startsWith_of
      · assumption
      · rfl
      · exact nofun

theorem unpack_pack (i : TokenInstruction) (tail : Bytes)
    (h : ∀ text,i=uiAmountToAmount text → tail=[]) : unpack (i.pack++tail)=.ok i := by
  cases i with
  | initializeMint decimals mintAuthority freezeAuthority
  | initializeMint2 decimals mintAuthority freezeAuthority =>
    exact mint_reads.bind.mpr
      ⟨(decimals,mintAuthority,freezeAuthority),tail,by simp [fields],rfl⟩
  | initializeMultisig m | initializeMultisig2 m => rfl
  | transfer amount | approve amount | mintTo amount | burn amount | amountToUiAmount amount =>
    exact u64_reads.bind.mpr ⟨amount,tail,rfl,rfl⟩
  | setAuthority authorityType newAuthority =>
    refine splitFirst_reads.bind.mpr ⟨authorityType.index,_,rfl,?_⟩
    refine bind_eq_ok.mpr ⟨authorityType,authorityType_from.mpr rfl,?_⟩
    exact pubkeyOption_reads.bind.mpr ⟨newAuthority,tail,rfl,rfl⟩
  | transferChecked amount decimals | approveChecked amount decimals
  | mintToChecked amount decimals | burnChecked amount decimals =>
    exact amountDecimals_reads.bind.mpr ⟨(amount,decimals),tail,rfl,rfl⟩
  | initializeAccount2 owner | initializeAccount3 owner =>
    exact pubkey_reads.bind.mpr ⟨owner,tail,rfl,rfl⟩
  | uiAmountToAmount uiAmount =>
    rw [h uiAmount rfl,List.append_nil]
    exact bind_eq_ok.mpr ⟨uiAmount,fromUtf8_eq_ok.mpr rfl,rfl⟩
  | _ => rfl

private theorem unpack_eq_ok {input : Bytes} {i : TokenInstruction} :
    unpack input=.ok i ↔ StartsWith input i := by
  refine ⟨startsWith_of_unpack,?_⟩
  intro h
  cases i with
  | uiAmountToAmount text =>
    rw [show input=(uiAmountToAmount text).pack++[] from h.trans (List.append_nil _).symm]
    exact unpack_pack _ [] fun _ _ => rfl
  | _ =>
    obtain ⟨tail,rfl⟩ := h
    exact unpack_pack _ tail nofun

private theorem unpack_eq_error {input : Bytes} {e : String} (h : unpack input=.error e) :
    e=invalid := by
  have hpubkey : Reader.Fails unpackPubkey invalid := block_fails
  have hoption : Reader.Fails unpackPubkeyOption invalid := optional_fails hpubkey
  have hu64 : Reader.Fails unpackU64 invalid := block_fails
  have hbyte : Reader.Fails (splitFirst invalid : Reader String Byte Byte) invalid := splitFirst_fails
  cases input with
  | nil => exact (Except.error.inj h).symm
  | cons tag rest =>
    rw [unpack] at h
    split at h
    case h_1 | h_21 => exact (pair_fails hbyte (pair_fails hpubkey hoption)).bind h nofun
    case h_3 | h_20 => exact hbyte.bind h nofun
    case h_4 | h_5 | h_8 | h_9 | h_24 => exact hu64.bind h nofun
    case h_7 =>
      refine hbyte.bind h ?_
      intro p hp
      dsimp only at hp
      cases ht : AuthorityType.from p.1 with
      | error e' =>
        rw [ht] at hp
        cases hp
        exact authorityType_from_error ht
      | ok authorityType =>
        rw [ht] at hp
        exact hoption.bind hp nofun
    case h_13 | h_14 | h_15 | h_16 => exact (pair_fails hu64 hbyte).bind h nofun
    case h_17 | h_19 => exact hpubkey.bind h nofun
    case h_25 =>
      cases htext : fromUtf8 rest with
      | error e' =>
        rw [htext] at h
        cases h
        exact fromUtf8_error htext
      | ok text =>
        rw [htext] at h
        exact nomatch h
    case h_26 => exact (Except.error.inj h).symm
    all_goals exact nomatch h

/-- The instructions that the context of a transaction is built from. -/
def initializing : TokenInstruction → Option Substreams.TokenInstruction
  | initializeAccount => some .initializeAccount
  | initializeAccount2 owner => some (.initializeAccount2 owner)
  | initializeAccount3 owner => some (.initializeAccount3 owner)
  | _ => none

private theorem tag_of_startsWith {tag : Byte} {rest : Bytes} {i : TokenInstruction}
    (h : StartsWith (tag::rest) i) : i.tag=tag := by
  cases i with
  | uiAmountToAmount text => exact (List.cons.inj h).1.symm
  | _ =>
    obtain ⟨tail,h⟩ := h
    exact (List.cons.inj h).1

private theorem initializing_eq_none {i : TokenInstruction} (h1 : i.tag≠1) (h16 : i.tag≠16)
    (h18 : i.tag≠18) : initializing i=none := by
  cases i with
  | initializeAccount => exact absurd rfl h1
  | initializeAccount2 owner => exact absurd rfl h16
  | initializeAccount3 owner => exact absurd rfl h18
  | _ => rfl

theorem unpackPubkey_eq (input : Bytes) : Substreams.TokenInstruction.unpackPubkey input=
    (unpackPubkey input).toOption.map Prod.fst := by
  unfold Substreams.TokenInstruction.unpackPubkey unpackPubkey block
  split
  · cases Pubkey.ofBytes (input.take 32) <;> rfl
  · rfl

/-- The context is built from the same instructions that a replay reads. -/
theorem initializing_unpack (input : Bytes) :
    Substreams.TokenInstruction.unpack input=(unpack input).toOption.bind initializing := by
  cases input with
  | nil => rfl
  | cons tag rest =>
    rw [Substreams.TokenInstruction.unpack]
    split_ifs with h1 h16 h18
    · rw [h1]
      rfl
    · rw [h16,unpackPubkey_eq]
      show _=((unpackPubkey rest >>= fun p => .ok (initializeAccount2 p.1)).toOption).bind _
      cases unpackPubkey rest <;> rfl
    · rw [h18,unpackPubkey_eq]
      show _=((unpackPubkey rest >>= fun p => .ok (initializeAccount3 p.1)).toOption).bind _
      cases unpackPubkey rest <;> rfl
    · cases hi : unpack (tag::rest) with
      | error e => rfl
      | ok i =>
        have htag := tag_of_startsWith (startsWith_of_unpack hi)
        rw [← htag] at h1 h16 h18
        exact (initializing_eq_none h1 h16 h18).symm

/-- The parser accepts data exactly where it starts with an instruction as clients write it and
then gives that instruction, it has one error for all other data, and the context of a
transaction is built from the same instructions. -/
theorem unpack_exact (input : Bytes) :
    (∀ i,unpack input=.ok i ↔ StartsWith input i) ∧
      (∀ e,unpack input=.error e → e="Invalid instruction") ∧
      Substreams.TokenInstruction.unpack input=(unpack input).toOption.bind initializing :=
  ⟨fun _ => unpack_eq_ok,fun _ h => unpack_eq_error h,initializing_unpack input⟩

end TokenInstruction

end SolanaM.Substreams.SplToken
