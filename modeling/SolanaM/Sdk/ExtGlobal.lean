import SolanaM.Framework.Fallible
import SolanaM.Sdk.Accounts

namespace SolanaM.Sdk.Accounts

open Borsh

/-- The yield variant with the fields that an extension built for it stores beside it. -/
inductive YieldConfig
  | NoYield
  | ScaledUi (feeBps lastMIndex lastExtIndex : UInt64)
  | Crank (earnAuthority : Key) (lastMIndex lastExtIndex timestamp : UInt64)

/-- The extension's global account. Borsh counts a vector by four bytes. -/
structure ExtGlobalV2 where
  admin : Key
  pendingAdmin : Option Key
  extMint : Key
  mMint : Key
  mEarnGlobalAccount : Key
  bump : Byte
  mVaultBump : Byte
  extMintAuthorityBump : Byte
  yieldConfig : YieldConfig
  wrapAuthorities : List Key
  wrapAuthorities_length : wrapAuthorities.length<256^4

def borshU64 (n : UInt64) : List Byte := LittleEndian.write 256 8 n.toNat

def borshOption : Option Key → List Byte
  | none => [0]
  | some k => 1::k.bytes

def borshKeys (ks : List Key) : List Byte :=
  LittleEndian.write 256 4 ks.length++ks.flatMap Key.bytes

namespace YieldConfig

/-- The discriminant of the Rust enumeration. -/
def tag : YieldConfig → Byte
  | NoYield => 0
  | ScaledUi .. => 1
  | Crank .. => 2

def variantName : YieldConfig → String
  | NoYield => "NoYield"
  | ScaledUi .. => "ScaledUi"
  | Crank .. => "Crank"

def borsh (c : YieldConfig) : List Byte :=
  match c with
  | NoYield => [[c.tag]].flatten
  | ScaledUi feeBps lastMIndex lastExtIndex =>
      [[c.tag],borshU64 feeBps,borshU64 lastMIndex,borshU64 lastExtIndex].flatten
  | Crank earnAuthority lastMIndex lastExtIndex timestamp =>
      [[c.tag],earnAuthority.bytes,borshU64 lastMIndex,borshU64 lastExtIndex,
        borshU64 timestamp].flatten

def index : YieldConfig → Option UInt64
  | NoYield => none
  | ScaledUi _ _ lastExtIndex => some lastExtIndex
  | Crank _ _ lastExtIndex _ => some lastExtIndex

def timestamp : YieldConfig → Option UInt64
  | Crank _ _ _ timestamp => some timestamp
  | _ => none

def earnAuthority : YieldConfig → Option Key
  | Crank earnAuthority .. => some earnAuthority
  | _ => none

end YieldConfig

namespace ExtGlobalV2

def borsh (g : ExtGlobalV2) : List Byte :=
  [g.admin.bytes,borshOption g.pendingAdmin,g.extMint.bytes,g.mMint.bytes,
    g.mEarnGlobalAccount.bytes,[g.bump],[g.mVaultBump],[g.extMintAuthorityBump],
    g.yieldConfig.borsh,borshKeys g.wrapAuthorities].flatten

/-- The account's bytes: Anchor's discriminator of ExtGlobalV2 and the encoding. -/
def accountData (g : ExtGlobalV2) : List Byte := [116,209,219,83,70,143,55,127]++g.borsh

end ExtGlobalV2

/-- A key, a number and a list of keys as JavaScript holds them. -/
def ofKey (k : Key) : Value := .bytes k.bytes

def ofOption : Option Key → Value
  | none => .null
  | some k => ofKey k

def ofU64 (n : UInt64) : Value := .uint n.toNat

def ofKeys (ks : List Key) : Value := .array (ks.map ofKey)

/-- What loadGlobal is for: the stored values, and nothing where the variant stores none. -/
def ExtGlobalV2.loaded (g : ExtGlobalV2) : GlobalAccountData where
  admin := some (ofKey g.admin)
  extMint := some (ofKey g.extMint)
  mMint := some (ofKey g.mMint)
  variant := some g.yieldConfig.variantName
  wrapAuthorities := some (ofKeys g.wrapAuthorities)
  index := g.yieldConfig.index.map ofU64
  timestamp := g.yieldConfig.timestamp.map ofU64
  earnAuthority := g.yieldConfig.earnAuthority.map ofKey

section Layouts

def yieldVariantLayout : Layout := .enum ["NoYield","ScaledUi","Crank"]

/-- The layout of each variant's configuration. -/
def YieldConfig.layout : YieldConfig → Layout
  | NoYield => .field "yield_variant" yieldVariantLayout .unit
  | ScaledUi .. => .field "yield_variant" yieldVariantLayout <| .field "fee_bps" (.uint 8) <|
      .field "last_m_index" (.uint 8) <| .field "last_ext_index" (.uint 8) .unit
  | Crank .. => .field "yield_variant" yieldVariantLayout <|
      .field "earn_authority" (.bytes 32) <| .field "last_m_index" (.uint 8) <|
      .field "last_ext_index" (.uint 8) <| .field "timestamp" (.uint 8) .unit

def globalLayout (yieldConfig : Layout) : Layout :=
  .field "admin" (.bytes 32) <| .field "pending_admin" (.option (.bytes 32)) <|
  .field "ext_mint" (.bytes 32) <| .field "m_mint" (.bytes 32) <|
  .field "m_earn_global_account" (.bytes 32) <| .field "bump" (.uint 1) <|
  .field "m_vault_bump" (.uint 1) <| .field "ext_mint_authority_bump" (.uint 1) <|
  .field "yield_config" yieldConfig <| .field "wrap_authorities" (.vec (.bytes 32)) .unit

/-- The schema chosen by a variant's byte is the layout of that variant. -/
theorem accountLayout_extensionIDL (c : YieldConfig) :
    ∃ idl,extensionIDL (some c.tag)=.ok idl ∧
      idl.accountLayout "ExtGlobalV2"=
        some ([116,209,219,83,70,143,55,127],globalLayout c.layout) := by
  cases c with
  | NoYield => exact ⟨_,rfl,rfl⟩
  | ScaledUi feeBps lastMIndex lastExtIndex => exact ⟨_,rfl,rfl⟩
  | Crank earnAuthority lastMIndex lastExtIndex timestamp => exact ⟨_,rfl,rfl⟩

end Layouts

section Encodings

theorem encodes_key (k : Key) : Encodes (.bytes 32) (ofKey k) k.bytes := by
  have h := Encodes.bytes k.bytes
  rwa [k.size] at h

theorem encodes_u64 (n : UInt64) : Encodes (.uint 8) (ofU64 n) (borshU64 n) := by
  apply Encodes.uint
  exact n.toNat_lt

theorem encodes_u8 (b : Byte) : Encodes (.uint 1) (.uint b.val) [b] := by
  have h := @Encodes.uint 1 b.val (by omega)
  have hb : LittleEndian.write 256 1 b.val=[b] := by simp [LittleEndian.write]
  rwa [hb] at h

private theorem encodes_option (k : Option Key) :
    Encodes (.option (.bytes 32)) (ofOption k) (borshOption k) := by
  cases k with
  | none => exact .absent _
  | some k => exact .present (encodes_key k)

private theorem encodes_keys (ks : List Key) (hl : ks.length<256^4) :
    Encodes (.vec (.bytes 32)) (ofKeys ks) (borshKeys ks) := by
  have h := @Encodes.vec (.bytes 32) (ks.map fun k => (ofKey k,k.bytes))
    (by
      intro item hmem
      obtain ⟨k,_,rfl⟩ := List.mem_map.mp hmem
      exact encodes_key k)
    (by simpa using hl)
  simp only [List.length_map,List.map_map,List.flatMap_map,Function.comp_def] at h
  exact h

/-- The configuration's value as the decoder hands it out. -/
def YieldConfig.value (c : YieldConfig) : Value :=
  let yieldVariant := ("yield_variant",.object [(c.variantName,.object [])])
  match c with
  | NoYield => .object [yieldVariant]
  | ScaledUi feeBps lastMIndex lastExtIndex =>
      .object [yieldVariant,("fee_bps",ofU64 feeBps),("last_m_index",ofU64 lastMIndex),
        ("last_ext_index",ofU64 lastExtIndex)]
  | Crank earnAuthority lastMIndex lastExtIndex timestamp =>
      .object [yieldVariant,("earn_authority",ofKey earnAuthority),
        ("last_m_index",ofU64 lastMIndex),("last_ext_index",ofU64 lastExtIndex),
        ("timestamp",ofU64 timestamp)]

theorem YieldConfig.encodes_tag (c : YieldConfig) :
    Encodes yieldVariantLayout (.object [(c.variantName,.object [])]) [c.tag] := by
  apply Encodes.enum
  cases c <;> rfl

theorem YieldConfig.encodes (c : YieldConfig) : Encodes c.layout c.value c.borsh := by
  cases c with
  | NoYield => exact .field _ (encodes_tag NoYield) .unit
  | ScaledUi feeBps lastMIndex lastExtIndex =>
    exact .field _ (encodes_tag (ScaledUi feeBps lastMIndex lastExtIndex)) <|
      .field _ (encodes_u64 feeBps) <| .field _ (encodes_u64 lastMIndex) <|
      .field _ (encodes_u64 lastExtIndex) .unit
  | Crank earnAuthority lastMIndex lastExtIndex timestamp =>
    exact .field _ (encodes_tag (Crank earnAuthority lastMIndex lastExtIndex timestamp)) <|
      .field _ (encodes_key earnAuthority) <| .field _ (encodes_u64 lastMIndex) <|
      .field _ (encodes_u64 lastExtIndex) <| .field _ (encodes_u64 timestamp) .unit

/-- The account's value as the decoder hands it out. -/
def ExtGlobalV2.value (g : ExtGlobalV2) : Value :=
  .object [("admin",ofKey g.admin),("pending_admin",ofOption g.pendingAdmin),
    ("ext_mint",ofKey g.extMint),("m_mint",ofKey g.mMint),
    ("m_earn_global_account",ofKey g.mEarnGlobalAccount),("bump",.uint g.bump.val),
    ("m_vault_bump",.uint g.mVaultBump.val),
    ("ext_mint_authority_bump",.uint g.extMintAuthorityBump.val),
    ("yield_config",g.yieldConfig.value),("wrap_authorities",ofKeys g.wrapAuthorities)]

theorem ExtGlobalV2.encodes (g : ExtGlobalV2) :
    Encodes (globalLayout g.yieldConfig.layout) g.value g.borsh := by
  exact .field _ (encodes_key g.admin) <| .field _ (encodes_option g.pendingAdmin) <|
    .field _ (encodes_key g.extMint) <| .field _ (encodes_key g.mMint) <|
    .field _ (encodes_key g.mEarnGlobalAccount) <| .field _ (encodes_u8 g.bump) <|
    .field _ (encodes_u8 g.mVaultBump) <| .field _ (encodes_u8 g.extMintAuthorityBump) <|
    .field _ g.yieldConfig.encodes <|
    .field _ (encodes_keys g.wrapAuthorities g.wrapAuthorities_length) .unit

end Encodings

section Peek

theorem getElem?_of_length {α : Type} {xs : List α} {n : Nat} (hl : xs.length=n) (y : α)
    (ys : List α) : (xs++y::ys)[n]? = some y := by
  rw [← hl,List.getElem?_append_right (le_refl _),Nat.sub_self]
  rfl

private theorem YieldConfig.borsh_eq (c : YieldConfig) : ∃ rest,c.borsh=c.tag::rest := by
  cases c with
  | NoYield => exact ⟨_,rfl⟩
  | ScaledUi feeBps lastMIndex lastExtIndex => exact ⟨_,rfl⟩
  | Crank earnAuthority lastMIndex lastExtIndex timestamp => exact ⟨_,rfl⟩

/-- Where the option's tag stands, and the variant's byte behind the fields of fixed width. -/
theorem ExtGlobalV2.accountData_eq (g : ExtGlobalV2) :
    (∃ rest,g.accountData=[116,209,219,83,70,143,55,127]++g.admin.bytes++
      (borshOption g.pendingAdmin++rest)) ∧
    ∃ rest,g.accountData=([116,209,219,83,70,143,55,127]++g.admin.bytes++
      borshOption g.pendingAdmin++g.extMint.bytes++g.mMint.bytes++g.mEarnGlobalAccount.bytes++
      [g.bump,g.mVaultBump,g.extMintAuthorityBump])++g.yieldConfig.tag::rest := by
  obtain ⟨rest,hrest⟩ := g.yieldConfig.borsh_eq
  constructor
  · refine ⟨[g.extMint.bytes,g.mMint.bytes,g.mEarnGlobalAccount.bytes,[g.bump],[g.mVaultBump],
      [g.extMintAuthorityBump],g.yieldConfig.borsh,borshKeys g.wrapAuthorities].flatten,?_⟩
    rw [List.append_assoc]
    rfl
  · refine ⟨rest++borshKeys g.wrapAuthorities,?_⟩
    simp [accountData,borsh,hrest]

/-- The byte peeked at is the variant's, behind a pending admin or none. -/
theorem yieldType_accountData (g : ExtGlobalV2) :
    yieldType g.accountData=some g.yieldConfig.tag := by
  obtain ⟨⟨after,hoption⟩,rest,hvariant⟩ := g.accountData_eq
  have hfront : ([116,209,219,83,70,143,55,127]++g.admin.bytes).length=40 := by
    simp [g.admin.size]
  rw [yieldType]
  cases hp : g.pendingAdmin with
  | none =>
    rw [hp,borshOption] at hoption hvariant
    have htag : g.accountData[40]? = some 0 := by
      rw [hoption]
      exact getElem?_of_length hfront 0 after
    rw [htag,if_neg (by decide),hvariant]
    apply getElem?_of_length
    simp [Key.size]
  | some k =>
    rw [hp,borshOption] at hoption hvariant
    have htag : g.accountData[40]? = some 1 := by
      rw [hoption]
      exact getElem?_of_length hfront 1 (k.bytes++after)
    rw [htag,if_pos rfl,hvariant]
    apply getElem?_of_length
    simp [Key.size]

end Peek

private theorem globalAccountData_value (g : ExtGlobalV2) :
    globalAccountData g.value=.ok g.loaded := by
  obtain ⟨admin,pendingAdmin,extMint,mMint,mEarnGlobalAccount,bump,mVaultBump,
    extMintAuthorityBump,yieldConfig,wrapAuthorities,_⟩ := g
  cases yieldConfig with
  | NoYield => rfl
  | ScaledUi feeBps lastMIndex lastExtIndex => rfl
  | Crank earnAuthority lastMIndex lastExtIndex timestamp => rfl

/-- loadGlobal peeks at the stored variant and returns what the account stores, for every account
of the extension, whatever else the node and the coder do. -/
theorem loadGlobal_accountData (findProgramAddress : List (List Byte) → Key → Key)
    (coder : BorshAccountsCoder) (hcoder : coder.DecodesSchemas) (connection : Connection)
    (program : Key) (g : ExtGlobalV2)
    (hdata : connection.getAccountInfo (findProgramAddress [globalSeed] program)=
      some g.accountData) :
    yieldType g.accountData=some g.yieldConfig.tag ∧
      loadGlobal findProgramAddress coder connection program=.ok g.loaded := by
  have hpeek := yieldType_accountData g
  obtain ⟨idl,hidl,hlayout⟩ := accountLayout_extensionIDL g.yieldConfig
  have hdecode : coder.decode idl "ExtGlobalV2" g.accountData=some g.value :=
    hcoder idl "ExtGlobalV2" _ _ _ _ hlayout g.encodes
  have hglobal : orThrow .coder (coder.decode idl "ExtGlobalV2" g.accountData)=.ok g.value :=
    congrArg (orThrow .coder) hdecode
  refine ⟨hpeek,?_⟩
  rw [loadGlobal,bind_of_ok (congrArg (orThrow .typeError) hdata),hpeek,bind_of_ok hidl,
    bind_of_ok hglobal]
  exact globalAccountData_value g

def crankGlobal : ExtGlobalV2 where
  admin := .ofByte 1
  pendingAdmin := some (.ofByte 2)
  extMint := .ofByte 3
  mMint := .ofByte 4
  mEarnGlobalAccount := .ofByte 5
  bump := 255
  mVaultBump := 254
  extMintAuthorityBump := 253
  yieldConfig := .Crank (.ofByte 6) 1000000000000 1100000000000 1700000000
  wrapAuthorities := [.ofByte 7,.ofByte 8]
  wrapAuthorities_length := by decide

theorem loadGlobal_crankGlobal :
    loadGlobal (fun _ program => program) schemaCoder ⟨fun _ => some crankGlobal.accountData⟩
      (.ofByte 9)=.ok crankGlobal.loaded ∧ crankGlobal.loaded.variant=some "Crank" :=
  ⟨(loadGlobal_accountData (fun _ program => program) schemaCoder schemaCoder_decodesSchemas
    ⟨fun _ => some crankGlobal.accountData⟩ (.ofByte 9) crankGlobal rfl).2,rfl⟩

end SolanaM.Sdk.Accounts
