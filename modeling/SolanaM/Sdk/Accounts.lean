import SolanaM.Keys
import SolanaM.Math.Borsh

namespace SolanaM.Sdk.Accounts

open Borsh

inductive LoadError
  | thrown (message : String)
  | typeError
  | coder
  deriving DecidableEq

inductive IdlType
  | u8
  | u64
  | pubkey
  | option (inner : IdlType)
  | vec (inner : IdlType)
  | defined (name : String)

structure IdlField where
  name : String
  type : IdlType

/-- The fields of a struct are undefined where the list they come from has no such entry. -/
inductive IdlTypeDef
  | struct (fields : Option (List IdlField))
  | enum (variants : List String)

structure IdlAccount where
  name : String
  discriminator : List Byte

structure Idl where
  accounts : List IdlAccount
  types : List (String×IdlTypeDef)

def IdlType.layout (named : String → Option Layout) : IdlType → Option Layout
  | .u8 => some (.uint 1)
  | .u64 => some (.uint 8)
  | .pubkey => some (.bytes 32)
  | .option inner => (inner.layout named).map .option
  | .vec inner => (inner.layout named).map .vec
  | .defined name => named name

def fieldsLayout (named : String → Option Layout) : List IdlField → Option Layout
  | [] => some .unit
  | field::fields => do
      let layout ← field.type.layout named
      let rest ← fieldsLayout named fields
      some (.field field.name layout rest)

def IdlTypeDef.layout (named : String → Option Layout) : IdlTypeDef → Option Layout
  | .struct fields => fields.bind (fieldsLayout named)
  | .enum variants => some (.enum variants)

/-- A chain of references longer than the list of types would be a cycle. -/
def Idl.namedLayout (idl : Idl) : Nat → String → Option Layout
  | 0,_ => none
  | depth+1,name => (idl.types.lookup name).bind (·.layout (idl.namedLayout depth))

/-- The bytes in front of an account of this name and the layout behind them. -/
def Idl.accountLayout (idl : Idl) (name : String) : Option (List Byte×Layout) := do
  let account ← idl.accounts.find? (·.name=name)
  let layout ← idl.namedLayout idl.types.length name
  some (account.discriminator,layout)

/-- Anchor's coder: the value an account decodes to under a schema, none where it throws. -/
structure BorshAccountsCoder where
  decode : Idl → String → List Byte → Option Value

/-- The coder reads every encoding of a value back under the schema it is given. -/
def BorshAccountsCoder.DecodesSchemas (coder : BorshAccountsCoder) : Prop :=
  ∀ (idl : Idl) (name : String) (discriminator : List Byte) (layout : Layout) (v : Value)
    (bs : List Byte),idl.accountLayout name=some (discriminator,layout) →
    Encodes layout v bs → coder.decode idl name (discriminator++bs)=some v

/-- A coder that checks the discriminator and decodes what is behind it. -/
def schemaCoder : BorshAccountsCoder where
  decode idl name data := do
    let (discriminator,layout) ← idl.accountLayout name
    if discriminator.isPrefixOf data then do
      let (v,_) ← layout.decode (data.drop discriminator.length)
      some v
    else none

theorem schemaCoder_decodesSchemas : schemaCoder.DecodesSchemas := by
  intro idl name discriminator layout v bs hlayout hencodes
  have hdecode : layout.decode bs=some (v,[]) := by
    have h := hencodes.decode []
    rwa [List.append_nil] at h
  have hfront : discriminator.isPrefixOf (discriminator++bs)=true := by
    rw [List.isPrefixOf_iff_prefix]
    exact List.prefix_append discriminator bs
  simp only [schemaCoder,hlayout,Option.bind_eq_bind,Option.bind_some,hfront,if_true,
    List.drop_left,hdecode]

def yieldVariants : List (List IdlField) :=
  [[⟨"yield_variant",.defined "YieldVariant"⟩],
   [⟨"yield_variant",.defined "YieldVariant"⟩,⟨"fee_bps",.u64⟩,⟨"last_m_index",.u64⟩,
    ⟨"last_ext_index",.u64⟩],
   [⟨"yield_variant",.defined "YieldVariant"⟩,⟨"earn_authority",.pubkey⟩,⟨"last_m_index",.u64⟩,
    ⟨"last_ext_index",.u64⟩,⟨"timestamp",.u64⟩]]

/-- variant is none for undefined, which is not ≥ 3 either. -/
def extensionIDL (variant : Option Byte) : Except LoadError Idl :=
  if variant.any (3≤·) then .error (.thrown "Invalid yield variant, must be 0, 1, or 2")
  else .ok {
    accounts := [⟨"ExtGlobalV2",[116,209,219,83,70,143,55,127]⟩]
    types := [
      ("ExtGlobalV2",.struct (some [⟨"admin",.pubkey⟩,⟨"pending_admin",.option .pubkey⟩,
        ⟨"ext_mint",.pubkey⟩,⟨"m_mint",.pubkey⟩,⟨"m_earn_global_account",.pubkey⟩,⟨"bump",.u8⟩,
        ⟨"m_vault_bump",.u8⟩,⟨"ext_mint_authority_bump",.u8⟩,
        ⟨"yield_config",.defined "YieldConfig"⟩,⟨"wrap_authorities",.vec .pubkey⟩])),
      ("YieldConfig",.struct (variant.bind fun variant => yieldVariants[variant.val]?)),
      ("YieldVariant",.enum ["NoYield","ScaledUi","Crank"])] }

/-- The RPC node's answer for an account, none for null. -/
structure Connection where
  getAccountInfo : Key → Option (List Byte)

/-- A field is none where the JavaScript value is undefined. -/
structure GlobalAccountData where
  admin : Option Value
  extMint : Option Value
  mMint : Option Value
  variant : Option String
  wrapAuthorities : Option Value
  index : Option Value
  timestamp : Option Value
  earnAuthority : Option Value

/-- v.name, which throws on undefined and null. -/
def property (v : Option Value) (name : String) : Except LoadError (Option Value) :=
  match v with
  | none => .error .typeError
  | some .null => .error .typeError
  | some (.object fields) => .ok (fields.lookup name)
  | some _ => .ok none

/-- Object.keys(v)[0]. -/
def firstKey (v : Option Value) : Except LoadError (Option String) :=
  match v with
  | none => .error .typeError
  | some .null => .error .typeError
  | some (.object fields) => .ok (fields.head?.map (·.1))
  | some _ => .ok none

def orThrow {α : Type} (e : LoadError) : Option α → Except LoadError α
  | some a => .ok a
  | none => .error e

/-- The byte of the yield variant, whose offset depends on the pending admin. -/
def yieldType (globalData : List Byte) : Option Byte :=
  let yieldTypeOffset := if globalData[40]? = some 1 then 172 else 140
  globalData[yieldTypeOffset]?

/-- The object that loadGlobal makes of a decoded account. -/
def globalAccountData (global : Value) : Except LoadError GlobalAccountData := do
  let admin ← property (some global) "admin"
  let extMint ← property (some global) "ext_mint"
  let mMint ← property (some global) "m_mint"
  let yieldConfig ← property (some global) "yield_config"
  let yieldVariant ← property yieldConfig "yield_variant"
  let variant ← firstKey yieldVariant
  let wrapAuthorities ← property (some global) "wrap_authorities"
  let index ← property yieldConfig "last_ext_index"
  let timestamp ← property yieldConfig "timestamp"
  let earnAuthority ← property yieldConfig "earn_authority"
  .ok ⟨admin,extMint,mMint,variant,wrapAuthorities,index,timestamp,earnAuthority⟩

/-- Buffer.from('global'). -/
def globalSeed : List Byte := [103,108,111,98,97,108]

def loadGlobal (findProgramAddress : List (List Byte) → Key → Key) (coder : BorshAccountsCoder)
    (connection : Connection) (program : Key) : Except LoadError GlobalAccountData := do
  let globalAccount := findProgramAddress [globalSeed] program
  let globalData ← orThrow .typeError (connection.getAccountInfo globalAccount)
  let idl ← extensionIDL (yieldType globalData)
  let global ← orThrow .coder (coder.decode idl "ExtGlobalV2" globalData)
  globalAccountData global

end SolanaM.Sdk.Accounts
