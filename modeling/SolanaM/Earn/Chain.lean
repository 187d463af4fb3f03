import SolanaM.Earn.MerkleProof
import Mathlib.Logic.Function.Basic

namespace SolanaM.Earn

inductive AccountState
  | Initialized
  | Frozen
  deriving DecidableEq

/-- A Token-2022 account; immutableOwner is the presence of that extension. -/
structure TokenAccount where
  mint : Key
  owner : Key
  amount : Nat
  state : AccountState
  immutableOwner : Bool
  deriving DecidableEq

/-- OptionalNonZeroPubkey: the zero key stands for nobody. -/
structure ScaledUiAmountConfig (M : Type) where
  authority : Key
  newMultiplier : M

structure Mint (M : Type) where
  decimals : Nat
  supply : Nat
  freezeAuthority : Option Key
  scaledUiAmount : Option (ScaledUiAmountConfig M)
  defaultAccountState : Option AccountState
  permanentDelegate : Option Key

structure EarnGlobal (D : Type) where
  admin : Key
  mMint : Key
  portalAuthority : Key
  extSwapGlobalAccount : Key
  earnerMerkleRoot : D

/-- The accounts the program reads and writes. -/
structure Chain (D M : Type) where
  globalAccount : Option (EarnGlobal D)
  mints : Key → Option (Mint M)
  accounts : Key → Option TokenAccount

/-- What is fixed when the program is compiled and deployed: the hash, its all-zero word, the
f64 division of index_to_multiplier, the program-derived addresses and the testing feature. -/
structure Program (D M : Type) where
  keccak : Keccak D
  zeroRoot : D
  indexToMultiplier : Nat → M
  globalAddress : Key
  portalTokenAuthority : Key
  extSwapGlobal : Key
  associatedToken : Key → Key → Key
  testing : Bool

variable {D M : Type}

def require (p : Prop) [Decidable p] (f : Failure) : Result Unit := if p then .ok () else .error f

def load {α : Type} (o : Option α) : Result α :=
  match o with
  | some a => .ok a
  | none => .error .constraint

namespace Chain

def setAccount (s : Chain D M) (key : Key) (acc : TokenAccount) : Chain D M :=
  {s with accounts := Function.update s.accounts key (some acc)}

def setMint (s : Chain D M) (key : Key) (mint : Mint M) : Chain D M :=
  {s with mints := Function.update s.mints key (some mint)}

@[simp] theorem setAccount_globalAccount (s : Chain D M) (key : Key) (acc : TokenAccount) :
    (s.setAccount key acc).globalAccount=s.globalAccount := rfl

@[simp] theorem setAccount_mints (s : Chain D M) (key : Key) (acc : TokenAccount) :
    (s.setAccount key acc).mints=s.mints := rfl

@[simp] theorem setAccount_accounts (s : Chain D M) (key : Key) (acc : TokenAccount) :
    (s.setAccount key acc).accounts=Function.update s.accounts key (some acc) := rfl

@[simp] theorem setMint_globalAccount (s : Chain D M) (key : Key) (mint : Mint M) :
    (s.setMint key mint).globalAccount=s.globalAccount := rfl

@[simp] theorem setMint_accounts (s : Chain D M) (key : Key) (mint : Mint M) :
    (s.setMint key mint).accounts=s.accounts := rfl

@[simp] theorem setMint_mints (s : Chain D M) (key : Key) (mint : Mint M) :
    (s.setMint key mint).mints=Function.update s.mints key (some mint) := rfl

end Chain

/-- Token-2022 FreezeAccount and ThawAccount signed by authority: the mint's freeze authority
alone may call them, and an account already in the target state is rejected. -/
def setFrozen (s : Chain D M) (account mint authority : Key) (target : AccountState) :
    Result (Chain D M) :=
  match s.accounts account,s.mints mint with
  | some acc,some m =>
      if acc.mint=mint ∧ m.freezeAuthority=some authority ∧ acc.state≠target then
        .ok (s.setAccount account {acc with state := target})
      else .error .token
  | _,_ => .error .token

def freezeTokenAccount (s : Chain D M) (tokenAccount mint authority : Key) : Result (Chain D M) :=
  setFrozen s tokenAccount mint authority .Frozen

def thawTokenAccount (s : Chain D M) (tokenAccount mint authority : Key) : Result (Chain D M) :=
  setFrozen s tokenAccount mint authority .Initialized

/-- Token-2022 TransferChecked signed by the mint's permanent delegate. -/
def transferTokensFromProgram (s : Chain D M) (fromAccount toAccount : Key) (amount : Nat)
    (mint authority : Key) : Result (Chain D M) :=
  match s.accounts fromAccount,s.accounts toAccount,s.mints mint with
  | some src,some dst,some m =>
      if src.mint=mint ∧ dst.mint=mint ∧ src.state=.Initialized ∧ dst.state=.Initialized ∧
          m.permanentDelegate=some authority ∧ amount ≤ src.amount then
        if fromAccount=toAccount then .ok s
        else if dst.amount+amount<2^64 then
          .ok ((s.setAccount fromAccount {src with amount := src.amount-amount}).setAccount
            toAccount {dst with amount := dst.amount+amount})
        else .error .token
      else .error .token
  | _,_,_ => .error .token

/-- The associated token program's Create, for an account that may already be there: a new one
starts in the mint's default state and always carries the immutable owner. -/
def initIfNeeded (s : Chain D M) (account mint owner : Key) : Result (Chain D M×TokenAccount) :=
  match s.accounts account with
  | some acc => do
      require (acc.mint=mint ∧ acc.owner=owner) .constraint
      .ok (s,acc)
  | none => do
      let m ← load (s.mints mint)
      let acc : TokenAccount := ⟨mint,owner,0,m.defaultAccountState.getD .Initialized,true⟩
      .ok (s.setAccount account acc,acc)

def getScaledUiConfig (s : Chain D M) (mint : Key) : Result (ScaledUiAmountConfig M) := do
  let m ← load (s.mints mint)
  load m.scaledUiAmount

variable [LinearOrder M]

/-- Only a greater multiplier is written; anything else is silently skipped. -/
def updateMultiplier (s : Chain D M) (mint authority : Key) (multiplier : M) :
    Result (Chain D M) := do
  let scaledUiConfig ← getScaledUiConfig s mint
  if multiplier>scaledUiConfig.newMultiplier then do
    require (scaledUiConfig.authority=authority) .token
    let m ← load (s.mints mint)
    .ok (s.setMint mint {m with scaledUiAmount := some {scaledUiConfig with newMultiplier := multiplier}})
  else .ok s

end SolanaM.Earn
