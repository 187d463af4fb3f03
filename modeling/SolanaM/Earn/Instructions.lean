import SolanaM.Earn.Chain

namespace SolanaM.Earn

structure IndexUpdateV2 (M : Type) where
  index : Nat
  ts : Int
  supply : Nat
  currentMultiplier : M
  newMultiplier : M
  deriving DecidableEq

structure Initialize where
  admin : Key
  globalAccount : Key
  mMint : Key
  portalTokenAuthority : Key
  extSwapGlobal : Key
  portalMAccount : Key
  extSwapMAccount : Key

structure PropagateIndex where
  signer : Key
  globalAccount : Key
  mMint : Key

structure AddRegistrarEarner where
  signer : Key
  globalAccount : Key
  mMint : Key
  userTokenAccount : Key

structure RemoveRegistrarEarner where
  signer : Key
  globalAccount : Key
  mMint : Key
  userTokenAccount : Key

structure RecoverM where
  admin : Key
  globalAccount : Key
  mMint : Key
  sourceTokenAccount : Key
  destinationTokenAccount : Key

structure UpdatePortalAuthority where
  admin : Key
  globalAccount : Key
  newPortalAuthority : Key
  portalMAccount : Key
  mMint : Key

variable {D M : Type} (P : Program D M)

/-- The account must be the PDA of the global seed and hold initialised data. -/
def loadGlobal (s : Chain D M) (globalAccount : Key) : Result (EarnGlobal D) := do
  require (globalAccount=P.globalAddress) .constraint
  load s.globalAccount

/-- A token account of the mint the global account records. -/
def loadTokenAccount (s : Chain D M) (global : EarnGlobal D) (key : Key) : Result TokenAccount := do
  let acc ← load (s.accounts key)
  require (acc.mint=global.mMint) .constraint
  .ok acc

/-- Thaw unless the account copy read before says it is thawed already. -/
def thawIfFrozen (s : Chain D M) (acc : TokenAccount) (key mint authority : Key) :
    Result (Chain D M) :=
  if acc.state=.Frozen then thawTokenAccount s key mint authority else .ok s

section Multiplier

variable [LinearOrder M]

namespace Initialize

/-- The mint's extensions and authorities; a multiplier above the index is caught here because
updateMultiplier would skip it silently. -/
def validate (s : Chain D M) (ctx : Initialize) (currentIndex : Nat) : Result Unit := do
  let mint ← load (s.mints ctx.mMint)
  match mint.scaledUiAmount with
  | none => err .InvalidMint
  | some scaledUiConfig => do
      require (scaledUiConfig.authority=ctx.globalAccount) (.error .InvalidMint)
      require (¬scaledUiConfig.newMultiplier>P.indexToMultiplier currentIndex) (.error .InvalidMint)
      require (mint.defaultAccountState=some .Frozen) (.error .InvalidMint)
      require (mint.freezeAuthority=some ctx.globalAccount) (.error .InvalidMint)
      require (mint.permanentDelegate=some ctx.globalAccount) (.error .InvalidMint)

/-- The account constraints, with init of the global account and init_if_needed of the two
associated token accounts. -/
def accounts (s : Chain D M) (ctx : Initialize) :
    Result (Chain D M×TokenAccount×TokenAccount) := do
  require (ctx.globalAccount=P.globalAddress ∧ s.globalAccount.isNone) .constraint
  let mint ← load (s.mints ctx.mMint)
  require (mint.decimals=6) .constraint
  require (ctx.portalTokenAuthority=P.portalTokenAuthority) .constraint
  require (ctx.extSwapGlobal=P.extSwapGlobal) .constraint
  require (ctx.portalMAccount=P.associatedToken ctx.portalTokenAuthority ctx.mMint) .constraint
  let (s,portal) ← initIfNeeded s ctx.portalMAccount ctx.mMint ctx.portalTokenAuthority
  require (ctx.extSwapMAccount=P.associatedToken ctx.extSwapGlobal ctx.mMint) .constraint
  let (s,extSwap) ← initIfNeeded s ctx.extSwapMAccount ctx.mMint ctx.extSwapGlobal
  .ok (s,portal,extSwap)

/-- The instruction without the migrate feature. -/
def handler (s : Chain D M) (ctx : Initialize) (currentIndex : Nat) : Result (Chain D M) := do
  let (s,portal,extSwap) ← accounts P s ctx
  validate P s ctx currentIndex
  let global : EarnGlobal D :=
    ⟨ctx.admin,ctx.mMint,ctx.portalTokenAuthority,ctx.extSwapGlobal,P.zeroRoot⟩
  let s := {s with globalAccount := some global}
  let s ← updateMultiplier s ctx.mMint ctx.globalAccount (P.indexToMultiplier currentIndex)
  let s ← thawIfFrozen s portal ctx.portalMAccount ctx.mMint ctx.globalAccount
  thawIfFrozen s extSwap ctx.extSwapMAccount ctx.mMint ctx.globalAccount

end Initialize

namespace PropagateIndex

variable [DecidableEq D]

/-- The portal authority may call it, and the admin in a testing build. -/
def authorized (global : EarnGlobal D) (signer : Key) : Prop :=
  signer=global.portalAuthority ∨ (P.testing ∧ signer=global.admin)

instance (global : EarnGlobal D) (signer : Key) : Decidable (authorized P global signer) :=
  inferInstanceAs (Decidable (_ ∨ _))

def storeRoot (s : Chain D M) (global : EarnGlobal D) (earnerMerkleRoot : D) : Chain D M :=
  if earnerMerkleRoot≠P.zeroRoot then
    {s with globalAccount := some {global with earnerMerkleRoot := earnerMerkleRoot}}
  else s

def handler (s : Chain D M) (ctx : PropagateIndex) (newIndex : Nat) (earnerMerkleRoot : D)
    (ts : Int) : Result (Chain D M×List (IndexUpdateV2 M)) := do
  let global ← loadGlobal P s ctx.globalAccount
  require (authorized P global ctx.signer) (.error .NotAuthorized)
  require (ctx.mMint=global.mMint) .constraint
  let scaledUiConfig ← getScaledUiConfig s ctx.mMint
  let currentMultiplier := scaledUiConfig.newMultiplier
  let newMultiplier := P.indexToMultiplier newIndex
  if newMultiplier≥currentMultiplier then
    let s := storeRoot P s global earnerMerkleRoot
    if newMultiplier>currentMultiplier then do
      let s ← updateMultiplier s ctx.mMint ctx.globalAccount newMultiplier
      let mint ← load (s.mints ctx.mMint)
      let scaledUiConfig ← getScaledUiConfig s ctx.mMint
      .ok (s,[⟨newIndex,ts,mint.supply,currentMultiplier,scaledUiConfig.newMultiplier⟩])
    else .ok (s,[])
  else .ok (s,[])

end PropagateIndex

end Multiplier

variable [DecidableEq D]

namespace AddRegistrarEarner

def validate (global : EarnGlobal D) (user : Key) (proof : List (ProofElement D)) : Result Unit := do
  require (user≠Key.zero) (.error .InvalidParam)
  let _ ← verifyInTree P.keccak global.earnerMerkleRoot user proof
  .ok ()

def handler (s : Chain D M) (ctx : AddRegistrarEarner) (user : Key)
    (proof : List (ProofElement D)) : Result (Chain D M) := do
  let global ← loadGlobal P s ctx.globalAccount
  require (ctx.mMint=global.mMint) (.error .InvalidAccount)
  let acc ← loadTokenAccount s global ctx.userTokenAccount
  require (acc.owner=user) .constraint
  require (acc.immutableOwner) (.error .MutableOwner)
  require (acc.state=.Frozen) (.error .InvalidAccount)
  validate P global user proof
  thawTokenAccount s ctx.userTokenAccount ctx.mMint ctx.globalAccount

end AddRegistrarEarner

namespace RemoveRegistrarEarner

def validate (global : EarnGlobal D) (acc : TokenAccount)
    (proofs : List (List (ProofElement D))) (neighbors : List Key) : Result Unit := do
  verifyNotInTree P.keccak global.earnerMerkleRoot acc.owner proofs neighbors
  require (¬(acc.owner=global.portalAuthority ∨ acc.owner=global.extSwapGlobalAccount))
    (.error .NotAuthorized)

def handler (s : Chain D M) (ctx : RemoveRegistrarEarner)
    (proofs : List (List (ProofElement D))) (neighbors : List Key) : Result (Chain D M) := do
  let global ← loadGlobal P s ctx.globalAccount
  require (ctx.mMint=global.mMint) (.error .InvalidAccount)
  let acc ← loadTokenAccount s global ctx.userTokenAccount
  require (acc.state=.Initialized) (.error .InvalidAccount)
  validate P global acc proofs neighbors
  freezeTokenAccount s ctx.userTokenAccount ctx.mMint ctx.globalAccount

end RemoveRegistrarEarner

omit [DecidableEq D] in
/-- The amount and both frozen flags are read from the account copies loaded before the first
cross-program call. -/
def RecoverM.handler (s : Chain D M) (ctx : RecoverM) (amount : Option Nat) :
    Result (Chain D M) := do
  let global ← loadGlobal P s ctx.globalAccount
  require (ctx.mMint=global.mMint) (.error .InvalidAccount)
  require (ctx.admin=global.admin) (.error .NotAuthorized)
  let source ← loadTokenAccount s global ctx.sourceTokenAccount
  require (source.state=.Frozen) (.error .InvalidAccount)
  let destination ← loadTokenAccount s global ctx.destinationTokenAccount
  let recoverAmount := amount.getD source.amount
  let s ← thawTokenAccount s ctx.sourceTokenAccount ctx.mMint ctx.globalAccount
  let s ← thawIfFrozen s destination ctx.destinationTokenAccount ctx.mMint ctx.globalAccount
  let s ← transferTokensFromProgram s ctx.sourceTokenAccount ctx.destinationTokenAccount
    recoverAmount ctx.mMint ctx.globalAccount
  freezeTokenAccount s ctx.sourceTokenAccount ctx.mMint ctx.globalAccount

omit [DecidableEq D] in
def UpdatePortalAuthority.handler (s : Chain D M) (ctx : UpdatePortalAuthority) :
    Result (Chain D M) := do
  let global ← loadGlobal P s ctx.globalAccount
  require (ctx.admin=global.admin) (.error .NotAuthorized)
  require (ctx.mMint=global.mMint) (.error .InvalidMint)
  require (ctx.newPortalAuthority=P.portalTokenAuthority) .constraint
  require (ctx.portalMAccount=P.associatedToken ctx.newPortalAuthority ctx.mMint) .constraint
  let (s,portal) ← initIfNeeded s ctx.portalMAccount ctx.mMint ctx.newPortalAuthority
  let s := {s with globalAccount := some {global with portalAuthority := ctx.newPortalAuthority}}
  thawIfFrozen s portal ctx.portalMAccount ctx.mMint ctx.globalAccount

end SolanaM.Earn
