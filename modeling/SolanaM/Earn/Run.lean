import SolanaM.Earn.Effects
import SolanaM.Framework.Run
import SolanaM.Digest

namespace SolanaM.Earn

open Function

/-- What holders do with their accounts, and a mint's authority with its mint, through Token-2022
itself. -/
inductive TokenStep
  | createAccount (account mint owner : Key) (immutableOwner : Bool)
  | setOwner (account newOwner : Key)
  | transfer (source destination : Key) (amount : Nat)
  | mintTo (account : Key) (amount : Nat)
  | burn (account : Key) (amount : Nat)
  | closeAccount (account : Key)

inductive Action (D : Type)
  | initializeProgram (ctx : Initialize) (currentIndex : Nat)
  | propagateIndex (ctx : PropagateIndex) (newIndex : Nat) (earnerMerkleRoot : D) (ts : Int)
  | addRegistrarEarner (ctx : AddRegistrarEarner) (user : Key) (proof : List (ProofElement D))
  | removeRegistrarEarner (ctx : RemoveRegistrarEarner) (proofs : List (List (ProofElement D)))
      (neighbors : List Key)
  | recoverM (ctx : RecoverM) (amount : Option Nat)
  | updatePortalAuthority (ctx : UpdatePortalAuthority)
  | token (step : TokenStep)

variable {D M : Type}

/-- A new account starts in its mint's default state; a frozen one can neither move, receive nor
burn tokens nor change owner, but like any other it can be closed once it is empty. -/
def tokenStep (s : Chain D M) : TokenStep → Result (Chain D M)
  | .createAccount account mint owner immutableOwner => do
      require (s.accounts account).isNone .token
      let m ← load (s.mints mint)
      .ok (s.setAccount account
        ⟨mint,owner,0,m.defaultAccountState.getD .Initialized,immutableOwner⟩)
  | .setOwner account newOwner => do
      let acc ← load (s.accounts account)
      require (acc.state=.Initialized ∧ ¬acc.immutableOwner) .token
      .ok (s.setAccount account {acc with owner := newOwner})
  | .transfer source destination amount => do
      let src ← load (s.accounts source)
      let dst ← load (s.accounts destination)
      require (src.state=.Initialized ∧ dst.state=.Initialized ∧ src.mint=dst.mint ∧
        amount ≤ src.amount ∧ source≠destination ∧ dst.amount+amount<2^64) .token
      .ok ((s.setAccount source {src with amount := src.amount-amount}).setAccount destination
        {dst with amount := dst.amount+amount})
  | .mintTo account amount => do
      let acc ← load (s.accounts account)
      let m ← load (s.mints acc.mint)
      require (acc.state=.Initialized ∧ acc.amount+amount<2^64 ∧ m.supply+amount<2^64) .token
      .ok ((s.setAccount account {acc with amount := acc.amount+amount}).setMint acc.mint
        {m with supply := m.supply+amount})
  | .burn account amount => do
      let acc ← load (s.accounts account)
      let m ← load (s.mints acc.mint)
      require (acc.state=.Initialized ∧ amount ≤ acc.amount ∧ amount ≤ m.supply) .token
      .ok ((s.setAccount account {acc with amount := acc.amount-amount}).setMint acc.mint
        {m with supply := m.supply-amount})
  | .closeAccount account => do
      let acc ← load (s.accounts account)
      require (acc.amount=0) .token
      .ok {s with accounts := update s.accounts account none}

def silent (r : Result (Chain D M)) : Result (Chain D M×List (IndexUpdateV2 M)) := do
  let s ← r
  .ok (s,[])

theorem silent_eq_ok {r : Result (Chain D M)} {s : Chain D M} {es : List (IndexUpdateV2 M)} :
    silent r=.ok (s,es) ↔ r=.ok s ∧ es=[] := by
  cases r <;> simp [silent,bind,Except.bind,eq_comm]

section Program

variable [LinearOrder M] [DecidableEq D]

/-- The deployed program together with the token program, one transaction at a time. -/
def program (P : Program D M) : Machine (Chain D M) (Action D) Failure (IndexUpdateV2 M) where
  step s
    | .initializeProgram ctx currentIndex => silent (Initialize.handler P s ctx currentIndex)
    | .propagateIndex ctx newIndex root ts => PropagateIndex.handler P s ctx newIndex root ts
    | .addRegistrarEarner ctx user proof => silent (AddRegistrarEarner.handler P s ctx user proof)
    | .removeRegistrarEarner ctx proofs neighbors =>
        silent (RemoveRegistrarEarner.handler P s ctx proofs neighbors)
    | .recoverM ctx amount => silent (RecoverM.handler P s ctx amount)
    | .updatePortalAuthority ctx => silent (UpdatePortalAuthority.handler P s ctx)
    | .token step => silent (tokenStep s step)

end Program

section Effect

variable [LinearOrder M] [DecidableEq D] {P : Program D M}

/-- Everything that a successful action of the running program can do, and under what guards. -/
inductive Effect (P : Program D M) (s : Chain D M) :
    Action D → Chain D M → List (IndexUpdateV2 M) → Prop
  | propagated {ctx : PropagateIndex} {newIndex : Nat} {root : D} {ts : Int} {s' : Chain D M}
      {es : List (IndexUpdateV2 M)}
      (h : PropagateIndex.handler P s ctx newIndex root ts=.ok (s',es)) :
      Effect P s (.propagateIndex ctx newIndex root ts) s' es
  | added {ctx : AddRegistrarEarner} {user : Key} {proof : List (ProofElement D)}
      {g : EarnGlobal D} {acc : TokenAccount}
      (h : AddRegistrarEarner.Accepted P s ctx user proof g acc) :
      Effect P s (.addRegistrarEarner ctx user proof)
        (s.setAccount ctx.userTokenAccount {acc with state := .Initialized}) []
  | removed {ctx : RemoveRegistrarEarner} {proofs : List (List (ProofElement D))}
      {neighbors : List Key} {g : EarnGlobal D} {acc : TokenAccount}
      (h : RemoveRegistrarEarner.Accepted P s ctx proofs neighbors g acc) :
      Effect P s (.removeRegistrarEarner ctx proofs neighbors)
        (s.setAccount ctx.userTokenAccount {acc with state := .Frozen}) []
  | recovered {ctx : RecoverM} {amount : Option Nat} {g : EarnGlobal D} {src dst : TokenAccount}
      (h : RecoverM.Accepted s ctx g src dst (amount.getD src.amount)) :
      Effect P s (.recoverM ctx amount)
        ((s.setAccount ctx.sourceTokenAccount
          {src with amount := src.amount-amount.getD src.amount}).setAccount
            ctx.destinationTokenAccount
            {dst with amount := dst.amount+amount.getD src.amount,state := .Initialized}) []
  | portal {ctx : UpdatePortalAuthority} {g : EarnGlobal D} {acc : TokenAccount}
      (h : UpdatePortalAuthority.Accepted P s ctx g acc) :
      Effect P s (.updatePortalAuthority ctx)
        {s.setAccount ctx.portalMAccount {acc with state := .Initialized} with
          globalAccount := some {g with portalAuthority := P.portalTokenAuthority}} []
  | created {account mint owner : Key} {immutableOwner : Bool} {m : Mint M}
      (hnone : s.accounts account=none) (hm : s.mints mint=some m) :
      Effect P s (.token (.createAccount account mint owner immutableOwner))
        (s.setAccount account
          ⟨mint,owner,0,m.defaultAccountState.getD .Initialized,immutableOwner⟩) []
  | ownerSet {account newOwner : Key} {acc : TokenAccount} (hacc : s.accounts account=some acc)
      (hthawed : acc.state=.Initialized) (hmutable : ¬acc.immutableOwner) :
      Effect P s (.token (.setOwner account newOwner))
        (s.setAccount account {acc with owner := newOwner}) []
  | transferred {source destination : Key} {amount : Nat} {src dst : TokenAccount}
      (hsrc : s.accounts source=some src) (hdst : s.accounts destination=some dst)
      (hsrcThawed : src.state=.Initialized) (hdstThawed : dst.state=.Initialized)
      (hmint : src.mint=dst.mint) (hcovered : amount ≤ src.amount) (hne : source≠destination) :
      Effect P s (.token (.transfer source destination amount))
        ((s.setAccount source {src with amount := src.amount-amount}).setAccount destination
          {dst with amount := dst.amount+amount}) []
  | minted {account : Key} {amount : Nat} {acc : TokenAccount} {m : Mint M}
      (hacc : s.accounts account=some acc) (hm : s.mints acc.mint=some m)
      (hthawed : acc.state=.Initialized) (hfits : m.supply+amount<2^64) :
      Effect P s (.token (.mintTo account amount))
        ((s.setAccount account {acc with amount := acc.amount+amount}).setMint acc.mint
          {m with supply := m.supply+amount}) []
  | burned {account : Key} {amount : Nat} {acc : TokenAccount} {m : Mint M}
      (hacc : s.accounts account=some acc) (hm : s.mints acc.mint=some m)
      (hthawed : acc.state=.Initialized) (hcovered : amount ≤ acc.amount)
      (hsupply : amount ≤ m.supply) :
      Effect P s (.token (.burn account amount))
        ((s.setAccount account {acc with amount := acc.amount-amount}).setMint acc.mint
          {m with supply := m.supply-amount}) []
  | closed {account : Key} {acc : TokenAccount} (hacc : s.accounts account=some acc)
      (hempty : acc.amount=0) :
      Effect P s (.token (.closeAccount account))
        {s with accounts := update s.accounts account none} []

theorem tokenStep_effect {s s' : Chain D M} {step : TokenStep} (h : tokenStep s step=.ok s') :
    Effect P s (.token step) s' [] := by
  cases step with
  | createAccount account mint owner immutableOwner =>
    simp only [tokenStep,bind_eq_ok,require_eq_ok,load_eq_ok] at h
    obtain ⟨_,hn,m,hm,h⟩ := h
    cases h
    exact .created (Option.isNone_iff_eq_none.mp hn) hm
  | setOwner account newOwner =>
    simp only [tokenStep,bind_eq_ok,require_eq_ok,load_eq_ok] at h
    obtain ⟨acc,hacc,_,⟨hst,him⟩,h⟩ := h
    cases h
    exact .ownerSet hacc hst him
  | transfer source destination amount =>
    simp only [tokenStep,bind_eq_ok,require_eq_ok,load_eq_ok] at h
    obtain ⟨src,hsrc,dst,hdst,_,⟨hss,hds,hmint,hle,hne,_⟩,h⟩ := h
    cases h
    exact .transferred hsrc hdst hss hds hmint hle hne
  | mintTo account amount =>
    simp only [tokenStep,bind_eq_ok,require_eq_ok,load_eq_ok] at h
    obtain ⟨acc,hacc,m,hm,_,⟨hst,_,hfits⟩,h⟩ := h
    cases h
    exact .minted hacc hm hst hfits
  | burn account amount =>
    simp only [tokenStep,bind_eq_ok,require_eq_ok,load_eq_ok] at h
    obtain ⟨acc,hacc,m,hm,_,⟨hst,hle,hsupply⟩,h⟩ := h
    cases h
    exact .burned hacc hm hst hle hsupply
  | closeAccount account =>
    simp only [tokenStep,bind_eq_ok,require_eq_ok,load_eq_ok] at h
    obtain ⟨acc,hacc,_,hempty,h⟩ := h
    cases h
    exact .closed hacc hempty

theorem step_effect {s s' : Chain D M} {a : Action D} {es : List (IndexUpdateV2 M)}
    (hg : s.globalAccount≠none) (h : (program P).step s a=.ok (s',es)) : Effect P s a s' es := by
  cases a with
  | initializeProgram ctx currentIndex =>
    exact absurd (Initialize.handler_eq_ok (silent_eq_ok.mp h).1).fresh hg
  | propagateIndex ctx newIndex root ts => exact .propagated h
  | addRegistrarEarner ctx user proof =>
    obtain ⟨hok,rfl⟩ := silent_eq_ok.mp h
    obtain ⟨g,acc,hacc,rfl⟩ := (AddRegistrarEarner.handler_eq_ok P).mp hok
    exact .added hacc
  | removeRegistrarEarner ctx proofs neighbors =>
    obtain ⟨hok,rfl⟩ := silent_eq_ok.mp h
    obtain ⟨g,acc,hacc,rfl⟩ := (RemoveRegistrarEarner.handler_eq_ok P).mp hok
    exact .removed hacc
  | recoverM ctx amount =>
    obtain ⟨hok,rfl⟩ := silent_eq_ok.mp h
    obtain ⟨g,src,dst,hacc,rfl⟩ := RecoverM.handler_eq_ok hok
    exact .recovered hacc
  | updatePortalAuthority ctx =>
    obtain ⟨hok,rfl⟩ := silent_eq_ok.mp h
    obtain ⟨g,portal,hacc,rfl⟩ := UpdatePortalAuthority.handler_eq_ok hok
    exact .portal hacc
  | token step =>
    obtain ⟨hok,rfl⟩ := silent_eq_ok.mp h
    exact tokenStep_effect hok

omit [LinearOrder M] [DecidableEq D] in
/-- Of a mint whose supply is written all else stays, and every other mint stays. -/
theorem setMint_supply {s : Chain D M} {mint : Key} {old : Mint M} (hold : s.mints mint=some old)
    (n : Nat) (key : Key) (m : Mint M) (hm : s.mints key=some m) :
    ∃ supply,(s.setMint mint {old with supply := n}).mints key=
      some {m with supply := supply} := by
  rw [Chain.setMint_mints]
  by_cases hk : key=mint
  · rw [hk] at hm
    cases hold.symm.trans hm
    rw [hk,update_self]
    exact ⟨n,rfl⟩
  · rw [update_of_ne hk]
    exact ⟨m.supply,hm⟩

/-- Once the global account exists, propagate_index alone stores a root, emits events and writes
more of a mint than what has been issued of it; what else an action does to the global account is
to set the Portal's PDA. -/
theorem step_frame {s s' : Chain D M} {a : Action D} {es : List (IndexUpdateV2 M)}
    {g : EarnGlobal D} (hg : s.globalAccount=some g) (h : (program P).step s a=.ok (s',es)) :
    (∃ ctx newIndex root ts,a=.propagateIndex ctx newIndex root ts ∧
      PropagateIndex.handler P s ctx newIndex root ts=.ok (s',es)) ∨
    (∀ key m,s.mints key=some m → ∃ supply,s'.mints key=some {m with supply := supply}) ∧
      es=[] ∧ (s'.globalAccount=some g ∨
        s'.globalAccount=some {g with portalAuthority := P.portalTokenAuthority}) := by
  have hkept (key : Key) (m : Mint M) (hm : s.mints key=some m) :
      ∃ supply,s.mints key=some {m with supply := supply} := ⟨m.supply,hm⟩
  cases step_effect (by simp [hg]) h with
  | propagated h => exact .inl ⟨_,_,_,_,rfl,h⟩
  | minted _ hm => exact .inr ⟨setMint_supply hm _,rfl,.inl hg⟩
  | burned _ hm => exact .inr ⟨setMint_supply hm _,rfl,.inl hg⟩
  | portal hacc =>
    cases hg.symm.trans hacc.global
    exact .inr ⟨hkept,rfl,.inr rfl⟩
  | _ => exact .inr ⟨hkept,rfl,.inl hg⟩

end Effect

section Sample

def sampleProgram : Program Digest Nat where
  keccak := Digest.keccak
  zeroRoot := .zero
  indexToMultiplier := id
  globalAddress := .ofByte 1
  portalTokenAuthority := .ofByte 2
  extSwapGlobal := .ofByte 3
  associatedToken owner _ := if owner=.ofByte 2 then .ofByte 4 else .ofByte 5
  testing := false

/-- A mint ready for initialize, with two frozen accounts: one of an immutable owner and with a
balance, the other empty and with an owner that can still change. -/
def sampleChain : Chain Digest Nat where
  globalAccount := none
  mints key :=
    if key=.ofByte 6 then
      some ⟨6,5,some (.ofByte 1),some ⟨.ofByte 1,0⟩,some .Frozen,some (.ofByte 1)⟩
    else none
  accounts key :=
    if key=.ofByte 7 then some ⟨.ofByte 6,.ofByte 8,5,.Frozen,true⟩
    else if key=.ofByte 9 then some ⟨.ofByte 6,.ofByte 10,0,.Frozen,false⟩
    else none

def sampleInitialize : Initialize :=
  ⟨.ofByte 11,.ofByte 1,.ofByte 6,.ofByte 2,.ofByte 3,.ofByte 4,.ofByte 5⟩

def sampleStart : Chain Digest Nat :=
  (program sampleProgram).exec sampleChain (.initializeProgram sampleInitialize 1)

theorem sampleStart_eq :
    Initialize.handler sampleProgram sampleChain sampleInitialize 1=.ok sampleStart := rfl

end Sample

end SolanaM.Earn
