import SolanaM.Earn.Instructions
import SolanaM.Earn.MerkleVerifier

namespace SolanaM.Earn

open Function

variable {D M : Type}

@[simp] theorem require_eq_ok {p : Prop} [Decidable p] {f : Failure} {u : Unit} :
    require p f=.ok u ↔ p := by
  unfold require
  split <;> simp [*]

@[simp] theorem load_eq_ok {α : Type} {o : Option α} {a : α} : load o=.ok a ↔ o=some a := by
  cases o <;> simp [load]

/-- The freeze authority of the mint is the key that signs for the program. -/
def Freezable (s : Chain D M) (mint authority : Key) : Prop :=
  ∃ m,s.mints mint=some m ∧ m.freezeAuthority=some authority

theorem setFrozen_eq_ok {s s' : Chain D M} {account mint authority : Key} {target : AccountState} :
    setFrozen s account mint authority target=.ok s' ↔
      ∃ acc,s.accounts account=some acc ∧ acc.mint=mint ∧ Freezable s mint authority ∧
        acc.state≠target ∧ s'=s.setAccount account {acc with state := target} := by
  unfold setFrozen
  constructor
  · intro h
    split at h
    · rename_i acc m hacc hm
      split at h
      · rename_i hc
        exact ⟨acc,hacc,hc.1,⟨m,hm,hc.2.1⟩,hc.2.2,(Except.ok.inj h).symm⟩
      · exact nomatch h
    · exact nomatch h
  · rintro ⟨acc,hacc,hmint,⟨m,hm,hf⟩,hne,rfl⟩
    simp only [hacc,hm]
    exact if_pos ⟨hmint,hf,hne⟩

theorem loadGlobal_eq_ok (P : Program D M) {s : Chain D M} {key : Key} {g : EarnGlobal D} :
    loadGlobal P s key=.ok g ↔ key=P.globalAddress ∧ s.globalAccount=some g := by
  simp [loadGlobal,bind_eq_ok]

theorem loadTokenAccount_eq_ok {s : Chain D M} {g : EarnGlobal D} {key : Key}
    {acc : TokenAccount} :
    loadTokenAccount s g key=.ok acc ↔ s.accounts key=some acc ∧ acc.mint=g.mMint := by
  simp only [loadTokenAccount,bind_eq_ok,load_eq_ok,require_eq_ok]
  constructor
  · rintro ⟨acc',hacc,_,hm,h⟩
    cases h
    exact ⟨hacc,hm⟩
  · rintro ⟨hacc,hm⟩
    exact ⟨acc,hacc,(),hm,rfl⟩

/-- What the thaw of an account copy leaves behind, whichever branch it takes. -/
theorem thawIfFrozen_eq_ok {s s' : Chain D M} {acc : TokenAccount} {key mint authority : Key}
    (hacc : s.accounts key=some acc) (h : thawIfFrozen s acc key mint authority=.ok s') :
    s'=s.setAccount key {acc with state := .Initialized} := by
  unfold thawIfFrozen at h
  split at h
  · obtain ⟨acc',hacc',_,_,_,rfl⟩ := setFrozen_eq_ok.mp h
    rw [hacc] at hacc'
    cases hacc'
    rfl
  · rename_i hst
    cases h
    have he : acc.state=.Initialized := by
      cases hs : acc.state
      · rfl
      · exact absurd hs hst
    have hself : ({acc with state := .Initialized} : TokenAccount)=acc := by rw [← he]
    rw [hself,Chain.setAccount,← hacc,update_eq_self]

/-- A thaw decided on a possibly outdated account copy still touches that account only. -/
theorem thawIfFrozen_frame {s s' : Chain D M} {acc : TokenAccount} {key mint authority : Key}
    (h : thawIfFrozen s acc key mint authority=.ok s') :
    s'.globalAccount=s.globalAccount ∧ s'.mints=s.mints ∧
      ∀ k,k≠key → s'.accounts k=s.accounts k := by
  unfold thawIfFrozen at h
  split at h
  · obtain ⟨acc',_,_,_,_,rfl⟩ := setFrozen_eq_ok.mp h
    exact ⟨rfl,rfl,fun k hk => update_of_ne hk _ _⟩
  · cases h
    exact ⟨rfl,rfl,fun _ _ => rfl⟩

section Open

variable [DecidableEq D] (P : Program D M)

/-- What both registrar instructions ask of their accounts: the program's global account, its mint
under the program's control, and a token account of that mint. -/
structure RegistrarAccounts (s : Chain D M) (globalAccount mMint userTokenAccount : Key)
    (g : EarnGlobal D) (acc : TokenAccount) : Prop where
  global : s.globalAccount=some g
  account : s.accounts userTokenAccount=some acc
  address : globalAccount=P.globalAddress
  mint : mMint=g.mMint
  accountMint : acc.mint=g.mMint
  freezable : Freezable s g.mMint P.globalAddress

structure AddRegistrarEarner.Accepted (s : Chain D M) (ctx : AddRegistrarEarner) (user : Key)
    (proof : List (ProofElement D)) (g : EarnGlobal D) (acc : TokenAccount) : Prop extends
    RegistrarAccounts P s ctx.globalAccount ctx.mMint ctx.userTokenAccount g acc where
  owner : acc.owner=user
  immutableOwner : acc.immutableOwner
  frozen : acc.state=.Frozen
  user_ne_zero : user≠Key.zero
  included : ∃ i,verifyInTree P.keccak g.earnerMerkleRoot user proof=.ok i

/-- Exactly when add_registrar_earner succeeds, and all it changes: one account is thawed. -/
theorem AddRegistrarEarner.handler_eq_ok {s s' : Chain D M} {ctx : AddRegistrarEarner}
    {user : Key} {proof : List (ProofElement D)} :
    handler P s ctx user proof=.ok s' ↔
      ∃ g acc,Accepted P s ctx user proof g acc ∧
        s'=s.setAccount ctx.userTokenAccount {acc with state := .Initialized} := by
  simp only [handler,validate,thawTokenAccount,bind_eq_ok,loadGlobal_eq_ok,
    loadTokenAccount_eq_ok,require_eq_ok,setFrozen_eq_ok]
  constructor
  · rintro ⟨g,⟨hga,hg⟩,_,hm,acc,⟨hacc,hmint⟩,_,ho,_,him,_,hst,_,⟨_,hz,i,hi,_⟩,acc',hacc',_,hfr,_,rfl⟩
    rw [hacc] at hacc'
    cases hacc'
    rw [hm,hga] at hfr
    exact ⟨g,acc,⟨⟨hg,hacc,hga,hm,hmint,hfr⟩,ho,him,hst,hz,i,hi⟩,rfl⟩
  · rintro ⟨g,acc,h,rfl⟩
    obtain ⟨i,hi⟩ := h.included
    have hne : acc.state≠.Initialized := by
      rw [h.frozen]
      decide
    refine ⟨g,⟨h.address,h.global⟩,(),h.mint,acc,⟨h.account,h.accountMint⟩,(),h.owner,(),
      h.immutableOwner,(),h.frozen,(),⟨(),h.user_ne_zero,i,hi,trivial⟩,acc,h.account,?_,?_,hne,rfl⟩
    · rw [h.accountMint,h.mint]
    · rw [h.mint,h.address]
      exact h.freezable

structure RemoveRegistrarEarner.Accepted (s : Chain D M) (ctx : RemoveRegistrarEarner)
    (proofs : List (List (ProofElement D))) (neighbors : List Key) (g : EarnGlobal D)
    (acc : TokenAccount) : Prop extends
    RegistrarAccounts P s ctx.globalAccount ctx.mMint ctx.userTokenAccount g acc where
  thawed : acc.state=.Initialized
  excluded : verifyNotInTree P.keccak g.earnerMerkleRoot acc.owner proofs neighbors=.ok ()
  exempt : ¬(acc.owner=g.portalAuthority ∨ acc.owner=g.extSwapGlobalAccount)

/-- Exactly when remove_registrar_earner succeeds, and all it changes: one account is frozen. -/
theorem RemoveRegistrarEarner.handler_eq_ok {s s' : Chain D M} {ctx : RemoveRegistrarEarner}
    {proofs : List (List (ProofElement D))} {neighbors : List Key} :
    handler P s ctx proofs neighbors=.ok s' ↔
      ∃ g acc,Accepted P s ctx proofs neighbors g acc ∧
        s'=s.setAccount ctx.userTokenAccount {acc with state := .Frozen} := by
  simp only [handler,validate,freezeTokenAccount,bind_eq_ok,loadGlobal_eq_ok,
    loadTokenAccount_eq_ok,require_eq_ok,setFrozen_eq_ok]
  constructor
  · rintro ⟨g,⟨hga,hg⟩,_,hm,acc,⟨hacc,hmint⟩,_,hst,_,⟨_,hv,hex⟩,acc',hacc',_,hfr,_,rfl⟩
    rw [hacc] at hacc'
    cases hacc'
    rw [hm,hga] at hfr
    exact ⟨g,acc,⟨⟨hg,hacc,hga,hm,hmint,hfr⟩,hst,hv,hex⟩,rfl⟩
  · rintro ⟨g,acc,h,rfl⟩
    have hne : acc.state≠.Frozen := by
      rw [h.thawed]
      decide
    refine ⟨g,⟨h.address,h.global⟩,(),h.mint,acc,⟨h.account,h.accountMint⟩,(),h.thawed,(),
      ⟨(),h.excluded,h.exempt⟩,acc,h.account,?_,?_,hne,rfl⟩
    · rw [h.accountMint,h.mint]
    · rw [h.mint,h.address]
      exact h.freezable

end Open

/-- What init_if_needed leaves behind: the account it returns, stored, old or new. -/
theorem initIfNeeded_eq_ok {s s' : Chain D M} {account mint owner : Key} {acc : TokenAccount}
    (h : initIfNeeded s account mint owner=.ok (s',acc)) :
    acc.mint=mint ∧ acc.owner=owner ∧ s'=s.setAccount account acc ∧
      (s.accounts account=some acc ∨
        s.accounts account=none ∧ acc.immutableOwner ∧ acc.amount=0) := by
  unfold initIfNeeded at h
  cases ha : s.accounts account with
  | some old =>
    simp only [ha,bind_eq_ok,require_eq_ok] at h
    obtain ⟨_,⟨hm,ho⟩,h⟩ := h
    cases h
    refine ⟨hm,ho,?_,.inl rfl⟩
    rw [Chain.setAccount,← ha,update_eq_self]
  | none =>
    simp only [ha,bind_eq_ok,load_eq_ok] at h
    obtain ⟨m,_,h⟩ := h
    cases h
    exact ⟨rfl,rfl,rfl,.inr ⟨rfl,rfl,rfl⟩⟩

theorem transferTokensFromProgram_eq_ok {s s' : Chain D M} {src dst mint authority : Key}
    {amount : Nat} {a b : TokenAccount} (ha : s.accounts src=some a) (hb : s.accounts dst=some b)
    (hne : src≠dst) (h : transferTokensFromProgram s src dst amount mint authority=.ok s') :
    amount≤a.amount ∧ b.amount+amount<2^64 ∧
      s'=(s.setAccount src {a with amount := a.amount-amount}).setAccount dst
        {b with amount := b.amount+amount} := by
  unfold transferTokensFromProgram at h
  cases hm : s.mints mint with
  | none =>
    rw [ha,hb,hm] at h
    exact nomatch h
  | some m =>
    simp only [ha,hb,hm,if_neg hne] at h
    split at h
    · rename_i hc
      split at h
      · rename_i hlt
        exact ⟨hc.2.2.2.2.2,hlt,(Except.ok.inj h).symm⟩
      · exact nomatch h
    · exact nomatch h

structure RecoverM.Accepted (s : Chain D M) (ctx : RecoverM) (g : EarnGlobal D)
    (src dst : TokenAccount) (amount : Nat) : Prop where
  global : s.globalAccount=some g
  mint : ctx.mMint=g.mMint
  admin : ctx.admin=g.admin
  source : s.accounts ctx.sourceTokenAccount=some src
  sourceMint : src.mint=g.mMint
  frozen : src.state=.Frozen
  destination : s.accounts ctx.destinationTokenAccount=some dst
  destinationMint : dst.mint=g.mMint
  distinct : ctx.sourceTokenAccount≠ctx.destinationTokenAccount
  covered : amount ≤ src.amount
  fits : dst.amount+amount<2^64

/-- What recover_m does when it succeeds: the source must differ from the destination, ends
frozen again and the destination ends thawed. -/
theorem RecoverM.handler_eq_ok {P : Program D M} {s s' : Chain D M} {ctx : RecoverM}
    {amount : Option Nat} (h : handler P s ctx amount=.ok s') :
    ∃ g src dst,Accepted s ctx g src dst (amount.getD src.amount) ∧
      s'=(s.setAccount ctx.sourceTokenAccount
        {src with amount := src.amount-amount.getD src.amount}).setAccount
          ctx.destinationTokenAccount
          {dst with amount := dst.amount+amount.getD src.amount,state := .Initialized} := by
  simp only [handler,thawTokenAccount,freezeTokenAccount,bind_eq_ok,loadGlobal_eq_ok,
    loadTokenAccount_eq_ok,require_eq_ok] at h
  obtain ⟨g,⟨_,hg⟩,_,hm,_,hadm,src,⟨hsrc,hsm⟩,_,hst,dst,⟨hdst,hdm⟩,s1,h1,s2,h2,s3,h3,h4⟩ := h
  obtain ⟨src',hsrc',_,_,_,rfl⟩ := setFrozen_eq_ok.mp h1
  rw [hsrc] at hsrc'
  cases hsrc'
  have hne : ctx.sourceTokenAccount≠ctx.destinationTokenAccount := by
    -- an aliased account was read frozen, so it is thawed twice and the second thaw fails
    intro he
    rw [← he] at h2 hdst
    rw [hsrc] at hdst
    cases hdst
    rw [thawIfFrozen,if_pos hst] at h2
    obtain ⟨acc,hacc,_,_,hn,_⟩ := setFrozen_eq_ok.mp h2
    rw [Chain.setAccount_accounts,update_self] at hacc
    cases hacc
    exact hn rfl
  have hdst1 : (s.setAccount ctx.sourceTokenAccount
      {src with state := .Initialized}).accounts ctx.destinationTokenAccount=some dst := by
    rw [Chain.setAccount_accounts,update_of_ne hne.symm,hdst]
  rw [thawIfFrozen_eq_ok hdst1 h2] at h3
  obtain ⟨hle,hlt,rfl⟩ := transferTokensFromProgram_eq_ok
    (by rw [Chain.setAccount_accounts,update_of_ne hne,Chain.setAccount_accounts,update_self])
    (by rw [Chain.setAccount_accounts,update_self]) hne h3
  obtain ⟨acc,hacc,_,_,_,rfl⟩ := setFrozen_eq_ok.mp h4
  rw [Chain.setAccount_accounts,update_of_ne hne,Chain.setAccount_accounts,update_self] at hacc
  cases hacc
  refine ⟨g,src,dst,⟨hg,hm,hadm,hsrc,hsm,hst,hdst,hdm,hne,hle,hlt⟩,?_⟩
  simp only [Chain.setAccount,Chain.mk.injEq,true_and]
  funext key
  by_cases hd : key=ctx.destinationTokenAccount
  · rw [hd,update_of_ne hne.symm,update_self,update_self]
  · by_cases hs : key=ctx.sourceTokenAccount
    · rw [hs,update_self,update_of_ne hne,update_self,← hst]
    · simp only [update_of_ne hd,update_of_ne hs]

structure UpdatePortalAuthority.Accepted (P : Program D M) (s : Chain D M)
    (ctx : UpdatePortalAuthority) (g : EarnGlobal D) (portal : TokenAccount) : Prop where
  global : s.globalAccount=some g
  admin : ctx.admin=g.admin
  mint : ctx.mMint=g.mMint
  authority : ctx.newPortalAuthority=P.portalTokenAuthority
  associated : ctx.portalMAccount=P.associatedToken P.portalTokenAuthority g.mMint
  portalMint : portal.mint=g.mMint
  portalOwner : portal.owner=P.portalTokenAuthority
  stored : s.accounts ctx.portalMAccount=some portal ∨
    s.accounts ctx.portalMAccount=none ∧ portal.immutableOwner ∧ portal.amount=0

/-- update_portal_authority records the PDA as the Portal's authority and leaves its associated
account there and thawed. -/
theorem UpdatePortalAuthority.handler_eq_ok {P : Program D M} {s s' : Chain D M}
    {ctx : UpdatePortalAuthority} (h : handler P s ctx=.ok s') :
    ∃ g portal,Accepted P s ctx g portal ∧
      s'={s.setAccount ctx.portalMAccount {portal with state := .Initialized} with
        globalAccount := some {g with portalAuthority := P.portalTokenAuthority}} := by
  simp only [handler,bind_eq_ok,loadGlobal_eq_ok,require_eq_ok,Prod.exists] at h
  obtain ⟨g,⟨_,hg⟩,_,hadm,_,hm,_,hp,_,hata,s1,portal,hinit,hthaw⟩ := h
  obtain ⟨hpm,hpo,rfl,hold⟩ := initIfNeeded_eq_ok hinit
  have hs' := thawIfFrozen_eq_ok (by simp) hthaw
  rw [hp] at hata hpo
  rw [hm] at hata hpm
  refine ⟨g,portal,⟨hg,hadm,hm,hp,hata,hpm,hpo,hold⟩,?_⟩
  rw [hs',hp]
  simp [Chain.setAccount]

section Multiplier

variable [LinearOrder M]

omit [LinearOrder M] in
theorem getScaledUiConfig_eq_ok {s : Chain D M} {mint : Key} {c : ScaledUiAmountConfig M} :
    getScaledUiConfig s mint=.ok c ↔ ∃ m,s.mints mint=some m ∧ m.scaledUiAmount=some c := by
  simp only [getScaledUiConfig,bind_eq_ok,load_eq_ok]

theorem updateMultiplier_eq_ok {s s' : Chain D M} {mint authority : Key} {x : M}
    (h : updateMultiplier s mint authority x=.ok s') :
    ∃ m c,s.mints mint=some m ∧ m.scaledUiAmount=some c ∧
      (x≤c.newMultiplier ∧ s'=s ∨
        c.newMultiplier<x ∧ s'=s.setMint mint
          {m with scaledUiAmount := some {c with newMultiplier := x}}) := by
  simp only [updateMultiplier,bind_eq_ok,getScaledUiConfig_eq_ok] at h
  obtain ⟨c,⟨m,hm,hc⟩,h⟩ := h
  refine ⟨m,c,hm,hc,?_⟩
  by_cases hx : x>c.newMultiplier
  · simp only [if_pos hx,bind_eq_ok,load_eq_ok] at h
    obtain ⟨_,_,m',hm',h⟩ := h
    rw [hm] at hm'
    cases hm'
    cases h
    exact .inr ⟨hx,rfl⟩
  · rw [if_neg hx] at h
    cases h
    exact .inl ⟨le_of_not_gt hx,rfl⟩

section Propagate

variable [DecidableEq D] {P : Program D M}

omit [LinearOrder M] in
@[simp] theorem PropagateIndex.storeRoot_mints (s : Chain D M) (g : EarnGlobal D) (r : D) :
    (storeRoot P s g r).mints=s.mints := by
  unfold storeRoot
  split <;> rfl

omit [LinearOrder M] in
@[simp] theorem PropagateIndex.storeRoot_accounts (s : Chain D M) (g : EarnGlobal D) (r : D) :
    (storeRoot P s g r).accounts=s.accounts := by
  unfold storeRoot
  split <;> rfl

omit [LinearOrder M] in
/-- The zero word carries no root: the stored one stays. -/
theorem PropagateIndex.storeRoot_global {s : Chain D M} {g : EarnGlobal D} (r : D)
    (hg : s.globalAccount=some g) : (storeRoot P s g r).globalAccount=
      some {g with earnerMerkleRoot := if r≠P.zeroRoot then r else g.earnerMerkleRoot} := by
  unfold storeRoot
  by_cases hr : r≠P.zeroRoot
  · rw [if_pos hr,if_pos hr]
  · rw [if_neg hr,if_neg hr,hg]

/-- The three outcomes of an accepted propagate_index: stale, equal, and greater. -/
theorem PropagateIndex.handler_eq_ok {s s' : Chain D M} {ctx : PropagateIndex} {newIndex : Nat}
    {root : D} {ts : Int} {events : List (IndexUpdateV2 M)}
    (h : handler P s ctx newIndex root ts=.ok (s',events)) :
    ∃ g m c,s.globalAccount=some g ∧ authorized P g ctx.signer ∧ s.mints g.mMint=some m ∧
      m.scaledUiAmount=some c ∧
      (P.indexToMultiplier newIndex<c.newMultiplier ∧ s'=s ∧ events=[] ∨
        P.indexToMultiplier newIndex=c.newMultiplier ∧ s'=storeRoot P s g root ∧ events=[] ∨
        c.newMultiplier<P.indexToMultiplier newIndex ∧
          s'=(storeRoot P s g root).setMint g.mMint
            {m with scaledUiAmount := some {c with newMultiplier := P.indexToMultiplier newIndex}} ∧
          events=[⟨newIndex,ts,m.supply,c.newMultiplier,P.indexToMultiplier newIndex⟩]) := by
  simp only [handler,bind_eq_ok,loadGlobal_eq_ok,require_eq_ok,
    getScaledUiConfig_eq_ok] at h
  obtain ⟨g,⟨_,hg⟩,_,hauth,_,hmint,c,⟨m,hm,hc⟩,h⟩ := h
  rw [hmint] at hm h
  refine ⟨g,m,c,hg,hauth,hm,hc,?_⟩
  by_cases hge : P.indexToMultiplier newIndex≥c.newMultiplier
  · rw [if_pos hge] at h
    by_cases hgt : P.indexToMultiplier newIndex>c.newMultiplier
    · simp only [if_pos hgt,bind_eq_ok,load_eq_ok,getScaledUiConfig_eq_ok] at h
      obtain ⟨s1,h1,m',hm',c',⟨m'',hm'',hc'⟩,h⟩ := h
      obtain ⟨m0,c0,hm0,hc0,hup⟩ := updateMultiplier_eq_ok h1
      rw [storeRoot_mints,hm] at hm0
      cases hm0
      rw [hc] at hc0
      cases hc0
      rcases hup with ⟨hle,_⟩|⟨_,rfl⟩
      · exact absurd hle (not_le_of_gt hgt)
      · rw [Chain.setMint_mints,update_self] at hm' hm''
        cases hm'
        cases hm''
        cases hc'
        cases h
        exact .inr (.inr ⟨hgt,rfl,rfl⟩)
    · rw [if_neg hgt] at h
      cases h
      exact .inr (.inl ⟨le_antisymm (le_of_not_gt hgt) hge,rfl,rfl⟩)
  · rw [if_neg hge] at h
    cases h
    exact .inl ⟨lt_of_not_ge hge,rfl,rfl⟩

/-- While the mint's multiplier is the program's to write, nothing stops an authorized caller. -/
theorem PropagateIndex.handler_succeeds {s : Chain D M} {g : EarnGlobal D} {m : Mint M} {x : M}
    (hg : s.globalAccount=some g) (hm : s.mints g.mMint=some m)
    (hc : m.scaledUiAmount=some ⟨P.globalAddress,x⟩) {signer : Key}
    (hauth : authorized P g signer) (newIndex : Nat) (root : D) (ts : Int) :
    ∃ s' es,handler P s ⟨signer,P.globalAddress,g.mMint⟩ newIndex root ts=.ok (s',es) := by
  have hload : loadGlobal P s P.globalAddress=.ok g :=
    (loadGlobal_eq_ok P).mpr ⟨rfl,hg⟩
  have hcfg : getScaledUiConfig s g.mMint=.ok ⟨P.globalAddress,x⟩ :=
    getScaledUiConfig_eq_ok.mpr ⟨m,hm,hc⟩
  have hm' : (storeRoot P s g root).mints g.mMint=some m := by
    rw [storeRoot_mints]
    exact hm
  simp only [handler,hload,hcfg,require,if_pos hauth,if_true,bind,Except.bind]
  by_cases hge : P.indexToMultiplier newIndex≥x
  · rw [if_pos hge]
    by_cases hgt : P.indexToMultiplier newIndex>x
    · simp [if_pos hgt,updateMultiplier,getScaledUiConfig,hm',hc,load,require,bind,Except.bind]
    · rw [if_neg hgt]
      exact ⟨_,_,rfl⟩
  · rw [if_neg hge]
    exact ⟨_,_,rfl⟩

theorem PropagateIndex.handler_addressed {s s' : Chain D M} {ctx : PropagateIndex} {g : EarnGlobal D}
    {newIndex : Nat} {root : D} {ts : Int} {es : List (IndexUpdateV2 M)} (hg : s.globalAccount=some g)
    (h : handler P s ctx newIndex root ts=.ok (s',es)) :
    ctx.globalAccount=P.globalAddress ∧ ctx.mMint=g.mMint ∧ authorized P g ctx.signer := by
  simp only [handler,bind_eq_ok,loadGlobal_eq_ok,require_eq_ok] at h
  obtain ⟨g',⟨haddress,hg'⟩,_,hauth,_,hmint,_⟩ := h
  cases hg.symm.trans hg'
  exact ⟨haddress,hmint,hauth⟩

end Propagate

/-- The mint initialize accepts: controlled by the global account and not ahead of the index. -/
theorem Initialize.validate_eq_ok {P : Program D M} {s : Chain D M} {ctx : Initialize}
    {currentIndex : Nat} {u : Unit} (h : validate P s ctx currentIndex=.ok u) :
    ∃ m c,s.mints ctx.mMint=some m ∧ m.scaledUiAmount=some c ∧ c.authority=ctx.globalAccount ∧
      c.newMultiplier≤P.indexToMultiplier currentIndex ∧ m.defaultAccountState=some .Frozen ∧
      m.freezeAuthority=some ctx.globalAccount ∧ m.permanentDelegate=some ctx.globalAccount := by
  simp only [validate,bind_eq_ok,load_eq_ok] at h
  obtain ⟨m,hm,h⟩ := h
  cases hc : m.scaledUiAmount with
  | none =>
    rw [hc] at h
    exact nomatch h
  | some c =>
    simp only [hc,bind_eq_ok,require_eq_ok] at h
    obtain ⟨_,hauth,_,hle,_,hdef,_,hfr,hpd⟩ := h
    exact ⟨m,c,hm,hc,hauth,le_of_not_gt hle,hdef,hfr,hpd⟩

structure Initialize.Established (P : Program D M) (s s' : Chain D M) (ctx : Initialize)
    (currentIndex : Nat) : Prop where
  fresh : s.globalAccount=none
  portalAccount : ctx.portalMAccount=P.associatedToken P.portalTokenAuthority ctx.mMint
  extSwapAccount : ctx.extSwapMAccount=P.associatedToken P.extSwapGlobal ctx.mMint
  global : s'.globalAccount=
    some ⟨ctx.admin,ctx.mMint,P.portalTokenAuthority,P.extSwapGlobal,P.zeroRoot⟩
  mint : ∃ m,s'.mints=update s.mints ctx.mMint (some m) ∧
    m.freezeAuthority=some P.globalAddress ∧ m.permanentDelegate=some P.globalAddress ∧
    m.defaultAccountState=some .Frozen ∧
    m.scaledUiAmount=some ⟨P.globalAddress,P.indexToMultiplier currentIndex⟩
  others : ∀ key,key≠ctx.portalMAccount → key≠ctx.extSwapMAccount →
    s'.accounts key=s.accounts key

/-- A successful initialize creates the global account, puts the mint under its control at the
multiplier of the first index, and touches no accounts but the program's two. -/
theorem Initialize.handler_eq_ok {P : Program D M} {s s' : Chain D M} {ctx : Initialize}
    {currentIndex : Nat} (h : handler P s ctx currentIndex=.ok s') :
    Established P s s' ctx currentIndex := by
  simp only [handler,accounts,bind_eq_ok,require_eq_ok,load_eq_ok,Prod.exists] at h
  obtain ⟨s3,portal,extSwap,⟨_,⟨hga,hnone⟩,_,_,_,_,_,hpa,_,hea,_,hpata,s1,portal',h1,_,heata,s2,
    extSwap',h2,heq⟩,_,hval,s4,h4,s5,h5,h6⟩ := h
  cases heq
  obtain ⟨hpm,_,rfl,_⟩ := initIfNeeded_eq_ok h1
  obtain ⟨hem,_,rfl,_⟩ := initIfNeeded_eq_ok h2
  obtain ⟨m,c,hm,hc,hauth,hle,hdef,hfr,hpd⟩ := validate_eq_ok hval
  obtain ⟨hg5,hm5,ha5⟩ := thawIfFrozen_frame h5
  obtain ⟨hg6,hm6,ha6⟩ := thawIfFrozen_frame h6
  simp only [Chain.setAccount_mints] at hm
  rw [hga] at hauth hfr hpd
  have hinitial : c=⟨P.globalAddress,c.newMultiplier⟩ := by rw [← hauth]
  obtain ⟨m',c',hm',hc',hup⟩ := updateMultiplier_eq_ok h4
  simp only [Chain.setAccount_mints,hm,Option.some.injEq] at hm'
  subst hm'
  rw [hc] at hc'
  cases hc'
  rw [hpa] at hpata
  rw [hea] at heata
  refine ⟨Option.isNone_iff_eq_none.mp hnone,hpata,heata,?_,?_,?_⟩
  · rw [hg6,hg5]
    rcases hup with ⟨_,rfl⟩|⟨_,rfl⟩
    · simp only [hpa,hea]
    · simp only [Chain.setMint_globalAccount,hpa,hea]
  · rw [hm6,hm5]
    rcases hup with ⟨hge,rfl⟩|⟨_,rfl⟩
    · refine ⟨m,?_,hfr,hpd,hdef,?_⟩
      · simp only [Chain.setAccount_mints,← hm,update_eq_self]
      · rw [hc,hinitial,le_antisymm hle hge]
    · refine ⟨{m with scaledUiAmount := some {c with newMultiplier := P.indexToMultiplier currentIndex}},
        rfl,hfr,hpd,hdef,?_⟩
      rw [← hauth]
  · intro key hp he
    rw [ha6 key he,ha5 key hp]
    rcases hup with ⟨_,rfl⟩|⟨_,rfl⟩ <;>
      simp only [Chain.setMint_accounts,Chain.setAccount_accounts,update_of_ne he,update_of_ne hp]

end Multiplier

end SolanaM.Earn
