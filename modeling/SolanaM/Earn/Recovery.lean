import SolanaM.Earn.Accounts
import SolanaM.Math.Ledger

namespace SolanaM.Earn

open Function

variable {D M : Type}

/-- The units of a mint that the account at a key holds. -/
def holding (s : Chain D M) (mint key : Key) : Nat :=
  match s.accounts key with
  | some acc => if acc.mint=mint then acc.amount else 0
  | none => 0

theorem holding_eq {s : Chain D M} {mint key : Key} {acc : TokenAccount}
    (hacc : s.accounts key=some acc) (hmint : acc.mint=mint) : holding s mint key=acc.amount := by
  rw [holding,hacc]
  exact if_pos hmint

/-- Writing an account writes what it holds of its own mint. -/
theorem holding_setAccount (s : Chain D M) (mint key : Key) (acc : TokenAccount) :
    holding (s.setAccount key acc) mint=
      update (holding s mint) key (if acc.mint=mint then acc.amount else 0) := by
  funext k
  by_cases hk : k=key
  · rw [hk,update_self,holding,Chain.setAccount_accounts,update_self]
  · rw [update_of_ne hk,holding,Chain.setAccount_accounts,update_of_ne hk,holding]

/-- An account that keeps its mint and its amount holds what it held. -/
theorem holding_setAccount_self {s : Chain D M} {key : Key} {old : TokenAccount}
    (hold : s.accounts key=some old) (acc : TokenAccount) (hmint : acc.mint=old.mint)
    (hamount : acc.amount=old.amount) (mint : Key) :
    holding (s.setAccount key acc) mint=holding s mint := by
  rw [holding_setAccount,hmint,hamount]
  refine update_eq_self_iff.mpr ?_
  rw [holding,hold]

/-- Two distinct accounts of one mint between which an amount has gone. -/
theorem holding_transfer {s : Chain D M} {source destination : Key} {src dst : TokenAccount}
    (x : Nat) (hsrc : s.accounts source=some src) (hdst : s.accounts destination=some dst)
    (hne : source≠destination) (hmint : src.mint=dst.mint) (src' dst' : TokenAccount)
    (hsrc' : src'.mint=src.mint) (hdst' : dst'.mint=dst.mint) (hless : src'.amount=src.amount-x)
    (hmore : dst'.amount=dst.amount+x) (mint : Key) :
    holding ((s.setAccount source src').setAccount destination dst') mint=
      if src.mint=mint then Ledger.move (holding s mint) source destination x
      else holding s mint := by
  have hkeep : (s.setAccount source src').accounts destination=some dst := by
    rw [Chain.setAccount_accounts,update_of_ne hne.symm,hdst]
  rw [holding_setAccount,holding_setAccount,hsrc',hdst',← hmint]
  split
  · rename_i hm
    rw [Ledger.move,holding_eq hsrc hm,holding_eq hdst (hmint ▸ hm),hless,hmore]
  · rename_i hm
    have hsource : 0=holding s mint source := by
      rw [holding,hsrc]
      exact (if_neg hm).symm
    have hdestination : 0=holding s mint destination := by
      rw [holding,hdst]
      exact (if_neg (hmint ▸ hm)).symm
    have hkept : update (holding s mint) source 0=holding s mint := update_eq_self_iff.mpr hsource
    rw [hkept]
    exact update_eq_self_iff.mpr hdestination

namespace RecoverM

variable (P : Program D M)

/-- The account constraints of recover_m and the admin's signature. -/
structure Constraints (s : Chain D M) (ctx : RecoverM) (g : EarnGlobal D)
    (src dst : TokenAccount) : Prop where
  address : ctx.globalAccount=P.globalAddress
  global : s.globalAccount=some g
  mint : ctx.mMint=g.mMint
  admin : ctx.admin=g.admin
  source : s.accounts ctx.sourceTokenAccount=some src
  sourceMint : src.mint=g.mMint
  frozen : src.state=.Frozen
  destination : s.accounts ctx.destinationTokenAccount=some dst
  destinationMint : dst.mint=g.mMint

end RecoverM

/-- The program controls the mint, and Token-2022 has issued no more of it than a u64 counts. -/
def Operational (P : Program D M) (mMint : Key) (s : Chain D M) : Prop :=
  ∃ m,s.mints mMint=some m ∧ m.freezeAuthority=some P.globalAddress ∧
    m.permanentDelegate=some P.globalAddress ∧ m.supply<2^64 ∧
    Ledger.Backed (holding s mMint) m.supply

section
variable {P : Program D M} {s s' : Chain D M} {ctx : RecoverM} {g : EarnGlobal D}
  {src dst : TokenAccount} {amount : Option Nat}

theorem setFrozen_of_freezable {acc : TokenAccount} {key mint authority : Key}
    {target : AccountState} (hacc : s.accounts key=some acc) (hmint : acc.mint=mint)
    (hf : Freezable s mint authority) (hst : acc.state≠target) :
    setFrozen s key mint authority target=.ok (s.setAccount key {acc with state := target}) :=
  setFrozen_eq_ok.mpr ⟨acc,hacc,hmint,hf,hst,rfl⟩

private theorem thawIfFrozen_of_freezable {acc : TokenAccount} {key mint authority : Key}
    (hacc : s.accounts key=some acc) (hmint : acc.mint=mint) (hf : Freezable s mint authority) :
    thawIfFrozen s acc key mint authority=.ok (s.setAccount key {acc with state := .Initialized}) := by
  have hok : ∃ s',thawIfFrozen s acc key mint authority=.ok s' := by
    by_cases hst : acc.state=.Frozen
    · rw [thawIfFrozen,if_pos hst]
      exact ⟨_,setFrozen_of_freezable hacc hmint hf (by simp [hst])⟩
    · exact ⟨s,if_neg hst⟩
  obtain ⟨s',hs'⟩ := hok
  rw [hs',thawIfFrozen_eq_ok hacc hs']

private theorem transferTokensFromProgram_of_covered {m : Mint M}
    {source destination mint authority : Key}
    {x : Nat} (hm : s.mints mint=some m) (hdelegate : m.permanentDelegate=some authority)
    (hsrc : s.accounts source=some src) (hdst : s.accounts destination=some dst)
    (hsm : src.mint=mint) (hdm : dst.mint=mint) (hss : src.state=.Initialized)
    (hds : dst.state=.Initialized) (hne : source≠destination) (hx : x ≤ src.amount)
    (hfits : dst.amount+x<2^64) :
    transferTokensFromProgram s source destination x mint authority=
      .ok ((s.setAccount source {src with amount := src.amount-x}).setAccount destination
        {dst with amount := dst.amount+x}) := by
  rw [transferTokensFromProgram,hsrc,hdst,hm]
  simp only [hsm,hdm,hss,hds,hdelegate,hx,and_self,if_true,if_neg hne,if_pos hfits]

/-- Between two distinct accounts recover_m moves what the source covers. -/
theorem RecoverM.handler_of_covered (hc : Constraints P s ctx g src dst)
    (ho : Operational P g.mMint s) (hne : ctx.sourceTokenAccount≠ctx.destinationTokenAccount)
    (hx : amount.getD src.amount ≤ src.amount) : ∃ s',handler P s ctx amount=.ok s' := by
  obtain ⟨m,hm,hfreeze,hdelegate,hsupply,hbacked⟩ := ho
  have hfreezable : Freezable s ctx.mMint ctx.globalAccount := by
    rw [hc.mint,hc.address]
    exact ⟨m,hm,hfreeze⟩
  have hfits : dst.amount+amount.getD src.amount<2^64 := by
    have hpair := hbacked.pair hne
    rw [holding_eq hc.source hc.sourceMint,holding_eq hc.destination hc.destinationMint] at hpair
    omega
  have hsm : src.mint=ctx.mMint := hc.sourceMint.trans hc.mint.symm
  have hdm : dst.mint=ctx.mMint := hc.destinationMint.trans hc.mint.symm
  -- the source is thawed
  set thawed := s.setAccount ctx.sourceTokenAccount {src with state := .Initialized} with hthawed
  have hthawSource : thawTokenAccount s ctx.sourceTokenAccount ctx.mMint ctx.globalAccount=
      .ok thawed := setFrozen_of_freezable hc.source hsm hfreezable (by simp [hc.frozen])
  have hdestination : thawed.accounts ctx.destinationTokenAccount=some dst := by
    rw [hthawed,Chain.setAccount_accounts,update_of_ne hne.symm,hc.destination]
  have hthaw := thawIfFrozen_of_freezable (s := thawed) hdestination hdm hfreezable
  set opened := thawed.setAccount ctx.destinationTokenAccount {dst with state := .Initialized}
    with hopened
  have hopenedSource : opened.accounts ctx.sourceTokenAccount=
      some {src with state := .Initialized} := by
    rw [hopened,Chain.setAccount_accounts,update_of_ne hne,hthawed,Chain.setAccount_accounts,
      update_self]
  have hopenedDestination : opened.accounts ctx.destinationTokenAccount=
      some {dst with state := .Initialized} := by
    rw [hopened,Chain.setAccount_accounts,update_self]
  have hmint : opened.mints ctx.mMint=some m := by rw [hc.mint]; exact hm
  have htransfer := transferTokensFromProgram_of_covered hmint
    (hdelegate.trans (congrArg some hc.address.symm)) hopenedSource hopenedDestination hsm hdm
    rfl rfl hne hx hfits
  set moved := (opened.setAccount ctx.sourceTokenAccount
    {src with state := .Initialized,amount := src.amount-amount.getD src.amount}).setAccount
      ctx.destinationTokenAccount
        {dst with state := .Initialized,amount := dst.amount+amount.getD src.amount} with hmoved
  have hmovedSource : moved.accounts ctx.sourceTokenAccount=
      some {src with state := .Initialized,amount := src.amount-amount.getD src.amount} := by
    rw [hmoved,Chain.setAccount_accounts,update_of_ne hne,Chain.setAccount_accounts,update_self]
  -- the source is frozen again
  have hfreezeSource : freezeTokenAccount moved ctx.sourceTokenAccount ctx.mMint
      ctx.globalAccount=.ok (moved.setAccount ctx.sourceTokenAccount
        {src with state := .Frozen,amount := src.amount-amount.getD src.amount}) :=
    setFrozen_of_freezable hmovedSource hsm hfreezable (by simp)
  refine ⟨moved.setAccount ctx.sourceTokenAccount
    {src with state := .Frozen,amount := src.amount-amount.getD src.amount},?_⟩
  simp only [handler,bind_eq_ok,loadGlobal_eq_ok,loadTokenAccount_eq_ok,require_eq_ok]
  exact ⟨g,⟨hc.address,hc.global⟩,(),hc.mint,(),hc.admin,src,⟨hc.source,hc.sourceMint⟩,(),hc.frozen,
    dst,⟨hc.destination,hc.destinationMint⟩,thawed,hthawSource,opened,hthaw,moved,htransfer,
    hfreezeSource⟩

end

section Conserved

variable {P : Program D M} {s s' : Chain D M}

/-- What a successful recover_m leaves: x units have gone from the frozen source to the thawed
destination and nothing else has changed. -/
structure RecoverM.Moved (s s' : Chain D M) (ctx : RecoverM) (src dst : TokenAccount) (x : Nat) :
    Prop where
  distinct : ctx.sourceTokenAccount≠ctx.destinationTokenAccount
  covered : x ≤ src.amount
  source : s'.accounts ctx.sourceTokenAccount=
    some {src with amount := src.amount-x,state := .Frozen}
  destination : s'.accounts ctx.destinationTokenAccount=
    some {dst with amount := dst.amount+x,state := .Initialized}
  others : ∀ key,key≠ctx.sourceTokenAccount → key≠ctx.destinationTokenAccount →
    s'.accounts key=s.accounts key
  mints : s'.mints=s.mints
  globalAccount : s'.globalAccount=s.globalAccount
  total : ∀ mint (keys : Finset Key),ctx.sourceTokenAccount∈keys →
    ctx.destinationTokenAccount∈keys →
    ∑ key∈keys,holding s' mint key=∑ key∈keys,holding s mint key

theorem RecoverM.handler_moved {ctx : RecoverM}
    {g : EarnGlobal D} {src dst : TokenAccount} {amount : Option Nat}
    (hc : Constraints P s ctx g src dst) (h : handler P s ctx amount=.ok s') :
    Moved s s' ctx src dst (amount.getD src.amount) := by
  obtain ⟨g',src',dst',hacc,hs'⟩ := handler_eq_ok h
  have hsrc := hacc.source
  rw [hc.source] at hsrc
  cases hsrc
  have hdst := hacc.destination
  rw [hc.destination] at hdst
  cases hdst
  have hmoved (mint : Key) : holding s' mint=
      if src.mint=mint then Ledger.move (holding s mint) ctx.sourceTokenAccount
        ctx.destinationTokenAccount (amount.getD src.amount)
      else holding s mint := by
    rw [hs']
    exact holding_transfer (amount.getD src.amount) hc.source hc.destination hacc.distinct
      (hc.sourceMint.trans hc.destinationMint.symm)
      {src with amount := src.amount-amount.getD src.amount}
      {dst with amount := dst.amount+amount.getD src.amount,state := .Initialized}
      rfl rfl rfl rfl mint
  refine ⟨hacc.distinct,hacc.covered,?_,?_,?_,by rw [hs']; rfl,by rw [hs']; rfl,?_⟩
  · rw [hs',Chain.setAccount_accounts,update_of_ne hacc.distinct,Chain.setAccount_accounts,
      update_self,← hc.frozen]
  · rw [hs',Chain.setAccount_accounts,update_self]
  · intro key hs hd
    rw [hs',Chain.setAccount_accounts,update_of_ne hd,Chain.setAccount_accounts,update_of_ne hs]
  · intro mint keys hs hd
    rw [hmoved]
    split
    · rename_i hm
      refine Ledger.sum_move hs hd hacc.distinct ?_
      rw [holding_eq hc.source hm]
      exact hacc.covered
    · rfl

variable [LinearOrder M] [DecidableEq D]

/-- recover_m either leaves the chain as it was or moves x units, the given amount or all the
source holds, and it does move them whenever the two accounts differ and the source covers x. -/
theorem recover_conserves (P : Program D M) (s : Chain D M) (ctx : RecoverM) (amount : Option Nat)
    (g : EarnGlobal D) (src dst : TokenAccount) (hc : RecoverM.Constraints P s ctx g src dst) :
    ((∃ failure,(program P).step s (.recoverM ctx amount)=.error failure) ∧
        (program P).exec s (.recoverM ctx amount)=s ∨
      (program P).step s (.recoverM ctx amount)=
        .ok ((program P).exec s (.recoverM ctx amount),[]) ∧
      RecoverM.Moved s ((program P).exec s (.recoverM ctx amount)) ctx src dst
        (amount.getD src.amount)) ∧
    (Operational P g.mMint s → ctx.sourceTokenAccount≠ctx.destinationTokenAccount →
      amount.getD src.amount ≤ src.amount →
      ∃ s',(program P).step s (.recoverM ctx amount)=.ok (s',[])) := by
  constructor
  · cases h : RecoverM.handler P s ctx amount with
    | error failure =>
      have hstep : (program P).step s (.recoverM ctx amount)=.error failure := by
        simp only [program,h]
        rfl
      exact .inl ⟨⟨failure,hstep⟩,(program P).exec_of_error hstep⟩
    | ok s' =>
      have hstep : (program P).step s (.recoverM ctx amount)=.ok (s',[]) :=
        silent_eq_ok.mpr ⟨h,rfl⟩
      rw [(program P).exec_of_ok hstep]
      exact .inr ⟨hstep,RecoverM.handler_moved hc h⟩
  · intro ho hne hx
    obtain ⟨s',hs'⟩ := RecoverM.handler_of_covered hc ho hne hx
    exact ⟨s',silent_eq_ok.mpr ⟨hs',rfl⟩⟩

end Conserved

section Sample

def sampleRecover : RecoverM := ⟨.ofByte 11,.ofByte 1,.ofByte 6,.ofByte 7,.ofByte 9⟩

theorem sampleStart_constraints : RecoverM.Constraints sampleProgram sampleStart sampleRecover
    ⟨.ofByte 11,.ofByte 6,.ofByte 2,.ofByte 3,.zero⟩ ⟨.ofByte 6,.ofByte 8,5,.Frozen,true⟩
    ⟨.ofByte 6,.ofByte 10,0,.Frozen,false⟩ :=
  ⟨rfl,rfl,rfl,rfl,rfl,rfl,rfl,rfl,rfl⟩

/-- The one balance of the sample is all that its mint has issued. -/
theorem sampleStart_operational : Operational sampleProgram (.ofByte 6) sampleStart := by
  refine ⟨⟨6,5,some (.ofByte 1),some ⟨.ofByte 1,1⟩,some .Frozen,some (.ofByte 1)⟩,rfl,rfl,rfl,
    by decide,Ledger.backed_of_single (a := .ofByte 7) ?_ (by decide)⟩
  intro key hkey
  by_cases hp : key=.ofByte 4
  · rw [hp]
    rfl
  · by_cases he : key=.ofByte 5
    · rw [he]
      rfl
    · rw [holding,(Initialize.handler_eq_ok sampleStart_eq).others key hp he]
      by_cases hsecond : key=.ofByte 9
      · rw [hsecond]
        rfl
      · simp only [sampleChain,if_neg hkey,if_neg hsecond]

/-- The admin takes three of the five units. -/
theorem recover_conserves_sample :
    ∃ s',(program sampleProgram).step sampleStart (.recoverM sampleRecover (some 3))=.ok (s',[]) ∧
      s'.accounts (.ofByte 7)=some ⟨.ofByte 6,.ofByte 8,2,.Frozen,true⟩ ∧
      s'.accounts (.ofByte 9)=some ⟨.ofByte 6,.ofByte 10,3,.Initialized,false⟩ := by
  obtain ⟨hmoved,hsucceeds⟩ := recover_conserves sampleProgram sampleStart sampleRecover (some 3)
    ⟨.ofByte 11,.ofByte 6,.ofByte 2,.ofByte 3,.zero⟩ ⟨.ofByte 6,.ofByte 8,5,.Frozen,true⟩
    ⟨.ofByte 6,.ofByte 10,0,.Frozen,false⟩ sampleStart_constraints
  obtain ⟨s',hs'⟩ := hsucceeds sampleStart_operational (by decide) (by decide)
  rcases hmoved with ⟨⟨failure,hfailed⟩,_⟩|⟨_,hm⟩
  · rw [hfailed] at hs'
    cases hs'
  · rw [(program sampleProgram).exec_of_ok hs'] at hm
    exact ⟨s',hs',hm.source,hm.destination⟩

end Sample

end SolanaM.Earn
