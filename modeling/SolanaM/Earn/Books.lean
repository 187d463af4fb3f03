import SolanaM.Earn.Configuration
import SolanaM.Earn.Recovery

namespace SolanaM.Earn

open Function

variable {D M : Type}

/-- The units of a mint in circulation. -/
def issued (s : Chain D M) (mint : Key) : Nat := ((s.mints mint).map Mint.supply).getD 0

theorem issued_eq {s : Chain D M} {mint : Key} {m : Mint M} (hm : s.mints mint=some m) :
    issued s mint=m.supply := by
  rw [issued,hm]
  rfl

theorem issued_setMint (s : Chain D M) (key : Key) (m : Mint M) :
    issued (s.setMint key m)=update (issued s) key m.supply := by
  funext k
  by_cases hk : k=key
  · rw [hk,update_self,issued,Chain.setMint_mints,update_self]
    rfl
  · rw [update_of_ne hk,issued,Chain.setMint_mints,update_of_ne hk,issued]

/-- x units of a mint have left the account at key, which covered them. -/
structure Debited (s s' : Chain D M) (mint key : Key) (acc : TokenAccount) (x : Nat) : Prop where
  account : s.accounts key=some acc
  mint : acc.mint=mint
  covered : x ≤ acc.amount
  left : s'.accounts key=some {acc with amount := acc.amount-x}

/-- What an action enters in the books of a mint. -/
inductive Enters (s s' : Chain D M) (mint : Key) : Action D → Prop
  | nothing (a : Action D) (hheld : holding s' mint=holding s mint)
      (hissued : issued s' mint=issued s mint) : Enters s s' mint a
  | sent {source destination : Key} {amount : Nat} {acc : TokenAccount}
      (h : Debited s s' mint source acc amount) (hthawed : acc.state=.Initialized)
      (hne : source≠destination)
      (hheld : holding s' mint=Ledger.move (holding s mint) source destination amount)
      (hissued : issued s' mint=issued s mint) :
      Enters s s' mint (.token (.transfer source destination amount))
  | recovered {ctx : RecoverM} {amount : Option Nat} {g : EarnGlobal D} {src dst : TokenAccount}
      (h : Debited s s' mint ctx.sourceTokenAccount src (amount.getD src.amount))
      (hacc : RecoverM.Accepted s ctx g src dst (amount.getD src.amount))
      (hheld : holding s' mint=Ledger.move (holding s mint) ctx.sourceTokenAccount
        ctx.destinationTokenAccount (amount.getD src.amount))
      (hissued : issued s' mint=issued s mint) : Enters s s' mint (.recoverM ctx amount)
  | minted {account : Key} {amount : Nat}
      (hheld : holding s' mint=Ledger.issue (holding s mint) account amount)
      (hissued : issued s' mint=issued s mint+amount) (hfits : issued s' mint<2^64) :
      Enters s s' mint (.token (.mintTo account amount))
  | burned {account : Key} {amount : Nat} {acc : TokenAccount}
      (h : Debited s s' mint account acc amount) (hthawed : acc.state=.Initialized)
      (hheld : holding s' mint=Ledger.redeem (holding s mint) account amount)
      (hsupply : amount ≤ issued s mint) (hissued : issued s' mint=issued s mint-amount) :
      Enters s s' mint (.token (.burn account amount))

section Write

variable {s : Chain D M} {mint key : Key} {old acc : TokenAccount}

/-- What an account of another mint comes to hold does not count. -/
theorem holding_setAccount_other (hold : s.accounts key=some old) (acc : TokenAccount)
    (hsame : acc.mint=old.mint) (hother : old.mint≠mint) :
    holding (s.setAccount key acc) mint=holding s mint := by
  rw [holding_setAccount,hsame,if_neg hother]
  refine update_eq_self_iff.mpr ?_
  rw [holding,hold]
  exact (if_neg hother).symm

/-- An empty account holds what the missing one did. -/
theorem holding_setAccount_empty (hnone : s.accounts key=none) (acc : TokenAccount)
    (hempty : acc.amount=0) :
    holding (s.setAccount key acc) mint=holding s mint := by
  rw [holding_setAccount,hempty,ite_self]
  refine update_eq_self_iff.mpr ?_
  rw [holding,hnone]

private theorem holding_close (hold : s.accounts key=some old) (hempty : old.amount=0) :
    holding {s with accounts := update s.accounts key none} mint=holding s mint := by
  funext k
  by_cases hk : k=key
  · rw [hk,holding,holding,hold]
    simp [hempty]
  · simp only [holding,update_of_ne hk]

end Write

section Step

variable [LinearOrder M] [DecidableEq D] {P : Program D M} {s s' : Chain D M} {mint : Key}
  {a : Action D} {es : List (IndexUpdateV2 M)}

private theorem PropagateIndex.handler_issued {ctx : PropagateIndex} {newIndex : Nat} {root : D}
    {ts : Int}
    (h : handler P s ctx newIndex root ts=.ok (s',es)) : issued s' mint=issued s mint := by
  obtain ⟨g,m,c,_,_,hm,_,hout⟩ := handler_eq_ok h
  rcases hout with ⟨_,rfl,_⟩|⟨_,rfl,_⟩|⟨_,rfl,_⟩
  · rfl
  · rw [issued,storeRoot_mints,issued]
  · rw [issued_setMint]
    by_cases hk : mint=g.mMint
    · rw [hk,update_self,issued_eq hm]
    · rw [update_of_ne hk,issued,storeRoot_mints,issued]

/-- What an accepted action does to the books of a mint is one of the entries of Enters. -/
theorem step_enters (hg : s.globalAccount≠none) (h : (program P).step s a=.ok (s',es))
    (mint : Key) : Enters s s' mint a := by
  cases step_effect hg h with
  | propagated hok =>
    refine .nothing _ ?_ (PropagateIndex.handler_issued hok)
    funext key
    simp only [holding,PropagateIndex.handler_accounts hok]
  | @added ctx user proof g acc hacc =>
    exact .nothing _
      (holding_setAccount_self hacc.account {acc with state := .Initialized} rfl rfl mint) rfl
  | @removed ctx proofs neighbors g acc hacc =>
    exact .nothing _
      (holding_setAccount_self hacc.account {acc with state := .Frozen} rfl rfl mint) rfl
  | @recovered ctx amount g src dst hacc =>
    have hheld := holding_transfer (amount.getD src.amount) hacc.source hacc.destination
      hacc.distinct (hacc.sourceMint.trans hacc.destinationMint.symm)
      {src with amount := src.amount-amount.getD src.amount}
      {dst with amount := dst.amount+amount.getD src.amount,state := .Initialized}
      rfl rfl rfl rfl mint
    by_cases hmint : src.mint=mint
    · rw [if_pos hmint] at hheld
      refine .recovered ⟨hacc.source,hmint,hacc.covered,?_⟩ hacc hheld rfl
      rw [Chain.setAccount_accounts,update_of_ne hacc.distinct,Chain.setAccount_accounts,
        update_self]
    · rw [if_neg hmint] at hheld
      exact .nothing _ hheld rfl
  | @portal ctx g acc hacc =>
    refine .nothing _ ?_ rfl
    rcases hacc.stored with hold|⟨hnone,_,hempty⟩
    · exact holding_setAccount_self hold {acc with state := .Initialized} rfl rfl mint
    · exact holding_setAccount_empty hnone {acc with state := .Initialized} hempty
  | created hnone => exact .nothing _ (holding_setAccount_empty hnone _ rfl) rfl
  | @ownerSet account newOwner acc hacc =>
    exact .nothing _ (holding_setAccount_self hacc {acc with owner := newOwner} rfl rfl mint) rfl
  | @transferred source destination amount src dst hsrc hdst hthawed _ hmint hcovered hne =>
    have hheld := holding_transfer amount hsrc hdst hne hmint
      {src with amount := src.amount-amount} {dst with amount := dst.amount+amount}
      rfl rfl rfl rfl mint
    by_cases hm : src.mint=mint
    · rw [if_pos hm] at hheld
      refine .sent ⟨hsrc,hm,hcovered,?_⟩ hthawed hne hheld rfl
      rw [Chain.setAccount_accounts,update_of_ne hne,Chain.setAccount_accounts,update_self]
    · rw [if_neg hm] at hheld
      exact .nothing _ hheld rfl
  | @minted account amount acc m hacc hm hthawed hfits =>
    by_cases hmint : acc.mint=mint
    · subst hmint
      have hissued := congrFun (issued_setMint (s.setAccount account
        {acc with amount := acc.amount+amount}) acc.mint {m with supply := m.supply+amount}) acc.mint
      rw [update_self] at hissued
      refine .minted ?_ ?_ ?_
      · refine (holding_setAccount s acc.mint account {acc with amount := acc.amount+amount}).trans ?_
        rw [if_pos rfl,Ledger.issue,holding_eq hacc rfl]
      · rw [hissued,issued_eq hm]
      · rw [hissued]
        exact hfits
    · refine .nothing _ ?_ ?_
      · exact holding_setAccount_other hacc {acc with amount := acc.amount+amount} rfl hmint
      · rw [issued_setMint,update_of_ne (Ne.symm hmint)]
        rfl
  | @burned account amount acc m hacc hm hthawed hcovered hsupply =>
    by_cases hmint : acc.mint=mint
    · subst hmint
      refine .burned ⟨hacc,rfl,hcovered,?_⟩ hthawed ?_ ?_ ?_
      · rw [Chain.setMint_accounts,Chain.setAccount_accounts,update_self]
      · refine (holding_setAccount s acc.mint account {acc with amount := acc.amount-amount}).trans ?_
        rw [if_pos rfl,Ledger.redeem,holding_eq hacc rfl]
      · rw [issued_eq hm]
        exact hsupply
      · rw [issued_setMint,update_self,issued_eq hm]
    · refine .nothing _ ?_ ?_
      · exact holding_setAccount_other hacc {acc with amount := acc.amount-amount} rfl hmint
      · rw [issued_setMint,update_of_ne (Ne.symm hmint)]
        rfl
  | closed hacc hempty => exact .nothing _ (holding_close hacc hempty) rfl

end Step

section Entry

variable {s s' : Chain D M} {mint : Key} {a : Action D}

theorem Debited.holding {key : Key} {acc : TokenAccount} {x : Nat}
    (h : Debited s s' mint key acc x) : x ≤ holding s mint key := by
  rw [holding_eq h.account h.mint]
  exact h.covered

/-- Every entry of an action keeps the books. -/
theorem Enters.entry (h : Enters s s' mint a) :
    Ledger.Entry (holding s mint) (issued s mint) (holding s' mint) (issued s' mint) := by
  cases h with
  | nothing _ hheld hissued =>
    rw [hheld,hissued]
    exact .nothing
  | sent h _ hne hheld hissued =>
    rw [hheld,hissued]
    exact .move hne h.holding
  | recovered h hacc hheld hissued =>
    rw [hheld,hissued]
    exact .move hacc.distinct h.holding
  | minted hheld hissued =>
    rw [hheld,hissued]
    exact .issue _ _
  | burned h _ hheld hsupply hissued =>
    rw [hheld,hissued]
    exact .redeem h.holding hsupply

private theorem Enters.issued_lt (h : Enters s s' mint a) (hs : issued s mint<2^64) :
    issued s' mint<2^64 := by
  cases h with
  | nothing _ _ hissued => exact hissued ▸ hs
  | sent _ _ _ _ hissued => exact hissued ▸ hs
  | recovered _ _ _ hissued => exact hissued ▸ hs
  | minted _ _ hfits => exact hfits
  | burned _ _ _ _ hissued => exact hissued ▸ (Nat.sub_le _ _).trans_lt hs

end Entry

section Available

variable [LinearOrder M] [DecidableEq D] {P : Program D M} {s s' : Chain D M} {mMint : Key}

omit [DecidableEq D] in
/-- initialize puts the mint under the program; what it has issued is Token-2022's own account. -/
theorem Operational.of_initialize {s0 : Chain D M} {ctx : Initialize} {i : Nat}
    (h : Initialize.handler P s0 ctx i=.ok s) (hissued : issued s ctx.mMint<2^64)
    (hbacked : Ledger.Backed (holding s ctx.mMint) (issued s ctx.mMint)) :
    Operational P ctx.mMint s := by
  obtain ⟨m,hm,hfreeze,hdelegate,_⟩ := (Initialize.handler_eq_ok h).mint
  have hmint : s.mints ctx.mMint=some m := by rw [hm,update_self]
  rw [issued_eq hmint] at hissued hbacked
  exact ⟨m,hmint,hfreeze,hdelegate,hissued,hbacked⟩

theorem Operational.step {a : Action D} {es : List (IndexUpdateV2 M)} {g : EarnGlobal D}
    (hg : s.globalAccount=some g) (ho : Operational P g.mMint s)
    (h : (program P).step s a=.ok (s',es)) : Operational P g.mMint s' := by
  obtain ⟨m,hm,hfreeze,hdelegate,hsupply,hbacked⟩ := ho
  obtain ⟨c,n,hm'⟩ := step_mint hg hm h
  have henters := step_enters (by simp [hg]) h g.mMint
  rw [← issued_eq hm] at hsupply hbacked
  have hsupply' := henters.issued_lt hsupply
  have hbacked' := hbacked.entry henters.entry
  rw [issued_eq hm'] at hsupply' hbacked'
  exact ⟨_,hm',hfreeze,hdelegate,hsupply',hbacked'⟩

/-- Once the mint is the program's and backed it stays so. -/
theorem Operational.run {g : EarnGlobal D} (hg : s.globalAccount=some g)
    (ho : Operational P g.mMint s) (as : List (Action D)) :
    Operational P g.mMint ((program P).run s as) := by
  refine ((program P).run_invariant (I := fun u => (∃ g',u.globalAccount=some g' ∧
    g'.mMint=g.mMint) ∧ Operational P g.mMint u) ?_ s as ⟨⟨g,hg,rfl⟩,ho⟩).2
  rintro u a u' es ⟨⟨g',hg',hmint⟩,hu⟩ h
  obtain ⟨g'',hg'',hc⟩ := step_global hg' h
  rw [← hmint] at hu ⊢
  exact ⟨⟨g'',hg'',hc.mMint⟩,hu.step hg' h⟩

/-- From initialize on, whatever anyone does in between, recover_m moves what a frozen account
covers to any other account of the mint. -/
theorem recoverM_available {s0 : Chain D M} {ctx : Initialize} {i : Nat}
    (hinit : Initialize.handler P s0 ctx i=.ok s) (hissued : issued s ctx.mMint<2^64)
    (hbacked : Ledger.Backed (holding s ctx.mMint) (issued s ctx.mMint)) (as : List (Action D))
    {call : RecoverM} {amount : Option Nat} {g : EarnGlobal D} {src dst : TokenAccount}
    (hc : RecoverM.Constraints P ((program P).run s as) call g src dst)
    (hne : call.sourceTokenAccount≠call.destinationTokenAccount)
    (hcovered : amount.getD src.amount ≤ src.amount) :
    ∃ s',(program P).step ((program P).run s as) (.recoverM call amount)=.ok (s',[]) := by
  have hg := (Initialize.handler_eq_ok hinit).global
  have ho := (Operational.of_initialize hinit hissued hbacked).run hg as
  obtain ⟨g',hg',hconf⟩ := run_global hg as
  cases hg'.symm.trans hc.global
  rw [← hconf.mMint] at ho
  obtain ⟨s',hs'⟩ := RecoverM.handler_of_covered hc ho hne hcovered
  exact ⟨s',silent_eq_ok.mpr ⟨hs',rfl⟩⟩

end Available

end SolanaM.Earn
