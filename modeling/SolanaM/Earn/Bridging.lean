import SolanaM.Earn.Thawed

namespace SolanaM.Earn

open Function

variable {D M : Type}

/-- A thaw decided on the copy that was read leaves the account thawed, also where the account
was thawed through another name in between. -/
theorem thawIfFrozen_thaws {s s' : Chain D M} {acc cur : TokenAccount} {key mint authority : Key}
    (hcur : s.accounts key=some cur) (hsame : cur=acc ∨ cur={acc with state := .Initialized})
    (h : thawIfFrozen s acc key mint authority=.ok s') :
    s'.accounts key=some {acc with state := .Initialized} := by
  rcases hsame with rfl|rfl
  · rw [thawIfFrozen_eq_ok hcur h,Chain.setAccount_accounts,update_self]
  · unfold thawIfFrozen at h
    split at h
    · obtain ⟨old,hold,_,_,hne,_⟩ := setFrozen_eq_ok.mp h
      rw [hcur] at hold
      cases hold
      exact absurd rfl hne
    · cases h
      exact hcur

/-- Two thaws in turn, also of one account under two names. -/
theorem thawIfFrozen_pair {s s₁ s' : Chain D M} {a b : TokenAccount} {j k mint authority : Key}
    (ha : s.accounts j=some a) (hb : s.accounts k=some b)
    (h : thawIfFrozen s a j mint authority=.ok s₁) (h' : thawIfFrozen s₁ b k mint authority=.ok s') :
    s'.accounts j=some {a with state := .Initialized} ∧
      s'.accounts k=some {b with state := .Initialized} := by
  have hj := thawIfFrozen_thaws ha (.inl rfl) h
  by_cases hk : k=j
  · subst hk
    have hsame : b=a := Option.some.inj (hb.symm.trans ha)
    subst hsame
    have hthawed := thawIfFrozen_thaws hj (.inr rfl) h'
    exact ⟨hthawed,hthawed⟩
  · rw [← (thawIfFrozen_frame h).2.2 k hk] at hb
    rw [← (thawIfFrozen_frame h').2.2 j (Ne.symm hk)] at hj
    exact ⟨hj,thawIfFrozen_thaws hb (.inl rfl) h'⟩

/-- A second account that was opened as it stood leaves the first one as it was opened. -/
theorem setAccount_opened {s : Chain D M} {a b : TokenAccount} {j k : Key} {Q : Prop}
    (h : (s.setAccount j a).accounts k=some b ∨ (s.setAccount j a).accounts k=none ∧ Q) :
    ((s.setAccount j a).setAccount k b).accounts j=some a := by
  rw [Chain.setAccount_accounts,Chain.setAccount_accounts]
  rw [Chain.setAccount_accounts] at h
  by_cases hk : j=k
  · rw [← hk,update_self] at h ⊢
    rcases h with h|⟨h,_⟩
    · exact h.symm
    · cases h
  · rw [update_of_ne hk,update_self]

/-- The account at key is thawed and for good in the hands of owner. -/
def Kept (mMint owner key : Key) (s : Chain D M) : Prop :=
  ∃ acc,s.accounts key=some acc ∧ acc.mint=mMint ∧ acc.owner=owner ∧ acc.immutableOwner ∧
    acc.state=.Initialized

theorem Kept.thawed {mMint owner key : Key} {s : Chain D M} (h : Kept mMint owner key s) :
    Thawed mMint key s := by
  obtain ⟨acc,hacc,hmint,_,_,hst⟩ := h
  exact ⟨acc,hacc,hmint,hst⟩

section Run

variable [LinearOrder M] {P : Program D M} {s s' : Chain D M} {mMint : Key}

/-- Initialize leaves both associated accounts thawed, under the owners of the two PDAs. -/
theorem Initialize.handler_kept {ctx : Initialize} {currentIndex : Nat}
    (h : handler P s ctx currentIndex=.ok s')
    (hata : ∀ key acc,key=ctx.portalMAccount ∨ key=ctx.extSwapMAccount →
      s.accounts key=some acc → acc.immutableOwner) :
    Kept ctx.mMint P.portalTokenAuthority ctx.portalMAccount s' ∧
      Kept ctx.mMint P.extSwapGlobal ctx.extSwapMAccount s' := by
  simp only [handler,accounts,bind_eq_ok,require_eq_ok,load_eq_ok,Prod.exists] at h
  obtain ⟨s3,portal,extSwap,⟨_,_,_,_,_,_,_,hpa,_,hea,_,_,s1,portal',h1,_,_,s2,extSwap',h2,heq⟩,_,_,
    s4,h4,s5,h5,h6⟩ := h
  cases heq
  obtain ⟨hpm,hpo,rfl,hpold⟩ := initIfNeeded_eq_ok h1
  obtain ⟨hem,heo,rfl,heold⟩ := initIfNeeded_eq_ok h2
  obtain ⟨m,c,_,_,hup⟩ := updateMultiplier_eq_ok h4
  have hpim : portal.immutableOwner := by
    rcases hpold with hp|⟨_,hp,_⟩
    · exact hata _ _ (.inl rfl) hp
    · exact hp
  have hpcur := setAccount_opened heold
  have heim : extSwap.immutableOwner := by
    rcases heold with he|⟨_,he,_⟩
    · rw [Chain.setAccount_accounts] at he
      by_cases hk : ctx.extSwapMAccount=ctx.portalMAccount
      · rw [hk,update_self] at he
        cases he
        exact hpim
      · rw [update_of_ne hk] at he
        exact hata _ _ (.inr rfl) he
    · exact he
  have h4acc : s4.accounts=((s.setAccount ctx.portalMAccount portal).setAccount
      ctx.extSwapMAccount extSwap).accounts := by
    rcases hup with ⟨_,rfl⟩|⟨_,rfl⟩ <;> rfl
  rw [← h4acc] at hpcur
  have hecur : s4.accounts ctx.extSwapMAccount=some extSwap := by
    rw [h4acc,Chain.setAccount_accounts,update_self]
  obtain ⟨hp,he⟩ := thawIfFrozen_pair hpcur hecur h5 h6
  exact ⟨⟨_,hp,hpm,hpo.trans hpa,hpim,rfl⟩,⟨_,he,hem,heo.trans hea,heim,rfl⟩⟩

variable [DecidableEq D]

/-- The two owners that remove_registrar_earner leaves alone are the two PDAs. -/
def Exempts (P : Program D M) (s : Chain D M) : Prop :=
  ∃ g,s.globalAccount=some g ∧ g.portalAuthority=P.portalTokenAuthority ∧
    g.extSwapGlobalAccount=P.extSwapGlobal

theorem Exempts.step {a : Action D} {es : List (IndexUpdateV2 M)} (hs : Exempts P s)
    (h : (program P).step s a=.ok (s',es)) : Exempts P s' := by
  obtain ⟨g,hg,hportal,hext⟩ := hs
  obtain ⟨g',hg',hc⟩ := step_global hg h
  exact ⟨g',hg',hc.portal hportal,hc.extSwap.trans hext⟩

/-- One action of anyone: an account kept for an exempt owner is kept, unless it is closed. -/
theorem Kept.step {a : Action D} {es : List (IndexUpdateV2 M)} {owner key : Key}
    (hex : Exempts P s) (howner : owner=P.portalTokenAuthority ∨ owner=P.extSwapGlobal)
    (hs : Kept mMint owner key s) (hclose : a≠.token (.closeAccount key))
    (h : (program P).step s a=.ok (s',es)) : Kept mMint owner key s' := by
  obtain ⟨g,hg,hportal,hext⟩ := hex
  obtain ⟨acc,hacc,hmint,hown,him,hst⟩ := hs
  have hgne : s.globalAccount≠none := by
    rw [hg]
    exact Option.some_ne_none g
  have hc : AccountChange P s key a (s'.accounts key) := step_accounts hgne h
  unfold Kept
  generalize s'.accounts key=o at hc
  cases hc with
  | same => exact ⟨acc,hacc,hmint,hown,him,hst⟩
  | added hkey ha =>
    subst hkey
    cases hacc.symm.trans ha.account
    exact ⟨_,rfl,hmint,hown,him,rfl⟩
  | removed hkey ha =>
    -- the owner is one of the two that the validation turns away
    subst hkey
    cases hacc.symm.trans ha.account
    cases hg.symm.trans ha.global
    refine absurd ?_ ha.exempt
    rw [hown,hportal,hext]
    exact howner
  | recoveredFrom hkey ha =>
    -- the source of recover_m is frozen before it
    subst hkey
    cases hacc.symm.trans ha.source
    exact nomatch hst.symm.trans ha.frozen
  | recoveredTo hkey ha =>
    subst hkey
    cases hacc.symm.trans ha.destination
    exact ⟨_,rfl,hmint,hown,him,rfl⟩
  | portal hkey ha =>
    subst hkey
    rcases ha.stored with he|⟨he,_⟩
    · cases hacc.symm.trans he
      exact ⟨_,rfl,hmint,hown,him,rfl⟩
    · exact nomatch hacc.symm.trans he
  | created hnone => exact nomatch hacc.symm.trans hnone
  | ownerSet hold _ hmutable =>
    cases hacc.symm.trans hold
    exact absurd him hmutable
  | moved hold =>
    cases hacc.symm.trans hold
    exact ⟨_,rfl,hmint,hown,him,hst⟩
  | closed => exact absurd rfl hclose

theorem Kept.run {owner key : Key} (hex : Exempts P s)
    (howner : owner=P.portalTokenAuthority ∨ owner=P.extSwapGlobal)
    (hs : Kept mMint owner key s) (as : List (Action D))
    (hclose : ∀ a∈as,a≠.token (.closeAccount key)) :
    Kept mMint owner key ((program P).run s as) := by
  refine ((program P).run_invariant_of (I := fun s => Exempts P s ∧ Kept mMint owner key s)
    ?_ s as hclose ⟨hex,hs⟩).2
  intro s a s' es ha ⟨hex,hs⟩ h
  exact ⟨hex.step h,hs.step hex howner ha h⟩

/-- From initialize on, whoever calls whatever with any accounts, proofs and roots, the Portal's
and ext_swap's associated accounts stay thawed, as long as their owners do not close them. -/
theorem bridge_accounts_thawed {s0 s : Chain D M} {ctx : Initialize} {currentIndex : Nat}
    (hinit : Initialize.handler P s0 ctx currentIndex=.ok s)
    (hata : ∀ key acc,key=ctx.portalMAccount ∨ key=ctx.extSwapMAccount →
      s0.accounts key=some acc → acc.immutableOwner)
    (as : List (Action D))
    (hopen : ∀ a∈as,a≠.token (.closeAccount ctx.portalMAccount) ∧
      a≠.token (.closeAccount ctx.extSwapMAccount)) :
    Thawed ctx.mMint (P.associatedToken P.portalTokenAuthority ctx.mMint) ((program P).run s as) ∧
      Thawed ctx.mMint (P.associatedToken P.extSwapGlobal ctx.mMint) ((program P).run s as) := by
  have he := Initialize.handler_eq_ok hinit
  obtain ⟨hportal,hext⟩ := Initialize.handler_kept hinit hata
  have hex : Exempts P s := ⟨_,he.global,rfl,rfl⟩
  rw [← he.portalAccount,← he.extSwapAccount]
  exact ⟨(hportal.run hex (.inl rfl) as fun a ha => (hopen a ha).1).thawed,
    (hext.run hex (.inr rfl) as fun a ha => (hopen a ha).2).thawed⟩

end Run

/-- A root that leaves both owners out, then an attempt to remove the Portal and a recovery. -/
theorem bridge_accounts_thawed_remove :
    Thawed (.ofByte 6) (.ofByte 4) ((program sampleProgram).run sampleStart
        [.propagateIndex ⟨.ofByte 2,.ofByte 1,.ofByte 6⟩ 2 (.leaf (.ofByte 8)) 0,
          .removeRegistrarEarner ⟨.ofByte 12,.ofByte 1,.ofByte 6,.ofByte 4⟩ [[]] [.ofByte 8],
          .recoverM ⟨.ofByte 11,.ofByte 1,.ofByte 6,.ofByte 7,.ofByte 4⟩ none]) ∧
      Thawed (.ofByte 6) (.ofByte 5) ((program sampleProgram).run sampleStart
        [.propagateIndex ⟨.ofByte 2,.ofByte 1,.ofByte 6⟩ 2 (.leaf (.ofByte 8)) 0,
          .removeRegistrarEarner ⟨.ofByte 12,.ofByte 1,.ofByte 6,.ofByte 4⟩ [[]] [.ofByte 8],
          .recoverM ⟨.ofByte 11,.ofByte 1,.ofByte 6,.ofByte 7,.ofByte 4⟩ none]) := by
  refine bridge_accounts_thawed sampleStart_eq ?_ _ (by simp)
  rintro key acc (rfl|rfl) hacc
  · exact nomatch hacc
  · exact nomatch hacc

end SolanaM.Earn
