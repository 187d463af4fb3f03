import SolanaM.Earn.Accounts
import SolanaM.Earn.Configuration

namespace SolanaM.Earn

open Function

variable {D M : Type} [DecidableEq D]

/-- What initialize sets up once and every later action keeps. -/
structure Governed (P : Program D M) (mMint : Key) (s : Chain D M) : Prop where
  global : ∃ g,s.globalAccount=some g ∧ g.mMint=mMint
  mint : ∃ m,s.mints mMint=some m ∧ m.defaultAccountState=some .Frozen

def Thawed (mMint key : Key) (s : Chain D M) : Prop :=
  ∃ acc,s.accounts key=some acc ∧ acc.mint=mMint ∧ acc.state=.Initialized

section Run

variable [LinearOrder M] {P : Program D M} {s s' : Chain D M} {mMint key : Key}

/-- The account was last thawed by an accepted add_registrar_earner for its present owner,
proved against the root stored at that moment. -/
def ThawedByAdd (P : Program D M) (s : Chain D M) (as : List (Action D)) (mMint key : Key)
    (acc : TokenAccount) : Prop :=
  ∃ pre ctx proof post g old,as=pre++.addRegistrarEarner ctx acc.owner proof::post ∧
    ctx.userTokenAccount=key ∧
    AddRegistrarEarner.Accepted P ((program P).run s pre) ctx acc.owner proof g old ∧
    ∀ mid,mid<+:post →
      Thawed mMint key ((program P).run s (pre++.addRegistrarEarner ctx acc.owner proof::mid))

/-- The account was last thawed by the admin, as the destination of a recover_m that found it
frozen. -/
def ThawedByRecover (P : Program D M) (s : Chain D M) (as : List (Action D)) (mMint key : Key) :
    Prop :=
  ∃ pre ctx amount post g src dst,as=pre++.recoverM ctx amount::post ∧
    ctx.destinationTokenAccount=key ∧ dst.state=.Frozen ∧
    RecoverM.Accepted ((program P).run s pre) ctx g src dst (amount.getD src.amount) ∧
    ∀ mid,mid<+:post → Thawed mMint key ((program P).run s (pre++.recoverM ctx amount::mid))

omit [DecidableEq D] in
theorem Governed.of_initialize {ctx : Initialize} {i : Nat}
    (h : Initialize.handler P s ctx i=.ok s') : Governed P ctx.mMint s' := by
  have he := Initialize.handler_eq_ok h
  obtain ⟨m,hm,_,_,hdef,_⟩ := he.mint
  refine ⟨⟨_,he.global,rfl⟩,m,?_,hdef⟩
  rw [hm,update_self]

theorem Governed.step {a : Action D} {es : List (IndexUpdateV2 M)} (hs : Governed P mMint s)
    (h : (program P).step s a=.ok (s',es)) : Governed P mMint s' := by
  obtain ⟨⟨g,hg,rfl⟩,m,hm,hdef⟩ := hs
  obtain ⟨next,hnext,hc⟩ := step_global hg h
  obtain ⟨c,supply,hmint⟩ := step_mint hg hm h
  exact ⟨⟨next,hnext,hc.mMint⟩,_,hmint,hdef⟩

theorem Governed.run (hs : Governed P mMint s) (as : List (Action D)) :
    Governed P mMint ((program P).run s as) :=
  (program P).run_invariant (fun _ _ _ _ h => h.step) s as hs

theorem Governed.accounts {a : Action D} {es : List (IndexUpdateV2 M)} (hs : Governed P mMint s)
    (h : (program P).step s a=.ok (s',es)) : AccountChange P s key a (s'.accounts key) := by
  obtain ⟨⟨g,hg,_⟩,_⟩ := hs
  refine step_accounts ?_ h
  rw [hg]
  exact Option.some_ne_none g

/-- Only three instructions thaw an account: add_registrar_earner, recover_m for its destination
and update_portal_authority for the Portal's account. -/
theorem Governed.thaw_cases {a : Action D} {es : List (IndexUpdateV2 M)}
    (hs : Governed P mMint s) (h : (program P).step s a=.ok (s',es)) (hn : ¬Thawed mMint key s)
    (ht : Thawed mMint key s') :
    (∃ ctx user proof g acc,a=.addRegistrarEarner ctx user proof ∧ ctx.userTokenAccount=key ∧
      AddRegistrarEarner.Accepted P s ctx user proof g acc ∧
      s'.accounts key=some {acc with state := .Initialized}) ∨
    (∃ ctx amount g src dst,a=.recoverM ctx amount ∧ ctx.destinationTokenAccount=key ∧
      dst.state=.Frozen ∧ RecoverM.Accepted s ctx g src dst (amount.getD src.amount)) ∨
    key=P.associatedToken P.portalTokenAuthority mMint := by
  obtain ⟨acc,hacc,hmint,hst⟩ := ht
  have hc : AccountChange P s key a (s'.accounts key) := hs.accounts h
  obtain ⟨⟨g,hg,hgm⟩,m,hm,hdef⟩ := hs
  generalize s'.accounts key=o at hc hacc
  cases hc with
  | same => exact absurd ⟨acc,hacc,hmint,hst⟩ hn
  | added hkey ha =>
    cases hacc
    exact .inl ⟨_,_,_,_,_,rfl,hkey,ha,rfl⟩
  | removed =>
    cases hacc
    exact nomatch hst
  | recoveredFrom _ ha =>
    cases hacc
    exact nomatch ha.frozen.symm.trans hst
  | @recoveredTo ctx amount g' src dst hkey ha =>
    cases hacc
    refine .inr (.inl ⟨_,_,_,_,_,rfl,hkey,?_,ha⟩)
    cases hd : dst.state with
    | Frozen => rfl
    | Initialized => exact absurd ⟨dst,hkey ▸ ha.destination,hmint,hd⟩ hn
  | portal hkey ha =>
    have hgg := ha.global
    rw [hg] at hgg
    cases hgg
    rw [← hkey,ha.associated,hgm]
    exact .inr (.inr rfl)
  | created hnone hm' =>
    cases hacc
    change _=mMint at hmint
    subst hmint
    rw [hm] at hm'
    cases hm'
    rw [hdef] at hst
    exact nomatch hst
  | ownerSet hold hthawed =>
    cases hacc
    exact absurd ⟨_,hold,hmint,hthawed⟩ hn
  | moved hold hthawed =>
    cases hacc
    exact absurd ⟨_,hold,hmint,hthawed⟩ hn
  | closed => exact nomatch hacc

omit [LinearOrder M] in
/-- While an account stays open, its immutable owner stays. -/
theorem AccountChange.owner_kept {a : Action D} {acc acc' : TokenAccount}
    (hacc : s.accounts key=some acc) (h : AccountChange P s key a (some acc'))
    (him : acc.immutableOwner) : acc'.immutableOwner ∧ acc'.owner=acc.owner := by
  generalize ho : some acc'=o at h
  cases h with
  | same =>
    cases ho.trans hacc
    exact ⟨him,rfl⟩
  | added hkey h =>
    subst hkey
    cases ho
    cases hacc.symm.trans h.account
    exact ⟨him,rfl⟩
  | removed hkey h =>
    subst hkey
    cases ho
    cases hacc.symm.trans h.account
    exact ⟨him,rfl⟩
  | recoveredFrom hkey h =>
    subst hkey
    cases ho
    cases hacc.symm.trans h.source
    exact ⟨him,rfl⟩
  | recoveredTo hkey h =>
    subst hkey
    cases ho
    cases hacc.symm.trans h.destination
    exact ⟨him,rfl⟩
  | portal hkey h =>
    subst hkey
    cases ho
    rcases h.stored with he|⟨he,_⟩
    · cases hacc.symm.trans he
      exact ⟨him,rfl⟩
    · exact nomatch hacc.symm.trans he
  | created hnone => exact nomatch hacc.symm.trans hnone
  | ownerSet hold _ hmut =>
    cases hacc.symm.trans hold
    exact absurd him hmut
  | moved hold =>
    cases ho
    cases hacc.symm.trans hold
    exact ⟨him,rfl⟩
  | closed => exact nomatch ho

/-- A key whose account, as long as it is open, has this immutable owner. -/
def OwnedBy (user : Key) (key : Key) (s : Chain D M) : Prop :=
  ∀ acc,s.accounts key=some acc → acc.immutableOwner ∧ acc.owner=user

private theorem Governed.owner_run (hs : Governed P mMint s) {user : Key} (ho : OwnedBy user key s)
    (as : List (Action D)) (ht : ∀ mid,mid<+:as → Thawed mMint key ((program P).run s mid)) :
    OwnedBy user key ((program P).run s as) := by
  refine ((program P).run_invariant_while (I := fun s => Governed P mMint s ∧ OwnedBy user key s)
    ?_ s as ⟨hs,ho⟩ ht).2
  intro s a ⟨hs,ho⟩ ⟨acc,hacc,_⟩ _
  refine (program P).exec_invariant (I := fun s => Governed P mMint s ∧ OwnedBy user key s)
    ?_ ⟨hs,ho⟩
  intro s' es h
  refine ⟨hs.step h,?_⟩
  intro acc' hacc'
  have hc : AccountChange P s key a (s'.accounts key) := hs.accounts h
  rw [hacc'] at hc
  obtain ⟨him,hown⟩ := ho acc hacc
  obtain ⟨him',hown'⟩ := hc.owner_kept hacc him
  exact ⟨him',hown'.trans hown⟩

/-- In every run, an account of the mint that was not thawed at the start and is thawed at the end
was let in by add_registrar_earner with its present owner, or by the admin's recover_m. -/
theorem Governed.thawed_origin (hs : Governed P mMint s) (as : List (Action D))
    (hn : ¬Thawed mMint key s) (hp : key≠P.associatedToken P.portalTokenAuthority mMint)
    {acc : TokenAccount} (hacc : ((program P).run s as).accounts key=some acc)
    (hmint : acc.mint=mMint) (hst : acc.state=.Initialized) :
    acc.immutableOwner ∧ ThawedByAdd P s as mMint key acc ∨ ThawedByRecover P s as mMint key := by
  obtain ⟨pre,a,post,rfl,hpre,hpost⟩ := (program P).exists_last_rise (Thawed mMint key) s as hn
    ⟨acc,hacc,hmint,hst⟩
  have hgov := hs.run pre
  have hrise := hpost [] List.nil_prefix
  rw [Machine.run_append] at hrise
  change Thawed mMint key ((program P).exec ((program P).run s pre) a) at hrise
  cases hok : (program P).step ((program P).run s pre) a with
  | error f =>
    rw [Machine.exec_of_error _ hok] at hrise
    exact absurd hrise hpre
  | ok p =>
    obtain ⟨s1,es⟩ := p
    have hexec := Machine.exec_of_ok _ hok
    rw [hexec] at hrise
    rcases hgov.thaw_cases hok hpre hrise with
      ⟨ctx,user,proof,g,old,rfl,hkey,ha,hs1⟩|⟨ctx,amount,g,src,dst,rfl,hkey,hd,ha⟩|he
    · have hown : OwnedBy user key s1 := by
        intro acc' hacc'
        rw [hs1] at hacc'
        cases hacc'
        exact ⟨ha.immutableOwner,ha.owner⟩
      have hthawed : ∀ mid,mid<+:post → Thawed mMint key ((program P).run s1 mid) := by
        intro mid hm
        have h := hpost mid hm
        rw [Machine.run_append,Machine.run_cons,hexec] at h
        exact h
      have hfinal := (hgov.step hok).owner_run hown post hthawed
      rw [Machine.run_append,Machine.run_cons,hexec] at hacc
      obtain ⟨him,rfl⟩ := hfinal acc hacc
      exact .inl ⟨him,pre,ctx,proof,post,g,old,rfl,hkey,ha,hpost⟩
    · exact .inr ⟨pre,ctx,amount,post,g,src,dst,rfl,hkey,hd,ha,hpost⟩
    · exact absurd he hp

/-- From initialize on, in every run: an account of the mint other than the program's two that
is thawed has an immutable owner whom add_registrar_earner admitted, or was last thawed by the
admin's recover_m. -/
theorem thawed_accounts_admitted {s0 s : Chain D M} {ctx : Initialize} {currentIndex : Nat}
    (hinit : Initialize.handler P s0 ctx currentIndex=.ok s)
    (hfrozen : ∀ key acc,s.accounts key=some acc → acc.mint=ctx.mMint → key≠ctx.portalMAccount →
      key≠ctx.extSwapMAccount → acc.state=.Frozen)
    (as : List (Action D)) (key : Key) (acc : TokenAccount)
    (hacc : ((program P).run s as).accounts key=some acc) (hmint : acc.mint=ctx.mMint)
    (hst : acc.state=.Initialized) (hp : key≠ctx.portalMAccount) (he : key≠ctx.extSwapMAccount) :
    acc.immutableOwner ∧ ThawedByAdd P s as ctx.mMint key acc ∨
      ThawedByRecover P s as ctx.mMint key := by
  refine (Governed.of_initialize hinit).thawed_origin as ?_ ?_ hacc hmint hst
  · rintro ⟨old,hold,hm,hthawed⟩
    exact nomatch (hfrozen key old hold hm hp he).symm.trans hthawed
  · rw [← (Initialize.handler_eq_ok hinit).portalAccount]
    exact hp

end Run

theorem sampleStart_frozen (key : Key) (acc : TokenAccount)
    (hacc : sampleStart.accounts key=some acc) (hp : key≠sampleInitialize.portalMAccount)
    (he : key≠sampleInitialize.extSwapMAccount) : acc.state=.Frozen := by
  rw [(Initialize.handler_eq_ok sampleStart_eq).others key hp he] at hacc
  simp only [sampleChain] at hacc
  split at hacc
  · cases hacc
    rfl
  · split at hacc
    · cases hacc
      rfl
    · exact nomatch hacc

/-- An earner admitted under a root that propagate_index delivered. -/
theorem thawed_accounts_admitted_add :
    (⟨.ofByte 6,.ofByte 8,5,.Initialized,true⟩ : TokenAccount).immutableOwner ∧
        ThawedByAdd sampleProgram sampleStart
          [.propagateIndex ⟨.ofByte 2,.ofByte 1,.ofByte 6⟩ 2 (.leaf (.ofByte 8)) 0,
            .addRegistrarEarner ⟨.ofByte 12,.ofByte 1,.ofByte 6,.ofByte 7⟩ (.ofByte 8) []]
          (.ofByte 6) (.ofByte 7) ⟨.ofByte 6,.ofByte 8,5,.Initialized,true⟩ ∨
      ThawedByRecover sampleProgram sampleStart
        [.propagateIndex ⟨.ofByte 2,.ofByte 1,.ofByte 6⟩ 2 (.leaf (.ofByte 8)) 0,
          .addRegistrarEarner ⟨.ofByte 12,.ofByte 1,.ofByte 6,.ofByte 7⟩ (.ofByte 8) []]
        (.ofByte 6) (.ofByte 7) :=
  thawed_accounts_admitted sampleStart_eq
    (fun key acc hacc _ hp he => sampleStart_frozen key acc hacc hp he) _ _ _
    (by decide +kernel) rfl rfl (by decide) (by decide)

/-- recover_m thaws a frozen destination that no earner proof was ever given for. -/
theorem recoverM_thaws_unproved :
    Initialize.handler sampleProgram sampleChain sampleInitialize 1=.ok sampleStart ∧
      (∀ key acc,sampleStart.accounts key=some acc → acc.mint=sampleInitialize.mMint →
        key≠sampleInitialize.portalMAccount → key≠sampleInitialize.extSwapMAccount →
        acc.state=.Frozen) ∧
      ¬∀ as key acc,((program sampleProgram).run sampleStart as).accounts key=some acc →
        acc.mint=sampleInitialize.mMint → acc.state=.Initialized →
        key≠sampleInitialize.portalMAccount → key≠sampleInitialize.extSwapMAccount →
        acc.immutableOwner ∧
          ThawedByAdd sampleProgram sampleStart as sampleInitialize.mMint key acc := by
  refine ⟨sampleStart_eq,fun key acc hacc _ hp he => sampleStart_frozen key acc hacc hp he,?_⟩
  intro h
  have hr := h [.recoverM ⟨.ofByte 11,.ofByte 1,.ofByte 6,.ofByte 7,.ofByte 9⟩ none] (.ofByte 9)
    ⟨.ofByte 6,.ofByte 10,5,.Initialized,false⟩ (by decide +kernel) rfl rfl (by decide) (by decide)
  exact nomatch hr.1

end SolanaM.Earn
