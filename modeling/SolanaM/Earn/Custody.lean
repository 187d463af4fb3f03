import SolanaM.Earn.Books

namespace SolanaM.Earn

variable {D M : Type}

/-- How an action takes units of a mint out of the account at key: its holder sends or burns them
while the account is thawed, or the admin recovers them from a frozen one, which stays frozen. -/
inductive Spends (admin mMint : Key) (s s' : Chain D M) (mint key : Key) : Action D → Prop
  | sent {destination : Key} {amount : Nat} {acc : TokenAccount}
      (h : Debited s s' mint key acc amount) (hthawed : acc.state=.Initialized) :
      Spends admin mMint s s' mint key (.token (.transfer key destination amount))
  | burned {amount : Nat} {acc : TokenAccount} (h : Debited s s' mint key acc amount)
      (hthawed : acc.state=.Initialized) :
      Spends admin mMint s s' mint key (.token (.burn key amount))
  | recovered {ctx : RecoverM} {amount : Option Nat} {src : TokenAccount}
      (hkey : ctx.sourceTokenAccount=key) (hsigned : ctx.admin=admin) (hmint : mint=mMint)
      (hfrozen : src.state=.Frozen) (h : Debited s s' mint key src (amount.getD src.amount)) :
      Spends admin mMint s s' mint key (.recoverM ctx amount)

/-- Of the entries, those of Spends alone leave the account at key with less. -/
theorem Enters.spends {s s' : Chain D M} {mint key : Key} {a : Action D} {g : EarnGlobal D}
    (hg : s.globalAccount=some g) (h : Enters s s' mint a)
    (hless : holding s' mint key<holding s mint key) :
    Spends g.admin g.mMint s s' mint key a := by
  cases h with
  | nothing _ hheld =>
    rw [hheld] at hless
    exact absurd hless (lt_irrefl _)
  | sent h hthawed _ hheld =>
    rw [hheld] at hless
    cases Ledger.eq_of_move_lt hless
    exact .sent h hthawed
  | recovered h hacc hheld =>
    rw [hheld] at hless
    cases Ledger.eq_of_move_lt hless
    cases hg.symm.trans hacc.global
    exact .recovered rfl hacc.admin (h.mint.symm.trans hacc.sourceMint) hacc.frozen h
  | minted hheld =>
    rw [hheld] at hless
    exact absurd hless (not_lt_of_ge (Ledger.le_issue _ _ _ _))
  | burned h hthawed hheld =>
    rw [hheld] at hless
    cases Ledger.eq_of_redeem_lt hless
    exact .burned h hthawed

/-- The two steps of Token-2022 that make and destroy units. -/
def Action.issues : Action D → Prop
  | .token (.mintTo _ _) => True
  | .token (.burn _ _) => True
  | _ => False

theorem Enters.issues {s s' : Chain D M} {mint : Key} {a : Action D} (h : Enters s s' mint a)
    (hne : issued s' mint≠issued s mint) : a.issues := by
  cases h with
  | nothing _ _ hissued => exact absurd hissued hne
  | sent _ _ _ _ hissued => exact absurd hissued hne
  | recovered _ _ _ hissued => exact absurd hissued hne
  | minted => trivial
  | burned => trivial

section Run

variable [LinearOrder M] [DecidableEq D] {P : Program D M} {s : Chain D M} {mint : Key}

/-- Each action of a run makes an entry; one that fails makes none. -/
theorem exec_enters (hg : s.globalAccount≠none) (a : Action D) (mint : Key) :
    Enters s ((program P).exec s a) mint a := by
  cases h : (program P).step s a with
  | error f =>
    rw [Machine.exec_of_error _ h]
    exact .nothing a rfl rfl
  | ok p =>
    rw [Machine.exec_of_ok _ h]
    exact step_enters hg h mint

theorem run_balanced {g : EarnGlobal D} (hg : s.globalAccount=some g) (as : List (Action D))
    (mint : Key) :
    Ledger.Balanced (holding s mint) (issued s mint) (holding ((program P).run s as) mint)
      (issued ((program P).run s as) mint) := by
  induction as using List.reverseRecOn with
  | nil => exact .refl _ _
  | append_singleton as a ih =>
    obtain ⟨g',hg',_⟩ := run_global (P := P) hg as
    rw [Machine.run_append]
    exact ih.trans (exec_enters (by simp [hg']) a mint).entry.balanced

end Run

/-- From initialize on, in every run: units leave an account by its holder's transfer or burn while
it is thawed, or by recover_m under the one admin that initialize recorded while it is frozen; and
no instruction of the program makes or destroys units: the supply of a mint changes by mint-to and
burn alone, and what all accounts hold changes by as much as the supply. -/
theorem holdings_in_custody [LinearOrder M] [DecidableEq D] {P : Program D M} {s0 s : Chain D M}
    {ctx : Initialize} {currentIndex : Nat}
    (hinit : Initialize.handler P s0 ctx currentIndex=.ok s) (as : List (Action D)) (mint : Key) :
    (∀ pre a post key,as=pre++a::post →
      holding ((program P).run s (pre++[a])) mint key<holding ((program P).run s pre) mint key →
      Spends ctx.admin ctx.mMint ((program P).run s pre) ((program P).run s (pre++[a])) mint key
        a) ∧
    (∀ pre a post,as=pre++a::post →
      issued ((program P).run s (pre++[a])) mint≠issued ((program P).run s pre) mint → a.issues) ∧
    Ledger.Balanced (holding s mint) (issued s mint) (holding ((program P).run s as) mint)
      (issued ((program P).run s as) mint) := by
  have hg := (Initialize.handler_eq_ok hinit).global
  refine ⟨?_,?_,run_balanced hg as mint⟩
  · intro pre a post key _ hless
    obtain ⟨g,hpre,hc⟩ := run_global (P := P) hg pre
    rw [Machine.run_append] at hless ⊢
    have hspends := (exec_enters (by simp [hpre]) a mint).spends hpre hless
    rwa [hc.admin,hc.mMint] at hspends
  · intro pre a post _ hne
    obtain ⟨g,hpre,_⟩ := run_global (P := P) hg pre
    rw [Machine.run_append] at hne
    exact (exec_enters (by simp [hpre]) a mint).issues hne

/-- The admin takes three of the five units of a frozen account, whose new holder burns one. -/
theorem holdings_in_custody_recover :
    Spends (.ofByte 11) (.ofByte 6) sampleStart
        ((program sampleProgram).run sampleStart [.recoverM sampleRecover (some 3)]) (.ofByte 6)
        (.ofByte 7) (.recoverM sampleRecover (some 3)) ∧
      Ledger.Balanced (holding sampleStart (.ofByte 6)) 5
        (holding ((program sampleProgram).run sampleStart
          [.recoverM sampleRecover (some 3),.token (.burn (.ofByte 9) 1)]) (.ofByte 6)) 4 := by
  obtain ⟨hspends,_,hbalanced⟩ := holdings_in_custody sampleStart_eq
    [.recoverM sampleRecover (some 3),.token (.burn (.ofByte 9) 1)] (.ofByte 6)
  exact ⟨hspends [] _ [.token (.burn (.ofByte 9) 1)] (.ofByte 7) rfl (by decide),hbalanced⟩

end SolanaM.Earn
