import SolanaM.Earn.Conversion
import SolanaM.Earn.Run
import Mathlib.Algebra.Order.BigOperators.Group.List

namespace SolanaM.Earn

open Function

/-- The v1 program's global account; the fields that migrating reads. -/
structure OldGlobal (D : Type) where
  mint : Key
  index : Nat
  earnerMerkleRoot : D

structure MigrateChain (D M : Type) extends Chain D M where
  oldGlobalAccount : Option (OldGlobal D)

/-- toF64 is the f64 that a multiplier stands for. -/
structure MigrateProgram (D M : Type) extends Program D M where
  oldGlobalAddress : Key
  toF64 : M → Float

structure MigrateInitialize extends Initialize where
  oldGlobalAccount : Key
  oldMMint : Key

variable {D M : Type} (P : MigrateProgram D M)

namespace MigrateInitialize

/-- The account constraints with the two accounts of the v1 program. -/
def accounts (s : MigrateChain D M) (ctx : MigrateInitialize) :
    Result (Chain D M×OldGlobal D×Mint M×TokenAccount×TokenAccount) := do
  require (ctx.globalAccount=P.globalAddress ∧ s.globalAccount.isNone) .constraint
  require (ctx.oldGlobalAccount=P.oldGlobalAddress) .constraint
  let oldGlobal ← load s.oldGlobalAccount
  let mint ← load (s.mints ctx.mMint)
  require (mint.decimals=6) .constraint
  require (ctx.oldMMint=oldGlobal.mint) (.error .InvalidMint)
  let oldMint ← load (s.mints ctx.oldMMint)
  require (oldMint.decimals=mint.decimals) .constraint
  require (ctx.portalTokenAuthority=P.portalTokenAuthority) .constraint
  require (ctx.extSwapGlobal=P.extSwapGlobal) .constraint
  require (ctx.portalMAccount=P.associatedToken ctx.portalTokenAuthority ctx.mMint) .constraint
  let (s,portal) ← initIfNeeded s.toChain ctx.portalMAccount ctx.mMint ctx.portalTokenAuthority
  require (ctx.extSwapMAccount=P.associatedToken ctx.extSwapGlobal ctx.mMint) .constraint
  let (s,extSwap) ← initIfNeeded s ctx.extSwapMAccount ctx.mMint ctx.extSwapGlobal
  .ok (s,oldGlobal,oldMint,portal,extSwap)

variable [LinearOrder M]

/-- initialize with the migrate feature: root and index are those of the v1 program, and the new
supply at the new multiplier must be backed by the old one. -/
def handler (s : MigrateChain D M) (ctx : MigrateInitialize) : Result (MigrateChain D M) := do
  let (chain,oldGlobal,oldMint,portal,extSwap) ← accounts P s ctx
  Initialize.validate P.toProgram chain ctx.toInitialize oldGlobal.index
  let global : EarnGlobal D :=
    ⟨ctx.admin,ctx.mMint,ctx.portalTokenAuthority,ctx.extSwapGlobal,P.zeroRoot⟩
  let global := {global with earnerMerkleRoot := oldGlobal.earnerMerkleRoot}
  let chain := {chain with globalAccount := some global}
  let chain ← updateMultiplier chain ctx.mMint ctx.globalAccount (P.indexToMultiplier oldGlobal.index)
  let scaledUiConfig ← getScaledUiConfig chain ctx.mMint
  let mint ← load (chain.mints ctx.mMint)
  let newSupplyAmount ← principalToAmountUp mint.supply (P.toF64 scaledUiConfig.newMultiplier)
  require (¬newSupplyAmount>oldMint.supply) (.error .InvalidMint)
  let chain ← thawIfFrozen chain portal ctx.portalMAccount ctx.mMint ctx.globalAccount
  let chain ← thawIfFrozen chain extSwap ctx.extSwapMAccount ctx.mMint ctx.globalAccount
  .ok {s with toChain := chain}

end MigrateInitialize

/-- The migrate build of initialize as a transaction of its own. -/
def migrateProgram [LinearOrder M] :
    Machine (MigrateChain D M) MigrateInitialize Failure (IndexUpdateV2 M) where
  step s ctx := do
    let s ← MigrateInitialize.handler P s ctx
    .ok (s,[])

/-- What a migration leaves behind. -/
structure MigrateInitialize.Migrated (s s' : MigrateChain D M) (ctx : MigrateInitialize)
    (oldGlobal : OldGlobal D) (oldMint mint : Mint M) (global : EarnGlobal D) : Prop where
  oldGlobal_eq : s.oldGlobalAccount=some oldGlobal
  oldMint_eq : s.mints oldGlobal.mint=some oldMint
  mint_eq : s'.mints ctx.mMint=some mint
  supply : (s.mints ctx.mMint).map Mint.supply=some mint.supply
  multiplier : mint.scaledUiAmount=some ⟨ctx.globalAccount,P.indexToMultiplier oldGlobal.index⟩
  global_eq : s'.globalAccount=some global
  root : global.earnerMerkleRoot=oldGlobal.earnerMerkleRoot
  backed : ∃ x,x≤oldMint.supply ∧
    principalToAmountUp mint.supply (P.toF64 (P.indexToMultiplier oldGlobal.index))=.ok x

section
variable {P} [LinearOrder M] {s s' : MigrateChain D M} {ctx : MigrateInitialize}

omit [LinearOrder M] in
theorem MigrateInitialize.accounts_eq_ok {chain : Chain D M} {oldGlobal : OldGlobal D}
    {oldMint : Mint M} {portal extSwap : TokenAccount}
    (h : accounts P s ctx=.ok (chain,oldGlobal,oldMint,portal,extSwap)) :
    s.oldGlobalAccount=some oldGlobal ∧ s.mints oldGlobal.mint=some oldMint ∧
      chain.mints=s.mints := by
  simp only [accounts,bind_eq_ok,require_eq_ok,load_eq_ok,Prod.exists] at h
  obtain ⟨_,_,_,_,old,hold,mint,_,_,_,_,haddress,om,hom,_,_,_,_,_,_,_,_,s1,a1,h1,_,_,s2,a2,h2,h⟩ := h
  cases h
  obtain ⟨_,_,rfl,_⟩ := initIfNeeded_eq_ok h1
  obtain ⟨_,_,rfl,_⟩ := initIfNeeded_eq_ok h2
  rw [haddress] at hom
  exact ⟨hold,hom,rfl⟩

theorem MigrateInitialize.handler_eq_ok (h : handler P s ctx=.ok s') :
    ∃ oldGlobal oldMint mint global,Migrated P s s' ctx oldGlobal oldMint mint global := by
  simp only [handler,bind_eq_ok,require_eq_ok,load_eq_ok,Prod.exists,getScaledUiConfig_eq_ok] at h
  obtain ⟨s1,old,oldMint,portal,extSwap,haccounts,_,hval,s2,hup,c,⟨m,hm,hc⟩,m',hm',x,hx,_,hle,s3,
    h3,s4,h4,h⟩ := h
  cases h
  rw [hm] at hm'
  cases hm'
  obtain ⟨hold,holdMint,hmints⟩ := accounts_eq_ok haccounts
  obtain ⟨m0,c0,hm0,hc0,hauth,hnot,_⟩ := Initialize.validate_eq_ok hval
  obtain ⟨hg3,hm3,_⟩ := thawIfFrozen_frame h3
  obtain ⟨hg4,hm4,_⟩ := thawIfFrozen_frame h4
  obtain ⟨m1,c1,hm1,hc1,hmult⟩ := updateMultiplier_eq_ok hup
  cases hm0.symm.trans hm1
  cases hc0.symm.trans hc1
  -- the mint was at the index already, or has just been raised to it
  have hraised : m.scaledUiAmount=some ⟨ctx.globalAccount,P.indexToMultiplier old.index⟩ ∧
      m.supply=m0.supply ∧
      s2.globalAccount=some {(⟨ctx.admin,ctx.mMint,ctx.portalTokenAuthority,ctx.extSwapGlobal,
        P.zeroRoot⟩ : EarnGlobal D) with earnerMerkleRoot := old.earnerMerkleRoot} := by
    rw [← hauth]
    rcases hmult with ⟨hle,rfl⟩|⟨_,rfl⟩
    · cases hm1.symm.trans hm
      rw [← le_antisymm hnot hle]
      exact ⟨hc1,rfl,rfl⟩
    · simp only [Chain.setMint_mints,update_self,Option.some.injEq] at hm
      subst hm
      exact ⟨rfl,rfl,rfl⟩
  obtain ⟨hscaled,hsupply,hglobal⟩ := hraised
  rw [hscaled] at hc
  cases hc
  have hmint : s4.mints ctx.mMint=some m := by rw [hm4,hm3,hm]
  have hbefore : (s.mints ctx.mMint).map Mint.supply=some m.supply := by
    rw [← hmints,hm0,hsupply]
    rfl
  exact ⟨old,oldMint,m,_,hold,holdMint,hmint,hbefore,hscaled,hg4.trans (hg3.trans hglobal),rfl,x,
    Nat.le_of_not_lt hle,hx⟩

omit [LinearOrder M] in
/-- Holders of at most the new supply convert to at most the old supply, each on its own. -/
theorem MigrateInitialize.Migrated.solvent {oldGlobal : OldGlobal D} {oldMint mint : Mint M}
    {global : EarnGlobal D} (h : Migrated P s s' ctx oldGlobal oldMint mint global)
    {principals : List Nat} (hsum : principals.sum ≤ mint.supply) :
    ∃ amounts,List.Forall₂
        (fun p a => principalToAmountDown p (P.toF64 (P.indexToMultiplier oldGlobal.index))=.ok a)
        principals amounts ∧ amounts.sum≤oldMint.supply := by
  obtain ⟨x,hx,hup⟩ := h.backed
  obtain ⟨rfl,hdown⟩ := principalToAmountUp_eq_ok hup
  let toAmount := Rate.down (scaledIndex (P.toF64 (P.indexToMultiplier oldGlobal.index)))
    indexScaleU64
  refine ⟨principals.map toAmount,List.forall₂_map_right_iff.mpr (List.forall₂_same.mpr ?_),?_⟩
  · intro p hp
    exact hdown p ((List.le_sum_of_mem hp).trans hsum)
  · calc (principals.map toAmount).sum ≤ toAmount principals.sum :=
          Rate.sum_down_le indexScaleU64_pos principals
      _ ≤ toAmount mint.supply := Rate.down_mono hsum
      _ ≤ Rate.up _ indexScaleU64 mint.supply := Rate.down_le_up _
      _ ≤ oldMint.supply := hx

/-- A migration that fails changes nothing. One that succeeds leaves the mint at the multiplier of
the v1 index and the v1 root stored, and whatever the holders of at most the new supply convert
to, each rounded down on its own, is backed by the old supply. -/
theorem migration_solvent (P : MigrateProgram D M) (s : MigrateChain D M)
    (ctx : MigrateInitialize) :
    (∀ failure,MigrateInitialize.handler P s ctx=.error failure →
      (migrateProgram P).exec s ctx=s) ∧
    ∀ s',MigrateInitialize.handler P s ctx=.ok s' → (migrateProgram P).exec s ctx=s' ∧
      ∃ oldGlobal oldMint mint global multiplier,s.oldGlobalAccount=some oldGlobal ∧
        s.mints oldGlobal.mint=some oldMint ∧ s'.mints ctx.mMint=some mint ∧
        (s.mints ctx.mMint).map Mint.supply=some mint.supply ∧
        mint.scaledUiAmount=some ⟨ctx.globalAccount,multiplier⟩ ∧
        multiplier=P.indexToMultiplier oldGlobal.index ∧
        s'.globalAccount=some global ∧ global.earnerMerkleRoot=oldGlobal.earnerMerkleRoot ∧
        ∀ principals : List Nat,principals.sum ≤ mint.supply →
          ∃ amounts,List.Forall₂ (fun p a => principalToAmountDown p (P.toF64 multiplier)=.ok a)
              principals amounts ∧ amounts.sum≤oldMint.supply := by
  refine ⟨?_,?_⟩
  · intro failure h
    have hstep : (migrateProgram P).step s ctx=.error failure := by
      simp only [migrateProgram,h]
      rfl
    exact Machine.exec_of_error _ hstep
  · intro s' h
    obtain ⟨oldGlobal,oldMint,mint,global,hm⟩ := MigrateInitialize.handler_eq_ok h
    refine ⟨?_,oldGlobal,oldMint,mint,global,_,hm.oldGlobal_eq,hm.oldMint_eq,hm.mint_eq,
      hm.supply,hm.multiplier,rfl,hm.global_eq,hm.root,fun principals hsum => hm.solvent hsum⟩
    exact Machine.exec_of_ok _ (bind_of_ok h _)

end

section Sample

def sampleMigration : MigrateProgram Digest Nat :=
  ⟨sampleProgram,.ofByte 12,indexToMultiplier⟩

/-- The v1 mint holds 6 units at an index of 1.05, the new mint 5. -/
def sampleMigrateChain : MigrateChain Digest Nat where
  globalAccount := none
  mints key :=
    if key=.ofByte 13 then some ⟨6,6,none,none,none,none⟩ else sampleChain.mints key
  accounts := sampleChain.accounts
  oldGlobalAccount := some ⟨.ofByte 13,1050000000000,.leaf (.ofByte 8)⟩

def sampleMigrateInitialize : MigrateInitialize := ⟨sampleInitialize,.ofByte 12,.ofByte 13⟩

theorem migration_solvent_sample :
    ∃ s' amounts,MigrateInitialize.handler sampleMigration sampleMigrateChain
        sampleMigrateInitialize=.ok s' ∧
      List.Forall₂ (fun p a => principalToAmountDown p (indexToMultiplier 1050000000000)=.ok a)
        [2,3] amounts ∧ amounts.sum≤6 := by
  have hok : (MigrateInitialize.handler sampleMigration sampleMigrateChain
      sampleMigrateInitialize).isOk=true := by decide +kernel
  cases h : MigrateInitialize.handler sampleMigration sampleMigrateChain sampleMigrateInitialize with
  | error failure => simp [h,Except.isOk,Except.toBool] at hok
  | ok s' =>
    obtain ⟨_,oldGlobal,oldMint,mint,_,_,hold,holdMint,_,hsupply,_,rfl,_,_,hsolvent⟩ :=
      (migration_solvent sampleMigration sampleMigrateChain sampleMigrateInitialize).2 s' h
    cases hold
    cases holdMint
    have hmint : 5=mint.supply := Option.some.inj hsupply
    obtain ⟨amounts,hamounts,hsum⟩ := hsolvent [2,3] (by rw [← hmint]; decide)
    exact ⟨s',amounts,rfl,hamounts,hsum⟩

end Sample

end SolanaM.Earn
