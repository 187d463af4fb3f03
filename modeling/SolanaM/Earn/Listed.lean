import SolanaM.Earn.Convergence
import SolanaM.Earn.Bridging

namespace SolanaM.Earn

open Sdk

variable {D M : Type} [DecidableEq D]

/-- The stored root is that of an SDK tree over keys among which user is. -/
def RootLists (P : Program D M) (user : Key) (s : Chain D M) : Prop :=
  ∃ (g : EarnGlobal D) (leaves : List PublicKey),s.globalAccount=some g ∧
    leaves.length<2^63 ∧ user∈leaves.map PublicKey.bytes ∧
    (MerkleTree.new P.keccak leaves).getRoot=some g.earnerMerkleRoot

/-- A listed owner's account can be moved from and to, thawed again and closed, but not frozen. -/
theorem AccountChange.listed_kept {P : Program D M} (hf : P.keccak.CollisionFree) {s : Chain D M}
    {mMint user key : Key} {a : Action D} {acc' : TokenAccount} (hlists : RootLists P user s)
    (hs : Kept mMint user key s) (h : AccountChange P s key a (some acc')) :
    acc'.mint=mMint ∧ acc'.owner=user ∧ acc'.immutableOwner ∧ acc'.state=.Initialized := by
  obtain ⟨acc,hacc,hmint,howner,him,hst⟩ := hs
  obtain ⟨him',howner'⟩ := h.owner_kept hacc him
  generalize ho : some acc'=o at h
  cases h with
  | same =>
    cases ho.trans hacc
    exact ⟨hmint,howner,him,hst⟩
  | added hkey h =>
    subst hkey
    cases ho
    cases hacc.symm.trans h.account
    exact ⟨hmint,howner,him,rfl⟩
  | removed hkey h =>
    -- the program would have accepted a proof that a listed owner is not listed
    subst hkey
    cases ho
    cases hacc.symm.trans h.account
    obtain ⟨g,leaves,hg,hlen,hmem,hroot⟩ := hlists
    cases hg.symm.trans h.global
    have hne : leaves≠[] := by
      rintro rfl
      exact nomatch hmem
    have hp := ProvesEarners.of_tree hf hne hlen hroot
    exact absurd (howner ▸ hmem) ((hp.excluded acc.owner).mp ⟨_,_,h.excluded⟩)
  | recoveredFrom hkey h =>
    subst hkey
    cases hacc.symm.trans h.source
    exact nomatch hst.symm.trans h.frozen
  | recoveredTo hkey h =>
    subst hkey
    cases ho
    cases hacc.symm.trans h.destination
    exact ⟨hmint,howner,him,rfl⟩
  | portal hkey h =>
    subst hkey
    cases ho
    rcases h.stored with he|⟨he,_⟩
    · cases hacc.symm.trans he
      exact ⟨hmint,howner,him,rfl⟩
    · exact nomatch hacc.symm.trans he
  | created hnone => exact nomatch hacc.symm.trans hnone
  | ownerSet hold _ hmut =>
    cases hacc.symm.trans hold
    exact absurd him hmut
  | moved hold =>
    cases ho
    cases hacc.symm.trans hold
    exact ⟨hmint,howner,him,hst⟩
  | closed => exact nomatch ho

/-- From any reachable state on, whoever calls whatever: as long as every root that gets stored
lists its owner and the account is not closed, a thawed account stays thawed, with that owner. -/
theorem listed_stays_thawed [LinearOrder M] {P : Program D M} (hf : P.keccak.CollisionFree)
    {s0 s : Chain D M} {ctx : Initialize} {currentIndex : Nat}
    (hinit : Initialize.handler P s0 ctx currentIndex=.ok s) (as more : List (Action D))
    {user key : Key} (hkept : Kept ctx.mMint user key ((program P).run s as))
    (hlists : ∀ mid,mid<+:more → RootLists P user ((program P).run s (as++mid)) ∧
      ((program P).run s (as++mid)).accounts key≠none) :
    Kept ctx.mMint user key ((program P).run s (as++more)) := by
  rw [Machine.run_append]
  refine ((program P).run_invariant_while
    (I := fun u => Governed P ctx.mMint u ∧ Kept ctx.mMint user key u)
    (P := fun u => RootLists P user u ∧ u.accounts key≠none) ?_ _ more
    ⟨(Governed.of_initialize hinit).run as,hkept⟩ ?_).2
  · intro u a ⟨hgov,hs⟩ ⟨hu,_⟩ ⟨_,hopen⟩
    cases hok : (program P).step u a with
    | error f =>
      rw [Machine.exec_of_error _ hok]
      exact ⟨hgov,hs⟩
    | ok p =>
      rw [Machine.exec_of_ok _ hok] at hopen ⊢
      refine ⟨hgov.step hok,?_⟩
      have hc : AccountChange P u key a (p.1.accounts key) := hgov.accounts hok
      obtain ⟨acc',hacc'⟩ := Option.ne_none_iff_exists'.mp hopen
      rw [hacc'] at hc
      exact ⟨acc',hacc',hc.listed_kept hf hu hs⟩
  · intro mid hm
    rw [← Machine.run_append]
    exact hlists mid hm

/-- A second message with the same root, and an attempt to remove the earner it lists. -/
theorem listed_stays_thawed_remove :
    Kept (.ofByte 6) (.ofByte 8) (.ofByte 7) ((program sampleProgram).run sampleStart
      ([.propagateIndex ⟨.ofByte 2,.ofByte 1,.ofByte 6⟩ 2 (.leaf (.ofByte 8)) 0,
          .addRegistrarEarner ⟨.ofByte 12,.ofByte 1,.ofByte 6,.ofByte 7⟩ (.ofByte 8) []]++
        [.propagateIndex ⟨.ofByte 2,.ofByte 1,.ofByte 6⟩ 3 (.leaf (.ofByte 8)) 1,
          .removeRegistrarEarner ⟨.ofByte 13,.ofByte 1,.ofByte 6,.ofByte 7⟩ [[]] [.ofByte 9]])) := by
  refine listed_stays_thawed (P := sampleProgram) Digest.keccak_collisionFree sampleStart_eq _ _
    ⟨⟨.ofByte 6,.ofByte 8,5,.Initialized,true⟩,rfl,rfl,rfl,rfl,rfl⟩ ?_
  intro mid hm
  have hroot (s : Chain Digest Nat) (hs : s.globalAccount=
      some ⟨.ofByte 11,.ofByte 6,.ofByte 2,.ofByte 3,.leaf (.ofByte 8)⟩) :
      RootLists sampleProgram (.ofByte 8) s :=
    ⟨_,[⟨1,.ofByte 8⟩],hs,by decide,by decide,rfl⟩
  rcases List.prefix_cons_iff.mp hm with rfl|⟨mid,rfl,hm'⟩
  · exact ⟨hroot _ rfl,by decide⟩
  · rcases List.prefix_cons_iff.mp hm' with rfl|⟨mid,rfl,hm''⟩
    · exact ⟨hroot _ rfl,by decide⟩
    · rw [List.prefix_nil.mp hm'']
      exact ⟨hroot _ rfl,by decide⟩

end SolanaM.Earn
