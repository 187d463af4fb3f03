import SolanaM.Earn.Run

namespace SolanaM.Earn

open Function

variable {D M : Type} [DecidableEq D] [LinearOrder M] {P : Program D M} {s s' : Chain D M}
  {a : Action D} {es : List (IndexUpdateV2 M)} {g : EarnGlobal D}

/-- What of the global account outlasts every action: all but the root, and the Portal's authority
where it is not the PDA already. -/
structure Configured (P : Program D M) (g g' : EarnGlobal D) : Prop where
  admin : g'.admin=g.admin
  mMint : g'.mMint=g.mMint
  extSwap : g'.extSwapGlobalAccount=g.extSwapGlobalAccount
  portal : g.portalAuthority=P.portalTokenAuthority → g'.portalAuthority=P.portalTokenAuthority

omit [DecidableEq D] [LinearOrder M] in
theorem Configured.refl (P : Program D M) (g : EarnGlobal D) : Configured P g g :=
  ⟨rfl,rfl,rfl,id⟩

omit [DecidableEq D] [LinearOrder M] in
theorem Configured.trans {g' g'' : EarnGlobal D} (h : Configured P g g')
    (h' : Configured P g' g'') : Configured P g g'' where
  admin := h'.admin.trans h.admin
  mMint := h'.mMint.trans h.mMint
  extSwap := h'.extSwap.trans h.extSwap
  portal hp := h'.portal (h.portal hp)

/-- The root alone is propagate_index's to write, the Portal's authority that of
update_portal_authority. -/
theorem step_global (hg : s.globalAccount=some g) (h : (program P).step s a=.ok (s',es)) :
    ∃ g',s'.globalAccount=some g' ∧ Configured P g g' := by
  rcases step_frame hg h with ⟨ctx,newIndex,root,ts,_,hok⟩|⟨_,_,hgl|hgl⟩
  · obtain ⟨g',m,c,hg',_,_,_,hout⟩ := PropagateIndex.handler_eq_ok hok
    cases hg.symm.trans hg'
    have hroot := PropagateIndex.storeRoot_global (P := P) root hg
    rcases hout with ⟨_,rfl,_⟩|⟨_,rfl,_⟩|⟨_,rfl,_⟩
    · exact ⟨g,hg,.refl P g⟩
    · exact ⟨_,hroot,⟨rfl,rfl,rfl,id⟩⟩
    · exact ⟨_,hroot,⟨rfl,rfl,rfl,id⟩⟩
  · exact ⟨g,hgl,.refl P g⟩
  · exact ⟨_,hgl,⟨rfl,rfl,rfl,fun _ => rfl⟩⟩

theorem run_global (hg : s.globalAccount=some g) (as : List (Action D)) :
    ∃ g',((program P).run s as).globalAccount=some g' ∧ Configured P g g' := by
  refine (program P).run_invariant
    (I := fun u => ∃ g',u.globalAccount=some g' ∧ Configured P g g') ?_ s as ⟨g,hg,.refl P g⟩
  rintro u a u' es ⟨g',hg',hc⟩ h
  obtain ⟨g'',hg'',hc'⟩ := step_global hg' h
  exact ⟨g'',hg'',hc.trans hc'⟩

/-- Of the $M mint no action touches more than the multiplier and what has been issued of it. -/
theorem step_mint {m : Mint M} (hg : s.globalAccount=some g) (hm : s.mints g.mMint=some m)
    (h : (program P).step s a=.ok (s',es)) :
    ∃ c supply,s'.mints g.mMint=some {m with scaledUiAmount := c,supply := supply} := by
  rcases step_frame hg h with ⟨ctx,newIndex,root,ts,_,hok⟩|⟨hms,_⟩
  · obtain ⟨g',m',c,hg',_,hm',_,hout⟩ := PropagateIndex.handler_eq_ok hok
    cases hg.symm.trans hg'
    cases hm.symm.trans hm'
    rcases hout with ⟨_,rfl,_⟩|⟨_,rfl,_⟩|⟨_,rfl,_⟩
    · exact ⟨m.scaledUiAmount,m.supply,hm⟩
    · rw [PropagateIndex.storeRoot_mints]
      exact ⟨m.scaledUiAmount,m.supply,hm⟩
    · rw [Chain.setMint_mints,update_self]
      exact ⟨_,m.supply,rfl⟩
  · obtain ⟨supply,hm'⟩ := hms _ m hm
    exact ⟨m.scaledUiAmount,supply,hm'⟩

/-- The global account names a mint that the program can freeze and thaw. -/
def Controls (P : Program D M) (s : Chain D M) : Prop :=
  ∃ g,s.globalAccount=some g ∧ Freezable s g.mMint P.globalAddress

omit [DecidableEq D] in
theorem Controls.of_initialize {ctx : Initialize} {i : Nat}
    (h : Initialize.handler P s ctx i=.ok s') : Controls P s' := by
  have he := Initialize.handler_eq_ok h
  obtain ⟨m,hm,hfreeze,_⟩ := he.mint
  refine ⟨_,he.global,m,?_,hfreeze⟩
  rw [hm,update_self]

theorem Controls.step (hs : Controls P s) (h : (program P).step s a=.ok (s',es)) :
    Controls P s' := by
  obtain ⟨g,hg,m,hm,hfreeze⟩ := hs
  obtain ⟨c,supply,hm'⟩ := step_mint hg hm h
  obtain ⟨g',hg',hc⟩ := step_global hg h
  refine ⟨g',hg',{m with scaledUiAmount := c,supply := supply},?_,hfreeze⟩
  rw [hc.mMint]
  exact hm'

theorem Controls.run (hs : Controls P s) (as : List (Action D)) :
    Controls P ((program P).run s as) :=
  (program P).run_invariant (fun _ _ _ _ h => h.step) s as hs

end SolanaM.Earn
