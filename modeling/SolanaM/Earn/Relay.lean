import SolanaM.Earn.Roots
import SolanaM.Framework.Refinement

namespace SolanaM.Earn

open Function

/-- What an event says of the relayed index; the supply is the mint's own. -/
structure Announced (M : Type) where
  index : Nat
  ts : Int
  currentMultiplier : M
  newMultiplier : M

variable {D M : Type}

def IndexUpdateV2.announced (e : IndexUpdateV2 M) : Announced M :=
  ⟨e.index,e.ts,e.currentMultiplier,e.newMultiplier⟩

variable [DecidableEq D] [LinearOrder M]

/-- What the program is for, seen from the Portal: a root and a multiplier that the delivered
messages alone move, and that no message is ever refused. -/
def relay (P : Program D M) : Machine (D×M) (Message D) Empty (Announced M) where
  step st msg := .ok (Records.step (Message.multiplier P) (Message.root P) st msg,
    if st.2 < msg.multiplier P then [⟨msg.index,msg.ts,st.2,msg.multiplier P⟩] else [])

/-- The message that an action delivers: propagate_index with the program's own accounts, signed
by one whom it authorizes. -/
def delivered (P : Program D M) (g : EarnGlobal D) : Action D → Option (Message D)
  | .propagateIndex ctx newIndex root ts =>
      if ctx.globalAccount=P.globalAddress ∧ ctx.mMint=g.mMint ∧
          PropagateIndex.authorized P g ctx.signer then some ⟨ctx.signer,newIndex,root,ts⟩
      else none
  | _ => none

variable {P : Program D M} {g : EarnGlobal D} {s : Chain D M} {st : D×M}

omit [DecidableEq D] [LinearOrder M] in
/-- An action that delivers a message is that message's propagate_index. -/
theorem action_of_delivered {a : Action D} {msg : Message D} (h : delivered P g a=some msg) :
    a=msg.action P g.mMint ∧ PropagateIndex.authorized P g msg.signer := by
  cases a with
  | propagateIndex ctx newIndex root ts =>
    have hc : ctx.globalAccount=P.globalAddress ∧ ctx.mMint=g.mMint ∧
        PropagateIndex.authorized P g ctx.signer := by
      by_contra hn
      rw [delivered,if_neg hn] at h
      cases h
    rw [delivered,if_pos hc] at h
    cases h
    obtain ⟨haddress,hmint,hauth⟩ := hc
    refine ⟨?_,hauth⟩
    unfold Message.action
    rw [← haddress,← hmint]
  | _ => cases h

theorem Holds.accepts (hs : Holds P g s st) {a : Action D} {msg : Message D}
    (h : delivered P g a=some msg) : ∃ s' es,(program P).step s a=.ok (s',es) := by
  obtain ⟨hg,m,hm,hc⟩ := hs
  obtain ⟨rfl,hauth⟩ := action_of_delivered h
  exact PropagateIndex.handler_succeeds hg hm hc hauth msg.index msg.earnerMerkleRoot msg.ts

/-- The event of a delivered message is the relay's. -/
theorem Holds.announces (hs : Holds P g s st) {msg : Message D}
    (hauth : PropagateIndex.authorized P g msg.signer) :
    ((program P).emitted s (msg.action P g.mMint)).map IndexUpdateV2.announced=
      (relay P).emitted st msg := by
  obtain ⟨hg,m,hm,hc⟩ := hs
  obtain ⟨s',es,hok⟩ := PropagateIndex.handler_succeeds hg hm hc hauth msg.index
    msg.earnerMerkleRoot msg.ts
  rw [Machine.emitted_of_ok (program P) (a := msg.action P g.mMint) hok]
  obtain ⟨g',m',c,hg',_,hm',hc',hout⟩ := PropagateIndex.handler_eq_ok hok
  cases hg.symm.trans hg'
  cases hm.symm.trans hm'
  cases hc.symm.trans hc'
  have hemitted : (relay P).emitted st msg=
      if st.2 < msg.multiplier P then [⟨msg.index,msg.ts,st.2,msg.multiplier P⟩] else [] := rfl
  rw [hemitted]
  rcases hout with ⟨hlt,_,rfl⟩|⟨heq,_,rfl⟩|⟨hgt,_,rfl⟩
  · exact (if_neg (not_lt_of_ge hlt.le)).symm
  · exact (if_neg (not_lt_of_ge heq.le)).symm
  · exact (if_pos hgt).symm

/-- Whatever delivers no message leaves root, multiplier and configuration alone. -/
theorem Holds.undisturbed (hportal : g.portalAuthority=P.portalTokenAuthority)
    (hs : Holds P g s st) {a : Action D} (ha : delivered P g a=none) :
    Holds P g ((program P).exec s a) st ∧ (program P).emitted s a=[] := by
  cases h : (program P).step s a with
  | error f =>
    rw [Machine.exec_of_error _ h,Machine.emitted_of_error _ h]
    exact ⟨hs,rfl⟩
  | ok p =>
    obtain ⟨s',es⟩ := p
    rw [Machine.exec_of_ok _ h,Machine.emitted_of_ok _ h]
    obtain ⟨hg,m,hm,hc⟩ := hs
    rcases step_frame hg h with ⟨ctx,newIndex,root,ts,rfl,hok⟩|⟨hms,hes,hgl⟩
    · have hsome : delivered P g (.propagateIndex ctx newIndex root ts)=
          some ⟨ctx.signer,newIndex,root,ts⟩ := if_pos (PropagateIndex.handler_addressed hg hok)
      rw [hsome] at ha
      cases ha
    · obtain ⟨supply,hm'⟩ := hms g.mMint m hm
      refine ⟨⟨?_,_,hm',hc⟩,hes⟩
      rcases hgl with hgl|hgl
      · exact hgl
      · rw [hgl,← hportal]

theorem program_refines (hportal : g.portalAuthority=P.portalTokenAuthority) :
    (program P).Refines (relay P) (delivered P g) (Holds P g) IndexUpdateV2.announced where
  visible s st a msg ha hs := by
    obtain ⟨rfl,hauth⟩ := action_of_delivered ha
    exact ⟨hs.deliver msg hauth,hs.announces hauth⟩
  silent s st a ha hs := hs.undisturbed hportal ha

omit [DecidableEq D] in
theorem Holds.of_initialize {s0 : Chain D M} {ctx : Initialize} {i0 : Nat}
    (h : Initialize.handler P s0 ctx i0=.ok s) :
    Holds P ⟨ctx.admin,ctx.mMint,P.portalTokenAuthority,P.extSwapGlobal,P.zeroRoot⟩ s
      (P.zeroRoot,P.indexToMultiplier i0) := by
  have he := Initialize.handler_eq_ok h
  obtain ⟨m,hm,_,_,_,hc⟩ := he.mint
  refine ⟨he.global,m,?_,hc⟩
  rw [hm,update_self]

/-- From initialize on the program is the relay of the messages that reach it: root, multiplier
and events are those that the delivered messages, in their order, give by themselves, whatever
anyone does in between; the rest of the configuration never changes; and no message that the
authority sends is ever refused. -/
theorem relay_refined {s0 : Chain D M} {ctx : Initialize} {i0 : Nat}
    (hinit : Initialize.handler P s0 ctx i0=.ok s) (as : List (Action D)) :
    let g : EarnGlobal D :=
      ⟨ctx.admin,ctx.mMint,P.portalTokenAuthority,P.extSwapGlobal,P.zeroRoot⟩
    let st : D×M := (P.zeroRoot,P.indexToMultiplier i0)
    let msgs := as.filterMap (delivered P g)
    Holds P g ((program P).run s as) ((relay P).run st msgs) ∧
      ((program P).outputs s as).map IndexUpdateV2.announced=(relay P).outputs st msgs ∧
      ∀ a msg,delivered P g a=some msg →
        ∃ s' es,(program P).step ((program P).run s as) a=.ok (s',es) := by
  intro g st msgs
  have hs : Holds P g s st := Holds.of_initialize hinit
  have hrefines : (program P).Refines (relay P) (delivered P g) (Holds P g)
      IndexUpdateV2.announced := program_refines rfl
  have hend := hrefines.run hs as
  refine ⟨hend,hrefines.outputs hs as,?_⟩
  intro a msg ha
  exact hend.accepts ha

/-- Two messages, with a stranger's propagate_index and a holder's new account in between. -/
theorem relay_refined_two :
    let strange : Action Digest := .propagateIndex ⟨.ofByte 9,.ofByte 1,.ofByte 6⟩ 9 .zero 1
    let opened : Action Digest :=
      .token (.createAccount (.ofByte 12) (.ofByte 6) (.ofByte 13) true)
    let first : Message Digest := ⟨.ofByte 2,4,.leaf (.ofByte 8),0⟩
    let second : Message Digest := ⟨.ofByte 2,7,.zero,2⟩
    let as := [first.action sampleProgram (.ofByte 6),strange,opened,
      second.action sampleProgram (.ofByte 6)]
    Holds sampleProgram ⟨.ofByte 11,.ofByte 6,.ofByte 2,.ofByte 3,.zero⟩
      ((program sampleProgram).run sampleStart as) (.leaf (.ofByte 8),7) := by
  intro strange opened first second as
  have h := (relay_refined (P := sampleProgram) sampleStart_eq as).1
  have hend : (relay sampleProgram).run (.zero,1) (as.filterMap (delivered sampleProgram
      ⟨.ofByte 11,.ofByte 6,.ofByte 2,.ofByte 3,.zero⟩))=(.leaf (.ofByte 8),7) := by
    decide +kernel
  exact hend ▸ h

end SolanaM.Earn
