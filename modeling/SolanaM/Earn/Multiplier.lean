import SolanaM.Earn.Run

namespace SolanaM.Earn

open Function

variable {D M : Type}

/-- Each event starts from the multiplier the one before it left. -/
def Linked : M → List (IndexUpdateV2 M) → M → Prop
  | x,[],y => x=y
  | x,e::es,y => e.currentMultiplier=x ∧ Linked e.newMultiplier es y

variable [LinearOrder M] [DecidableEq D] {P : Program D M}

/-- The index of a propagate_index call, if the call succeeds. -/
def acceptedBy (P : Program D M) (s : Chain D M) (a : Action D) : List Nat :=
  match a,(program P).step s a with
  | .propagateIndex _ newIndex _ _,.ok _ => [newIndex]
  | _,_ => []

def accepted (P : Program D M) (s : Chain D M) : List (Action D) → List Nat
  | [] => []
  | a::as => acceptedBy P s a++accepted P ((program P).exec s a) as

/-- The program runs and the mint's multiplier is x. -/
def Tracks (P : Program D M) (mMint : Key) (s : Chain D M) (x : M) : Prop :=
  ∃ g m,s.globalAccount=some g ∧ g.mMint=mMint ∧ s.mints mMint=some m ∧
    m.scaledUiAmount=some ⟨P.globalAddress,x⟩

omit [DecidableEq D] in
theorem Tracks.of_initialize {s s' : Chain D M} {ctx : Initialize} {i : Nat}
    (h : Initialize.handler P s ctx i=.ok s') :
    Tracks P ctx.mMint s' (P.indexToMultiplier i) := by
  have he := Initialize.handler_eq_ok h
  obtain ⟨m,hm,_,_,_,hc⟩ := he.mint
  refine ⟨_,m,he.global,rfl,?_,hc⟩
  rw [hm,update_self]

section Step

variable {mMint : Key} {s s' : Chain D M} {x : M} {es : List (IndexUpdateV2 M)}

/-- A stale or equal index changes nothing and is silent; a greater one is recorded. -/
theorem Tracks.propagate (hs : Tracks P mMint s x) {ctx : PropagateIndex} {newIndex : Nat}
    {root : D} {ts : Int} (h : PropagateIndex.handler P s ctx newIndex root ts=.ok (s',es)) :
    P.indexToMultiplier newIndex≤x ∧ Tracks P mMint s' x ∧ es=[] ∨
      x<P.indexToMultiplier newIndex ∧ Tracks P mMint s' (P.indexToMultiplier newIndex) ∧
        ∃ supply,es=[⟨newIndex,ts,supply,x,P.indexToMultiplier newIndex⟩] := by
  obtain ⟨g,m,hg,hmint,hm,hc⟩ := hs
  obtain ⟨g',m',c,hg',_,hm',hc',hout⟩ := PropagateIndex.handler_eq_ok h
  cases hg.symm.trans hg'
  rw [hmint] at hm' hout
  cases hm.symm.trans hm'
  cases hc.symm.trans hc'
  have hroot := PropagateIndex.storeRoot_global (P := P) root hg
  rcases hout with ⟨hlt,rfl,rfl⟩|⟨heq,rfl,rfl⟩|⟨hgt,rfl,rfl⟩
  · exact .inl ⟨hlt.le,⟨g,m,hg,hmint,hm,hc⟩,rfl⟩
  · refine .inl ⟨heq.le,⟨_,m,hroot,hmint,?_,hc⟩,rfl⟩
    rw [PropagateIndex.storeRoot_mints,hm]
  · refine .inr ⟨hgt,⟨_,_,hroot,hmint,by rw [Chain.setMint_mints,update_self],?_⟩,m.supply,rfl⟩
    rfl

theorem Tracks.other (hs : Tracks P mMint s x) {a : Action D}
    (ha : ∀ ctx newIndex root ts,a≠.propagateIndex ctx newIndex root ts)
    (h : (program P).step s a=.ok (s',es)) : Tracks P mMint s' x ∧ es=[] := by
  obtain ⟨g,m,hg,hmint,hm,hc⟩ := hs
  rcases step_frame hg h with ⟨ctx,newIndex,root,ts,he,_⟩|⟨hms,hes,hgl⟩
  · exact absurd he (ha ctx newIndex root ts)
  · refine ⟨?_,hes⟩
    obtain ⟨supply,hm'⟩ := hms mMint m hm
    rcases hgl with hgl|hgl
    · exact ⟨g,_,hgl,hmint,hm',hc⟩
    · exact ⟨_,_,hgl,hmint,hm',hc⟩

private theorem acceptedBy_other {a : Action D}
    (ha : ∀ ctx newIndex root ts,a≠.propagateIndex ctx newIndex root ts) :
    acceptedBy P s a=[] := by
  cases a with
  | propagateIndex ctx newIndex root ts => exact absurd rfl (ha ctx newIndex root ts)
  | _ => rfl

/-- propagate_index succeeds for the signers it authorizes, and for all of them, as long as they
name the program's accounts. -/
theorem Tracks.acceptedBy_eq (hs : Tracks P mMint s x) (ctx : PropagateIndex) (newIndex : Nat)
    (root : D) (ts : Int) :
    ∃ g,s.globalAccount=some g ∧ g.mMint=mMint ∧
      acceptedBy P s (.propagateIndex ctx newIndex root ts)=
        if ctx.globalAccount=P.globalAddress ∧ ctx.mMint=mMint ∧
          PropagateIndex.authorized P g ctx.signer then [newIndex] else [] := by
  obtain ⟨g,m,hg,rfl,hm,hc⟩ := hs
  refine ⟨g,hg,rfl,?_⟩
  cases h : (program P).step s (.propagateIndex ctx newIndex root ts) with
  | ok p =>
    have hto := PropagateIndex.handler_addressed hg h
    rw [if_pos hto]
    unfold acceptedBy
    rw [h]
  | error f =>
    have hno : ¬(ctx.globalAccount=P.globalAddress ∧ ctx.mMint=g.mMint ∧
        PropagateIndex.authorized P g ctx.signer) := by
      rintro ⟨haddress,hmint,hauth⟩
      obtain ⟨s',es,hok⟩ := PropagateIndex.handler_succeeds hg hm hc hauth newIndex root ts
      rw [← haddress,← hmint] at hok
      cases h.symm.trans hok
    rw [if_neg hno]
    unfold acceptedBy
    rw [h]

/-- One action moves the multiplier to the greatest accepted index, with one event if it moves. -/
theorem Tracks.exec (hs : Tracks P mMint s x) (a : Action D) :
    ∃ y,Tracks P mMint ((program P).exec s a) y ∧
      y=((acceptedBy P s a).map P.indexToMultiplier).foldl max x ∧
      (y=x ∧ (program P).emitted s a=[] ∨
        ∃ e,(program P).emitted s a=[e] ∧ e.currentMultiplier=x ∧ e.newMultiplier=y ∧ x<y ∧
          y=P.indexToMultiplier e.index) := by
  cases h : (program P).step s a with
  | error f =>
    rw [Machine.exec_of_error _ h,Machine.emitted_of_error _ h]
    refine ⟨x,hs,?_,.inl ⟨rfl,rfl⟩⟩
    unfold acceptedBy
    rw [h]
    cases a <;> rfl
  | ok p =>
    obtain ⟨s',es⟩ := p
    rw [Machine.exec_of_ok _ h,Machine.emitted_of_ok _ h]
    by_cases hp : ∃ ctx newIndex root ts,a=.propagateIndex ctx newIndex root ts
    · obtain ⟨ctx,newIndex,root,ts,rfl⟩ := hp
      have hacc : acceptedBy P s (.propagateIndex ctx newIndex root ts)=[newIndex] := by
        unfold acceptedBy
        rw [h]
      rw [hacc]
      rcases hs.propagate h with ⟨hle,ht,rfl⟩|⟨hlt,ht,supply,rfl⟩
      · exact ⟨x,ht,(max_eq_left hle).symm,.inl ⟨rfl,rfl⟩⟩
      · exact ⟨_,ht,(max_eq_right hlt.le).symm,.inr ⟨_,rfl,rfl,rfl,hlt,rfl⟩⟩
    · have ha : ∀ ctx newIndex root ts,a≠.propagateIndex ctx newIndex root ts :=
        fun ctx newIndex root ts he => hp ⟨ctx,newIndex,root,ts,he⟩
      obtain ⟨ht,rfl⟩ := hs.other ha h
      rw [acceptedBy_other ha]
      exact ⟨x,ht,rfl,.inl ⟨rfl,rfl⟩⟩

end Step

/-- A run moves the multiplier to the greatest accepted index, and the events it emits tell every
move. -/
theorem Tracks.run (hmono : Monotone P.indexToMultiplier) {mMint : Key} {s : Chain D M} {x : M}
    (hs : Tracks P mMint s x) (as : List (Action D)) :
    ∃ y,Tracks P mMint ((program P).run s as) y ∧
      y=((accepted P s as).map P.indexToMultiplier).foldl max x ∧
      Linked x ((program P).outputs s as) y ∧
      (((program P).outputs s as).map IndexUpdateV2.index).Pairwise (·<·) ∧
      ∀ e∈(program P).outputs s as,x<P.indexToMultiplier e.index := by
  induction as generalizing s x with
  | nil => exact ⟨x,hs,rfl,rfl,List.Pairwise.nil,fun _ h => nomatch h⟩
  | cons a as ih =>
    obtain ⟨y,hy,hfold,hevent⟩ := hs.exec a
    obtain ⟨z,hz,hfold',hlink,hinc,habove⟩ := ih hy
    refine ⟨z,hz,?_,?_⟩
    · rw [hfold',hfold,accepted,List.map_append,List.foldl_append]
    · rw [Machine.outputs]
      rcases hevent with ⟨rfl,hnone⟩|⟨e,hone,hcur,hnew,hlt,hidx⟩
      · rw [hnone]
        exact ⟨hlink,hinc,habove⟩
      · rw [hone]
        refine ⟨⟨hcur,hnew ▸ hlink⟩,?_,?_⟩
        · refine List.pairwise_cons.mpr ⟨?_,hinc⟩
          intro i hi
          obtain ⟨e',he',rfl⟩ := List.mem_map.mp hi
          by_contra hle
          have hle' := hmono (Nat.le_of_not_lt hle)
          exact absurd (habove e' he') (not_lt_of_ge (hidx ▸ hle'))
        · intro e' he'
          rcases List.mem_cons.mp he' with rfl|he'
          · exact hidx ▸ hlt
          · exact hlt.trans (habove e' he')

/-- From initialize on, in every run: the mint's multiplier is that of the greatest index among
the first one and the accepted ones, the events alone reconstruct its history, and the accepted
calls are those that name the program's accounts and are signed by the stored portal authority, or
by the admin in a testing build. -/
theorem multiplier_history (hmono : Monotone P.indexToMultiplier) {s0 s : Chain D M}
    {ctx : Initialize} {i0 : Nat} (hinit : Initialize.handler P s0 ctx i0=.ok s)
    (as : List (Action D)) :
    ∃ m c,((program P).run s as).mints ctx.mMint=some m ∧ m.scaledUiAmount=some c ∧
      ((i0::accepted P s as).map P.indexToMultiplier).max? = some c.newMultiplier ∧
      Linked (P.indexToMultiplier i0) ((program P).outputs s as) c.newMultiplier ∧
      (((program P).outputs s as).map IndexUpdateV2.index).Pairwise (·<·) ∧
      ∀ pre call newIndex root ts post,as=pre++.propagateIndex call newIndex root ts::post →
        ∃ g,((program P).run s pre).globalAccount=some g ∧ g.mMint=ctx.mMint ∧
          acceptedBy P ((program P).run s pre) (.propagateIndex call newIndex root ts)=
            if call.globalAccount=P.globalAddress ∧ call.mMint=ctx.mMint ∧
              PropagateIndex.authorized P g call.signer then [newIndex] else [] := by
  have hs : Tracks P ctx.mMint s (P.indexToMultiplier i0) := Tracks.of_initialize hinit
  obtain ⟨y,⟨g,m,_,_,hm,hc⟩,hfold,hlink,hinc,_⟩ := hs.run hmono as
  refine ⟨m,_,hm,hc,?_,hlink,hinc,?_⟩
  · rw [List.map_cons,List.max?_cons',hfold]
  · intro pre call newIndex root ts post _
    obtain ⟨x,hpre,_⟩ := hs.run hmono pre
    exact hpre.acceptedBy_eq call newIndex root ts

/-- A new index, the same one again, a stale one from the same signer and a higher one. -/
def sampleMessages : List (Action Digest) :=
  [.propagateIndex ⟨.ofByte 2,.ofByte 1,.ofByte 6⟩ 4 .zero 0,
    .propagateIndex ⟨.ofByte 2,.ofByte 1,.ofByte 6⟩ 4 .zero 1,
    .propagateIndex ⟨.ofByte 2,.ofByte 1,.ofByte 6⟩ 3 .zero 2,
    .propagateIndex ⟨.ofByte 2,.ofByte 1,.ofByte 6⟩ 7 .zero 3]

theorem multiplier_history_four :
    accepted sampleProgram sampleStart sampleMessages=[4,4,3,7] ∧
      (program sampleProgram).outputs sampleStart sampleMessages=[⟨4,0,5,1,4⟩,⟨7,3,5,4,7⟩] ∧
      (∃ m c,((program sampleProgram).run sampleStart sampleMessages).mints (.ofByte 6)=some m ∧
        m.scaledUiAmount=some c ∧ some 7=some c.newMultiplier ∧
        Linked 1 [⟨4,0,5,1,4⟩,⟨7,3,5,4,7⟩] c.newMultiplier) := by
  have haccepted : accepted sampleProgram sampleStart sampleMessages=[4,4,3,7] := by
    decide +kernel
  have houtputs : (program sampleProgram).outputs sampleStart sampleMessages=
      [⟨4,0,5,1,4⟩,⟨7,3,5,4,7⟩] := by decide +kernel
  obtain ⟨m,c,hm,hc,hmax,hlink,_⟩ := multiplier_history (P := sampleProgram) (fun _ _ h => h)
    sampleStart_eq sampleMessages
  rw [haccepted] at hmax
  rw [houtputs] at hlink
  exact ⟨haccepted,houtputs,m,c,hm,hc,hmax,hlink⟩

end SolanaM.Earn
