import SolanaM.Earn.Run
import SolanaM.Math.Records

namespace SolanaM.Earn

open Function

/-- An index the Portal relays, with the all-zero word where the message carries no root. -/
structure Message (D : Type) where
  signer : Key
  index : Nat
  earnerMerkleRoot : D
  ts : Int

variable {D M : Type} [DecidableEq D] [LinearOrder M] {P : Program D M}

namespace Message

def action (P : Program D M) (mMint : Key) (msg : Message D) : Action D :=
  .propagateIndex ⟨msg.signer,P.globalAddress,mMint⟩ msg.index msg.earnerMerkleRoot msg.ts

def multiplier (P : Program D M) (msg : Message D) : M := P.indexToMultiplier msg.index

def root (P : Program D M) (msg : Message D) : Option D :=
  if msg.earnerMerkleRoot≠P.zeroRoot then some msg.earnerMerkleRoot else none

end Message

/-- The two values that propagate_index moves, and the configuration around them. -/
structure Holds (P : Program D M) (g : EarnGlobal D) (s : Chain D M) (st : D×M) : Prop where
  global : s.globalAccount=some {g with earnerMerkleRoot := st.1}
  mint : ∃ m,s.mints g.mMint=some m ∧ m.scaledUiAmount=some ⟨P.globalAddress,st.2⟩

/-- One delivered message is one step of the reader of records. -/
theorem Holds.deliver {s : Chain D M} {g : EarnGlobal D} {st : D×M} (hs : Holds P g s st)
    (msg : Message D) (hauth : PropagateIndex.authorized P g msg.signer) :
    Holds P g ((program P).exec s (msg.action P g.mMint))
      (Records.step (Message.multiplier P) (Message.root P) st msg) := by
  obtain ⟨hg,m,hm,hc⟩ := hs
  obtain ⟨s',es,hok⟩ := PropagateIndex.handler_succeeds hg hm hc hauth msg.index
    msg.earnerMerkleRoot msg.ts
  rw [Machine.exec_of_ok (program P) (a := msg.action P g.mMint) hok]
  obtain ⟨g',m',c,hg',_,hm',hc',hout⟩ := PropagateIndex.handler_eq_ok hok
  cases hg.symm.trans hg'
  cases hm.symm.trans hm'
  cases hc.symm.trans hc'
  have hroot := PropagateIndex.storeRoot_global (P := P) msg.earnerMerkleRoot hg
  have hget : (msg.root P).getD st.1=
      if msg.earnerMerkleRoot≠P.zeroRoot then msg.earnerMerkleRoot else st.1 := by
    unfold Message.root
    split <;> rfl
  rcases hout with ⟨hlt,rfl,_⟩|⟨heq,rfl,_⟩|⟨hgt,rfl,_⟩
  · change msg.multiplier P < st.2 at hlt
    rw [Records.step,if_neg (not_le_of_gt hlt)]
    exact ⟨hg,m,hm,hc⟩
  · change msg.multiplier P=st.2 at heq
    rw [Records.step,if_pos heq.ge,hget]
    refine ⟨hroot,m,?_,?_⟩
    · rw [PropagateIndex.storeRoot_mints]
      exact hm
    · rw [hc,← heq]
  · change st.2 < msg.multiplier P at hgt
    rw [Records.step,if_pos hgt.le,hget]
    refine ⟨hroot,_,by rw [Chain.setMint_mints,update_self],?_⟩
    rfl

theorem Holds.deliver_all {s : Chain D M} {g : EarnGlobal D} {st : D×M} (hs : Holds P g s st)
    (msgs : List (Message D))
    (hauth : ∀ msg∈msgs,PropagateIndex.authorized P g msg.signer) :
    Holds P g ((program P).run s (msgs.map (Message.action P g.mMint)))
      (msgs.foldl (Records.step (Message.multiplier P) (Message.root P)) st) := by
  induction msgs generalizing s st with
  | nil => exact hs
  | cons msg msgs ih =>
    exact ih (hs.deliver msg (hauth msg (by simp))) (fun b hb => hauth b (by simp [hb]))

/-- Message a was delivered after one of a higher index. -/
def Message.Overtaken (msgs : List (Message D)) (a : Message D) : Prop :=
  Records.Overtaken Message.index msgs a

/-- What a delivery order decides and what it cannot change. -/
structure Delivered (P : Program D M) (msgs : List (Message D)) (st st' : D×M) : Prop where
  multiplier_ge : st.2 ≤ st'.2 ∧ ∀ msg∈msgs,msg.multiplier P ≤ st'.2
  multiplier_eq : st'.2=st.2 ∨ ∃ msg∈msgs,st'.2=msg.multiplier P
  root_eq : ∀ top∈msgs,top.earnerMerkleRoot≠P.zeroRoot → ¬top.Overtaken msgs →
    (∀ msg∈msgs,msg.earnerMerkleRoot≠P.zeroRoot → ¬msg.Overtaken msgs → msg.index≤top.index) →
    st'.1=top.earnerMerkleRoot
  root_kept : (∀ msg∈msgs,msg.earnerMerkleRoot≠P.zeroRoot → msg.Overtaken msgs) → st'.1=st.1
  root_highest : ∀ top∈msgs,top.earnerMerkleRoot≠P.zeroRoot →
    (∀ msg∈msgs,msg.earnerMerkleRoot≠P.zeroRoot → msg.index≤top.index) →
    (∀ msg,msg.earnerMerkleRoot=P.zeroRoot → top.index < msg.index → ¬List.Sublist [msg,top] msgs) →
    st'.1=top.earnerMerkleRoot

omit [DecidableEq D] in
theorem Message.multiplier_lt_iff (hmono : Monotone P.indexToMultiplier)
    {msgs : List (Message D)} (hdist : (msgs.map (Message.multiplier P)).Nodup) {a b : Message D}
    (ha : a∈msgs) (hb : b∈msgs) : a.multiplier P<b.multiplier P ↔ a.index<b.index := by
  constructor
  · intro h
    by_contra hle
    exact absurd h (not_lt_of_ge (hmono (Nat.le_of_not_lt hle)))
  · intro h
    refine lt_of_le_of_ne (hmono h.le) ?_
    intro he
    have hab := List.inj_on_of_nodup_map hdist ha hb he
    rw [hab] at h
    exact absurd h (lt_irrefl _)

omit [DecidableEq D] in
theorem Message.overtaken_iff (hmono : Monotone P.indexToMultiplier) {msgs : List (Message D)}
    (hdist : (msgs.map (Message.multiplier P)).Nodup) {a : Message D} :
    Records.Overtaken (Message.multiplier P) msgs a ↔ a.Overtaken msgs := by
  constructor
  · rintro ⟨b,hs,hlt⟩
    exact ⟨b,hs,(multiplier_lt_iff hmono hdist (hs.subset (by simp)) (hs.subset (by simp))).mp hlt⟩
  · rintro ⟨b,hs,hlt⟩
    exact ⟨b,hs,(multiplier_lt_iff hmono hdist (hs.subset (by simp)) (hs.subset (by simp))).mpr hlt⟩

/-- In every delivery order the multiplier ends at the greatest index, and the root is that of
the highest-index message among those with a root that no higher index overtook. -/
theorem propagate_any_order (hmono : Monotone P.indexToMultiplier) {s : Chain D M}
    {g : EarnGlobal D} {st : D×M} (hs : Holds P g s st) (msgs : List (Message D))
    (hauth : ∀ msg∈msgs,PropagateIndex.authorized P g msg.signer)
    (hdist : (msgs.map (Message.multiplier P)).Nodup)
    (habove : ∀ msg∈msgs,st.2 < msg.multiplier P) :
    ∃ st',Holds P g ((program P).run s (msgs.map (Message.action P g.mMint))) st' ∧
      Delivered P msgs st st' := by
  refine ⟨_,hs.deliver_all msgs hauth,?_⟩
  obtain ⟨hge,hle,heq⟩ := Records.fold_key (Message.multiplier P) (Message.root P) st msgs
  obtain ⟨hsome,hnone⟩ := Records.fold_payload (Message.multiplier P) (Message.root P) st msgs
    hdist habove
  have hroot : ∀ msg : Message D,msg.earnerMerkleRoot≠P.zeroRoot →
      msg.root P=some msg.earnerMerkleRoot := fun msg h => if_pos h
  have hcarries : ∀ msg : Message D,msg.root P≠none → msg.earnerMerkleRoot≠P.zeroRoot := by
    intro msg h hz
    exact h (if_neg (not_not_intro hz))
  have hover : ∀ a : Message D,Records.Overtaken (Message.multiplier P) msgs a ↔ a.Overtaken msgs :=
    fun a => Message.overtaken_iff hmono hdist
  have hfresh : ∀ top∈msgs,top.earnerMerkleRoot≠P.zeroRoot → ¬top.Overtaken msgs →
      (∀ msg∈msgs,msg.earnerMerkleRoot≠P.zeroRoot → ¬msg.Overtaken msgs → msg.index≤top.index) →
      (msgs.foldl (Records.step (Message.multiplier P) (Message.root P)) st).1=
        top.earnerMerkleRoot := by
    intro top ht hz hn hmax
    refine hsome top ht _ (hroot top hz) (fun h => hn ((hover top).mp h)) ?_
    intro msg hm hr hno
    exact hmono (hmax msg hm (hcarries msg hr) (fun h => hno ((hover msg).mpr h)))
  refine ⟨⟨hge,hle⟩,heq,hfresh,?_,?_⟩
  · intro hall
    refine hnone ?_
    intro msg hm hr
    exact (hover msg).mpr (hall msg hm (hcarries msg hr))
  · intro top ht hz hmax hfirst
    refine hfresh top ht hz ?_ (fun msg hm hr _ => hmax msg hm hr)
    rintro ⟨b,hb,hlt⟩
    by_cases hbz : b.earnerMerkleRoot=P.zeroRoot
    · exact hfirst b hbz hlt hb
    · exact absurd (hmax b (hb.subset (by simp)) hbz) (not_le_of_gt hlt)

private theorem sampleStart_holds : Holds sampleProgram
    ⟨.ofByte 11,.ofByte 6,.ofByte 2,.ofByte 3,.zero⟩ sampleStart (.zero,1) :=
  ⟨rfl,_,rfl,rfl⟩

theorem propagate_any_order_two :
    ∃ st',Holds sampleProgram ⟨.ofByte 11,.ofByte 6,.ofByte 2,.ofByte 3,.zero⟩
        ((program sampleProgram).run sampleStart
          ([⟨.ofByte 2,2,.leaf (.ofByte 8),0⟩,⟨.ofByte 2,3,.zero,1⟩].map
            (Message.action sampleProgram (.ofByte 6)))) st' ∧
      Delivered sampleProgram [⟨.ofByte 2,2,.leaf (.ofByte 8),0⟩,⟨.ofByte 2,3,.zero,1⟩]
        (.zero,1) st' :=
  propagate_any_order (fun _ _ h => h) sampleStart_holds
    [⟨.ofByte 2,2,.leaf (.ofByte 8),0⟩,⟨.ofByte 2,3,.zero,1⟩] (by decide) (by decide) (by decide)

/-- The index-only message 3 delivered first makes the program drop the root of message 2. -/
theorem late_root_dropped :
    ¬∀ msgs : List (Message Digest),
      (∀ msg∈msgs,PropagateIndex.authorized sampleProgram
        (⟨.ofByte 11,.ofByte 6,.ofByte 2,.ofByte 3,.zero⟩ : EarnGlobal Digest) msg.signer) →
      (msgs.map (Message.multiplier sampleProgram)).Nodup →
      (∀ msg∈msgs,1 < msg.multiplier sampleProgram) →
      ∀ top∈msgs,top.earnerMerkleRoot≠.zero →
        (∀ msg∈msgs,msg.earnerMerkleRoot≠.zero → msg.index≤top.index) →
        ((program sampleProgram).run sampleStart (msgs.map
          (Message.action sampleProgram (.ofByte 6)))).globalAccount.map EarnGlobal.earnerMerkleRoot=
            some top.earnerMerkleRoot := by
  intro h
  have hr := h [⟨.ofByte 2,3,.zero,1⟩,⟨.ofByte 2,2,.leaf (.ofByte 8),0⟩] (by decide) (by decide)
    (by decide) ⟨.ofByte 2,2,.leaf (.ofByte 8),0⟩ (by simp) (by decide) (by simp)
  exact absurd hr (by decide +kernel)

end SolanaM.Earn
