import SolanaM.Sdk.MerkleBuild

namespace SolanaM.Sdk

open HashTree

theorem idxOf?_of_nodup {α : Type} [DecidableEq α] {l : List α} (hn : l.Nodup) {j : Nat} {x : α}
    (hx : l[j]? = some x) : l.idxOf? x=some j := by
  obtain ⟨hj,rfl⟩ := List.getElem?_eq_some_iff.mp hx
  refine List.idxOf?_eq_some_iff.mpr ⟨hj,rfl,?_⟩
  intro i hi he
  exact hi.ne ((List.Nodup.getElem_inj_iff hn).mp he)

namespace MerkleTree

variable {D : Type}

/-- The even positions of a level carry distinct nodes; the last leaf's duplicate stands at
an odd one. -/
def EvenDistinct (nodes : List D) : Prop :=
  ∀ i j d,nodes[2*i]? = some d → nodes[2*j]? = some d → i=j

theorem EvenDistinct.of_nodup {nodes : List D} (h : nodes.Nodup) : EvenDistinct nodes := by
  intro i j d hi hj
  obtain ⟨hli,rfl⟩ := List.getElem?_eq_some_iff.mp hi
  obtain ⟨hlj,he⟩ := List.getElem?_eq_some_iff.mp hj
  have := (List.Nodup.getElem_inj_iff h).mp he
  omega

private theorem EvenDistinct.append_last {nodes : List D} (h : nodes.Nodup) (ho : nodes.length%2=1)
    (d : D) : EvenDistinct (nodes++[d]) := by
  have inside (i : Nat) (e : D) (hi : (nodes++[d])[2*i]? = some e) : nodes[2*i]? = some e := by
    have hlt := (List.getElem?_eq_some_iff.mp hi).1
    rw [List.length_append,List.length_singleton] at hlt
    rwa [List.getElem?_append_left (by omega)] at hi
  intro i j e hi hj
  exact EvenDistinct.of_nodup h i j e (inside i e hi) (inside j e hj)

variable [DecidableEq D]

/-- Where the search for a parent ends, that parent stands; among distinct nodes it ends at the
parent's own position. -/
theorem getTreeIndex_spec {t : MerkleTree D} {level j : Nat} {nodes : List D} {d : D}
    (ht : t.tree[level]? = some nodes) (hd : nodes[j]? = some d) :
    ∃ j',t.getTreeIndex level d=some j' ∧ nodes[j']? = some d ∧ (nodes.Nodup → j'=j) := by
  have hidx : t.getTreeIndex level d=nodes.idxOf? d := by
    rw [getTreeIndex,ht,Option.getD_some]
  cases hj : nodes.idxOf? d with
  | none => exact absurd (List.mem_of_getElem? hd) (List.idxOf?_eq_none_iff.mp hj)
  | some j' =>
    obtain ⟨hlt,he,_⟩ := List.idxOf?_eq_some_iff.mp hj
    refine ⟨j',hidx.trans hj,?_,?_⟩
    · rw [List.getElem?_eq_getElem hlt,he]
    · intro hn
      exact Option.some.inj (hj.symm.trans (idxOf?_of_nodup hn hd))

/-- One round of the loop: the sibling it reads makes the parent over the position, at half of it.
A node at the right edge is its own sibling. -/
theorem proofLoop_step (H : Keccak D) (t : MerkleTree D) (steps i index : Nat) (nodes : List D) (d : D)
    (hlevel : t.tree[i]? = some nodes) (hd : nodes[index]? = some d) :
    ∃ p : ProofElement D,p.onRight=decide (index%2=0) ∧
      (parents H nodes)[index/2]? = some (p.apply H d) ∧
      ∀ j ps,t.getTreeIndex (i+1) (p.apply H d)=some j → proofLoop H t steps (i+1) j=.ok ps →
        proofLoop H t (steps+1) i index=.ok (p::ps) := by
  have hlt := (List.getElem?_eq_some_iff.mp hd).1
  have hpar := parents_getElem H nodes index d hd
  have hat (j : Nat) (e : D) (he : nodes[j]? = some e) : t.nodeAt i j=.ok e := by
    simp [nodeAt,hlevel,he]
  rcases Nat.mod_two_eq_zero_or_one index with hz|hz
  · obtain ⟨sib,hsib,hget⟩ : ∃ sib,
        nodes[if index=nodes.length-1 then index else index+1]? = some sib ∧
        (nodes[index+1]?).getD d=sib := by
      by_cases hedge : index=nodes.length-1
      · have hout : nodes[index+1]? = none := List.getElem?_eq_none (by omega)
        exact ⟨d,by rw [if_pos hedge]; exact hd,by rw [hout]; rfl⟩
      · have hin : index+1<nodes.length := by omega
        refine ⟨nodes[index+1],?_,?_⟩
        · rw [if_neg hedge]
          exact List.getElem?_eq_getElem hin
        · rw [List.getElem?_eq_getElem hin]
          rfl
    rw [if_pos hz,hget] at hpar
    refine ⟨⟨sib,true⟩,by simp [hz],hpar,?_⟩
    intro j ps hj hps
    rw [Step.apply,if_pos rfl] at hj
    rw [proofLoop]
    simp [hz,hlevel,hat _ _ hsib,hat _ _ hd,hj,hps,bind,Except.bind]
  · have hne : ¬index%2=0 := by omega
    have hsib := List.getElem?_eq_getElem (show index-1<nodes.length by omega)
    rw [if_neg hne,hsib,Option.getD_some] at hpar
    refine ⟨⟨nodes[index-1],false⟩,by simp [hz],hpar,?_⟩
    intro j ps hj hps
    rw [Step.apply,if_neg Bool.false_ne_true] at hj
    rw [proofLoop]
    simp [hne,hat _ _ hsib,hat _ _ hd,hj,hps,bind,Except.bind]

/-- From any position the loop climbs to the root, one element a level. When no two nodes of a
level are alike, its flags read back as the position it started from. -/
theorem proofLoop_spec (H : Keccak D) (t : MerkleTree D) (fuel i index : Nat) (nodes : List D)
    (d : D) (hfuel : nodes.length≤fuel) (ht : t.tree.drop i=nodes::upperLevels H fuel nodes)
    (hd : nodes[index]? = some d) :
    ∃ ps r,proofLoop H t (upperLevels H fuel nodes).length i index=.ok ps ∧
      ps.length=(upperLevels H fuel nodes).length ∧
      (nodes::upperLevels H fuel nodes).getLast? = some [r] ∧ climb H d ps=r ∧
      (H.CollisionFree → EvenDistinct nodes → pathIndex ps=index) := by
  induction fuel generalizing i index nodes d with
  | zero =>
    have hz : nodes=[] := List.eq_nil_of_length_eq_zero (by omega)
    simp [hz] at hd
  | succ fuel ih =>
    have hlt := (List.getElem?_eq_some_iff.mp hd).1
    have level {j : Nat} {level : List D} {above : List (List D)} (h : t.tree.drop j=level::above) :
        t.tree[j]? = some level := by
      have h := congrArg (·[0]?) h
      simpa [List.getElem?_drop] using h
    by_cases hlen : nodes.length>1
    · have hup : upperLevels H (fuel+1) nodes=parents H nodes::upperLevels H fuel (parents H nodes) := by
        rw [upperLevels,if_pos hlen]
      have hdrop : t.tree.drop (i+1)=parents H nodes::upperLevels H fuel (parents H nodes) := by
        rw [← List.drop_drop,ht,hup]
        rfl
      have hpl := parents_length H nodes
      obtain ⟨p,hp,hpar,hstep⟩ := proofLoop_step H t (upperLevels H fuel (parents H nodes)).length i
        index nodes d (level ht) hd
      obtain ⟨j,hj,hjp,hjn⟩ := getTreeIndex_spec (level hdrop) hpar
      obtain ⟨ps,r,hps,hl,hr,hc,hpi⟩ := ih (i+1) j (parents H nodes) _ (by omega) hdrop hjp
      rw [hup,List.length_cons,List.getLast?_cons_cons]
      refine ⟨p::ps,r,hstep j ps hj hps,congrArg Nat.succ hl,hr,hc,?_⟩
      intro hf hn
      have hnd := parents_nodup H hf nodes hn
      rw [pathIndex,hpi hf (EvenDistinct.of_nodup hnd),hjn hnd,hp]
      simp only [decide_eq_true_eq]
      split <;> omega
    · have hup : upperLevels H (fuel+1) nodes=[] := by rw [upperLevels,if_neg hlen]
      have hone : nodes=[d] := by
        obtain ⟨e,rfl⟩ := List.length_eq_one_iff.mp (show nodes.length=1 by omega)
        have hz : index=0 := by simpa using hlt
        subst hz
        simpa using hd
      subst hone
      have hz : index=0 := by simpa using hlt
      rw [hup,hz]
      exact ⟨[],d,rfl,rfl,rfl,rfl,fun _ _ => rfl⟩

/-- The bottom position getInclusionProof starts from: past the last raw leaf when its
duplicate is asked for. -/
def proofPosition (raw : List Key) (i : Nat) (useDuplicate : Bool) : Nat :=
  if raw.length%2≠0 ∧ i=raw.length-1 ∧ useDuplicate ∧ raw.length≠1 then i+1 else i

omit [DecidableEq D] in
theorem bottom_evenDistinct (H : Keccak D) (hf : H.CollisionFree) (raw : List Key)
    (hn : raw.Nodup) : EvenDistinct (bottom H raw) := by
  have hm : (raw.map H.leaf).Nodup := hn.map (fun u v => hf.leaf_inj u v)
  unfold bottom padLeaves
  split_ifs with h1 hodd
  · exact EvenDistinct.of_nodup hm
  · cases hl : (raw.map H.leaf).getLast? with
    | none => simpa using EvenDistinct.of_nodup hm
    | some d => exact EvenDistinct.append_last hm (by omega) d
  · exact EvenDistinct.of_nodup hm

omit [DecidableEq D] in
theorem bottom_getElem (H : Keccak D) (raw : List Key) (i : Nat) (k : Key)
    (hk : raw[i]? = some k) (useDuplicate : Bool) :
    (bottom H raw)[proofPosition raw i useDuplicate]? = some (H.leaf k) := by
  have hi := (List.getElem?_eq_some_iff.mp hk).1
  have hm : (raw.map H.leaf)[i]? = some (H.leaf k) := by simp [hk]
  have hpre : (raw.map H.leaf)<+:bottom H raw := by
    unfold bottom padLeaves
    split_ifs
    · exact List.prefix_refl _
    · exact List.prefix_append _ _
    · exact List.prefix_refl _
  unfold proofPosition
  split_ifs with h
  · obtain ⟨hodd,hlast,_,h1⟩ := h
    have hmod : (raw.map H.leaf).length%2≠0 := by simpa using hodd
    have hk' : (raw.map H.leaf).getLast? = some (H.leaf k) := by
      rw [List.getLast?_eq_getElem?,List.length_map,← hlast]
      exact hm
    rw [bottom,if_neg h1,padLeaves,if_pos hmod,hk',Option.toList_some]
    rw [List.getElem?_append_right (by rw [List.length_map]; omega),List.length_map]
    have hz : i+1-raw.length=0 := by omega
    rw [hz]
    rfl
  · obtain ⟨w,hw⟩ := hpre
    rw [← hw,List.getElem?_append_left (by simpa using hi)]
    exact hm

/-- Every member has an inclusion proof as long as the tree is high that hashes to the root, and
encodes the bottom position the walk started from. -/
theorem getInclusionProof_spec (H : Keccak D) (raw : List Key) (hn : raw.Nodup) (i : Nat) (k : Key)
    (hk : raw[i]? = some k) (useDuplicate : Bool) (r : D)
    (hr : (ofSorted H raw).getRoot=some r) :
    ∃ ps,(ofSorted H raw).getInclusionProof H k useDuplicate=.ok ps ∧
      ps.length=Nat.clog 2 raw.length ∧ climb H (H.leaf k) ps=r ∧
      (H.CollisionFree → pathIndex ps=proofPosition raw i useDuplicate) := by
  have hne : raw≠[] := List.ne_nil_of_mem (List.mem_of_getElem? hk)
  have hleaf : (ofSorted H raw).getLeafIndex k=some i := idxOf?_of_nodup hn hk
  have hlen := bottom_length H raw hne
  obtain ⟨ps,r',hps,hl,hlast,hc,hp⟩ := proofLoop_spec H (ofSorted H raw) (bottom H raw).length 0
    (proofPosition raw i useDuplicate) (bottom H raw) (H.leaf k) le_rfl rfl
    (bottom_getElem H raw i k hk useDuplicate)
  have hroot : r'=r := by
    have h : (ofSorted H raw).getRoot=some r' := by
      simp only [getRoot,ofSorted,hlast,Option.bind_some]
      rfl
    exact Option.some.inj (h.symm.trans hr)
  have hd : (upperLevels H (bottom H raw).length (bottom H raw)).length=Nat.clog 2 raw.length :=
    depth_eq H raw hne
  refine ⟨ps,?_,hl.trans hd,hc.trans hroot,fun hf => hp hf (bottom_evenDistinct H hf raw hn)⟩
  rw [← hps]
  simp only [getInclusionProof,hleaf]
  by_cases h1 : raw.length=1
  · rw [if_pos h1] at hlen
    have hu : upperLevels H (bottom H raw).length (bottom H raw)=[] := by
      rw [hlen,upperLevels,if_neg (by omega)]
    have ht : (ofSorted H raw).tree.length≤1 := by simp [ofSorted,hu]
    rw [if_pos ht,hu]
    rfl
  · have hpos := List.length_pos_iff.mpr hne
    have hclog : 0<Nat.clog 2 raw.length := Nat.clog_pos (by decide) (by omega)
    have ht : ¬(ofSorted H raw).tree.length≤1 := by
      change ¬(upperLevels H _ _).length+1≤1
      omega
    rw [if_neg ht]
    unfold proofPosition
    simp only [ne_eq,h1,not_false_eq_true,and_true]
    rfl

/-- What getInclusionProof_spec says of the proof that the tree did give. -/
theorem getInclusionProof_eq_ok {H : Keccak D} {raw : List Key} (hn : raw.Nodup) {i : Nat} {k : Key}
    (hk : raw[i]? = some k) {useDuplicate : Bool} {r : D} (hr : (ofSorted H raw).getRoot=some r)
    {ps : List (ProofElement D)}
    (hps : (ofSorted H raw).getInclusionProof H k useDuplicate=.ok ps) :
    ps.length=Nat.clog 2 raw.length ∧ climb H (H.leaf k) ps=r ∧
      (H.CollisionFree → pathIndex ps=proofPosition raw i useDuplicate) := by
  obtain ⟨qs,hqs,h⟩ := getInclusionProof_spec H raw hn i k hk useDuplicate r hr
  rw [hps] at hqs
  exact Except.ok.inj hqs ▸ h

end MerkleTree

end SolanaM.Sdk
