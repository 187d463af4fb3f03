import SolanaM.Framework.Fallible
import SolanaM.Sdk.MerkleVerify
import SolanaM.Sdk.TreeUpdates

namespace SolanaM.Sdk

open HashTree

namespace MerkleTree

variable {D : Type}

/-- Splicing an image in where its key sorts gives the images of the longer list, and leaves alone
what stands behind them. -/
theorem splice_map {keys : List Key} {k : Key} (hk : k∈keys) (f : Key → D) (rest : List D) :
    ((keys.erase k).map f++rest).take (keys.idxOf k)++
      f k::((keys.erase k).map f++rest).drop (keys.idxOf k)=keys.map f++rest := by
  obtain ⟨as,bs,rfl,hnot⟩ := List.eq_append_cons_of_mem hk
  have hidx : (as++k::bs).idxOf k=(as.map f).length := by
    rw [List.idxOf_append,if_neg hnot]
    simp
  rw [hidx,List.erase_append_right _ hnot,List.erase_cons_head,List.map_append,List.append_assoc,
    List.take_left,List.drop_left]
  simp

/-- Taking the new key out of the sorted keys gives back the old ones. -/
theorem sortKeys_erase {raw : List Key} (hs : raw.Pairwise (·≤·)) {k : Key} (hk : k∉raw) :
    (sortKeys (raw++[k])).erase k=raw := by
  have hperm : ((sortKeys (raw++[k])).erase k).Perm raw := by
    have h := (sortKeys_perm (raw++[k])).erase k
    rwa [List.erase_append_right _ hk,List.erase_cons_head,List.append_nil] at h
  apply List.Perm.eq_of_pairwise' _ hs hperm
  exact (sortKeys_sorted _).sublist List.erase_sublist

/-- The sorted keys before a new key is added. -/
theorem constructorKeys_fresh {leaves : List PublicKey} {p : PublicKey}
    (hnd : ((leaves++[p]).map PublicKey.bytes).Nodup) :
    Arranged leaves (constructorKeys leaves) ∧ p.bytes∉constructorKeys leaves := by
  rw [List.map_append,List.nodup_append] at hnd
  refine ⟨constructorKeys_arranged hnd.1,?_⟩
  intro hk
  have hmem := (constructorKeys_arranged hnd.1).perm.mem_iff.mp hk
  exact hnd.2.2 _ hmem _ (List.mem_singleton_self _) rfl

theorem constructorKeys_append {leaves : List PublicKey} {p : PublicKey}
    (hnd : ((leaves++[p]).map PublicKey.bytes).Nodup) :
    constructorKeys (leaves++[p])=sortKeys (constructorKeys leaves++[p.bytes]) := by
  have hperm : (constructorKeys (leaves++[p])).Perm (constructorKeys leaves++[p.bytes]) := by
    apply (constructorKeys_perm _ hnd).trans
    rw [List.map_append]
    exact (constructorKeys_fresh hnd).1.perm.symm.append_right _
  apply List.Perm.eq_of_pairwise' (sortKeys_sorted _) (sortKeys_sorted _)
  exact hperm.trans (sortKeys_perm _).symm

/-- What the leaves of a constructed tree carry beyond the raw leaves stays behind the new ones. -/
theorem addLeaf_ofSorted (H : Keccak D) {raw : List Key} (hs : raw.Pairwise (·≤·))
    (leaf : PublicKey) (hk : leaf.bytes∉raw) (hz : leaf.bytes≠PublicKey.default.bytes)
    {rest leaves : List D} (hrest : bottom H raw=raw.map H.leaf++rest)
    (hleaves : leaves=(sortKeys (raw++[leaf.bytes])).map H.leaf++rest) :
    addLeaf H (ofSorted H raw) leaf=.ok (updateTree H
      { ofSorted H raw with
        rawLeaves := sortKeys (raw++[leaf.bytes])
        leaves := if (raw.length+1)%2≠0 then leaves++leaves.getLast?.toList else leaves }) := by
  have hnone : (ofSorted H raw).getLeafIndex leaf.bytes=none := List.idxOf?_eq_none_iff.mpr hk
  have hmem : leaf.bytes∈sortKeys (raw++[leaf.bytes]) := by
    rw [(sortKeys_perm _).mem_iff]
    simp
  have hlen : (sortKeys (raw++[leaf.bytes])).length=raw.length+1 := by
    rw [(sortKeys_perm _).length_eq]
    simp
  have hsplice := splice_map hmem H.leaf rest
  rw [sortKeys_erase hs hk,← hrest,← hleaves] at hsplice
  have hraw : (ofSorted H raw).rawLeaves=raw := rfl
  have hold : (ofSorted H raw).leaves=bottom H raw := rfl
  simp only [addLeaf,hnone,hz,hraw,hold,hsplice,hlen]
  rfl

/-- A tree of one leaf or of an even number of leaves carries no duplicate, and takes another leaf
as the constructor would. -/
theorem addLeaf_rebuilds (H : Keccak D) {raw : List Key} (hs : raw.Pairwise (·≤·))
    (leaf : PublicKey) (hk : leaf.bytes∉raw) (hz : leaf.bytes≠PublicKey.default.bytes)
    (hne : raw≠[]) (hlen : raw.length=1 ∨ raw.length%2=0) :
    addLeaf H (ofSorted H raw) leaf=.ok (ofSorted H (sortKeys (raw++[leaf.bytes]))) := by
  have hpos := List.length_pos_iff.mpr hne
  have hlen' : (sortKeys (raw++[leaf.bytes])).length=raw.length+1 := by
    rw [(sortKeys_perm _).length_eq]
    simp
  have hrest : bottom H raw=raw.map H.leaf++[] := by
    rw [List.append_nil,bottom]
    split
    · rfl
    · rename_i hone
      exact padLeaves_of_even (by rw [List.length_map]; exact hlen.resolve_left hone)
  rw [addLeaf_ofSorted H hs leaf hk hz hrest rfl]
  congr 1
  have hpad : (if (raw.length+1)%2≠0 then
        ((sortKeys (raw++[leaf.bytes])).map H.leaf++[])++
          ((sortKeys (raw++[leaf.bytes])).map H.leaf++[]).getLast?.toList
      else (sortKeys (raw++[leaf.bytes])).map H.leaf++[])=
        padLeaves ((sortKeys (raw++[leaf.bytes])).map H.leaf) := by
    rw [padLeaves,List.length_map,hlen',List.append_nil]
  rw [hpad]
  apply updateTree_eq_ofSorted_of_two
  · show 2≤(sortKeys (raw++[leaf.bytes])).length
    omega
  · exact padLeaves_padLeaves _
  · apply le_trans _ (le_padLeaves_length _)
    rw [List.length_map]
    omega

/-- From level 1 on whole pairs are repeated. -/
theorem pairsDiffer_repeatsSuffix : RepeatsSuffix 2 PairsDiffer := by
  rintro _ b hp ⟨u,rfl⟩ _ _ hb
  have hl := hp.length
  rw [List.length_append] at hl
  have hu : u.length%2=0 := by omega
  exact hp.append (hp.of_append hu)

/-- Over an even number of distinct keys no leaf of the whole padded tree is paired with a copy. -/
theorem root_pairsDiffer (H : Keccak D) (raw : List Key) (hne : raw≠[]) (hn : raw.Nodup)
    (heven : raw.length%2=0) :
    ∃ r k vs,(ofSorted H raw).getRoot=some r ∧ Spans H k r vs ∧ PairsDiffer vs := by
  have hpos := List.length_pos_iff.mpr hne
  have hb : bottom H raw=raw.map H.leaf := by
    rw [bottom_of_two H (by omega)]
    exact padLeaves_of_even (by rwa [List.length_map])
  have hsp := parents_spans H 0 _ _ (leaves_spans H raw)
  have hflat : (mergeBlocks (raw.map ([·]))).flatten=raw := by
    rw [mergeBlocks_flatten_of_even _ (by rwa [List.length_map]),flatten_singletons]
  have hpl := parents_length H (raw.map H.leaf)
  rw [List.length_map] at hpl
  obtain ⟨r,vs,hr,hrsp,hvs⟩ := upperLevels_spans H pairsDiffer_repeatsSuffix (raw.length-1) 1 (by simp)
    (parents H (raw.map H.leaf)) (mergeBlocks (raw.map ([·]))) (by omega)
    (List.ne_nil_of_length_pos (by omega)) hsp (hflat.symm ▸ PairsDiffer.of_nodup raw hn heven)
  have hup : upperLevels H raw.length (raw.map H.leaf)=
      parents H (raw.map H.leaf)::upperLevels H (raw.length-1) (parents H (raw.map H.leaf)) := by
    obtain ⟨n,hlen⟩ : ∃ n,raw.length=n+1 := ⟨raw.length-1,by omega⟩
    rw [hlen,Nat.add_sub_cancel,upperLevels,if_pos (by rw [List.length_map]; omega)]
  refine ⟨r,_,vs,?_,hrsp,hvs⟩
  simp only [getRoot,ofSorted,hb,List.length_map,hup,List.getLast?_cons_cons,hr]
  rfl

private theorem prefix_repeatsSuffix (keys : List Key) : RepeatsSuffix 1 (keys<+:·) :=
  fun _ b hp _ _ _ _ => hp.trans (List.prefix_append _ b)

/-- An odd number of leaves, three or more, goes on carrying the old duplicate, which is padded once
more: the new root commits to two copies of the old last leaf side by side. -/
theorem addLeaf_diverges (H : Keccak D) (hf : H.CollisionFree) {raw : List Key}
    (hs : raw.Pairwise (·≤·)) (hn : raw.Nodup) (leaf : PublicKey) (hk : leaf.bytes∉raw)
    (hz : leaf.bytes≠PublicKey.default.bytes) (hlen : 3≤raw.length) (hodd : raw.length%2=1) :
    ∃ t,addLeaf H (ofSorted H raw) leaf=.ok t ∧
      t.getRoot≠(ofSorted H (sortKeys (raw++[leaf.bytes]))).getRoot := by
  obtain ⟨ks,last,hlast⟩ := List.eq_nil_or_concat raw |>.resolve_left (by rintro rfl; simp at hlen)
  have hrest : bottom H raw=raw.map H.leaf++[H.leaf last] := by
    rw [bottom_of_two H (by omega),padLeaves,List.length_map,if_pos (by omega),hlast]
    simp
  have hS : (sortKeys (raw++[leaf.bytes])).Nodup := by
    rw [(sortKeys_perm _).nodup_iff,List.nodup_append]
    refine ⟨hn,List.nodup_singleton _,?_⟩
    intro x hx y hy hxy
    obtain rfl : y=leaf.bytes := by simpa using hy
    exact hk (hxy ▸ hx)
  have hSlen : (sortKeys (raw++[leaf.bytes])).length=raw.length+1 := by
    rw [(sortKeys_perm _).length_eq]
    simp
  refine ⟨_,addLeaf_ofSorted H hs leaf hk hz hrest rfl,?_⟩
  rw [if_neg (by omega)]
  generalize sortKeys (raw++[leaf.bytes])=S at *
  have hpad : padLeaves (S.map H.leaf++[H.leaf last])=(S++[last,last]).map H.leaf := by
    rw [padLeaves,if_pos (by simp; omega)]
    simp
  obtain ⟨r,vs,hr,hsp,hvs⟩ := upperLevels_spans H (prefix_repeatsSuffix (S++[last,last]))
    ((S++[last,last]).map H.leaf).length 0 (one_dvd _) _ _ le_rfl (by simp)
    (leaves_spans H _) (by rw [flatten_singletons])
  obtain ⟨r',k,vs',hr',hsp',hvs'⟩ := root_pairsDiffer H S
    (List.ne_nil_of_length_pos (by omega)) hS (by omega)
  rw [updateTree_of_two H _ (by simp; omega),hr']
  intro heq
  have hroot : r=r' := by
    simp only [getRoot,hpad,hr,Option.bind_some] at heq
    exact Option.some.inj heq
  obtain rfl := (hsp.unique hf (hroot ▸ hsp')).2
  obtain ⟨w,rfl⟩ := hvs
  rw [List.append_assoc] at hvs'
  exact (hvs'.of_append (by omega)).1 rfl

variable [DecidableEq D]

/-- Every proof the tree gives hashes to its root. -/
theorem getInclusionProof_verified (H : Keccak D) {raw : List Key} (hn : raw.Nodup) {k : Key}
    {useDuplicate : Bool} {proof : List (ProofElement D)}
    (hproof : (ofSorted H raw).getInclusionProof H k useDuplicate=.ok proof) :
    (ofSorted H raw).verifyInclusionProof H k proof=.ok true := by
  have hk : k∈raw := by
    by_contra hk
    have hidx : (ofSorted H raw).getLeafIndex k=none := List.idxOf?_eq_none_iff.mpr hk
    rw [getInclusionProof,hidx] at hproof
    exact absurd hproof (by simp)
  obtain ⟨i,hi⟩ := List.mem_iff_getElem?.mp hk
  obtain ⟨r,_,hr,_⟩ := root_spans H raw (List.ne_nil_of_mem hk)
  have hc := (getInclusionProof_eq_ok hn hi hr hproof).2.1
  rw [verifyInclusionProof_eq hr,hc]
  simp

end MerkleTree

/-- After the additions the tree has the root of the tree that the constructor builds from the
longer list, and every inclusion proof it gives verifies. -/
def AgreesWithRebuild {D : Type} [DecidableEq D] (H : Keccak D) (leaves added : List PublicKey) :
    Prop :=
  ∃ t,added.foldlM (MerkleTree.addLeaf H) (MerkleTree.new H leaves)=.ok t ∧
    t.getRoot=(MerkleTree.new H (leaves++added)).getRoot ∧
    ∀ k useDuplicate proof,t.getInclusionProof H k useDuplicate=.ok proof →
      t.verifyInclusionProof H k proof=.ok true

theorem nodup_take_succ {leaves added : List PublicKey}
    (hnd : ((leaves++added).map PublicKey.bytes).Nodup) {j : Nat} (hj : j<added.length) :
    (((leaves++added.take j)++[added[j]]).map PublicKey.bytes).Nodup := by
  refine List.Nodup.sublist ?_ hnd
  apply List.Sublist.map
  rw [List.append_assoc,← List.take_succ_eq_append_getElem hj]
  exact (List.take_sublist _ _).append_left leaves

section

variable {D : Type} (H : Keccak D) (leaves : List PublicKey) (hne : leaves≠[])

include hne

private theorem addLeaf_new_rebuilds (p : PublicKey)
    (hnd : ((leaves++[p]).map PublicKey.bytes).Nodup)
    (hz : p.bytes≠PublicKey.default.bytes) (hlen : leaves.length=1 ∨ leaves.length%2=0) :
    MerkleTree.addLeaf H (MerkleTree.new H leaves) p=.ok (MerkleTree.new H (leaves++[p])) := by
  obtain ⟨harr,hk⟩ := MerkleTree.constructorKeys_fresh hnd
  rw [MerkleTree.new_eq_ofSorted H leaves hne,MerkleTree.new_eq_ofSorted H (leaves++[p]) (by simp),
    MerkleTree.constructorKeys_append hnd]
  rw [← harr.length_eq] at hlen
  exact MerkleTree.addLeaf_rebuilds H harr.sorted p hk hz (harr.ne_nil hne) hlen

private theorem addLeaf_new_diverges (hf : H.CollisionFree) (p : PublicKey)
    (hnd : ((leaves++[p]).map PublicKey.bytes).Nodup) (hz : p.bytes≠PublicKey.default.bytes)
    (hlen : ¬(leaves.length=1 ∨ leaves.length%2=0)) :
    ∃ t,MerkleTree.addLeaf H (MerkleTree.new H leaves) p=.ok t ∧
      t.getRoot≠(MerkleTree.new H (leaves++[p])).getRoot := by
  obtain ⟨harr,hk⟩ := MerkleTree.constructorKeys_fresh hnd
  rw [MerkleTree.new_eq_ofSorted H leaves hne,MerkleTree.new_eq_ofSorted H (leaves++[p]) (by simp),
    MerkleTree.constructorKeys_append hnd]
  have hpos := List.length_pos_iff.mpr hne
  rw [← harr.length_eq] at hpos hlen
  exact MerkleTree.addLeaf_diverges H hf harr.sorted harr.nodup p hk hz (by omega) (by omega)

/-- As long as no leaf is added to an odd number of leaves other than one, the run goes through the
trees that the constructor builds. -/
theorem additions_run {added : List PublicKey} (hnd : ((leaves++added).map PublicKey.bytes).Nodup)
    (hz : ∀ p∈added,p.bytes≠PublicKey.default.bytes) (j : Nat) (hj : j≤added.length)
    (hgood : ∀ i<j,leaves.length+i=1 ∨ (leaves.length+i)%2=0) :
    (added.take j).foldlM (MerkleTree.addLeaf H) (MerkleTree.new H leaves)=
      .ok (MerkleTree.new H (leaves++added.take j)) := by
  induction j with
  | zero => simp [pure,Except.pure]
  | succ j ih =>
    have hlt : j<added.length := hj
    have hprev := ih hlt.le fun i hi => hgood i (hi.trans (Nat.lt_succ_self j))
    have hstep := addLeaf_new_rebuilds H (leaves++added.take j) (by simp [hne]) added[j]
      (nodup_take_succ hnd hlt) (hz _ (List.getElem_mem hlt)) (by
        rw [List.length_append,List.length_take_of_le hlt.le]
        exact hgood j (Nat.lt_succ_self j))
    rw [foldlM_take_succ hlt hprev,hstep,List.append_assoc,List.take_succ_eq_append_getElem hlt]

end

/-- Every tree of a run agrees with the rebuilt one exactly when each addition finds one leaf or an
even number of leaves. -/
theorem additions_rebuild_iff {D : Type} [DecidableEq D] (H : Keccak D) (hf : H.CollisionFree)
    (leaves added : List PublicKey) (hne : leaves≠[])
    (hnd : ((leaves++added).map PublicKey.bytes).Nodup)
    (hz : ∀ p∈added,p.bytes≠PublicKey.default.bytes) :
    (∀ j≤added.length,AgreesWithRebuild H leaves (added.take j)) ↔
      ∀ j<added.length,leaves.length+j=1 ∨ (leaves.length+j)%2=0 := by
  constructor
  · intro hagree j
    -- up to the first addition that finds an odd number of leaves, the run is known
    induction j using Nat.strong_induction_on with
    | _ j ih =>
      intro hj
      by_contra hbad
      have hprev := additions_run H leaves hne hnd hz j hj.le fun i hi => ih i hi (hi.trans hj)
      obtain ⟨t,ht,hroot,_⟩ := hagree (j+1) hj
      obtain ⟨t',ht',hroot'⟩ := addLeaf_new_diverges H (leaves++added.take j)
        (by simp [hne]) hf added[j] (nodup_take_succ hnd hj) (hz _ (List.getElem_mem hj)) (by
          rw [List.length_append,List.length_take_of_le hj.le]
          exact hbad)
      rw [foldlM_take_succ hj hprev,ht'] at ht
      rw [List.take_succ_eq_append_getElem hj,← List.append_assoc,← Except.ok.inj ht] at hroot
      exact hroot' hroot
  · intro hgood j hj
    have hrun := additions_run H leaves hne hnd hz j hj fun i hi => hgood i (hi.trans_le hj)
    refine ⟨_,hrun,rfl,?_⟩
    intro k useDuplicate proof hproof
    have hnd' : ((leaves++added.take j).map PublicKey.bytes).Nodup :=
      List.Nodup.sublist (((List.take_sublist j added).append_left leaves).map _) hnd
    have hn := (MerkleTree.constructorKeys_arranged hnd').nodup
    rw [MerkleTree.new_eq_ofSorted H (leaves++added.take j) (by simp [hne])] at hproof ⊢
    exact MerkleTree.getInclusionProof_verified H hn hproof

/-- One key, and two more. -/
theorem additions_rebuild_one :
    AgreesWithRebuild Digest.keccak [⟨1,.ofByte 5⟩] [⟨2,.ofByte 9⟩,⟨3,.ofByte 3⟩] :=
  (additions_rebuild_iff Digest.keccak Digest.keccak_collisionFree [⟨1,.ofByte 5⟩]
    [⟨2,.ofByte 9⟩,⟨3,.ofByte 3⟩] (by decide) (by decide) (by decide)).mpr (by decide) 2 le_rfl

/-- A fourth key is added to three. -/
theorem addLeaf_three :
    ∃ t,(MerkleTree.new Digest.keccak [⟨1,.ofByte 3⟩,⟨2,.ofByte 5⟩,⟨3,.ofByte 9⟩]).addLeaf
        Digest.keccak ⟨4,.ofByte 7⟩=.ok t ∧
      t.getRoot≠(MerkleTree.new Digest.keccak
        [⟨1,.ofByte 3⟩,⟨2,.ofByte 5⟩,⟨3,.ofByte 9⟩,⟨4,.ofByte 7⟩]).getRoot := by
  refine ⟨_,rfl,?_⟩
  decide +kernel

end SolanaM.Sdk
