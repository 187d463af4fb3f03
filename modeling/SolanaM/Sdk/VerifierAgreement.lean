import SolanaM.Digest
import SolanaM.Earn.MerkleVerifier
import SolanaM.Sdk.MerkleVerify

namespace SolanaM.Sdk

open HashTree Neighbours

/-- Where the two verifiers agree. For one pair: the only leaf of a tree is not the excluded one,
or the first, respectively last, key compares to it by its string as by its bytes, the last one
proven at the last position. For two adjacent keys: the strings bracket the leaf exactly when
the bytes do and the proofs lead to adjacent positions. Proofs of anything else fail for both. -/
def Agreeable {D : Type} [DecidableEq D] (H : Keccak D) (t : MerkleTree D) (leaf : Key) :
    List (List (ProofElement D)) → List Key → Prop
  | [proof],[neighbor] =>
      t.verifyInclusionProof H neighbor proof=.ok true →
        (t.rawLeaves[0]? = some neighbor →
          if t.rawLeaves.length=1 then leaf≠neighbor
          else (bufferLess leaf neighbor ↔ leaf<neighbor)) ∧
        (t.rawLeaves[0]?≠some neighbor → t.rawLeaves.getLast? = some neighbor →
          (bufferLess neighbor leaf ↔ neighbor<leaf ∧ pathIndex proof=2^t.depth-1))
  | [leftProof,rightProof],[left,right] =>
      t.verifyInclusionProof H left leftProof=.ok true →
      t.verifyInclusionProof H right rightProof=.ok true →
      t.leafIndex left+1=t.leafIndex right →
        (bufferLess left leaf ∧ bufferLess leaf right ↔
          left<leaf ∧ leaf<right ∧ pathIndex leftProof+1=pathIndex rightProof)
  | _,_ => True

/-- The first value stands nowhere else. -/
def HeadOnce (vs : List Key) : Prop := ∀ i x,vs[0]? = some x → vs[i]? = some x → i=0

namespace MerkleTree

private theorem headOnce_repeatsSuffix : RepeatsSuffix 1 HeadOnce := by
  intro vs b hvs hb _ hproper _ i x h0 hi
  obtain ⟨w,rfl⟩ := hb
  have hw : w≠[] := fun h => hproper (by simp [h])
  have hpos := List.length_pos_iff.mpr hw
  rw [List.getElem?_append_left (by rw [List.length_append]; omega)] at h0
  by_cases hlt : i<(w++b).length
  · rw [List.getElem?_append_left hlt] at hi
    exact hvs i x h0 hi
  · -- a copy in the repeated suffix is a copy in vs, behind w
    rw [List.getElem?_append_right (by omega)] at hi
    have hcopy : (w++b)[w.length+(i-(w++b).length)]? = some x := by
      rw [List.getElem?_append_right (by omega),Nat.add_sub_cancel_left]
      exact hi
    have := hvs _ x h0 hcopy
    omega

variable {D : Type} {H : Keccak D} {raw : List Key} {r : D} {vs : List Key}

/-- What the root of a tree of distinct sorted keys commits to. -/
structure Committed (H : Keccak D) (raw : List Key) (r : D) (vs : List Key) : Prop where
  root : (ofSorted H raw).getRoot=some r
  spans : Spans H (Nat.clog 2 raw.length) r vs
  padded : Padded raw vs
  headOnce : HeadOnce vs

private theorem exists_committed (H : Keccak D) (hne : raw≠[]) (hn : raw.Nodup) :
    ∃ r vs,Committed H raw r vs := by
  have hP : RepeatsSuffix 1 fun vs => Padded raw vs ∧ HeadOnce vs :=
    fun V b hV hb hbne hproper hblock =>
      ⟨padded_repeatsSuffix raw V b hV.1 hb hbne hproper hblock,
        headOnce_repeatsSuffix V b hV.2 hb hbne hproper hblock⟩
  have honce : HeadOnce raw := by
    intro i x h0 hi
    exact Option.some.inj ((idxOf?_of_nodup hn hi).symm.trans (idxOf?_of_nodup hn h0))
  obtain ⟨r,vs,hr,hs,hp,ho⟩ := root_spans_of H hP raw hne ⟨Padded.refl raw,honce⟩
  exact ⟨r,vs,hr,hs,hp,ho⟩

variable [DecidableEq D] (hf : H.CollisionFree) (hc : Committed H raw r vs)
  (hlen : raw.length<2^63)

include hlen

omit [DecidableEq D] in
theorem depth_lt : Nat.clog 2 raw.length<64 :=
  Nat.lt_succ_of_le (Nat.clog_le_of_le_pow hlen.le)

include hf hc

/-- A proof that hashes to the root is accepted at the position that its flags encode. -/
theorem Committed.verifyInTree_of_climb {value : Key} {proof : List (ProofElement D)}
    (h : climb H (H.leaf value) proof=r) :
    Earn.verifyInTree H r value proof=.ok (pathIndex proof) ∧
      proof.length=Nat.clog 2 raw.length ∧ vs[pathIndex proof]? = some value := by
  obtain ⟨hl,hv⟩ := hc.spans.sound hf value proof h
  have hd := depth_lt hlen
  have hlt := pathIndex_lt proof
  have hle : 2^proof.length≤2^63 := Nat.pow_le_pow_right (by decide) (by omega)
  refine ⟨?_,hl,hv⟩
  rw [Earn.verifyInTree_eq H r value proof (by omega),if_pos (by omega),if_pos h]

private theorem Committed.outside_ok_iff (leaf neighbor : Key) (proof : List (ProofElement D)) :
    Earn.verifyOutside H r leaf proof neighbor=.ok () ↔
      climb H (H.leaf neighbor) proof=r ∧
        (leaf<neighbor ∧ pathIndex proof=0 ∨
          neighbor<leaf ∧ pathIndex proof=2^Nat.clog 2 raw.length-1) := by
  by_cases hclimb : climb H (H.leaf neighbor) proof=r
  · obtain ⟨hok,hl,_⟩ := hc.verifyInTree_of_climb hf hlen hclimb
    have hd := depth_lt hlen
    simp only [Earn.verifyOutside,hok,hl,Earn.powU64_of_lt hd,bind,Except.bind,hclimb,true_and]
    rcases lt_trichotomy leaf neighbor with hlt|heq|hgt
    · simp [hlt,hlt.not_gt,Earn.err]
    · simp [heq,Earn.err]
    · simp [hgt,hgt.not_gt,Earn.err]
  · refine iff_of_false ?_ (fun h => hclimb h.1)
    intro hok
    have hno (i : Nat) : Earn.verifyInTree H r neighbor proof≠.ok i :=
      fun h => hclimb (Earn.verifyInTree_climb H r neighbor proof i h)
    unfold Earn.verifyOutside at hok
    split at hok
    · obtain ⟨i,hi,_⟩ := bind_eq_ok.mp hok
      exact hno i hi
    · split at hok
      · obtain ⟨_,_,hok⟩ := bind_eq_ok.mp hok
        obtain ⟨i,hi,_⟩ := bind_eq_ok.mp hok
        exact hno i hi
      · exact absurd hok (Earn.err_ne_ok _ _)

private theorem Committed.between_ok_iff (leaf left right : Key)
    (leftProof rightProof : List (ProofElement D)) :
    Earn.verifyBetween H r leaf leftProof rightProof left right=.ok () ↔
      climb H (H.leaf left) leftProof=r ∧ climb H (H.leaf right) rightProof=r ∧
        left<leaf ∧ leaf<right ∧ pathIndex leftProof+1=pathIndex rightProof := by
  by_cases hclimb : climb H (H.leaf left) leftProof=r ∧ climb H (H.leaf right) rightProof=r
  · obtain ⟨hl,hr⟩ := hclimb
    obtain ⟨hokl,hll,_⟩ := hc.verifyInTree_of_climb hf hlen hl
    obtain ⟨hokr,_,_⟩ := hc.verifyInTree_of_climb hf hlen hr
    have hd := depth_lt hlen
    have hlt := pathIndex_lt leftProof
    have hle : 2^leftProof.length≤2^63 := Nat.pow_le_pow_right (by decide) (by omega)
    by_cases hord : right≤left ∨ leaf≤left ∨ right≤leaf
    · have hno : ¬(left<leaf ∧ leaf<right) := by
        rintro ⟨h1,h2⟩
        rcases hord with h|h|h
        · exact (h1.trans h2).not_ge h
        · exact h1.not_ge h
        · exact h2.not_ge h
      refine iff_of_false ?_ (fun h => hno ⟨h.2.2.1,h.2.2.2.1⟩)
      rw [Earn.verifyBetween,if_pos hord]
      exact Earn.err_ne_ok _ _
    · have hord' := hord
      simp only [not_or,not_le] at hord'
      rw [Earn.verifyBetween,if_neg hord,hokl,hokr]
      simp only [bind,Except.bind,Earn.addU64_of_lt (show pathIndex leftProof+1<2^64 by omega)]
      by_cases he : pathIndex leftProof+1=pathIndex rightProof
      · simp [he,hl,hr,hord']
      · simp [he,Earn.err]
  · refine iff_of_false ?_ (fun h => hclimb ⟨h.1,h.2.1⟩)
    intro hok
    unfold Earn.verifyBetween at hok
    split at hok
    · exact absurd hok (Earn.err_ne_ok _ _)
    · obtain ⟨i,hi,hok⟩ := bind_eq_ok.mp hok
      obtain ⟨j,hj,_⟩ := bind_eq_ok.mp hok
      exact hclimb ⟨Earn.verifyInTree_climb H r left leftProof i hi,
        Earn.verifyInTree_climb H r right rightProof j hj⟩

/-- The first key is proven at position 0 only, and nothing else is. -/
theorem Committed.position_zero_iff (hne : raw≠[]) {neighbor : Key} {proof : List (ProofElement D)}
    (hclimb : climb H (H.leaf neighbor) proof=r) :
    pathIndex proof=0 ↔ raw[0]? = some neighbor := by
  obtain ⟨_,_,hv⟩ := hc.verifyInTree_of_climb hf hlen hclimb
  have hhead : vs[0]? = raw[0]? := by
    have hx := List.getElem?_eq_getElem (List.length_pos_iff.mpr hne)
    rw [hx]
    exact hc.padded.getElem hx
  constructor
  · intro hz
    rw [← hhead,← hz]
    exact hv
  · intro hfirst
    exact hc.headOnce _ neighbor (hhead.trans hfirst) hv

/-- At the last position only the last key is proven. -/
theorem Committed.last_of_position {neighbor : Key} {proof : List (ProofElement D)}
    (hclimb : climb H (H.leaf neighbor) proof=r)
    (hend : pathIndex proof=2^Nat.clog 2 raw.length-1) : raw.getLast? = some neighbor := by
  obtain ⟨_,_,hv⟩ := hc.verifyInTree_of_climb hf hlen hclimb
  rw [← hc.padded.last,List.getLast?_eq_getElem?,hc.spans.length,← hend]
  exact hv

/-- Agreement of the two verifiers on one pair. -/
theorem Committed.outside_agree (hne : raw≠[]) (leaf neighbor : Key)
    (proof : List (ProofElement D)) :
    ((ofSorted H raw).verifyOutside H leaf proof neighbor=.ok true ↔
        Earn.verifyOutside H r leaf proof neighbor=.ok ()) ↔
      Agreeable H (ofSorted H raw) leaf [proof] [neighbor] := by
  have hraw : (ofSorted H raw).rawLeaves=raw := rfl
  have hdepth : (ofSorted H raw).depth=Nat.clog 2 raw.length := depth_eq H raw hne
  have hpos := List.length_pos_iff.mpr hne
  rw [verifyOutside_ok_iff hne hc.root,hc.outside_ok_iff hf hlen,Agreeable,
    verifyInclusionProof_eq hc.root,hraw,hdepth,Except.ok.injEq,decide_eq_true_eq]
  by_cases hclimb : climb H (H.leaf neighbor) proof=r
  · have hzero := hc.position_zero_iff hf hlen hne hclimb
    simp only [hclimb,true_and,forall_const]
    by_cases hfirst : raw[0]? = some neighbor
    · rw [hzero.mpr hfirst]
      simp only [hfirst,true_and,and_true,ne_eq,not_true_eq_false,false_and,or_false,
        forall_const,false_imp_iff]
      by_cases hone : raw.length=1
      · have hpow : 2^Nat.clog 2 raw.length-1=0 := by
          rw [hone]
          decide
        rw [hpow]
        simp only [hone,and_true,true_or,true_iff,if_true]
        exact lt_or_lt_iff_ne
      · have hclog : 0<Nat.clog 2 raw.length := Nat.clog_pos (by decide) (by omega)
        have hpow : 2≤2^Nat.clog 2 raw.length := Nat.le_self_pow hclog.ne' 2
        have hne0 : ¬0=2^Nat.clog 2 raw.length-1 := by omega
        simp [hone,hne0]
    · have hnz : pathIndex proof≠0 := fun hz => hfirst (hzero.mp hz)
      simp only [hfirst,hnz,false_and,and_false,false_or,ne_eq,not_false_eq_true,true_and,
        false_imp_iff,forall_const]
      rw [← List.getLast?_eq_getElem?]
      by_cases hlast : raw.getLast? = some neighbor
      · simp only [hlast,true_and,forall_const]
      · have hend : ¬pathIndex proof=2^Nat.clog 2 raw.length-1 :=
          fun hend => hlast (hc.last_of_position hf hlen hclimb hend)
        simp [hlast,hend]
  · simp [hclimb]

/-- Agreement of the two verifiers on two pairs. -/
theorem Committed.between_agree (hn : raw.Nodup) (hs : raw.Pairwise (·≤·)) (leaf left right : Key)
    (leftProof rightProof : List (ProofElement D)) :
    ((ofSorted H raw).verifyExclusionProof H leaf [leftProof,rightProof] [left,right]=.ok true ↔
        Earn.verifyBetween H r leaf leftProof rightProof left right=.ok ()) ↔
      Agreeable H (ofSorted H raw) leaf [leftProof,rightProof] [left,right] := by
  rw [verifyExclusionProof_two hc.root,hc.between_ok_iff hf hlen,Agreeable,
    verifyInclusionProof_eq hc.root,verifyInclusionProof_eq hc.root,Except.ok.injEq,
    Except.ok.injEq,decide_eq_true_eq,decide_eq_true_eq]
  by_cases hl : climb H (H.leaf left) leftProof=r
  · by_cases hr : climb H (H.leaf right) rightProof=r
    · simp only [hl,hr,true_and,forall_const]
      by_cases hadj : (ofSorted H raw).leafIndex left+1=(ofSorted H raw).leafIndex right
      · simp only [hadj,and_true,forall_const]
      · -- adjacent positions hold adjacent keys, or come after the last one
        obtain ⟨_,_,hvl⟩ := hc.verifyInTree_of_climb hf hlen hl
        obtain ⟨_,_,hvr⟩ := hc.verifyInTree_of_climb hf hlen hr
        have hno : ¬(left<leaf ∧ leaf<right ∧ pathIndex leftProof+1=pathIndex rightProof) := by
          rintro ⟨hll,hlr,hnext⟩
          rw [← hnext] at hvr
          rcases hc.padded.step _ left right hvl hvr with ⟨i,hi,hi'⟩|hlast
          · rw [leafIndex_eq hn hi,leafIndex_eq hn hi'] at hadj
            exact hadj rfl
          · have hmem := hc.padded.mem right (List.mem_of_getElem? hvr)
            exact (le_last hs hlast hmem).not_gt (hll.trans hlr)
        simp [hadj,hno]
    · simp [hr]
  · simp [hl]

end MerkleTree

variable {D : Type} [DecidableEq D]

private theorem agreeable_ofSorted {H : Keccak D} (hf : H.CollisionFree) {raw : List Key}
    (hne : raw≠[])
    (hn : raw.Nodup) (hs : raw.Pairwise (·≤·)) (hlen : raw.length<2^63) {r : D} {vs : List Key}
    (hc : MerkleTree.Committed H raw r vs) (leaf : Key) (proofs : List (List (ProofElement D)))
    (neighbors : List Key) :
    ((MerkleTree.ofSorted H raw).verifyExclusionProof H leaf proofs neighbors=.ok true ↔
        Earn.verifyNotInTree H r leaf proofs neighbors=.ok ()) ↔
      Agreeable H (MerkleTree.ofSorted H raw) leaf proofs neighbors := by
  unfold Agreeable
  split
  · rename_i proof neighbor
    exact hc.outside_agree hf hlen hne leaf neighbor proof
  · rename_i leftProof rightProof left right
    exact hc.between_agree hf hlen hn hs leaf left right leftProof rightProof
  · -- a length mismatch, no pair or more than two: the SDK throws
    rename_i hone htwo
    have hsdk : (MerkleTree.ofSorted H raw).verifyExclusionProof H leaf proofs neighbors≠
        .ok true := by
      unfold MerkleTree.verifyExclusionProof
      split
      · simp
      · split
        · exact absurd rfl (hone _ _ rfl)
        · exact absurd rfl (htwo _ _ _ _ rfl)
        · simp
    have hprogram : Earn.verifyNotInTree H r leaf proofs neighbors≠.ok () := by
      unfold Earn.verifyNotInTree
      split
      · exact absurd rfl (hone _ _ rfl)
      · exact absurd rfl (htwo _ _ _ _ rfl)
      · exact Earn.err_ne_ok _ _
    exact iff_of_true (iff_of_false hsdk hprogram) trivial

/-- For a tree of distinct keys the two verifiers agree on any leaf, proofs and neighbours, and
the SDK never excludes a key of the tree, exactly where the proofs and neighbours are agreeable. -/
theorem verifiers_agree_iff (H : Keccak D) (hf : H.CollisionFree) (leaves : List PublicKey)
    (hne : leaves≠[]) (hnd : (leaves.map PublicKey.bytes).Nodup) (hlen : leaves.length<2^63)
    (leaf : Key) (proofs : List (List (ProofElement D))) (neighbors : List Key) :
    ∃ r,(MerkleTree.new H leaves).getRoot=some r ∧
      (((MerkleTree.new H leaves).verifyExclusionProof H leaf proofs neighbors=.ok true ↔
          Earn.verifyNotInTree H r leaf proofs neighbors=.ok ()) ∧
        ((MerkleTree.new H leaves).verifyExclusionProof H leaf proofs neighbors=.ok true →
          leaf∉leaves.map PublicKey.bytes) ↔
      Agreeable H (MerkleTree.new H leaves) leaf proofs neighbors) := by
  have harr := MerkleTree.constructorKeys_arranged hnd
  have hraw := harr.ne_nil hne
  have hl := harr.length_eq.trans_lt hlen
  obtain ⟨r,vs,hc⟩ := MerkleTree.exists_committed H hraw harr.nodup
  have hagree := agreeable_ofSorted hf hraw harr.nodup harr.sorted hl hc leaf proofs neighbors
  rw [MerkleTree.new_eq_ofSorted H leaves hne]
  refine ⟨r,hc.root,?_⟩
  rw [← hagree]
  refine ⟨fun h => h.1,fun h => ⟨h,?_⟩⟩
  intro hok
  have hd := (MerkleTree.depth_lt hl).trans (by norm_num : 64<2^32)
  have hsound := Earn.verifyNotInTree_sound hf hc.spans hd hc.padded harr.sorted leaf proofs
    neighbors (h.mp hok)
  exact fun hmem => hsound ((MerkleTree.mem_constructorKeys leaves leaf).mpr hmem)

theorem verifiers_agree_one :
    ∃ r,(MerkleTree.new Digest.keccak [⟨1,.ofByte 1⟩]).getRoot=some r ∧
      ((MerkleTree.new Digest.keccak [⟨1,.ofByte 1⟩]).verifyExclusionProof Digest.keccak (.ofByte 2)
          [[]] [.ofByte 1]=.ok true ↔
        Earn.verifyNotInTree Digest.keccak r (.ofByte 2) [[]] [.ofByte 1]=.ok ()) := by
  obtain ⟨r,hr,h⟩ := verifiers_agree_iff Digest.keccak Digest.keccak_collisionFree
    [⟨1,.ofByte 1⟩] (by decide) (by decide) (by decide) (.ofByte 2) [[]] [.ofByte 1]
  refine ⟨r,hr,(h.mpr ?_).1⟩
  intro _
  exact ⟨fun _ => by decide +kernel,fun hne => absurd (by decide +kernel) hne⟩

/-- The SDK excludes the only leaf of a tree by that leaf itself, the program does not. -/
theorem only_leaf_excluded :
    (MerkleTree.new Digest.keccak [⟨1,.ofByte 1⟩]).getRoot=some (.leaf (.ofByte 1)) ∧
      (MerkleTree.new Digest.keccak [⟨1,.ofByte 1⟩]).verifyExclusionProof Digest.keccak (.ofByte 1)
        [[]] [.ofByte 1]=.ok true ∧
      Earn.verifyNotInTree Digest.keccak (.leaf (.ofByte 1)) (.ofByte 1) [[]] [.ofByte 1]=
        Earn.err .InvalidProof := by
  decide +kernel

end SolanaM.Sdk
