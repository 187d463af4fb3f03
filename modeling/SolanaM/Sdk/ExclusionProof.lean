import SolanaM.Sdk.ProofPosition

namespace SolanaM.Sdk

open HashTree Neighbours

variable {D : Type} [DecidableEq D]

/-- What the program answers when it is sent the exclusion proof the SDK builds; none when
the SDK throws. -/
def exclusionVerdict (H : Keccak D) (tree : MerkleTree D) (k : Key) : Option (Earn.Result Unit) :=
  match tree.getRoot,tree.getExclusionProof H k with
  | some r,.ok (proofs,neighbors) => some (Earn.verifyNotInTree H r k proofs neighbors)
  | _,_ => none

namespace MerkleTree

/-- The verifier's expected last index 2^depth-1 is the position of the last leaf, or of its
duplicate, only for 2^d and 2^d-1 leaves. -/
theorem last_position_iff (n : Nat) (hn : 0<n) :
    (Nat.clog 2 n<64 ∧ (if n%2≠0 ∧ n≠1 then n else n-1)=2^Nat.clog 2 n-1) ↔
      ∃ d<64,n=2^d ∨ n+1=2^d := by
  constructor
  · rintro ⟨hlt,he⟩
    have hp := Nat.two_pow_pos (Nat.clog 2 n)
    refine ⟨Nat.clog 2 n,hlt,?_⟩
    split at he <;> omega
  · rintro ⟨d,hd,rfl|h⟩
    · rw [Nat.clog_pow 2 d (by decide)]
      refine ⟨hd,?_⟩
      rcases d with _|d
      · rfl
      · rw [if_neg (by rw [pow_succ]; omega)]
    · rcases d with _|_|d
      · omega
      · obtain rfl : n=1 := by omega
        decide
      · have hpow : 2^(d+2)=2*2^(d+1) := by ring
        have hpow' : 2^(d+1)=2*2^d := by ring
        have hp := Nat.two_pow_pos d
        have hc : Nat.clog 2 n=d+2 := by
          apply le_antisymm
          · exact Nat.clog_le_of_le_pow (by omega)
          · exact (Nat.lt_clog_iff_pow_lt (by decide)).mpr (by omega)
        rw [hc,if_pos (by omega)]
        exact ⟨hd,by omega⟩

/-- The search stops at the first larger key. -/
theorem findIdx?_larger {raw : List Key} {k : Key} (hk : k∉raw) {i : Nat}
    (hi : raw.findIdx? (fun x => k<x)=some i) :
    (∃ y,raw[i]? = some y ∧ k<y) ∧ ∀ j x,j < i → raw[j]? = some x → x<k := by
  obtain ⟨hlt,hlarger,hbefore⟩ := List.findIdx?_eq_some_iff_getElem.mp hi
  refine ⟨⟨_,List.getElem?_eq_getElem hlt,by simpa using hlarger⟩,?_⟩
  intro j x hj hx
  obtain ⟨hlt',rfl⟩ := List.getElem?_eq_some_iff.mp hx
  have hle : raw[j]≤k := by simpa using hbefore j hj
  exact lt_of_le_of_ne hle (fun he => hk (he ▸ List.getElem_mem hlt'))

/-- The proof for an absent key: the first key alone, two adjacent keys around it, or the last
key alone, each with its inclusion proof. -/
theorem getExclusionProof_cases (H : Keccak D) (raw : List Key) (hne : raw≠[]) (hn : raw.Nodup)
    (k : Key) (hk : k∉raw) :
    (∃ y proof,raw[0]? = some y ∧ k<y ∧
      (ofSorted H raw).getInclusionProof H y false=.ok proof ∧
      (ofSorted H raw).getExclusionProof H k=.ok ([proof],[y])) ∨
    (∃ i x y leftProof rightProof,raw[i]? = some x ∧ raw[i+1]? = some y ∧ x<k ∧ k<y ∧
      (ofSorted H raw).getInclusionProof H x false=.ok leftProof ∧
      (ofSorted H raw).getInclusionProof H y false=.ok rightProof ∧
      (ofSorted H raw).getExclusionProof H k=.ok ([leftProof,rightProof],[x,y])) ∨
    ∃ x proof,raw[raw.length-1]? = some x ∧ (∀ z∈raw,z<k) ∧
      (ofSorted H raw).getInclusionProof H x true=.ok proof ∧
      (ofSorted H raw).getExclusionProof H k=.ok ([proof],[x]) := by
  have hpos := List.length_pos_iff.mpr hne
  obtain ⟨r,_,hr,_⟩ := root_spans H raw hne
  have hraw : (ofSorted H raw).rawLeaves=raw := rfl
  have hleaf : (ofSorted H raw).getLeafIndex k=none := List.idxOf?_eq_none_iff.mpr hk
  cases hi : raw.findIdx? (fun x => k<x) with
  | some i =>
    obtain ⟨⟨y,hy,hky⟩,hlt⟩ := findIdx?_larger hk hi
    have hilt := (List.getElem?_eq_some_iff.mp hy).1
    have hins : (ofSorted H raw).insertionIndex k=i := by rw [insertionIndex,hraw,hi]
    obtain ⟨qs,hqs,_⟩ := getInclusionProof_spec H raw hn i y hy false r hr
    cases i with
    | zero =>
      refine Or.inl ⟨y,qs,hy,hky,hqs,?_⟩
      simp [getExclusionProof,hleaf,hins,hraw,hy,hqs,bind,Except.bind]
    | succ i =>
      have hx := List.getElem?_eq_getElem (show i<raw.length by omega)
      obtain ⟨ps,hps,_⟩ := getInclusionProof_spec H raw hn i _ hx false r hr
      refine Or.inr (Or.inl ⟨i,_,y,ps,qs,hx,hy,hlt i _ (by omega) hx,hky,hps,hqs,?_⟩)
      simp [getExclusionProof,hleaf,hins,hraw,hilt.not_ge,hx,hy,hps,hqs,bind,Except.bind]
  | none =>
    have hall : ∀ z∈raw,z<k := by
      intro z hz
      have h := List.findIdx?_eq_none_iff.mp hi z hz
      exact lt_of_le_of_ne (by simpa using h) (fun he => hk (he ▸ hz))
    have hins : raw.length≤(ofSorted H raw).insertionIndex k ∧
        (ofSorted H raw).insertionIndex k≠0 := by
      simp only [insertionIndex,hraw,hi]
      split_ifs <;> omega
    obtain ⟨x,hx⟩ : ∃ x,raw[raw.length-1]? = some x := ⟨_,List.getElem?_eq_getElem (by omega)⟩
    obtain ⟨ps,hps,_⟩ := getInclusionProof_spec H raw hn (raw.length-1) x hx true r hr
    refine Or.inr (Or.inr ⟨x,ps,hx,hall,hps,?_⟩)
    simp [getExclusionProof,hleaf,hins,hraw,hx,hps,bind,Except.bind]

omit [DecidableEq D] in
theorem proofPosition_plain (raw : List Key) (i : Nat) : proofPosition raw i false=i := by
  simp [proofPosition]

section

variable {H : Keccak D} {r : D} {k : Key}

private theorem verifyNotInTree_first {y : Key} {ps : List (ProofElement D)} (hky : k<y)
    (hy : Earn.verifyInTree H r y ps=.ok 0) : Earn.verifyNotInTree H r k [ps] [y]=.ok () := by
  simp [Earn.verifyNotInTree,Earn.verifyOutside,hky,hy,bind,Except.bind]

private theorem verifyNotInTree_between {x y : Key} {ps qs : List (ProofElement D)} {i : Nat}
    (hxk : x<k)
    (hky : k<y)
    (hx : Earn.verifyInTree H r x ps=if i<2^64 then .ok i else .error .panic)
    (hy : Earn.verifyInTree H r y qs=if i+1<2^64 then .ok (i+1) else .error .panic) :
    Earn.verifyNotInTree H r k [ps,qs] [x,y]=.ok () ↔ i+1<2^64 := by
  have hord : ¬(y≤x ∨ k≤x ∨ y≤k) := by
    simp only [not_or,not_le]
    exact ⟨hxk.trans hky,hxk,hky⟩
  simp only [Earn.verifyNotInTree,Earn.verifyBetween,if_neg hord,hx,hy]
  by_cases h : i+1<2^64
  · have h' : i<2^64 := by omega
    simp only [if_pos h',if_pos h]
    simp [-Nat.reducePow,Earn.addU64_of_lt h,bind,Except.bind,h]
  · simp only [if_neg h]
    split <;> simp [-Nat.reducePow,bind,Except.bind,h]

private theorem verifyNotInTree_last {x : Key} {ps : List (ProofElement D)} {j : Nat} (hxk : x<k)
    (hps : ps.length<2^32)
    (hx : Earn.verifyInTree H r x ps=if j<2^64 then .ok j else .error .panic) :
    Earn.verifyNotInTree H r k [ps] [x]=.ok () ↔ ps.length<64 ∧ j=2^ps.length-1 := by
  simp only [Earn.verifyNotInTree,Earn.verifyOutside,if_neg hxk.not_gt,if_pos hxk,hx]
  by_cases hd : ps.length<64
  · have hle : 2^ps.length≤2^63 := Nat.pow_le_pow_right (by decide) (by omega)
    rw [Earn.powU64_of_lt hd]
    by_cases hj : j=2^ps.length-1
    · have hb : 2^ps.length-1<2^64 := by omega
      simp only [hj,if_pos hb]
      simp [bind,Except.bind,hd]
    · split <;> simp [bind,Except.bind,hj,Earn.err]
  · rw [Earn.powU64_of_ge (by omega) hps]
    simp [bind,Except.bind,hd]

end

private theorem exclusionVerdict_ofSorted (H : Keccak D) (hf : H.CollisionFree) (raw : List Key)
    (hne : raw≠[]) (hs : raw.Pairwise (·≤·)) (hn : raw.Nodup) (k : Key) (hk : k∉raw) :
    exclusionVerdict H (ofSorted H raw) k=some (.ok ()) ↔
      ((∃ x∈raw,k<x) ∧ raw.countP (fun x => x<k)<2^64) ∨
        ∃ d<64,raw.length=2^d ∨ raw.length+1=2^d := by
  have hpos := List.length_pos_iff.mpr hne
  obtain ⟨r,_,hr,_⟩ := root_spans H raw hne
  have hverdict {proofs : List (List (ProofElement D))} {neighbors : List Key}
      (hproof : (ofSorted H raw).getExclusionProof H k=.ok (proofs,neighbors)) :
      exclusionVerdict H (ofSorted H raw) k=some (.ok ()) ↔
        Earn.verifyNotInTree H r k proofs neighbors=.ok () := by
    simp [exclusionVerdict,hr,hproof]
  rcases getExclusionProof_cases H raw hne hn k hk with
    ⟨y,ps,hy,hky,hps,hproof⟩|⟨i,x,y,ps,qs,hx,hy,hxk,hky,hps,hqs,hproof⟩|⟨x,ps,hx,hall,hps,hproof⟩
  · have hyv := verifyInTree_getInclusionProof hf hn hy hr hps
    rw [proofPosition_plain,if_pos (by decide)] at hyv
    rw [hverdict hproof,countP_lt_of_lt_head hs hy hky]
    exact iff_of_true (verifyNotInTree_first hky hyv)
      (Or.inl ⟨⟨y,List.mem_of_getElem? hy,hky⟩,by decide⟩)
  · have hxv := verifyInTree_getInclusionProof hf hn hx hr hps
    have hyv := verifyInTree_getInclusionProof hf hn hy hr hqs
    rw [proofPosition_plain] at hxv hyv
    have hlt := (List.getElem?_eq_some_iff.mp hy).1
    rw [hverdict hproof,verifyNotInTree_between hxk hky hxv hyv,
      countP_lt_of_between hs hn hx hy hxk hky]
    constructor
    · intro h
      exact Or.inl ⟨⟨y,List.mem_of_getElem? hy,hky⟩,h⟩
    · rintro (⟨_,h⟩|⟨d,hd,h⟩)
      · exact h
      · have hp : 2^d≤2^63 := Nat.pow_le_pow_right (by decide) (by omega)
        omega
  · have hxv := verifyInTree_getInclusionProof hf hn hx hr hps
    have hl := (getInclusionProof_eq_ok hn hx hr hps).1
    have hxk := hall x (List.mem_of_getElem? hx)
    have hend : raw.length-1+1=raw.length := by omega
    have hposn : proofPosition raw (raw.length-1) true=
        if raw.length%2≠0 ∧ raw.length≠1 then raw.length else raw.length-1 := by
      simp only [proofPosition,hend,true_and]
    have hnone : ¬∃ x∈raw,k<x := by
      rintro ⟨z,hz,hkz⟩
      exact absurd hkz (hall z hz).not_gt
    rw [hverdict hproof,verifyNotInTree_last hxk (hl.trans_lt (clog_lt raw hn)) hxv,hl,hposn,
      last_position_iff raw.length hpos]
    simp [hnone]

end MerkleTree

/-- The program accepts the exclusion proof the SDK builds for an absent key exactly when the
key lies below the largest leaf, or the tree has 2^d or 2^d-1 leaves. On any other size a
level above the leaves has odd length, the prover flags its self-paired last node as a left
child, and the index it encodes is not the last one. -/
theorem exclusionVerdict_ok_iff (H : Keccak D) (hf : H.CollisionFree) (leaves : List PublicKey)
    (hne : leaves≠[]) (hnd : (leaves.map PublicKey.bytes).Nodup) (k : Key)
    (hk : k∉leaves.map PublicKey.bytes) :
    exclusionVerdict H (MerkleTree.new H leaves) k=some (.ok ()) ↔
      ((∃ x∈leaves.map PublicKey.bytes,k<x) ∧
        (leaves.map PublicKey.bytes).countP (fun x => x<k)<2^64) ∨
      ∃ d<64,leaves.length=2^d ∨ leaves.length+1=2^d := by
  have harr := MerkleTree.constructorKeys_arranged hnd
  have hkr : k∉MerkleTree.constructorKeys leaves := fun h => hk (harr.perm.mem_iff.mp h)
  have habove : (∃ x∈MerkleTree.constructorKeys leaves,k<x) ↔
      ∃ x∈leaves.map PublicKey.bytes,k<x := by
    simp only [harr.perm.mem_iff]
  rw [MerkleTree.new_eq_ofSorted H leaves hne,MerkleTree.exclusionVerdict_ofSorted H hf _
      (harr.ne_nil hne) harr.sorted harr.nodup k hkr,harr.length_eq,harr.perm.countP_eq,habove]

theorem exclusionVerdict_five_below :
    exclusionVerdict Digest.keccak (MerkleTree.new Digest.keccak
      [⟨1,.ofByte 1⟩,⟨2,.ofByte 2⟩,⟨3,.ofByte 3⟩,⟨4,.ofByte 5⟩,⟨5,.ofByte 6⟩]) (.ofByte 4)=
        some (.ok ()) :=
  (exclusionVerdict_ok_iff Digest.keccak Digest.keccak_collisionFree _ (by decide) (by decide)
    (.ofByte 4) (by decide)).mpr (Or.inl ⟨⟨.ofByte 5,by decide,by decide⟩,by decide⟩)

theorem exclusionVerdict_five_above :
    exclusionVerdict Digest.keccak (MerkleTree.new Digest.keccak
      [⟨1,.ofByte 1⟩,⟨2,.ofByte 2⟩,⟨3,.ofByte 3⟩,⟨4,.ofByte 5⟩,⟨5,.ofByte 6⟩]) (.ofByte 7)=
        some (Earn.err .InvalidProof) := by
  decide +kernel

end SolanaM.Sdk
