import SolanaM.Digest
import SolanaM.Earn.MerkleVerifier
import SolanaM.Sdk.InclusionProof

namespace SolanaM.Sdk

open HashTree Neighbours

variable {D : Type} [DecidableEq D]

namespace MerkleTree

theorem clog_lt (raw : List Key) (hn : raw.Nodup) : Nat.clog 2 raw.length<2^32 :=
  (Nat.clog_le_of_le_pow (Key.length_le_of_nodup raw hn)).trans_lt (by norm_num)

/-- Sent to the program, an SDK inclusion proof is accepted with its bottom position as the
index, as long as that fits a u64. -/
theorem verifyInTree_getInclusionProof {H : Keccak D} (hf : H.CollisionFree) {raw : List Key}
    (hn : raw.Nodup) {i : Nat} {k : Key} (hk : raw[i]? = some k) {useDuplicate : Bool} {r : D}
    (hr : (ofSorted H raw).getRoot=some r) {ps : List (ProofElement D)}
    (hps : (ofSorted H raw).getInclusionProof H k useDuplicate=.ok ps) :
    Earn.verifyInTree H r k ps=
      if proofPosition raw i useDuplicate<2^64 then .ok (proofPosition raw i useDuplicate)
      else .error .panic := by
  obtain ⟨hl,hc,hp⟩ := getInclusionProof_eq_ok hn hk hr hps
  rw [Earn.verifyInTree_eq H r k ps (hl.trans_le (clog_lt raw hn).le),hp hf,if_pos hc]

end MerkleTree

/-- An array of n distinct keys gives every member a proof of ceil(log2 n) elements, which the
program accepts at the rank of the key, or at n for the duplicate of the last leaf. -/
theorem inclusion_proof_position (H : Keccak D) (hf : H.CollisionFree) (leaves : List PublicKey)
    (hnd : (leaves.map PublicKey.bytes).Nodup) (k : Key) (hk : k∈leaves.map PublicKey.bytes)
    (useDuplicate : Bool) :
    ∃ r proof,(MerkleTree.new H leaves).getRoot=some r ∧
      (MerkleTree.new H leaves).getInclusionProof H k useDuplicate=.ok proof ∧
      proof.length=Nat.clog 2 leaves.length ∧
      (leaves.length<2^64 → Earn.verifyInTree H r k proof=.ok (
        if leaves.length%2=1 ∧ 3≤leaves.length ∧ (∀ x∈leaves.map PublicKey.bytes,x≤k) ∧
          useDuplicate then leaves.length
        else (leaves.map PublicKey.bytes).countP (fun x => x<k))) := by
  have hne : leaves≠[] := by
    rintro rfl
    simp at hk
  have harr := MerkleTree.constructorKeys_arranged hnd
  have hall : (∀ x∈leaves.map PublicKey.bytes,x≤k) ↔ ∀ x∈MerkleTree.constructorKeys leaves,x≤k :=
    forall_congr' fun x => by rw [harr.perm.mem_iff]
  rw [MerkleTree.new_eq_ofSorted H leaves hne,← harr.perm.countP_eq,← harr.length_eq,
    if_congr (by rw [hall]) rfl rfl]
  have hraw := harr.ne_nil hne
  obtain ⟨hperm,hs,hn⟩ := harr
  generalize MerkleTree.constructorKeys leaves=raw at *
  obtain ⟨i,hi⟩ := List.mem_iff_getElem?.mp (hperm.mem_iff.mpr hk)
  have hlt := (List.getElem?_eq_some_iff.mp hi).1
  obtain ⟨r,_,hr,_⟩ := MerkleTree.root_spans H raw hraw
  obtain ⟨ps,hps,hl,_⟩ := MerkleTree.getInclusionProof_spec H raw hn i k hi useDuplicate r hr
  have hv := MerkleTree.verifyInTree_getInclusionProof hf hn hi hr hps
  refine ⟨r,ps,hr,hps,hl,?_⟩
  intro hbound
  have hrank := countP_lt_of_getElem hs hn hi
  have hlast := last_position_iff_max hs hn hi
  have hpos : MerkleTree.proofPosition raw i useDuplicate=
      if raw.length%2=1 ∧ 3≤raw.length ∧ (∀ x∈raw,x≤k) ∧ useDuplicate then raw.length
      else raw.countP (fun x => x<k) := by
    rw [MerkleTree.proofPosition,hrank]
    split_ifs with h h' h'
    · omega
    · exact absurd ⟨by omega,by omega,hlast.mp h.2.1,h.2.2.1⟩ h'
    · exact absurd ⟨by omega,hlast.mpr h'.2.2.1,h'.2.2.2,by omega⟩ h
    · rfl
  rw [hv,hpos,if_pos]
  rw [← hpos]
  unfold MerkleTree.proofPosition
  split_ifs <;> omega

theorem inclusion_proof_position_three :
    ∃ r proof,(MerkleTree.new Digest.keccak
        [⟨1,.ofByte 5⟩,⟨2,.ofByte 9⟩,⟨3,.ofByte 3⟩]).getRoot=some r ∧
      (MerkleTree.new Digest.keccak
        [⟨1,.ofByte 5⟩,⟨2,.ofByte 9⟩,⟨3,.ofByte 3⟩]).getInclusionProof Digest.keccak (.ofByte 9)
          true=.ok proof ∧
      proof.length=2 ∧ Earn.verifyInTree Digest.keccak r (.ofByte 9) proof=.ok 3 := by
  obtain ⟨r,proof,hr,hproof,hl,hv⟩ := inclusion_proof_position Digest.keccak
    Digest.keccak_collisionFree [⟨1,.ofByte 5⟩,⟨2,.ofByte 9⟩,⟨3,.ofByte 3⟩] (by decide) (.ofByte 9)
    (by decide) true
  refine ⟨r,proof,hr,hproof,hl.trans (by decide),?_⟩
  rw [hv (by decide),if_pos (by decide)]
  rfl

end SolanaM.Sdk
