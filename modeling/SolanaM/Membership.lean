import SolanaM.Digest
import SolanaM.Earn.MerkleVerifier
import SolanaM.Sdk.MerkleBuild

namespace SolanaM

open HashTree Earn Sdk

variable {D : Type} [DecidableEq D]

/-- The tree over any keys the constructor keeps decides membership for the on-chain
verifier, in both directions and for every proof a caller may send. -/
theorem verifier_decides (H : Earn.Keccak D) (hf : H.CollisionFree) (raw : List Key)
    (hne : raw≠[]) (hs : raw.Pairwise (·≤·)) (hlen : raw.length<2^63) (r : D)
    (hr : (MerkleTree.ofSorted H raw).getRoot=some r) (v : Key) :
    ((∃ proof i,verifyInTree H r v proof=.ok i) ↔ v∈raw) ∧
    ((∃ proofs neighbors,verifyNotInTree H r v proofs neighbors=.ok ()) ↔ v∉raw) := by
  obtain ⟨r',vs,hr',hsp,hp⟩ := MerkleTree.root_spans H raw hne
  obtain rfl : r'=r := Option.some.inj (hr'.symm.trans hr)
  have hk : Nat.clog 2 raw.length<64 :=
    Nat.lt_succ_of_le (Nat.clog_le_of_le_pow hlen.le)
  have hk32 : Nat.clog 2 raw.length<2^32 := hk.trans (by norm_num)
  refine ⟨⟨?_,?_⟩,?_,?_⟩
  · rintro ⟨proof,i,h⟩
    have hv := (verifyInTree_sound hf hsp hk32.le v proof i h).2.2
    exact hp.mem v (List.mem_of_getElem? hv)
  · intro hv
    obtain ⟨i,hi⟩ := List.mem_iff_getElem?.mp hv
    have hbound : i<2^64 := by
      have := (List.getElem?_eq_some_iff.mp hi).1
      omega
    obtain ⟨proof,_,h⟩ := verifyInTree_complete hsp hk32.le v i (hp.getElem hi) hbound
    exact ⟨proof,i,h⟩
  · rintro ⟨proofs,neighbors,h⟩
    exact verifyNotInTree_sound hf hsp hk32 hp hs v proofs neighbors h
  · exact verifyNotInTree_complete hsp hk hp hs v

/-- Inclusion is accepted for exactly the listed keys and exclusion for exactly the others,
over all proofs, flags, lengths and neighbours. -/
theorem membership_decided (H : Earn.Keccak D) (hf : H.CollisionFree) (leaves : List PublicKey)
    (hne : leaves≠[]) (hlen : leaves.length<2^63) :
    ∃ r,(MerkleTree.new H leaves).getRoot=some r ∧ ∀ v : Key,
      ((∃ proof i,verifyInTree H r v proof=.ok i) ↔ v∈leaves.map PublicKey.bytes) ∧
      ((∃ proofs neighbors,verifyNotInTree H r v proofs neighbors=.ok ()) ↔
        v∉leaves.map PublicKey.bytes) := by
  have hraw := MerkleTree.constructorKeys_ne_nil leaves hne
  have hl := (MerkleTree.constructorKeys_length_le leaves).trans_lt hlen
  obtain ⟨r,_,hr,_⟩ := MerkleTree.root_spans H (MerkleTree.constructorKeys leaves) hraw
  rw [MerkleTree.new_eq_ofSorted H leaves hne]
  refine ⟨r,hr,fun v => ?_⟩
  rw [← MerkleTree.mem_constructorKeys leaves v]
  exact verifier_decides H hf _ hraw (sortKeys_sorted _) hl r hr v

theorem membership_decided_three :
    ∃ r,(MerkleTree.new Digest.keccak
        [⟨1,.ofByte 3⟩,⟨2,.ofByte 5⟩,⟨3,.ofByte 9⟩]).getRoot=some r ∧
      (∃ proof i,verifyInTree Digest.keccak r (.ofByte 5) proof=.ok i) ∧
      ¬(∃ proof i,verifyInTree Digest.keccak r (.ofByte 4) proof=.ok i) ∧
      (∃ proofs neighbors,verifyNotInTree Digest.keccak r (.ofByte 4) proofs neighbors=.ok ()) ∧
      ¬(∃ proofs neighbors,verifyNotInTree Digest.keccak r (.ofByte 5) proofs neighbors=.ok ()) := by
  obtain ⟨r,hr,h⟩ := membership_decided Digest.keccak Digest.keccak_collisionFree
    [⟨1,.ofByte 3⟩,⟨2,.ofByte 5⟩,⟨3,.ofByte 9⟩] (by decide) (by decide)
  exact ⟨r,hr,(h (.ofByte 5)).1.mpr (by decide),fun hp => absurd ((h (.ofByte 4)).1.mp hp) (by decide),
    (h (.ofByte 4)).2.mpr (by decide),fun hp => (h (.ofByte 5)).2.mp hp (by decide)⟩

end SolanaM
