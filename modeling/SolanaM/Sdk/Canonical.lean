import SolanaM.Digest
import SolanaM.Sdk.MerkleBuild

namespace SolanaM.Sdk

/-- How many different objects of the array carry the key. -/
def objectsOf (leaves : List PublicKey) (k : Key) : Nat :=
  leaves.eraseDups.countP fun p => p.bytes=k

namespace MerkleTree

variable {D : Type} [DecidableEq D]

def getRawLeaves (t : MerkleTree D) : List Key := t.rawLeaves

/-- The keys that the constructor keeps repeat each key once for every object that carries it. -/
theorem constructorKeys_eq_iff (leaves leaves' : List PublicKey) :
    constructorKeys leaves=constructorKeys leaves' ↔
      ∀ k,objectsOf leaves k=objectsOf leaves' k := by
  have hcount (l : List PublicKey) (k : Key) :
      (l.eraseDups.map PublicKey.bytes).count k=objectsOf l k := by
    rw [List.count,List.countP_map,objectsOf]
    congr 1
  have hsorted (l : List PublicKey) : (constructorKeys l).Pairwise (·≤·) := sortKeys_sorted _
  have hperm : constructorKeys leaves=constructorKeys leaves' ↔
      (leaves.eraseDups.map PublicKey.bytes).Perm (leaves'.eraseDups.map PublicKey.bytes) := by
    constructor
    · intro h
      exact ((sortKeys_perm _).symm.trans (List.Perm.of_eq h)).trans (sortKeys_perm _)
    · intro h
      apply List.Perm.eq_of_pairwise' (hsorted leaves) (hsorted leaves')
      exact ((sortKeys_perm _).trans h).trans (sortKeys_perm _).symm
  rw [hperm,List.perm_iff_count]
  simp only [hcount]

end MerkleTree

/-- Two arrays with the same keys give the same root, raw leaves and proofs exactly when every key
is carried by as many different objects in the one as in the other: the Set merges repeated
objects, not repeated keys. -/
theorem canonical_iff {D : Type} [DecidableEq D] (H : Keccak D) (leaves leaves' : List PublicKey)
    (hne : leaves≠[]) (hsame : ∀ k,k∈leaves.map PublicKey.bytes ↔ k∈leaves'.map PublicKey.bytes) :
    ((MerkleTree.new H leaves).getRoot=(MerkleTree.new H leaves').getRoot ∧
      (MerkleTree.new H leaves).getRawLeaves=(MerkleTree.new H leaves').getRawLeaves ∧
      (∀ k useDuplicate,(MerkleTree.new H leaves).getInclusionProof H k useDuplicate=
        (MerkleTree.new H leaves').getInclusionProof H k useDuplicate) ∧
      ∀ k,(MerkleTree.new H leaves).getExclusionProof H k=
        (MerkleTree.new H leaves').getExclusionProof H k) ↔
      ∀ k,objectsOf leaves k=objectsOf leaves' k := by
  have hne' : leaves'≠[] := by
    obtain ⟨p,hp⟩ := List.exists_mem_of_ne_nil leaves hne
    have hmem := (hsame p.bytes).mp (List.mem_map_of_mem hp)
    rintro rfl
    simp at hmem
  rw [MerkleTree.new_eq_ofSorted H leaves hne,MerkleTree.new_eq_ofSorted H leaves' hne',
    ← MerkleTree.constructorKeys_eq_iff]
  constructor
  · intro h
    exact h.2.1
  · intro h
    rw [h]
    exact ⟨rfl,rfl,fun _ _ => rfl,fun _ => rfl⟩

/-- The same objects in another order, one of them repeated. -/
theorem canonical_reordered :
    (MerkleTree.new Digest.keccak [⟨1,.ofByte 5⟩,⟨2,.ofByte 3⟩]).getRoot=
      (MerkleTree.new Digest.keccak [⟨2,.ofByte 3⟩,⟨1,.ofByte 5⟩,⟨2,.ofByte 3⟩]).getRoot := by
  refine ((canonical_iff Digest.keccak _ _ (by decide) ?_).mpr ?_).1
  · simp [or_comm]
  · intro k
    simp [objectsOf,List.eraseDups_cons,List.countP_cons,Nat.add_comm]

/-- Two objects with the same bytes are both kept. -/
theorem canonical_copies :
    (MerkleTree.new Digest.keccak [⟨1,.ofByte 5⟩]).getRoot=some (.leaf (.ofByte 5)) ∧
      (MerkleTree.new Digest.keccak [⟨1,.ofByte 5⟩,⟨2,.ofByte 5⟩]).getRoot=
        some (.node (.leaf (.ofByte 5)) (.leaf (.ofByte 5))) := by
  decide +kernel

end SolanaM.Sdk
