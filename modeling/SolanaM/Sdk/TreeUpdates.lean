import SolanaM.Digest
import SolanaM.Sdk.InclusionProof

namespace SolanaM.Sdk

open HashTree

namespace MerkleTree

variable {D : Type}

private theorem padLeaves_length_even (leaves : List D) : (padLeaves leaves).length%2=0 := by
  unfold padLeaves
  split_ifs with hodd
  · obtain ⟨l,d,rfl⟩ := List.eq_nil_or_concat leaves |>.resolve_left (by rintro rfl; simp at hodd)
    simp at hodd ⊢
    omega
  · omega

theorem le_padLeaves_length (leaves : List D) : leaves.length≤(padLeaves leaves).length := by
  unfold padLeaves
  split_ifs with hodd
  · rw [List.length_append]
    exact Nat.le_add_right _ _
  · exact le_rfl

theorem padLeaves_of_even {leaves : List D} (h : leaves.length%2=0) : padLeaves leaves=leaves :=
  if_neg (by omega)

theorem padLeaves_padLeaves (leaves : List D) : padLeaves (padLeaves leaves)=padLeaves leaves :=
  padLeaves_of_even (padLeaves_length_even leaves)

theorem bottom_of_two (H : Keccak D) {raw : List Key} (h : 2≤raw.length) :
    bottom H raw=padLeaves (raw.map H.leaf) :=
  if_neg (by omega)

/-- From two leaves on, nothing of the old tree survives an update but the two lists of leaves. -/
theorem updateTree_of_two (H : Keccak D) (t : MerkleTree D) (h : 2≤t.leaves.length) :
    updateTree H t=
      { rawLeaves := t.rawLeaves
        leaves := padLeaves t.leaves
        tree := padLeaves t.leaves::upperLevels H (padLeaves t.leaves).length (padLeaves t.leaves)
        root := (padLeaves t.leaves::upperLevels H (padLeaves t.leaves).length
          (padLeaves t.leaves)).getLast?.bind (·[0]?)
        depth := (upperLevels H (padLeaves t.leaves).length (padLeaves t.leaves)).length } := by
  obtain ⟨rawLeaves,leaves,tree,root,depth⟩ := t
  match leaves,h with
  | k::l::ks,_ =>
    simp only [updateTree]
    rw [List.getLast?_eq_getElem?,List.length_cons,Nat.add_sub_cancel]

theorem updateTree_eq_ofSorted_of_two (H : Keccak D) (t : MerkleTree D) (h : 2≤t.rawLeaves.length)
    (hl : padLeaves t.leaves=padLeaves (t.rawLeaves.map H.leaf)) (h2 : 2≤t.leaves.length) :
    updateTree H t=ofSorted H t.rawLeaves := by
  rw [updateTree_of_two H t h2,hl,ofSorted,bottom_of_two H h]

/-- The keys of the tree that the constructor builds from what is left. -/
def constructed (raw : List Key) : List Key :=
  if raw=[] then [PublicKey.default.bytes] else raw

theorem constructed_of_two {raw : List Key} (h : 2≤raw.length) : constructed raw=raw := by
  apply if_neg
  rintro rfl
  simp at h

private theorem new_eq_constructed (H : Keccak D) (leaves : List PublicKey) :
    new H leaves=ofSorted H (constructed (constructorKeys leaves)) := by
  by_cases hne : leaves=[]
  · subst hne
    rfl
  · rw [constructed,if_neg (constructorKeys_ne_nil leaves hne)]
    exact new_eq_ofSorted H leaves hne

section

variable [DecidableEq D]

/-- A tree of a single level proves the presence of every raw leaf by the empty proof, and its depth
is never read. -/
theorem getInclusionProof_flat {H : Keccak D} {t : MerkleTree D} (ht : t.tree.length≤1) (k : Key)
    (useDuplicate : Bool) :
    t.getInclusionProof H k useDuplicate=
      if k∈t.rawLeaves then .ok [] else .error "Leaf not found in the tree" := by
  simp only [getInclusionProof,getLeafIndex]
  cases hidx : t.rawLeaves.idxOf? k with
  | none =>
    rw [if_neg (List.idxOf?_eq_none_iff.mp hidx)]
  | some i =>
    obtain ⟨hlt,hk,_⟩ := List.idxOf?_eq_some_iff.mp hidx
    rw [if_pos (hk ▸ List.getElem_mem hlt)]
    exact if_pos ht

theorem getInclusionProof_flat_congr {H : Keccak D} {t t' : MerkleTree D}
    (hraw : t.rawLeaves=t'.rawLeaves)
    (ht : t.tree.length≤1) (ht' : t'.tree.length≤1) (k : Key) (useDuplicate : Bool) :
    t.getInclusionProof H k useDuplicate=t'.getInclusionProof H k useDuplicate := by
  rw [getInclusionProof_flat ht,getInclusionProof_flat ht',hraw]

private theorem getExclusionProof_congr {H : Keccak D} {t t' : MerkleTree D}
    (hraw : t.rawLeaves=t'.rawLeaves)
    (h : ∀ k useDuplicate,t.getInclusionProof H k useDuplicate=
      t'.getInclusionProof H k useDuplicate) (k : Key) :
    t.getExclusionProof H k=t'.getExclusionProof H k := by
  simp only [getExclusionProof,insertionIndex,getLeafIndex,hraw,h]
  rfl

end

/-- The trees that updates reach from a constructed one. The depth of a tree that shrank to less
than two leaves is stale, and an empty tree has no constructed counterpart. -/
inductive Rebuilt (H : Keccak D) : List Key → MerkleTree D → Prop
  | empty (depth : Nat) : Rebuilt H [] ⟨[],[],[],some (H.leaf PublicKey.default.bytes),depth⟩
  | single (k : Key) (depth : Nat) :
      Rebuilt H [k] ⟨[k],[H.leaf k],[[H.leaf k]],some (H.leaf k),depth⟩
  | more (raw : List Key) (h : 2≤raw.length) : Rebuilt H raw (ofSorted H raw)

namespace Rebuilt

variable {H : Keccak D} {raw : List Key} {t : MerkleTree D}

private theorem of_ofSorted (hne : raw≠[]) : Rebuilt H raw (ofSorted H raw) := by
  match raw with
  | [] => exact absurd rfl hne
  | [k] => exact single k _
  | k::l::ks => exact more _ (by simp)

private theorem of_updateTree (hl : t.leaves=t.rawLeaves.map H.leaf) :
    Rebuilt H t.rawLeaves (updateTree H t) := by
  obtain ⟨raw,leaves,tree,root,depth⟩ := t
  obtain rfl : leaves=raw.map H.leaf := hl
  match raw with
  | [] => exact empty depth
  | [k] => exact single k depth
  | k::l::ks =>
    rw [updateTree_eq_ofSorted_of_two H _ (by simp) rfl (by simp)]
    exact more _ (by simp)

private theorem rawLeaves_eq (h : Rebuilt H raw t) : t.rawLeaves=raw := by
  cases h <;> rfl

/-- The duplicate that removeLeaf pops is there exactly when the raw leaves are odd in number; the
only leaf of a tree is popped with it, and the splice finds nothing left to remove. -/
theorem leaves_removed (h : Rebuilt H raw t) {i : Nat} (hi : i<raw.length) :
    (if raw.length%2≠0 then t.leaves.dropLast else t.leaves).eraseIdx i=
      (raw.eraseIdx i).map H.leaf := by
  cases h with
  | empty depth => simp at hi
  | single k depth =>
    obtain rfl : i=0 := by simpa using hi
    rfl
  | more raw h =>
    rw [← List.eraseIdx_map]
    congr 1
    show (if raw.length%2≠0 then (bottom H raw).dropLast else bottom H raw)=raw.map H.leaf
    rw [bottom_of_two H h,padLeaves,List.length_map]
    split_ifs with hodd
    · obtain ⟨ks,k,rfl⟩ := List.eq_nil_or_concat raw |>.resolve_left (by rintro rfl; simp at h)
      simp
    · rfl

/-- Removing a present key keeps the tree in step with its raw leaves. -/
theorem removeLeaf (h : Rebuilt H raw t) (leaf : PublicKey) (hk : leaf.bytes∈raw) :
    ∃ t',t.removeLeaf H leaf=.ok t' ∧ Rebuilt H (raw.erase leaf.bytes) t' := by
  obtain ⟨i,hi⟩ : ∃ i,raw.idxOf? leaf.bytes=some i := by
    cases hidx : raw.idxOf? leaf.bytes with
    | none => exact absurd hk (List.idxOf?_eq_none_iff.mp hidx)
    | some i => exact ⟨i,rfl⟩
  have hlt : i<raw.length := (List.idxOf?_eq_some_iff.mp hi).1
  have herase : raw.erase leaf.bytes=raw.eraseIdx i := by
    rw [List.erase_eq_eraseIdx,hi]
  let t₁ : MerkleTree D :=
    { t with
      rawLeaves := raw.eraseIdx i
      leaves := (if raw.length%2≠0 then t.leaves.dropLast else t.leaves).eraseIdx i }
  have hleaves : t₁.leaves=t₁.rawLeaves.map H.leaf := h.leaves_removed hlt
  have ht₁ : Rebuilt H (raw.eraseIdx i) (updateTree H t₁) := of_updateTree hleaves
  refine ⟨updateTree H t₁,?_,herase ▸ ht₁⟩
  simp only [MerkleTree.removeLeaf,getLeafIndex,h.rawLeaves_eq,hi,t₁]

/-- Removing present keys one after the other never fails. -/
theorem removeLeaves (h : Rebuilt H raw t) (removed : List PublicKey)
    (hnd : (removed.map PublicKey.bytes).Nodup)
    (hsub : ∀ k∈removed.map PublicKey.bytes,k∈raw) :
    ∃ t',removed.foldlM (MerkleTree.removeLeaf H) t=.ok t' ∧
      Rebuilt H (raw.diff (removed.map PublicKey.bytes)) t' := by
  induction removed generalizing raw t with
  | nil => exact ⟨t,rfl,h⟩
  | cons leaf removed ih =>
    rw [List.map_cons,List.nodup_cons] at hnd
    obtain ⟨t₁,hstep,h₁⟩ := h.removeLeaf leaf (hsub leaf.bytes (by simp))
    have hsub₁ : ∀ k∈removed.map PublicKey.bytes,k∈raw.erase leaf.bytes := by
      intro k hk
      have hne : k≠leaf.bytes := by
        rintro rfl
        exact hnd.1 hk
      exact (List.mem_erase_of_ne hne).mpr (hsub k (List.mem_cons_of_mem _ hk))
    obtain ⟨t',hrun,h'⟩ := ih h₁ hnd.2 hsub₁
    refine ⟨t',?_,?_⟩
    · rw [List.foldlM_cons,hstep]
      exact hrun
    · rw [List.map_cons,List.diff_cons]
      exact h'

private theorem getRoot_eq (h : Rebuilt H raw t) :
    t.getRoot=(ofSorted H (constructed raw)).getRoot := by
  cases h with
  | empty depth => rfl
  | single k depth => rfl
  | more raw h =>
    have hne : raw≠[] := by
      rintro rfl
      simp at h
    rw [constructed,if_neg hne]

variable [DecidableEq D]

private theorem getInclusionProof_eq (h : Rebuilt H raw t) {k : Key} (hk : k∈raw)
    (useDuplicate : Bool) :
    t.getInclusionProof H k useDuplicate=
      (ofSorted H (constructed raw)).getInclusionProof H k useDuplicate := by
  cases h with
  | empty depth => simp at hk
  | single l depth =>
    exact getInclusionProof_flat_congr rfl le_rfl le_rfl k useDuplicate
  | more raw h => rw [constructed_of_two h]

private theorem getExclusionProof_eq (h : Rebuilt H raw t) {k : Key}
    (hk : k≠PublicKey.default.bytes) :
    t.getExclusionProof H k=(ofSorted H (constructed raw)).getExclusionProof H k := by
  cases h with
  | empty depth =>
    have hpos : PublicKey.default.bytes<k := Key.zero_lt hk
    have hnone : [PublicKey.default.bytes].idxOf? k=none :=
      List.idxOf?_eq_none_iff.mpr (by simpa using hk)
    have hzero : (ofSorted H [PublicKey.default.bytes]).getInclusionProof H
        PublicKey.default.bytes true=.ok [] :=
      (getInclusionProof_flat le_rfl _ _).trans (if_pos (List.mem_singleton_self _))
    have hraw : (ofSorted H [PublicKey.default.bytes]).rawLeaves=[PublicKey.default.bytes] := rfl
    show _=(ofSorted H [PublicKey.default.bytes]).getExclusionProof H k
    simp [getExclusionProof,insertionIndex,getLeafIndex,hraw,hnone,hzero,hpos.not_gt,bind,
      Except.bind]
  | single l depth =>
    apply getExclusionProof_congr rfl
    intro k useDuplicate
    exact getInclusionProof_flat_congr rfl le_rfl le_rfl k useDuplicate
  | more raw h => rw [constructed_of_two h]

end Rebuilt

end MerkleTree

/-- The keys that are left of an array. -/
def remainingLeaves (leaves removed : List PublicKey) : List PublicKey :=
  leaves.filter fun p => p.bytes∉removed.map PublicKey.bytes

private theorem remainingLeaves_sorted (leaves removed : List PublicKey)
    (hnd : (leaves.map PublicKey.bytes).Nodup) :
    MerkleTree.constructorKeys (remainingLeaves leaves removed)=
      (MerkleTree.constructorKeys leaves).diff (removed.map PublicKey.bytes) := by
  have harr := MerkleTree.constructorKeys_arranged hnd
  have hmap : (remainingLeaves leaves removed).map PublicKey.bytes=
      (leaves.map PublicKey.bytes).filter fun k => k∉removed.map PublicKey.bytes := by
    rw [List.filter_map]
    rfl
  have hkeys := MerkleTree.constructorKeys_perm (remainingLeaves leaves removed)
    (hmap ▸ hnd.filter _)
  rw [hmap] at hkeys
  rw [harr.nodup.sdiff_eq_filter]
  apply List.Perm.eq_of_pairwise' (sortKeys_sorted _) (harr.sorted.filter _)
  apply hkeys.trans
  simpa using (harr.perm.filter _).symm


/-- Removing keys one after the other leaves the root and the proofs of the tree that the
constructor builds from the keys that are left, down to the empty tree. -/
theorem removals_rebuild {D : Type} [DecidableEq D] (H : Keccak D)
    (leaves removed : List PublicKey) (hne : leaves≠[]) (hnd : (leaves.map PublicKey.bytes).Nodup)
    (hrem : (removed.map PublicKey.bytes).Nodup)
    (hsub : ∀ k∈removed.map PublicKey.bytes,k∈leaves.map PublicKey.bytes) :
    ∃ t,removed.foldlM (MerkleTree.removeLeaf H) (MerkleTree.new H leaves)=.ok t ∧
      t.getRoot=(MerkleTree.new H (remainingLeaves leaves removed)).getRoot ∧
      (∀ k∈(remainingLeaves leaves removed).map PublicKey.bytes,∀ useDuplicate,
        t.getInclusionProof H k useDuplicate=
          (MerkleTree.new H (remainingLeaves leaves removed)).getInclusionProof H k useDuplicate) ∧
      ∀ k,k≠PublicKey.default.bytes → t.getExclusionProof H k=
        (MerkleTree.new H (remainingLeaves leaves removed)).getExclusionProof H k := by
  have hraw := MerkleTree.constructorKeys_perm leaves hnd
  have hstart := MerkleTree.Rebuilt.of_ofSorted (H := H) (MerkleTree.constructorKeys_ne_nil leaves hne)
  obtain ⟨t,hrun,ht⟩ := hstart.removeLeaves removed hrem fun k hk => hraw.mem_iff.mpr (hsub k hk)
  rw [← remainingLeaves_sorted leaves removed hnd] at ht
  rw [MerkleTree.new_eq_ofSorted H leaves hne,
    MerkleTree.new_eq_constructed H (remainingLeaves leaves removed)]
  refine ⟨t,hrun,ht.getRoot_eq,?_,?_⟩
  · intro k hk useDuplicate
    exact ht.getInclusionProof_eq ((MerkleTree.mem_constructorKeys _ k).mpr hk) useDuplicate
  · intro k hk
    exact ht.getExclusionProof_eq hk

/-- Both keys of a two-leaf tree are removed. -/
theorem removals_rebuild_two :
    ∃ t,[(⟨2,.ofByte 3⟩ : PublicKey),⟨1,.ofByte 5⟩].foldlM (MerkleTree.removeLeaf Digest.keccak)
        (MerkleTree.new Digest.keccak [⟨1,.ofByte 5⟩,⟨2,.ofByte 3⟩])=.ok t ∧
      t.getRoot=some (.leaf Key.zero) ∧
      t.getExclusionProof Digest.keccak (.ofByte 5)=.ok ([[]],[Key.zero]) := by
  obtain ⟨t,hrun,hroot,_,hproof⟩ := removals_rebuild Digest.keccak
    [⟨1,.ofByte 5⟩,⟨2,.ofByte 3⟩] [⟨2,.ofByte 3⟩,⟨1,.ofByte 5⟩] (by decide) (by decide) (by decide)
    (by decide)
  refine ⟨t,hrun,hroot.trans ?_,(hproof (.ofByte 5) (by decide)).trans ?_⟩
  · decide +kernel
  · rfl

end SolanaM.Sdk
