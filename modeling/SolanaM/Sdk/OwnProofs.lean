import SolanaM.Sdk.ExclusionProof
import SolanaM.Sdk.MerkleVerify

namespace SolanaM.Sdk

open HashTree Neighbours

/-- What the verifier of the SDK answers when it is given the exclusion proof the SDK builds. -/
def ownVerdict {D : Type} [DecidableEq D] (H : Keccak D) (tree : MerkleTree D) (k : Key) :
    Except String Bool := do
  let (proofs,neighbors) ← tree.getExclusionProof H k
  tree.verifyExclusionProof H k proofs neighbors

/-- The greatest of the keys below k. -/
def Predecessor (keys : List Key) (x k : Key) : Prop := x∈keys ∧ x<k ∧ ∀ z∈keys,z<k → z≤x

/-- The least of the keys above k. -/
def Successor (keys : List Key) (y k : Key) : Prop := y∈keys ∧ k<y ∧ ∀ z∈keys,k<z → y≤z

/-- The neighbours of k are in the order of the strings that they decode to. -/
def NeighboursOrdered (keys : List Key) (k : Key) : Prop :=
  (∀ x,Predecessor keys x k → bufferLess x k) ∧ ∀ y,Successor keys y k → bufferLess k y

namespace MerkleTree

variable {raw : List Key} (hs : raw.Pairwise (·≤·)) {k : Key}

include hs

private theorem neighboursOrdered_first {y : Key} (hy : raw[0]? = some y) (hky : k<y) :
    NeighboursOrdered raw k ↔ bufferLess k y := by
  have hfirst : ∀ z∈raw,k<z := fun z hz => hky.trans_le (head_le hs hy hz)
  constructor
  · intro h
    exact h.2 y ⟨List.mem_of_getElem? hy,hky,fun z hz _ => head_le hs hy hz⟩
  · intro h
    refine ⟨?_,?_⟩
    · intro x hx
      exact absurd (hfirst x hx.1) hx.2.1.not_gt
    · intro z hz
      have hzy : z=y :=
        le_antisymm (hz.2.2 y (List.mem_of_getElem? hy) hky) (head_le hs hy hz.1)
      exact hzy ▸ h

private theorem neighboursOrdered_last {x : Key} (hx : raw[raw.length-1]? = some x)
    (hall : ∀ z∈raw,z<k) : NeighboursOrdered raw k ↔ bufferLess x k := by
  have hmem := List.mem_of_getElem? hx
  have hmax : ∀ z∈raw,z≤x := fun z hz => le_last hs (List.getLast?_eq_getElem?.trans hx) hz
  constructor
  · intro h
    exact h.1 x ⟨hmem,hall x hmem,fun z hz _ => hmax z hz⟩
  · intro h
    refine ⟨?_,?_⟩
    · intro z hz
      have hzx : z=x := le_antisymm (hmax z hz.1) (hz.2.2 x hmem (hall x hmem))
      exact hzx ▸ h
    · intro z hz
      exact absurd (hall z hz.1) hz.2.1.not_gt

private theorem neighboursOrdered_between {i : Nat} {x y : Key} (hx : raw[i]? = some x)
    (hy : raw[i+1]? = some y) (hxk : x<k) (hky : k<y) :
    NeighboursOrdered raw k ↔ bufferLess x k ∧ bufferLess k y := by
  have hsplit : ∀ z∈raw,z≤x ∨ y≤z := fun z hz => Adjacent.split hs ⟨i,hx,hy⟩ hz
  have hbelow : ∀ z∈raw,z<k → z≤x :=
    fun z hz hzk => (hsplit z hz).resolve_right fun h => (hky.trans_le h).not_gt hzk
  have habove : ∀ z∈raw,k<z → y≤z :=
    fun z hz hkz => (hsplit z hz).resolve_left fun h => (h.trans_lt hxk).not_gt hkz
  have hxm := List.mem_of_getElem? hx
  have hym := List.mem_of_getElem? hy
  constructor
  · intro h
    exact ⟨h.1 x ⟨hxm,hxk,hbelow⟩,h.2 y ⟨hym,hky,habove⟩⟩
  · intro h
    refine ⟨?_,?_⟩
    · intro z hz
      have hzx : z=x := le_antisymm (hbelow z hz.1 hz.2.1) (hz.2.2 x hxm hxk)
      exact hzx ▸ h.1
    · intro z hz
      have hzy : z=y := le_antisymm (hz.2.2 y hym hky) (habove z hz.1 hz.2.1)
      exact hzy ▸ h.2

variable {D : Type} [DecidableEq D]

private theorem ownVerdict_ofSorted (H : Keccak D) (hne : raw≠[]) (hn : raw.Nodup) (hk : k∉raw) :
    ownVerdict H (ofSorted H raw) k=.ok true ↔ raw.length=1 ∨ NeighboursOrdered raw k := by
  obtain ⟨r,_,hr,_⟩ := root_spans H raw hne
  have hclimb {i : Nat} {x : Key} {b : Bool} {ps : List (ProofElement D)}
      (hx : raw[i]? = some x) (hps : (ofSorted H raw).getInclusionProof H x b=.ok ps) :
      climb H (H.leaf x) ps=r := (getInclusionProof_eq_ok hn hx hr hps).2.1
  rcases getExclusionProof_cases H raw hne hn k hk with
    ⟨y,ps,hy,hky,hps,hproof⟩|⟨i,x,y,ps,qs,hx,hy,hxk,hky,hps,hqs,hproof⟩|⟨x,ps,hx,hall,hps,hproof⟩
  · have hv : ownVerdict H (ofSorted H raw) k=(ofSorted H raw).verifyOutside H k ps y := by
      rw [ownVerdict,hproof]
      rfl
    rw [hv,verifyOutside_ok_iff hne hr,neighboursOrdered_first hs hy hky]
    simp [hy,hclimb hy hps]
  · have hv : ownVerdict H (ofSorted H raw) k=
        (ofSorted H raw).verifyExclusionProof H k [ps,qs] [x,y] := by
      rw [ownVerdict,hproof]
      rfl
    have hone : raw.length≠1 := by
      have := (List.getElem?_eq_some_iff.mp hy).1
      omega
    rw [hv,verifyExclusionProof_two hr,neighboursOrdered_between hs hx hy hxk hky,
      leafIndex_eq hn hx,leafIndex_eq hn hy]
    simp [hclimb hx hps,hclimb hy hqs,hone]
  · have hv : ownVerdict H (ofSorted H raw) k=(ofSorted H raw).verifyOutside H k ps x := by
      rw [ownVerdict,hproof]
      rfl
    rw [hv,verifyOutside_ok_iff hne hr,neighboursOrdered_last hs hx hall]
    by_cases hone : raw.length=1
    · have hx0 : raw[0]? = some x := by
        rw [hone] at hx
        exact hx
      exact iff_of_true ⟨hclimb hx hps,Or.inl ⟨hx0,Or.inl hone⟩⟩ (Or.inl hone)
    · have hpos := List.length_pos_iff.mpr hne
      have hfirst : raw[0]?≠some x := by
        intro h
        have hi := (idxOf?_of_nodup hn h).symm.trans (idxOf?_of_nodup hn hx)
        have := Option.some.inj hi
        omega
      simp [hfirst,hx,hone,hclimb hx hps]

end MerkleTree

private theorem neighboursOrdered_congr {keys keys' : List Key} (h : ∀ x,x∈keys ↔ x∈keys')
    (k : Key) :
    NeighboursOrdered keys k ↔ NeighboursOrdered keys' k := by
  simp only [NeighboursOrdered,Predecessor,Successor,h]

/-- The SDK accepts the exclusion proof it builds for an absent key exactly when the tree has one
leaf or the neighbours of the key are in the order of the strings that they decode to. -/
theorem ownVerdict_true_iff {D : Type} [DecidableEq D] (H : Keccak D) (leaves : List PublicKey)
    (hne : leaves≠[]) (hnd : (leaves.map PublicKey.bytes).Nodup) (k : Key)
    (hk : k∉leaves.map PublicKey.bytes) :
    ownVerdict H (MerkleTree.new H leaves) k=.ok true ↔
      leaves.length=1 ∨ NeighboursOrdered (leaves.map PublicKey.bytes) k := by
  have harr := MerkleTree.constructorKeys_arranged hnd
  have hkr : k∉MerkleTree.constructorKeys leaves := fun h => hk (harr.perm.mem_iff.mp h)
  rw [MerkleTree.new_eq_ofSorted H leaves hne,MerkleTree.ownVerdict_ofSorted harr.sorted H
      (harr.ne_nil hne) harr.nodup hkr,harr.length_eq,
    neighboursOrdered_congr (fun x => harr.perm.mem_iff)]

/-- ASCII keys, such as small counters, are ordered by their strings. -/
theorem neighboursOrdered_ascii {keys : List Key} (hkeys : ∀ x∈keys,∀ b∈x.bytes,b.val<128)
    {k : Key} (hk : ∀ b∈k.bytes,b.val<128) : NeighboursOrdered keys k :=
  ⟨fun x hx => (bufferLess_ascii (hkeys x hx.1) hk).mpr hx.2.1,
    fun y hy => (bufferLess_ascii hk (hkeys y hy.1)).mpr hy.2.1⟩

theorem ownVerdict_true_three :
    ownVerdict Digest.keccak (MerkleTree.new Digest.keccak
      [⟨1,.ofByte 3⟩,⟨2,.ofByte 5⟩,⟨3,.ofByte 9⟩]) (.ofByte 4)=.ok true :=
  (ownVerdict_true_iff Digest.keccak _ (by decide) (by decide) (.ofByte 4) (by decide)).mpr
    (Or.inr (neighboursOrdered_ascii (by decide +kernel) (by decide +kernel)))

/-- The bytes 128, 129 and 130 are all read as U+FFFD. -/
theorem ownVerdict_false_invalid :
    ownVerdict Digest.keccak (MerkleTree.new Digest.keccak
      [⟨1,.ofByte 128⟩,⟨2,.ofByte 130⟩]) (.ofByte 129)=.ok false := by
  decide +kernel

end SolanaM.Sdk
