import SolanaM.Math.Utf8
import SolanaM.Sdk.InclusionProof

namespace SolanaM.Sdk

open HashTree

/-- The < of two buffers compares the strings they decode to. -/
def bufferLess (a b : Key) : Prop :=
  Utf8.codeUnits (a.bytes.map Fin.val)<Utf8.codeUnits (b.bytes.map Fin.val)

instance (a b : Key) : Decidable (bufferLess a b) := inferInstanceAs (Decidable (_<_))

/-- On ASCII bytes the strings are in the order of the bytes. -/
theorem bufferLess_ascii {a b : Key} (ha : ∀ x∈a.bytes,x.val<128) (hb : ∀ x∈b.bytes,x.val<128) :
    bufferLess a b ↔ a<b := by
  have hunits {k : Key} (hk : ∀ x∈k.bytes,x.val<128) :
      Utf8.codeUnits (k.bytes.map Fin.val)=k.bytes.map Fin.val := by
    apply Utf8.codeUnits_ascii
    intro n hn
    obtain ⟨x,hx,hxn⟩ := List.mem_map.mp hn
    exact hxn ▸ hk x hx
  have hmap {k l : Key} (hkl : k<l) : k.bytes.map Fin.val<l.bytes.map Fin.val :=
    List.map_lt (fun x y hxy => hxy) hkl
  rw [bufferLess,hunits ha,hunits hb]
  constructor
  · intro hlt
    rcases lt_trichotomy a b with hab|hab|hab
    · exact hab
    · rw [hab] at hlt
      exact absurd hlt (lt_irrefl _)
    · exact absurd (hlt.trans (hmap hab)) (lt_irrefl _)
  · exact hmap

namespace MerkleTree

variable {D : Type} [DecidableEq D]

def verifyInclusionProof (H : Keccak D) (t : MerkleTree D) (leaf : Key)
    (proof : List (ProofElement D)) : Except String Bool :=
  let currentHash := proof.foldl (fun currentHash p =>
    if p.onRight then H.node currentHash p.sibling else H.node p.sibling currentHash) (H.leaf leaf)
  match t.root with
  | some root => .ok (currentHash=root)
  | none => .error "argument must be a buffer"

/-- One neighbour. The comparison with rawLeaves[0] throws on an emptied tree. -/
def verifyOutside (H : Keccak D) (t : MerkleTree D) (leaf : Key)
    (proof : List (ProofElement D)) (neighbor : Key) : Except String Bool :=
  match t.rawLeaves[0]?,t.rawLeaves[t.rawLeaves.length-1]? with
  | some first,some last =>
      if neighbor=first then do
        let proofValid ← t.verifyInclusionProof H neighbor proof
        .ok (proofValid && (decide ((t.tree[0]?.getD []).length=1) ||
          decide (bufferLess leaf neighbor)))
      else if neighbor=last then do
        let proofValid ← t.verifyInclusionProof H neighbor proof
        .ok (proofValid && decide (bufferLess neighbor leaf))
      else .ok false
  | _,_ => .error "argument must be a buffer"

/-- -1 where the leaf is not in the tree. -/
def leafIndex (t : MerkleTree D) (leaf : Key) : Int :=
  match t.getLeafIndex leaf with
  | some index => index
  | none => -1

def verifyExclusionProof (H : Keccak D) (t : MerkleTree D) (leaf : Key)
    (proofs : List (List (ProofElement D))) (neighbors : List Key) : Except String Bool :=
  if proofs.length≠neighbors.length then .error "Proofs and neighbors length mismatch"
  else match proofs,neighbors with
  | [proof],[neighbor] => t.verifyOutside H leaf proof neighbor
  | [leftProof,rightProof],[left,right] => do
      let proofValid1 ← t.verifyInclusionProof H left leftProof
      let proofValid2 ← t.verifyInclusionProof H right rightProof
      .ok (proofValid1 && proofValid2 && decide (bufferLess left leaf) &&
        decide (bufferLess leaf right) && decide (t.leafIndex left+1=t.leafIndex right))
  | _,_ => .error "Invalid number of proofs"

theorem verifyInclusionProof_eq {H : Keccak D} {t : MerkleTree D} {r : D}
    (hr : t.getRoot=some r) (leaf : Key) (proof : List (ProofElement D)) :
    t.verifyInclusionProof H leaf proof=.ok (decide (climb H (H.leaf leaf) proof=r)) := by
  have hroot : t.root=some r := hr
  simp only [verifyInclusionProof,hroot]
  rfl

omit [DecidableEq D] in
theorem bottom_length_eq_one {H : Keccak D} {raw : List Key} (hne : raw≠[]) :
    ((ofSorted H raw).tree[0]?.getD []).length=1 ↔ raw.length=1 := by
  show (bottom H raw).length=1 ↔ _
  have hpos := List.length_pos_iff.mpr hne
  rw [bottom_length H raw hne]
  split
  · rename_i h1
    simp only [h1]
  · omega

/-- One pair: the proof hashes to the root, and the neighbour is the first key, with the leaf
below it as strings go or no other key in the tree, or the last one, with the leaf above it. -/
theorem verifyOutside_ok_iff {H : Keccak D} {raw : List Key} (hne : raw≠[]) {r : D}
    (hr : (ofSorted H raw).getRoot=some r) (leaf neighbor : Key) (proof : List (ProofElement D)) :
    (ofSorted H raw).verifyOutside H leaf proof neighbor=.ok true ↔
      climb H (H.leaf neighbor) proof=r ∧
        (raw[0]? = some neighbor ∧ (raw.length=1 ∨ bufferLess leaf neighbor) ∨
          raw[0]?≠some neighbor ∧ raw[raw.length-1]? = some neighbor ∧
            bufferLess neighbor leaf) := by
  have hpos := List.length_pos_iff.mpr hne
  have hfirst := List.getElem?_eq_getElem hpos
  have hlast := List.getElem?_eq_getElem (show raw.length-1<raw.length by omega)
  have hraw : (ofSorted H raw).rawLeaves=raw := rfl
  simp only [verifyOutside,hraw,hfirst,hlast,verifyInclusionProof_eq hr,
    bottom_length_eq_one hne,bind,Except.bind,Option.some.injEq]
  generalize raw[0]=first
  generalize raw[raw.length-1]=last
  by_cases hf : neighbor=first
  · simp [hf]
  · have hf' : ¬first=neighbor := fun h => hf h.symm
    by_cases hl : neighbor=last
    · rw [← hl]
      simp [hf,hf']
    · have hl' : ¬last=neighbor := fun h => hl h.symm
      simp [hf,hf',hl,hl']

/-- Two pairs: both proofs hash to the root, and the leaf stands between the neighbours as strings
go, which follow each other among the keys. -/
theorem verifyExclusionProof_two {H : Keccak D} {t : MerkleTree D} {r : D}
    (hr : t.getRoot=some r) (leaf left right : Key)
    (leftProof rightProof : List (ProofElement D)) :
    t.verifyExclusionProof H leaf [leftProof,rightProof] [left,right]=.ok true ↔
      climb H (H.leaf left) leftProof=r ∧ climb H (H.leaf right) rightProof=r ∧
        bufferLess left leaf ∧ bufferLess leaf right ∧ t.leafIndex left+1=t.leafIndex right := by
  simp [verifyExclusionProof,verifyInclusionProof_eq hr,bind,Except.bind,and_assoc]

omit [DecidableEq D] in
theorem leafIndex_eq {H : Keccak D} {raw : List Key} (hn : raw.Nodup) {i : Nat} {k : Key}
    (hk : raw[i]? = some k) : (ofSorted H raw).leafIndex k=i := by
  have hidx : (ofSorted H raw).getLeafIndex k=some i := idxOf?_of_nodup hn hk
  rw [leafIndex,hidx]

end MerkleTree

end SolanaM.Sdk
