import SolanaM.Digest
import SolanaM.Earn.MerkleVerifier

namespace SolanaM.Earn

open HashTree

variable {D : Type}

/-- verify_in_tree's loop with an index that has no width: 2^i and the sum are exact. -/
def verifyInTreeLoopUnbounded (H : Keccak D) : Nat → D → Nat → List (ProofElement D) → D×Nat
  | _,computedHash,index,[] => (computedHash,index)
  | i,computedHash,index,p::proof =>
      if p.onRight then
        verifyInTreeLoopUnbounded H (i+1) (H.node computedHash p.sibling) index proof
      else verifyInTreeLoopUnbounded H (i+1) (H.node p.sibling computedHash) (index+2^i) proof

section Definitions

variable [DecidableEq D]

def verifyInTreeUnbounded (H : Keccak D) (root : D) (value : Key)
    (proof : List (ProofElement D)) : Result Nat :=
  let (computedHash,index) := verifyInTreeLoopUnbounded H 0 (H.leaf value) 0 proof
  if computedHash≠root then err .InvalidProof else .ok index

def verifyOutsideUnbounded (H : Keccak D) (root : D) (value : Key)
    (proof : List (ProofElement D)) (neighbor : Key) : Result Unit :=
  if value<neighbor then do
    let neighborIndex ← verifyInTreeUnbounded H root neighbor proof
    if neighborIndex=0 then .ok () else err .InvalidProof
  else if neighbor<value then do
    let neighborIndex ← verifyInTreeUnbounded H root neighbor proof
    if neighborIndex=2^proof.length-1 then .ok () else err .InvalidProof
  else err .InvalidProof

def verifyBetweenUnbounded (H : Keccak D) (root : D) (value : Key)
    (leftProof rightProof : List (ProofElement D)) (left right : Key) : Result Unit :=
  if right≤left ∨ value≤left ∨ right≤value then err .InvalidProof
  else do
    let leftIndex ← verifyInTreeUnbounded H root left leftProof
    let rightIndex ← verifyInTreeUnbounded H root right rightProof
    if leftIndex+1≠rightIndex then err .InvalidProof else .ok ()

def verifyNotInTreeUnbounded (H : Keccak D) (root : D) (value : Key)
    (proofs : List (List (ProofElement D))) (neighbors : List Key) : Result Unit :=
  match proofs,neighbors with
  | [proof],[neighbor] => verifyOutsideUnbounded H root value proof neighbor
  | [leftProof,rightProof],[left,right] =>
      verifyBetweenUnbounded H root value leftProof rightProof left right
  | _,_ => err .InvalidProof

end Definitions

theorem verifyInTreeLoopUnbounded_eq (H : Keccak D) (proof : List (ProofElement D)) (i index : Nat)
    (d : D) :
    verifyInTreeLoopUnbounded H i d index proof=(climb H d proof,index+2^i*pathIndex proof) := by
  induction proof generalizing i index d with
  | nil => simp [verifyInTreeLoopUnbounded,pathIndex]
  | cons p proof ih =>
    rw [verifyInTreeLoopUnbounded,climb_cons,Step.apply,pathIndex]
    split
    · rw [ih]
      apply congrArg (Prod.mk _)
      ring
    · rw [ih]
      apply congrArg (Prod.mk _)
      ring

/-- Every path of fewer than 64 elements names a position that a u64 holds. -/
theorem long_of_pathIndex (proof : List (ProofElement D)) (h : 2^64 ≤ pathIndex proof+1) :
    64≤proof.length := by
  by_contra hs
  have hlt := pathIndex_lt proof
  have hle : 2^proof.length≤2^63 := Nat.pow_le_pow_right (by decide) (by omega)
  omega

variable [DecidableEq D]

theorem verifyInTreeUnbounded_eq (H : Keccak D) (root : D) (value : Key)
    (proof : List (ProofElement D)) :
    verifyInTreeUnbounded H root value proof=
      if climb H (H.leaf value) proof=root then .ok (pathIndex proof) else err .InvalidProof := by
  rw [verifyInTreeUnbounded,verifyInTreeLoopUnbounded_eq]
  simp only [pow_zero,one_mul,zero_add,ne_eq,ite_not]

private theorem verifyInTreeUnbounded_ok (H : Keccak D) (root : D) (value : Key)
    (proof : List (ProofElement D)) (i : Nat) (h : verifyInTreeUnbounded H root value proof=.ok i) :
    i=pathIndex proof := by
  rw [verifyInTreeUnbounded_eq] at h
  split at h
  · exact (Except.ok.inj h).symm
  · exact absurd h (err_ne_ok _ _)

private theorem powU64_checked {e : Nat} (he : e<2^32) :
    Checked .panic (64≤e) (powU64 e) (.ok (2^e)) := by
  by_cases h : e<64
  · exact .of_eq (powU64_of_lt h)
  · exact .inl ⟨powU64_of_ge (by omega) he,by omega⟩

private theorem addU64_checked (a b : Nat) : Checked .panic (2^64 ≤ a+b) (addU64 a b)
    (.ok (a+b)) := by
  rw [addU64]
  split
  · exact .of_eq rfl
  · exact .inl ⟨rfl,by omega⟩

theorem verifyInTree_checked (H : Keccak D) (root : D) (value : Key)
    (proof : List (ProofElement D)) (hl : proof.length<2^32) :
    Checked .panic (64≤proof.length) (verifyInTree H root value proof)
      (verifyInTreeUnbounded H root value proof) := by
  rw [verifyInTree_eq H root value proof hl.le,verifyInTreeUnbounded_eq]
  split
  · exact .of_eq rfl
  · exact .inl ⟨rfl,long_of_pathIndex proof (by omega)⟩

private theorem verifyOutside_checked (H : Keccak D) (root : D) (value : Key)
    (proof : List (ProofElement D)) (neighbor : Key) (hl : proof.length<2^32) :
    Checked .panic (64≤proof.length) (verifyOutside H root value proof neighbor)
      (verifyOutsideUnbounded H root value proof neighbor) := by
  have hin := verifyInTree_checked H root neighbor proof hl
  rw [verifyOutside,verifyOutsideUnbounded]
  split
  · exact hin.bind fun _ _ => .of_eq rfl
  · split
    · apply (powU64_checked hl).step
      exact hin.bind fun _ _ => .of_eq rfl
    · exact .of_eq rfl

private theorem verifyBetween_checked (H : Keccak D) (root : D) (value : Key)
    (leftProof rightProof : List (ProofElement D)) (left right : Key)
    (hl : leftProof.length<2^32) (hr : rightProof.length<2^32) :
    Checked .panic (64≤leftProof.length ∨ 64≤rightProof.length)
      (verifyBetween H root value leftProof rightProof left right)
      (verifyBetweenUnbounded H root value leftProof rightProof left right) := by
  rw [verifyBetween,verifyBetweenUnbounded]
  split
  · exact .of_eq rfl
  · apply ((verifyInTree_checked H root left leftProof hl).mono Or.inl).bind
    intro leftIndex hleft
    apply ((verifyInTree_checked H root right rightProof hr).mono Or.inr).bind
    intro rightIndex _
    -- the only sum that can overflow is that of the largest index, which is a long proof's
    have hlong (h : 2^64 ≤ leftIndex+1) : 64≤leftProof.length ∨ 64≤rightProof.length := by
      rw [verifyInTreeUnbounded_ok H root left leftProof leftIndex hleft] at h
      exact Or.inl (long_of_pathIndex leftProof h)
    apply ((addU64_checked leftIndex 1).mono hlong).step
    exact .of_eq rfl

theorem verifyNotInTree_checked (H : Keccak D) (root : D) (value : Key)
    (proofs : List (List (ProofElement D))) (neighbors : List Key)
    (hl : ∀ p∈proofs,p.length<2^32) :
    Checked .panic (∃ p∈proofs,64≤p.length) (verifyNotInTree H root value proofs neighbors)
      (verifyNotInTreeUnbounded H root value proofs neighbors) := by
  unfold verifyNotInTree
  split
  · rename_i proof neighbor
    apply (verifyOutside_checked H root value proof neighbor (hl proof (by simp))).mono
    exact fun h => ⟨proof,by simp,h⟩
  · rename_i leftProof rightProof left right
    apply (verifyBetween_checked H root value leftProof rightProof left right
      (hl leftProof (by simp)) (hl rightProof (by simp))).mono
    rintro (h|h)
    · exact ⟨leftProof,by simp,h⟩
    · exact ⟨rightProof,by simp,h⟩
  · rename_i hone htwo
    have hexact : verifyNotInTreeUnbounded H root value proofs neighbors=err .InvalidProof := by
      unfold verifyNotInTreeUnbounded
      split
      · exact absurd rfl (hone _ _ rfl)
      · exact absurd rfl (htwo _ _ _ _ rfl)
      · rfl
    exact .of_eq hexact.symm

/-- The binary number of a proof: bit j is set where element j is a left sibling. -/
structure NamesPosition (proof : List (ProofElement D)) (index : Nat) : Prop where
  bit : ∀ j,index.testBit j=true ↔ ∃ p,proof[j]? = some p ∧ p.onRight=false
  lt : index<2^proof.length

/-- Before every element the loop has not aborted, and its sum is the unbounded one. -/
def RunningExact (H : Keccak D) (value : Key) (proof : List (ProofElement D)) : Prop :=
  ∀ j,∃ d sum,verifyInTreeLoop H 0 (H.leaf value) 0 (proof.take j)=.ok (d,sum) ∧
    verifyInTreeLoopUnbounded H 0 (H.leaf value) 0 (proof.take j)=(d,sum) ∧ sum<2^64

private theorem namesPosition_of_ok (H : Keccak D) (root : D) (value : Key)
    (proof : List (ProofElement D))
    (hl : proof.length<2^32) (index : Nat) (h : verifyInTree H root value proof=.ok index) :
    NamesPosition proof index := by
  rw [verifyInTree_eq H root value proof hl.le] at h
  split at h
  · split at h
    · cases h
      exact ⟨testBit_pathIndex proof,pathIndex_lt proof⟩
    · exact absurd h (err_ne_ok _ _)
  · cases h

private theorem runningExact_of_ne_panic (H : Keccak D) (root : D) (value : Key)
    (proof : List (ProofElement D)) (hl : proof.length<2^32)
    (h : verifyInTree H root value proof≠.error .panic) : RunningExact H value proof := by
  intro j
  have hfit : pathIndex proof<2^64 := by
    by_contra hover
    apply h
    rw [verifyInTree_eq H root value proof hl.le,if_neg hover]
  have hsum : pathIndex (proof.take j)<2^64 := by
    rw [pathIndex_take]
    exact (Nat.mod_le _ _).trans_lt hfit
  have hlen : (proof.take j).length≤2^32 := by
    rw [List.length_take]
    omega
  have hloop := verifyInTreeLoop_eq H (proof.take j) 0 0 (H.leaf value) (by omega)
    (by decide) (by decide)
  have hexact := verifyInTreeLoopUnbounded_eq H (proof.take j) 0 0 (H.leaf value)
  simp only [pow_zero,one_mul,zero_add] at hloop hexact
  rw [if_pos hsum] at hloop
  exact ⟨_,_,hloop,hexact,hsum⟩

/-- The numbers that verify_not_in_tree itself computes from lengths and positions fit u64. -/
def SumsFit (H : Keccak D) (root : D) (value : Key) (proofs : List (List (ProofElement D)))
    (neighbors : List Key) : Prop :=
  match proofs,neighbors with
  | [proof],[neighbor] => neighbor<value → 1≤2^proof.length ∧ 2^proof.length<2^64
  | [leftProof,rightProof],[left,right] =>
      left<value → value<right → ∀ leftIndex rightIndex,
        verifyInTree H root left leftProof=.ok leftIndex →
        verifyInTree H root right rightProof=.ok rightIndex → leftIndex+1<2^64
  | _,_ => True

private theorem sumsFit_of_ne_panic (H : Keccak D) (root : D) (value : Key)
    (proofs : List (List (ProofElement D))) (neighbors : List Key)
    (hl : ∀ p∈proofs,p.length<2^32)
    (h : verifyNotInTree H root value proofs neighbors≠.error .panic) :
    SumsFit H root value proofs neighbors := by
  unfold SumsFit
  split
  · rename_i proof neighbor
    intro hgt
    have hshort : proof.length<64 := by
      by_contra hlong
      apply h
      have hpow := powU64_of_ge (not_lt.mp hlong) (hl proof (by simp))
      rw [verifyNotInTree,verifyOutside,if_neg hgt.not_gt,if_pos hgt,hpow]
      rfl
    exact ⟨Nat.one_le_two_pow,Nat.pow_lt_pow_right (by decide) hshort⟩
  · rename_i leftProof rightProof left right
    intro hlv hvr leftIndex rightIndex hleft hright
    by_contra hover
    apply h
    have hord : ¬(right≤left ∨ value≤left ∨ right≤value) := by
      simp only [not_or,not_le]
      exact ⟨hlv.trans hvr,hlv,hvr⟩
    rw [verifyNotInTree,verifyBetween,if_neg hord,bind_of_ok hleft,bind_of_ok hright,addU64,
      if_neg hover]
    rfl
  · trivial

/-- The Merkle verifier computes over u64 and u32 what it would over unbounded integers, or
aborts on a proof of 64 elements or more. -/
theorem indexArithmetic_exact (H : Keccak D) (root : D) (value : Key) :
    (∀ proof : List (ProofElement D),proof.length<2^32 →
      Checked .panic (64≤proof.length) (verifyInTree H root value proof)
          (verifyInTreeUnbounded H root value proof) ∧
        (verifyInTree H root value proof≠.error .panic → RunningExact H value proof) ∧
        ∀ index,verifyInTree H root value proof=.ok index → NamesPosition proof index) ∧
    ∀ (proofs : List (List (ProofElement D))) (neighbors : List Key),
      (∀ p∈proofs,p.length<2^32) →
      Checked .panic (∃ p∈proofs,64≤p.length) (verifyNotInTree H root value proofs neighbors)
          (verifyNotInTreeUnbounded H root value proofs neighbors) ∧
        (verifyNotInTree H root value proofs neighbors≠.error .panic →
          SumsFit H root value proofs neighbors) := by
  constructor
  · intro proof hl
    refine ⟨verifyInTree_checked H root value proof hl,?_,?_⟩
    · exact runningExact_of_ne_panic H root value proof hl
    · exact namesPosition_of_ok H root value proof hl
  · intro proofs neighbors hl
    constructor
    · exact verifyNotInTree_checked H root value proofs neighbors hl
    · exact sumsFit_of_ne_panic H root value proofs neighbors hl

theorem indexArithmetic_two :
    NamesPosition [⟨Digest.leaf (.ofByte 1),false⟩] 1 ∧
      SumsFit Digest.keccak (.node (.leaf (.ofByte 1)) (.leaf (.ofByte 3))) (.ofByte 2)
        [[⟨.leaf (.ofByte 3),true⟩],[⟨.leaf (.ofByte 1),false⟩]] [.ofByte 1,.ofByte 3] := by
  constructor
  · have h := (indexArithmetic_exact Digest.keccak
      (.node (.leaf (.ofByte 1)) (.leaf (.ofByte 3))) (.ofByte 3)).1
        [⟨.leaf (.ofByte 1),false⟩] (by decide)
    exact h.2.2 1 (by decide +kernel)
  · have h := (indexArithmetic_exact Digest.keccak
      (.node (.leaf (.ofByte 1)) (.leaf (.ofByte 3))) (.ofByte 2)).2
        [[⟨.leaf (.ofByte 3),true⟩],[⟨.leaf (.ofByte 1),false⟩]] [.ofByte 1,.ofByte 3] (by decide)
    exact h.2 (by decide +kernel)

end SolanaM.Earn
