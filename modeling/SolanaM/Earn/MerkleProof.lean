import SolanaM.Earn.Errors
import SolanaM.Keys
import SolanaM.Math.HashTree
import Mathlib.Tactic.NormNum

namespace SolanaM.Earn

/-- keccak in its two roles, H(0x00‖leaf) and H(0x01‖left‖right); D is the digest type. -/
abbrev Keccak (D : Type) := HashTree.Hasher Key D

abbrev ProofElement (D : Type) := HashTree.Step D

variable {D : Type}

/-- The loop of verify_in_tree from element i on. -/
def verifyInTreeLoop (H : Keccak D) : Nat → D → Nat → List (ProofElement D) → Result (D×Nat)
  | _,computedHash,index,[] => .ok (computedHash,index)
  | i,computedHash,index,p::proof =>
      if p.onRight then verifyInTreeLoop H (i+1) (H.node computedHash p.sibling) index proof
      else do
        let bit ← powU64 i
        let index ← addU64 index bit
        verifyInTreeLoop H (i+1) (H.node p.sibling computedHash) index proof

variable [DecidableEq D]

def verifyInTree (H : Keccak D) (root : D) (value : Key) (proof : List (ProofElement D)) :
    Result Nat := do
  let (computedHash,index) ← verifyInTreeLoop H 0 (H.leaf value) 0 proof
  if computedHash≠root then err .InvalidProof else .ok index

/-- One neighbour: the value lies below the first or above the last leaf. -/
def verifyOutside (H : Keccak D) (root : D) (value : Key) (proof : List (ProofElement D))
    (neighbor : Key) : Result Unit :=
  if value<neighbor then do
    let neighborIndex ← verifyInTree H root neighbor proof
    if neighborIndex=0 then .ok () else err .InvalidProof
  else if neighbor<value then do
    let width ← powU64 proof.length
    let neighborIndex ← verifyInTree H root neighbor proof
    if neighborIndex=width-1 then .ok () else err .InvalidProof
  else err .InvalidProof

/-- Two neighbours: the value lies between two adjacent leaves. -/
def verifyBetween (H : Keccak D) (root : D) (value : Key)
    (leftProof rightProof : List (ProofElement D)) (left right : Key) : Result Unit :=
  if right≤left ∨ value≤left ∨ right≤value then err .InvalidProof
  else do
    let leftIndex ← verifyInTree H root left leftProof
    let rightIndex ← verifyInTree H root right rightProof
    let next ← addU64 leftIndex 1
    if next≠rightIndex then err .InvalidProof else .ok ()

/-- A length mismatch, no proof and more than two proofs are all InvalidProof. -/
def verifyNotInTree (H : Keccak D) (root : D) (value : Key)
    (proofs : List (List (ProofElement D))) (neighbors : List Key) : Result Unit :=
  match proofs,neighbors with
  | [proof],[neighbor] => verifyOutside H root value proof neighbor
  | [leftProof,rightProof],[left,right] =>
      verifyBetween H root value leftProof rightProof left right
  | _,_ => err .InvalidProof

theorem powU64_of_lt {e : Nat} (h : e<64) : powU64 e=.ok (2^e) := by
  have hm : e%2^32=e := Nat.mod_eq_of_lt (h.trans (by norm_num))
  rw [powU64,hm,if_pos h]

theorem powU64_of_ge {e : Nat} (h : 64≤e) (hb : e<2^32) : powU64 e=.error .panic := by
  have hm : e%2^32=e := Nat.mod_eq_of_lt hb
  rw [powU64,hm,if_neg (by omega)]

theorem addU64_of_lt {a b : Nat} (h : a+b<2^64) : addU64 a b=.ok (a+b) := if_pos h

end SolanaM.Earn
