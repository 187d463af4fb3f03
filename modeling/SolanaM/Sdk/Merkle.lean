import SolanaM.Earn.MerkleProof
import Mathlib.Data.List.Sort

namespace SolanaM.Sdk

open HashTree

abbrev Keccak (D : Type) := Hasher Key D

abbrev ProofElement (D : Type) := Step D

def bufferSort (a b : Key) : Int :=
  if a.toBigInt<b.toBigInt then -1 else if a.toBigInt>b.toBigInt then 1 else 0

/-- Array.prototype.sort with bufferSort, a stable sort. -/
def sortKeys (ks : List Key) : List Key := ks.insertionSort (fun a b => bufferSort a b≤0)

/-- The fields of the class. leaves is what this.leaves holds after _updateTree pushed the
duplicate onto it through its alias; depth keeps its old value where the source does not
assign it. -/
structure MerkleTree (D : Type) where
  rawLeaves : List Key
  leaves : List D
  tree : List (List D)
  root : Option D
  depth : Nat

namespace MerkleTree

variable {D : Type}

/-- The levels the while loop pushes above a level, at most fuel of them. -/
def upperLevels (H : Keccak D) : Nat → List D → List (List D)
  | 0,_ => []
  | fuel+1,nodes =>
      if nodes.length>1 then parents H nodes::upperLevels H fuel (parents H nodes) else []

/-- A bottom level of odd length gets its last leaf twice. -/
def padLeaves (leaves : List D) : List D :=
  if leaves.length%2≠0 then leaves++leaves.getLast?.toList else leaves

def updateTree (H : Keccak D) (t : MerkleTree D) : MerkleTree D :=
  match t.leaves with
  | [] => {t with tree := [],root := some (H.leaf PublicKey.default.bytes)}
  | [leaf] => {t with tree := [[leaf]],root := some leaf}
  | _ =>
      let leaves := padLeaves t.leaves
      let upper := upperLevels H leaves.length leaves
      let tree := leaves::upper
      {t with
        leaves := leaves
        tree := tree
        depth := upper.length
        root := tree[upper.length]?.bind (·[0]?)}

/-- new MerkleTree(leaves): an empty array gets the default key, the Set removes repeated
objects only, and the remaining keys are sorted. -/
def new (H : Keccak D) (leaves : List PublicKey) : MerkleTree D :=
  let leaves := if leaves.length=0 then leaves++[PublicKey.default] else leaves
  let rawLeaves := sortKeys (leaves.eraseDups.map PublicKey.bytes)
  updateTree H ⟨rawLeaves,rawLeaves.map H.leaf,[],none,0⟩

def getRoot (t : MerkleTree D) : Option D := t.root

/-- -1 of the source is none here. -/
def getLeafIndex (t : MerkleTree D) (leaf : Key) : Option Nat := t.rawLeaves.idxOf? leaf

def addLeaf (H : Keccak D) (t : MerkleTree D) (leaf : PublicKey) : Except String (MerkleTree D) :=
  if (t.getLeafIndex leaf.bytes).isSome then .error "Leaf already exists in the tree"
  else if leaf.bytes=PublicKey.default.bytes then .error "Zero-valued leaf found"
  else
    let rawLeaves := sortKeys (t.rawLeaves++[leaf.bytes])
    let index := rawLeaves.idxOf leaf.bytes
    let leaves := t.leaves.take index++H.leaf leaf.bytes::t.leaves.drop index
    let leaves := if rawLeaves.length%2≠0 then leaves++leaves.getLast?.toList else leaves
    .ok (updateTree H {t with rawLeaves := rawLeaves,leaves := leaves})

def removeLeaf (H : Keccak D) (t : MerkleTree D) (leaf : PublicKey) :
    Except String (MerkleTree D) :=
  match t.getLeafIndex leaf.bytes with
  | none => .error "Leaf not found in the tree"
  | some index =>
      let leaves := if t.rawLeaves.length%2≠0 then t.leaves.dropLast else t.leaves
      .ok (updateTree H
        {t with rawLeaves := t.rawLeaves.eraseIdx index,leaves := leaves.eraseIdx index})

variable [DecidableEq D]

def getTreeIndex (t : MerkleTree D) (level : Nat) (node : D) : Option Nat :=
  (t.tree[level]?.getD []).idxOf? node

/-- Reading an undefined node makes Array.from throw. -/
def nodeAt (t : MerkleTree D) (level index : Nat) : Except String D :=
  match (t.tree[level]?.getD [])[index]? with
  | some node => .ok node
  | none => .error "undefined is not iterable"

/-- The loop of getInclusionProof with steps levels left to climb from level i. -/
def proofLoop (H : Keccak D) (t : MerkleTree D) :
    Nat → Nat → Nat → Except String (List (ProofElement D))
  | 0,_,_ => .ok []
  | steps+1,i,index => do
      let siblingOnRight := index%2=0
      let siblingIndex :=
        if siblingOnRight then
          (if index=(t.tree[i]?.getD []).length-1 then index else index+1)
        else index-1
      let sibling ← t.nodeAt i siblingIndex
      let node ← t.nodeAt i index
      let parent := if siblingOnRight then H.node node sibling else H.node sibling node
      match t.getTreeIndex (i+1) parent with
      | none => .error "Parent not found in the tree"
      | some index =>
          let proof ← proofLoop H t steps (i+1) index
          .ok (⟨sibling,siblingOnRight⟩::proof)

def getInclusionProof (H : Keccak D) (t : MerkleTree D) (leaf : Key) (useDuplicate : Bool) :
    Except String (List (ProofElement D)) :=
  match t.getLeafIndex leaf with
  | none => .error "Leaf not found in the tree"
  | some index =>
      if t.tree.length≤1 then .ok []
      else
        let rawLen := t.rawLeaves.length
        let index := if rawLen%2≠0 ∧ index=rawLen-1 ∧ useDuplicate then index+1 else index
        proofLoop H t t.depth 0 index

/-- Where the leaf would stand: the first larger raw leaf, or past the (padded) end. -/
def insertionIndex (t : MerkleTree D) (leaf : Key) : Nat :=
  let len := t.rawLeaves.length
  match t.rawLeaves.findIdx? (fun raw => leaf<raw) with
  | some index => index
  | none => if len=0 then 0 else if len%2=0 then len else len+1

def getExclusionProof (H : Keccak D) (t : MerkleTree D) (leaf : Key) :
    Except String (List (List (ProofElement D))×List Key) :=
  if (t.getLeafIndex leaf).isSome then .error "Leaf found in the tree"
  else
    let len := t.rawLeaves.length
    let index := t.insertionIndex leaf
    if index=0 then
      match t.rawLeaves[0]? with
      | none => .ok ([[]],[PublicKey.default.bytes])
      | some neighbor => do
          let proof ← t.getInclusionProof H neighbor false
          .ok ([proof],[neighbor])
    else if len ≤ index then
      match t.rawLeaves[len-1]? with
      | none => .error "undefined is not a key"
      | some neighbor => do
          let proof ← t.getInclusionProof H neighbor true
          .ok ([proof],[neighbor])
    else
      match t.rawLeaves[index-1]?,t.rawLeaves[index]? with
      | some leftNeighbor,some rightNeighbor => do
          let leftProof ← t.getInclusionProof H leftNeighbor false
          let rightProof ← t.getInclusionProof H rightNeighbor false
          .ok ([leftProof,rightProof],[leftNeighbor,rightNeighbor])
      | _,_ => .error "undefined is not a key"

end MerkleTree

end SolanaM.Sdk
