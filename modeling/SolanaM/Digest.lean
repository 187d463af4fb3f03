import SolanaM.Keys
import SolanaM.Math.HashTree

namespace SolanaM

/-- Digests as free terms: the collision-free hash every witness runs on. zero stands for
the all-zero word, which no hash reaches. -/
inductive Digest
  | zero
  | leaf (k : Key)
  | node (l r : Digest)
  deriving DecidableEq

namespace Digest

def keccak : HashTree.Hasher Key Digest := ⟨leaf,node⟩

theorem keccak_collisionFree : keccak.CollisionFree where
  leaf_inj _ _ h := Digest.leaf.inj h
  node_inj _ _ _ _ h := Digest.node.inj h
  leaf_ne_node _ _ _ h := Digest.noConfusion h

end Digest

end SolanaM
