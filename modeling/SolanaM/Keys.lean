import SolanaM.Math.Positional
import Mathlib.Data.Fintype.Card

namespace SolanaM

abbrev Byte := Fin 256

instance byteNeZero : NeZero 256 := ⟨by decide⟩

/-- A 32-byte word: a public key as the programs and the SDK pass it around. -/
structure Key where
  bytes : List Byte
  size : bytes.length=32
  deriving DecidableEq

namespace Key

theorem bytes_injective : Function.Injective bytes := by
  intro a b h
  cases a
  cases b
  simpa using h

/-- Byte arrays compare lexicographically, in Rust as in Buffer.compare. -/
instance : LinearOrder Key := LinearOrder.lift' bytes bytes_injective

theorem lt_def (a b : Key) : a<b ↔ a.bytes<b.bytes := Iff.rfl

/-- The integer BigInt('0x' + hex) reads from the word. -/
def toBigInt (k : Key) : Nat := Positional.value 256 k.bytes

theorem toBigInt_lt_iff (a b : Key) : a.toBigInt<b.toBigInt ↔ a<b :=
  Positional.value_lt_iff 256 a.bytes b.bytes (a.size.trans b.size.symm)

theorem toBigInt_lt (k : Key) : k.toBigInt<256^32 := by
  have h := Positional.value_lt 256 k.bytes
  rwa [k.size] at h

theorem toBigInt_injective : Function.Injective toBigInt := by
  intro a b h
  exact bytes_injective
    (Positional.value_injective 256 a.bytes b.bytes (a.size.trans b.size.symm) h)

/-- There are only 2^256 words, so a list of distinct ones is no longer than that. -/
theorem length_le_of_nodup (ks : List Key) (hn : ks.Nodup) : ks.length≤2^256 := by
  have hm : (ks.map toBigInt).Nodup := hn.map toBigInt_injective
  have hs : ks.map toBigInt ⊆ List.range (256^32) := by
    intro n hmem
    obtain ⟨k,_,rfl⟩ := List.mem_map.mp hmem
    exact List.mem_range.mpr k.toBigInt_lt
  have hl := (hm.subperm hs).length_le
  have hp : (256 : Nat)^32=2^256 := by norm_num
  rwa [List.length_map,List.length_range,hp] at hl

/-- The word with a single trailing byte. -/
def ofByte (b : Byte) : Key := ⟨List.replicate 31 0++[b],rfl⟩

/-- The all-zero word, [0u8; 32]. -/
def zero : Key := ofByte 0

theorem zero_lt {k : Key} (hk : k≠zero) : zero<k := by
  have hz : zero.toBigInt=0 := by decide
  rw [← toBigInt_lt_iff,hz]
  apply Nat.pos_of_ne_zero
  intro h
  exact hk (toBigInt_injective (h.trans hz.symm))

end Key

/-- A PublicKey object of the SDK: a JavaScript Set tells two of them apart by identity
(ref), never by their bytes. -/
structure PublicKey where
  ref : Nat
  bytes : Key
  deriving DecidableEq

/-- PublicKey.default, one shared object of the library. -/
def PublicKey.default : PublicKey := ⟨0,Key.zero⟩

end SolanaM
