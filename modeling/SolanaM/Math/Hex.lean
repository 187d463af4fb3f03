import Mathlib.Data.Fin.Basic
import Mathlib.Data.List.GetD

namespace SolanaM.Hex

abbrev Octet := Fin 256

def alphabet : List Char := "0123456789abcdef".toList

def digit (n : Nat) : Char := alphabet.getD n '0'

/-- Two digits a byte, the high one first, in lower case. -/
def encode : List Octet → List Char
  | [] => []
  | b::bs => digit (b.val/16)::digit (b.val%16)::encode bs

/-- What a digit of either case stands for. -/
def value (c : Char) : Option Nat :=
  if alphabet.idxOf c.toLower<16 then some (alphabet.idxOf c.toLower) else none

def octet (hi lo : Nat) : Octet := @Fin.ofNat 256 ⟨by decide⟩ (16*hi+lo)

/-- A reader that stops at the first two characters that are not both digits. -/
def decode : List Char → List Octet
  | hi::lo::cs =>
    match value hi,value lo with
    | some h,some l => octet h l::decode cs
    | _,_ => []
  | _ => []

theorem value_digit {n : Nat} (h : n<16) : value (digit n)=some n := by
  have hall : ∀ m : Fin 16,value (digit m.val)=some m.val := by decide
  exact hall ⟨n,h⟩

theorem octet_halves (b : Octet) : octet (b.val/16) (b.val%16)=b := by
  have hb := b.isLt
  apply Fin.ext
  show (16*(b.val/16)+b.val%16)%256=b.val
  omega

theorem decode_encode (bs : List Octet) : decode (encode bs)=bs := by
  induction bs with
  | nil => rfl
  | cons b bs ih =>
    have hb := b.isLt
    have hhi := value_digit (show b.val/16<16 by omega)
    have hlo := value_digit (show b.val%16<16 by omega)
    simp only [encode,decode,hhi,hlo,ih,octet_halves]

theorem encode_injective : Function.Injective encode :=
  Function.LeftInverse.injective decode_encode

end SolanaM.Hex
