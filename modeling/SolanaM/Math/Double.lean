import Mathlib.Algebra.Order.Group.Nat
import Mathlib.Data.Nat.Log

namespace SolanaM

/-- The double nearest to an integer: 53 significant bits, a half rounded to the even neighbour. -/
def number (n : Nat) : Nat :=
  let unit := 2^(n.log2-52)
  let kept := n/unit
  let rest := n%unit
  (if 2*rest>unit ∨ 2*rest=unit ∧ kept%2=1 then kept+1 else kept)*unit

theorem number_eq {n : Nat} (h : n<2^53) : number n=n := by
  have hlog : n.log2-52=0 := by
    rcases Nat.eq_zero_or_pos n with rfl|hn
    · rfl
    · have := (Nat.log2_lt hn.ne').mpr h
      omega
  have hunit : 2^(n.log2-52)=1 := by rw [hlog,Nat.pow_zero]
  simp only [number,hunit,Nat.div_one,Nat.mod_one,Nat.mul_one]
  exact if_neg (by omega)

/-- Rounding does not leave the range of the integers that are not exact. -/
theorem number_ge {n : Nat} (h : 2^53≤n) : 2^53≤number n := by
  have hn : n≠0 := by omega
  have hlog : 53≤n.log2 := (Nat.le_log2 hn).mpr h
  have hkept : 2^52≤n/2^(n.log2-52) := by
    rw [Nat.le_div_iff_mul_le (Nat.two_pow_pos _),← Nat.pow_add]
    have hsum : 52+(n.log2-52)=n.log2 := by omega
    rw [hsum]
    exact Nat.log2_self_le hn
  have hunit : 2≤2^(n.log2-52) := by
    calc 2
        _ = 2^1 := rfl
        _ ≤ 2^(n.log2-52) := Nat.pow_le_pow_right (by decide) (by omega)
  calc 2^53
      _ = 2^52*2 := rfl
      _ ≤ n/2^(n.log2-52)*2^(n.log2-52) := Nat.mul_le_mul hkept hunit
      _ ≤ number n := by
        apply Nat.mul_le_mul_right
        split <;> omega

example : number (2^53+1)=2^53 ∧ number (2^53+3)=2^53+4 := by decide

end SolanaM
