import Mathlib.Data.Fin.Basic
import Mathlib.Algebra.Order.Group.Nat
import Mathlib.Tactic.Ring

namespace SolanaM.LittleEndian

/-- The number that digits in base B are, least significant first. -/
def read {B : Nat} : List (Fin B) → Nat
  | [] => 0
  | d::ds => d.val+B*read ds

/-- The low w digits of n. -/
def write (B : Nat) [NeZero B] : Nat → Nat → List (Fin B)
  | 0,_ => []
  | w+1,n => Fin.ofNat B n::write B w (n/B)

variable {B : Nat} [NeZero B]

@[simp] theorem length_write (w n : Nat) : (write B w n).length=w := by
  induction w generalizing n with
  | zero => rfl
  | succ w ih => simp [write,ih]

/-- Reading back what w digits could hold. -/
theorem read_write (w n : Nat) : read (write B w n)=n%B^w := by
  induction w generalizing n with
  | zero => simp [write,read,Nat.mod_one]
  | succ w ih =>
    rw [write,read,ih,pow_succ,Nat.mul_comm (B^w) B,Nat.mod_mul]
    rfl

theorem read_write_of_lt {w n : Nat} (h : n<B^w) : read (write B w n)=n := by
  rw [read_write,Nat.mod_eq_of_lt h]

theorem write_read (ds : List (Fin B)) : write B ds.length (read ds)=ds := by
  induction ds with
  | nil => rfl
  | cons d ds ih =>
    have hB := NeZero.pos B
    have hhead : Fin.ofNat B (d.val+B*read ds)=d := by
      apply Fin.ext
      rw [Fin.val_ofNat,Nat.add_mul_mod_self_left,Nat.mod_eq_of_lt d.isLt]
    have htail : (d.val+B*read ds)/B=read ds := by
      rw [Nat.add_mul_div_left _ _ hB,Nat.div_eq_of_lt d.isLt,Nat.zero_add]
    rw [List.length_cons,read,write,hhead,htail,ih]

end SolanaM.LittleEndian
