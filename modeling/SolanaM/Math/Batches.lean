import Mathlib.Data.List.Basic
import Mathlib.Algebra.Order.Group.Nat

namespace SolanaM

variable {α : Type}

/-- Slices of size elements from the front, the last one shorter; fuel bounds their number. -/
def batches (size : Nat) : Nat → List α → List (List α)
  | 0,_ => []
  | _+1,[] => []
  | fuel+1,x::xs => (x::xs).take size::batches size fuel ((x::xs).drop size)

namespace Batches

variable {size : Nat} (hsize : 0<size)

include hsize

theorem flatten_batches (fuel : Nat) (xs : List α) (h : xs.length≤fuel) :
    (batches size fuel xs).flatten=xs := by
  induction fuel generalizing xs with
  | zero => simp [batches,List.eq_nil_of_length_eq_zero (Nat.le_zero.mp h)]
  | succ fuel ih =>
    cases xs with
    | nil => rfl
    | cons x xs =>
      have hrest : ((x::xs).drop size).length≤fuel := by
        rw [List.length_drop]
        omega
      rw [batches,List.flatten_cons,ih _ hrest,List.take_append_drop]

theorem bounds (fuel : Nat) (xs : List α) :
    ∀ batch∈batches size fuel xs,batch≠[] ∧ batch.length ≤ size := by
  induction fuel generalizing xs with
  | zero => simp [batches]
  | succ fuel ih =>
    cases xs with
    | nil => simp [batches]
    | cons x xs =>
      intro batch hb
      rw [batches] at hb
      rcases List.mem_cons.mp hb with rfl|hb
      · refine ⟨?_,List.length_take_le size _⟩
        intro hnil
        have hlen := congrArg List.length hnil
        rw [List.length_take,List.length_cons,List.length_nil] at hlen
        omega
      · exact ih _ batch hb

/-- No more slices than needed. -/
theorem length_batches (fuel : Nat) (xs : List α) (h : xs.length≤fuel) :
    (batches size fuel xs).length=(xs.length+size-1)/size := by
  have hempty : 0=(0+size-1)/size := by
    rw [Nat.zero_add,Nat.div_eq_of_lt (Nat.sub_lt hsize Nat.one_pos)]
  induction fuel generalizing xs with
  | zero =>
    rw [List.eq_nil_of_length_eq_zero (Nat.le_zero.mp h)]
    exact hempty
  | succ fuel ih =>
    cases xs with
    | nil => exact hempty
    | cons x xs =>
      have hrest : ((x::xs).drop size).length≤fuel := by
        rw [List.length_drop]
        omega
      rw [batches,List.length_cons,ih _ hrest,List.length_drop]
      by_cases hle : size≤(x::xs).length
      · have hshift : (x::xs).length+size-1=((x::xs).length-size+size-1)+size := by omega
        rw [hshift,Nat.add_div_right _ hsize]
      · have hzero : (x::xs).length-size+size-1=size-1 := by omega
        have hone : (x::xs).length+size-1=(x::xs).length-1+size := by
          rw [List.length_cons]
          omega
        rw [hzero,hone,Nat.add_div_right _ hsize,Nat.div_eq_of_lt (Nat.sub_lt hsize Nat.one_pos),
          Nat.div_eq_of_lt (by omega)]

end Batches

end SolanaM
