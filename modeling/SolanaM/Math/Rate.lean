import Mathlib.Algebra.Order.Floor.Div
import Mathlib.GroupTheory.GroupAction.Ring
import Mathlib.Algebra.BigOperators.Group.List.Lemmas

namespace SolanaM.Rate

/-- n units at the rate i/s, rounded down. -/
def down (i s n : ℕ) : ℕ := n*i/s

/-- n units at the rate i/s, rounded up. -/
def up (i s n : ℕ) : ℕ := (n*i) ⌈/⌉ s

variable {i s : ℕ}

theorem le_down_iff (hs : 0 < s) {n m : ℕ} : m≤down i s n ↔ m*s≤n*i :=
  Nat.le_div_iff_mul_le hs

theorem up_le_iff (hs : 0 < s) {n m : ℕ} : up i s n ≤ m ↔ n*i ≤ m*s := by
  rw [up,ceilDiv_le_iff_le_mul hs,Nat.mul_comm s]

/-- Rounding up one way and down the other way are adjoint. -/
theorem gc (hi : 0 < i) (hs : 0 < s) : GaloisConnection (up s i) (down i s) :=
  fun _ _ => (up_le_iff hi).trans (le_down_iff hs).symm

theorem lt_down_succ_mul (hs : 0 < s) (n : ℕ) : n*i<(down i s n+1)*s := by
  rw [down,Nat.mul_comm _ s]
  exact Nat.lt_mul_div_succ _ hs

theorem up_mul_lt (hs : 0 < s) (n : ℕ) : up i s n*s<n*i+s := by
  have h := Nat.div_mul_le_self (n*i+s-1) s
  rw [up,Nat.ceilDiv_eq_add_pred_div]
  omega

theorem down_le_up (n : ℕ) : down i s n≤up i s n :=
  floorDiv_le_ceilDiv (α := ℕ) (β := ℕ)

theorem down_mono {n m : ℕ} (h : n ≤ m) : down i s n≤down i s m :=
  Nat.div_le_div_right (Nat.mul_le_mul_right i h)

/-- Splitting an amount never gains from rounding down. -/
theorem sum_down_le (hs : 0 < s) (ns : List ℕ) : (ns.map (down i s)).sum≤down i s ns.sum := by
  induction ns with
  | nil => simp
  | cons n ns ih =>
    rw [List.map_cons,List.sum_cons,List.sum_cons,le_down_iff hs,add_mul,add_mul]
    exact Nat.add_le_add ((le_down_iff hs).mp le_rfl) ((le_down_iff hs).mp ih)

/-- At a rate of at least one the way back loses nothing. -/
theorem up_down (hs : 0 < s) (h : s ≤ i) (n : ℕ) : up s i (down i s n)=n := by
  have hi : 0 < i := hs.trans_le h
  refine le_antisymm ((gc hi hs).l_u_le n) ?_
  by_contra hlt
  have hless : up s i (down i s n)≤n-1 := by omega
  have hback : down i s n*s≤(n-1)*i := (up_le_iff hi).mp hless
  have hfloor : n*i<down i s n*s+s := by
    have := lt_down_succ_mul (i := i) hs n
    rwa [add_mul,one_mul] at this
  have hsplit : n*i=(n-1)*i+i := by
    have hn : n-1+1=n := by omega
    rw [← hn,add_mul,Nat.add_sub_cancel,one_mul]
  omega

theorem down_up (hs : 0 < s) (h : s ≤ i) (n : ℕ) : down s i (up i s n)=n := by
  have hi : 0 < i := hs.trans_le h
  refine le_antisymm ?_ ((gc hs hi).le_u_l n)
  by_contra hlt
  have hmore : n+1≤down s i (up i s n) := by omega
  have hback : (n+1)*i≤up i s n*s := (le_down_iff hi).mp hmore
  have hceil := up_mul_lt (i := i) hs n
  rw [add_mul,one_mul] at hback
  omega

end SolanaM.Rate
