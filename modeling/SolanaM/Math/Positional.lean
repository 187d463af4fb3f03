import Mathlib.Data.List.Lex
import Mathlib.Data.Fintype.Card
import Mathlib.Tactic.Ring

namespace SolanaM.Positional

/-- Most significant digit first, the way a hexadecimal literal is read. -/
def value (B : Nat) : List (Fin B) → Nat
  | [] => 0
  | d::ds => d.val*B^ds.length+value B ds

theorem value_lt (B : Nat) (ds : List (Fin B)) : value B ds<B^ds.length := by
  induction ds with
  | nil => simp [value]
  | cons d ds ih =>
    have hd : d.val+1≤B := d.isLt
    have hm := Nat.mul_le_mul_right (B^ds.length) hd
    simp only [value,List.length_cons,pow_succ]
    calc
      d.val*B^ds.length+value B ds < d.val*B^ds.length+B^ds.length := by omega
      _ = (d.val+1)*B^ds.length := by ring
      _ ≤ B*B^ds.length := hm
      _ = B^ds.length*B := Nat.mul_comm _ _

/-- Between words of one length the lexicographic order is the numeric one. -/
theorem value_lt_iff (B : Nat) (xs ys : List (Fin B)) (hl : xs.length=ys.length) :
    value B xs<value B ys ↔ xs<ys := by
  induction xs generalizing ys with
  | nil =>
    have h : ys=[] := List.eq_nil_of_length_eq_zero (by simpa using hl.symm)
    simp [h,value]
  | cons x xs ih =>
    cases ys with
    | nil => simp at hl
    | cons y ys =>
      have tail : xs.length=ys.length := by simpa using hl
      have hx := value_lt B xs
      have hy := value_lt B ys
      rw [← tail] at hy
      rw [List.cons_lt_cons_iff,← ih ys tail]
      simp only [value,← tail]
      rcases lt_trichotomy x y with h|h|h
      · have hm : (x.val+1)*B^xs.length≤y.val*B^xs.length :=
          Nat.mul_le_mul_right _ (Fin.lt_def.mp h)
        have he : (x.val+1)*B^xs.length=x.val*B^xs.length+B^xs.length := by ring
        exact ⟨fun _ => Or.inl h,fun _ => by omega⟩
      · subst y
        simp
      · have hm : (y.val+1)*B^xs.length≤x.val*B^xs.length :=
          Nat.mul_le_mul_right _ (Fin.lt_def.mp h)
        have he : (y.val+1)*B^xs.length=y.val*B^xs.length+B^xs.length := by ring
        have ne : ¬x<y := h.asymm
        have ne' : x≠y := h.ne'
        simp only [ne,ne',false_and,or_false,iff_false,not_lt]
        omega

theorem value_injective (B : Nat) (xs ys : List (Fin B)) (hl : xs.length=ys.length)
    (hv : value B xs=value B ys) : xs=ys := by
  rcases lt_trichotomy xs ys with h|h|h
  · have := (value_lt_iff B xs ys hl).mpr h
    omega
  · exact h
  · have := (value_lt_iff B ys xs hl.symm).mpr h
    omega

end SolanaM.Positional
