import SolanaM.Earn.Errors
import SolanaM.Framework.Fallible
import SolanaM.Math.Rate
import Mathlib

namespace SolanaM.Earn

def indexScaleF64 : Float := 1e12

def indexScaleU64 : Nat := 1000000000000

/-- x.trunc() as u128: towards zero, clamped to the range, 0 for a NaN. -/
def truncAsU128 (x : Float) : Nat := min (x.toModel.unpack.toInt 0 (2^128-1)).toNat (2^128-1)

/-- The index of a multiplier, in integers. -/
def scaledIndex (multiplier : Float) : Nat := truncAsU128 (multiplier*indexScaleF64)

def okOr {α : Type} (o : Option α) (e : EarnError) : Result α :=
  match o with
  | some a => .ok a
  | none => err e

def checkedMul (a b : Nat) : Option Nat := if a*b<2^128 then some (a*b) else none

def checkedAdd (a b : Nat) : Option Nat := if a+b<2^128 then some (a+b) else none

def checkedSub (a b : Nat) : Option Nat := if b≤a then some (a-b) else none

def checkedDiv (a b : Nat) : Option Nat := if b=0 then none else some (a/b)

def tryIntoU64 (n : Nat) : Result Nat := if n<2^64 then .ok n else .error .numericConversion

def amountToPrincipalDown (amount : Nat) (multiplier : Float) : Result Nat :=
  if multiplier==1.0 then .ok amount
  else do
    let index := scaledIndex multiplier
    let scaled ← okOr (checkedMul amount indexScaleU64) .MathOverflow
    let principal ← okOr (checkedDiv scaled index) .MathUnderflow
    tryIntoU64 principal

def amountToPrincipalUp (amount : Nat) (multiplier : Float) : Result Nat :=
  if multiplier==1.0 then .ok amount
  else do
    let index := scaledIndex multiplier
    let scaled ← okOr (checkedMul amount indexScaleU64) .MathOverflow
    let most ← okOr (checkedSub index 1) .MathUnderflow
    let raised ← okOr (checkedAdd scaled most) .MathOverflow
    let principal ← okOr (checkedDiv raised index) .MathUnderflow
    tryIntoU64 principal

def principalToAmountDown (principal : Nat) (multiplier : Float) : Result Nat :=
  if multiplier==1.0 then .ok principal
  else do
    let index := scaledIndex multiplier
    let scaled ← okOr (checkedMul index principal) .MathOverflow
    let amount ← okOr (checkedDiv scaled indexScaleU64) .MathUnderflow
    tryIntoU64 amount

def principalToAmountUp (principal : Nat) (multiplier : Float) : Result Nat :=
  if multiplier==1.0 then .ok principal
  else do
    let index := scaledIndex multiplier
    let scaled ← okOr (checkedMul index principal) .MathOverflow
    let most ← okOr (checkedSub indexScaleU64 1) .MathUnderflow
    let raised ← okOr (checkedAdd scaled most) .MathOverflow
    let amount ← okOr (checkedDiv raised indexScaleU64) .MathUnderflow
    tryIntoU64 amount

def indexToMultiplier (index : Nat) : Float := Float.ofNat index/indexScaleF64

section One

open Float.Model

private theorem unpack_one : (1.0 : Float).toModel.unpack=.finite .positive (2^52) (-52)
    (by decide) := rfl

/-- What equals 1.0 has the same sign, exponent and fraction. -/
theorem unpack_of_beq_one {multiplier : Float} (h : (multiplier==1.0)=true) :
    multiplier.toModel.unpack=(1.0 : Float).toModel.unpack := by
  have hcompare : multiplier.toModel.unpack.compare (1.0 : Float).toModel.unpack=some .eq :=
    eq_of_beq h
  rw [unpack_one] at hcompare ⊢
  cases hm : multiplier.toModel.unpack with
  | notANumber => simp [hm,UnpackedFloat.compare] at hcompare
  | infinity s => cases s <;> simp [hm,UnpackedFloat.compare] at hcompare
  | zero s => simp [hm,UnpackedFloat.compare] at hcompare
  | finite s m e hpos =>
    cases s with
    | negative => simp [hm,UnpackedFloat.compare] at hcompare
    | positive =>
      simp only [hm,UnpackedFloat.compare,Option.some.injEq,Ordering.then_eq_eq] at hcompare
      have he := Std.LawfulEqCmp.eq_of_compare hcompare.1
      have hfraction := Std.LawfulEqCmp.eq_of_compare hcompare.2
      subst he hfraction
      rfl

/-- The multiplier the functions treat apart has the index that leaves amounts as they are. -/
theorem scaledIndex_of_beq_one {multiplier : Float} (h : (multiplier==1.0)=true) :
    scaledIndex multiplier=indexScaleU64 := by
  have hmul : multiplier*indexScaleF64=(1.0 : Float)*indexScaleF64 := by
    show Float.ofModel (pack (UnpackedFloat.mul Format.binary64 multiplier.toModel.unpack _))=
      Float.ofModel (pack (UnpackedFloat.mul Format.binary64 (1.0 : Float).toModel.unpack _))
    rw [unpack_of_beq_one h]
  rw [scaledIndex,hmul]
  decide +kernel

end One

theorem tryIntoU64_of_lt {n : Nat} (h : n<2^64) : tryIntoU64 n=.ok n := if_pos h

theorem tryIntoU64_eq_ok {n m : Nat} : tryIntoU64 n=.ok m ↔ n<2^64 ∧ n=m := by
  unfold tryIntoU64
  by_cases h : n<2^64
  · rw [if_pos h]
    constructor
    · intro he
      exact ⟨h,Except.ok.inj he⟩
    · intro he
      rw [he.2]
  · rw [if_neg h]
    constructor
    · intro he
      cases he
    · intro he
      exact absurd he.1 h

section
variable {a b c : Nat} {e : EarnError}

theorem okOr_eq_ok {α : Type} {o : Option α} {x : α} : okOr o e=.ok x ↔ o=some x := by
  cases o <;> simp [okOr,err]

theorem checkedMul_eq_ok : okOr (checkedMul a b) e=.ok c ↔ a*b<2^128 ∧ a*b=c := by
  rw [okOr_eq_ok,checkedMul,Option.ite_none_right_eq_some,Option.some_inj]

theorem checkedAdd_eq_ok : okOr (checkedAdd a b) e=.ok c ↔ a+b<2^128 ∧ a+b=c := by
  rw [okOr_eq_ok,checkedAdd,Option.ite_none_right_eq_some,Option.some_inj]

theorem checkedSub_eq_ok : okOr (checkedSub a b) e=.ok c ↔ b≤a ∧ a-b=c := by
  rw [okOr_eq_ok,checkedSub,Option.ite_none_right_eq_some,Option.some_inj]

theorem checkedDiv_eq_ok : okOr (checkedDiv a b) e=.ok c ↔ b≠0 ∧ a/b=c := by
  rw [okOr_eq_ok,checkedDiv,Option.ite_none_left_eq_some,Option.some_inj]

theorem checkedMul_of_lt (h : a*b<2^128) (e : EarnError) : okOr (checkedMul a b) e=.ok (a*b) :=
  checkedMul_eq_ok.mpr ⟨h,rfl⟩

theorem checkedAdd_of_lt (h : a+b<2^128) (e : EarnError) : okOr (checkedAdd a b) e=.ok (a+b) :=
  checkedAdd_eq_ok.mpr ⟨h,rfl⟩

theorem checkedSub_of_le (h : b≤a) (e : EarnError) : okOr (checkedSub a b) e=.ok (a-b) :=
  checkedSub_eq_ok.mpr ⟨h,rfl⟩

theorem checkedDiv_of_pos (h : 0<b) (e : EarnError) : okOr (checkedDiv a b) e=.ok (a/b) :=
  checkedDiv_eq_ok.mpr ⟨h.ne',rfl⟩

end

section
variable {multiplier : Float} {n : Nat} (hn : n<2^64)

theorem indexScaleU64_pos : 0 < indexScaleU64 := by decide

/-- A scaled u64 leaves room for another u64 in a u128. -/
theorem mul_scale_lt (h : n<2^64) : n*indexScaleU64+2^64<2^128 := by
  unfold indexScaleU64
  omega

theorem down_scale (n : Nat) : Rate.down indexScaleU64 indexScaleU64 n=n :=
  Nat.mul_div_cancel n indexScaleU64_pos

theorem up_scale (n : Nat) : Rate.up indexScaleU64 indexScaleU64 n=n := by
  have h := Rate.up_down indexScaleU64_pos le_rfl n
  rwa [down_scale] at h

theorem up_eq_div (i n : Nat) :
    Rate.up i indexScaleU64 n=(i*n+(indexScaleU64-1))/indexScaleU64 := by
  rw [Rate.up,Nat.ceilDiv_eq_add_pred_div,Nat.mul_comm n,Nat.add_sub_assoc indexScaleU64_pos]

include hn

theorem amountToPrincipalDown_eq (hpos : 0<scaledIndex multiplier) :
    amountToPrincipalDown n multiplier=
      tryIntoU64 (Rate.down indexScaleU64 (scaledIndex multiplier) n) := by
  have hmul : n*indexScaleU64<2^128 := (Nat.le_add_right _ _).trans_lt (mul_scale_lt hn)
  unfold amountToPrincipalDown
  split
  · rename_i hone
    rw [scaledIndex_of_beq_one hone,down_scale,tryIntoU64_of_lt hn]
  · rw [bind_of_ok (checkedMul_of_lt hmul _),bind_of_ok (checkedDiv_of_pos hpos _),Rate.down]

theorem amountToPrincipalUp_eq (hpos : 0<scaledIndex multiplier)
    (hlt : scaledIndex multiplier<2^64) :
    amountToPrincipalUp n multiplier=
      tryIntoU64 (Rate.up indexScaleU64 (scaledIndex multiplier) n) := by
  have hroom := mul_scale_lt hn
  have hmul : n*indexScaleU64<2^128 := (Nat.le_add_right _ _).trans_lt hroom
  have hadd : n*indexScaleU64+(scaledIndex multiplier-1)<2^128 := by omega
  unfold amountToPrincipalUp
  split
  · rename_i hone
    rw [scaledIndex_of_beq_one hone,up_scale,tryIntoU64_of_lt hn]
  · rw [bind_of_ok (checkedMul_of_lt hmul _),bind_of_ok (checkedSub_of_le hpos _),
      bind_of_ok (checkedAdd_of_lt hadd _),bind_of_ok (checkedDiv_of_pos hpos _),Rate.up,
      Nat.ceilDiv_eq_add_pred_div,Nat.add_sub_assoc hpos]

theorem principalToAmountDown_eq (hlt : scaledIndex multiplier<2^64) :
    principalToAmountDown n multiplier=
      tryIntoU64 (Rate.down (scaledIndex multiplier) indexScaleU64 n) := by
  have hmul : scaledIndex multiplier*n<2^128 := by
    calc scaledIndex multiplier*n < 2^64*2^64 := Nat.mul_lt_mul'' hlt hn
      _ = 2^128 := by rw [← Nat.pow_add]
  unfold principalToAmountDown
  split
  · rename_i hone
    rw [scaledIndex_of_beq_one hone,down_scale,tryIntoU64_of_lt hn]
  · rw [bind_of_ok (checkedMul_of_lt hmul _),bind_of_ok (checkedDiv_of_pos indexScaleU64_pos _),
      Rate.down,Nat.mul_comm n]

theorem principalToAmountUp_eq (hlt : scaledIndex multiplier<2^64) :
    principalToAmountUp n multiplier=
      tryIntoU64 (Rate.up (scaledIndex multiplier) indexScaleU64 n) := by
  have hmost : scaledIndex multiplier*n≤(2^64-1)*(2^64-1) :=
    Nat.mul_le_mul (Nat.le_sub_one_of_lt hlt) (Nat.le_sub_one_of_lt hn)
  have hadd : scaledIndex multiplier*n+(indexScaleU64-1)<2^128 := by
    unfold indexScaleU64
    omega
  have hmul : scaledIndex multiplier*n<2^128 := (Nat.le_add_right _ _).trans_lt hadd
  unfold principalToAmountUp
  split
  · rename_i hone
    rw [scaledIndex_of_beq_one hone,up_scale,tryIntoU64_of_lt hn]
  · rw [bind_of_ok (checkedMul_of_lt hmul _),bind_of_ok (checkedSub_of_le indexScaleU64_pos _),
      bind_of_ok (checkedAdd_of_lt hadd _),bind_of_ok (checkedDiv_of_pos indexScaleU64_pos _),
      up_eq_div]

end

/-- Where a principal converts rounded up, every smaller one converts rounded down. -/
theorem principalToAmountUp_eq_ok {multiplier : Float} {n x : Nat}
    (h : principalToAmountUp n multiplier=.ok x) :
    x=Rate.up (scaledIndex multiplier) indexScaleU64 n ∧ ∀ m≤n,
      principalToAmountDown m multiplier=.ok (Rate.down (scaledIndex multiplier) indexScaleU64 m) := by
  unfold principalToAmountUp at h
  by_cases hone : (multiplier==1.0)=true
  · rw [if_pos hone] at h
    rw [scaledIndex_of_beq_one hone,up_scale]
    refine ⟨(Except.ok.inj h).symm,?_⟩
    intro m _
    rw [principalToAmountDown,if_pos hone,down_scale]
  · rw [if_neg hone] at h
    simp only [bind_eq_ok,checkedMul_eq_ok,checkedSub_eq_ok,checkedAdd_eq_ok,checkedDiv_eq_ok,
      tryIntoU64_eq_ok] at h
    obtain ⟨_,⟨hmul,rfl⟩,_,⟨_,rfl⟩,_,⟨_,rfl⟩,_,⟨_,rfl⟩,hfit,rfl⟩ := h
    rw [← up_eq_div] at hfit ⊢
    refine ⟨rfl,?_⟩
    intro m hm
    have hmul' : scaledIndex multiplier*m<2^128 := (Nat.mul_le_mul_left _ hm).trans_lt hmul
    have hdown : Rate.down (scaledIndex multiplier) indexScaleU64 m<2^64 :=
      ((Rate.down_mono hm).trans (Rate.down_le_up n)).trans_lt hfit
    rw [principalToAmountDown,if_neg hone,bind_of_ok (checkedMul_of_lt hmul' _),
      bind_of_ok (checkedDiv_of_pos indexScaleU64_pos _),Nat.mul_comm _ m]
    exact tryIntoU64_of_lt hdown

/-- The four conversions are their exact quotients rounded, adjoint in pairs, and at an index of
one or more the way from a principal to an amount and back loses nothing. -/
theorem conversions_exact {multiplier : Float} (hpos : 0<scaledIndex multiplier)
    (hlt : scaledIndex multiplier<2^64) :
    (∀ n<2^64,
      amountToPrincipalDown n multiplier=tryIntoU64 (n*10^12/scaledIndex multiplier) ∧
      amountToPrincipalUp n multiplier=tryIntoU64 ((n*10^12) ⌈/⌉ scaledIndex multiplier) ∧
      principalToAmountDown n multiplier=tryIntoU64 (n*scaledIndex multiplier/10^12) ∧
      principalToAmountUp n multiplier=tryIntoU64 ((n*scaledIndex multiplier) ⌈/⌉ 10^12)) ∧
    ((multiplier==1.0)=true → scaledIndex multiplier=10^12) ∧
    (∀ a<2^64,∀ p<2^64,∀ x y,amountToPrincipalUp a multiplier=.ok x →
      principalToAmountDown p multiplier=.ok y → (x≤p ↔ a≤y)) ∧
    (∀ a<2^64,∀ p<2^64,∀ x y,amountToPrincipalDown a multiplier=.ok x →
      principalToAmountUp p multiplier=.ok y → (p≤x ↔ y≤a)) ∧
    (10^12 ≤ scaledIndex multiplier → ∀ p<2^64,∀ y,
      (principalToAmountDown p multiplier=.ok y → amountToPrincipalUp y multiplier=.ok p) ∧
      (principalToAmountUp p multiplier=.ok y → amountToPrincipalDown y multiplier=.ok p)) := by
  refine ⟨?_,scaledIndex_of_beq_one,?_,?_,?_⟩
  · intro n hn
    exact ⟨amountToPrincipalDown_eq hn hpos,amountToPrincipalUp_eq hn hpos hlt,
      principalToAmountDown_eq hn hlt,principalToAmountUp_eq hn hlt⟩
  · intro a ha p hp x y hx hy
    rw [amountToPrincipalUp_eq ha hpos hlt,tryIntoU64_eq_ok] at hx
    rw [principalToAmountDown_eq hp hlt,tryIntoU64_eq_ok] at hy
    rw [← hx.2,← hy.2]
    exact Rate.gc hpos indexScaleU64_pos a p
  · intro a ha p hp x y hx hy
    rw [amountToPrincipalDown_eq ha hpos,tryIntoU64_eq_ok] at hx
    rw [principalToAmountUp_eq hp hlt,tryIntoU64_eq_ok] at hy
    rw [← hx.2,← hy.2]
    exact (Rate.gc indexScaleU64_pos hpos p a).symm
  · intro hone p hp y
    refine ⟨?_,?_⟩
    · intro hy
      rw [principalToAmountDown_eq hp hlt,tryIntoU64_eq_ok] at hy
      rw [← hy.2,amountToPrincipalUp_eq hy.1 hpos hlt,Rate.up_down indexScaleU64_pos hone,
        tryIntoU64_of_lt hp]
    · intro hy
      rw [principalToAmountUp_eq hp hlt,tryIntoU64_eq_ok] at hy
      rw [← hy.2,amountToPrincipalDown_eq hy.1 hpos,Rate.down_up indexScaleU64_pos hone,
        tryIntoU64_of_lt hp]

theorem conversions_exact_five_percent :
    principalToAmountDown 999999 1.05=.ok 1049998 ∧ amountToPrincipalUp 1049998 1.05=.ok 999999 := by
  have hdown : principalToAmountDown 999999 1.05=.ok 1049998 := by decide +kernel
  have hpos : 0<scaledIndex 1.05 := by decide +kernel
  have hlt : scaledIndex 1.05<2^64 := by decide +kernel
  have hone : 10^12 ≤ scaledIndex 1.05 := by decide +kernel
  obtain ⟨_,_,_,_,hback⟩ := conversions_exact hpos hlt
  exact ⟨hdown,(hback hone 999999 (by decide) 1049998).1 hdown⟩

end SolanaM.Earn
