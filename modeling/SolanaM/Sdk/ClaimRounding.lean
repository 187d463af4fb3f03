import SolanaM.Sdk.ClaimYield

namespace SolanaM.Sdk

open Accrual

/-- Steps of the loop: the index is positive and never falls, and every step is later. -/
structure Advancing (first : IndexUpdate) (steps : List IndexUpdate) : Prop where
  positive : 0<first.index
  indices : (first::steps).Pairwise fun u v => u.index≤v.index
  times : (first::steps).Pairwise fun u v => u.ts<v.ts

/-- The step the loop ends at. -/
def finalStep (first : IndexUpdate) (steps : List IndexUpdate) : IndexUpdate :=
  (first::steps).getLast (List.cons_ne_nil first steps)

section
variable {balance : Nat → Nat} {first current : IndexUpdate} {steps : List IndexUpdate}

theorem Advancing.head (h : Advancing first (current::steps)) :
    first.ts<current.ts ∧ first.index ≤ current.index :=
  ⟨List.rel_of_pairwise_cons h.times List.mem_cons_self,
    List.rel_of_pairwise_cons h.indices List.mem_cons_self⟩

theorem Advancing.tail (h : Advancing first (current::steps)) : Advancing current steps where
  positive := h.positive.trans_le h.head.2
  indices := h.indices.tail
  times := h.times.tail

private theorem Advancing.laterSeconds_eq (h : Advancing first steps) :
    laterSeconds first steps=steps := by
  induction steps generalizing first with
  | nil => rfl
  | cons current steps ih =>
    rw [laterSeconds,if_neg h.head.1.ne',ih h.tail]

/-- The loop runs through when every index is a safe integer. -/
theorem Advancing.loop_isOk (h : Advancing first steps)
    (hsafe : ∀ u∈first::steps,u.index<2^53) (y : Int) :
    ∃ z,claimLoop balance first y steps=.ok (finalStep first steps,z) := by
  induction steps generalizing first y with
  | nil => exact ⟨y,rfl⟩
  | cons current steps ih =>
    obtain ⟨hts,hle⟩ := h.head
    rw [claimLoop_later balance y steps hts hle h.positive (hsafe current (by simp))]
    exact ih h.tail (fun u hu => hsafe u (by simp [List.mem_cons.mp hu])) _

theorem Advancing.loop_last (h : Advancing first steps) {u : IndexUpdate} {y z : Int}
    (hloop : claimLoop balance first y steps=.ok (u,z)) : u=finalStep first steps := by
  induction steps generalizing first y with
  | nil =>
    cases hloop
    rfl
  | cons current steps ih =>
    rw [claimLoop,if_neg h.head.1.ne'] at hloop
    split at hloop
    · cases hloop
    · simp only [bind_eq_ok] at hloop
      obtain ⟨_,_,_,_,_,_,hloop⟩ := hloop
      exact ih h.tail hloop

theorem finalIndex_points (balance : Nat → Nat) (first : IndexUpdate) (steps : List IndexUpdate) :
    finalIndex (first.index : ℚ) (points balance steps)=(finalStep first steps).index := by
  induction steps generalizing first with
  | nil => rfl
  | cons current steps ih => exact ih current

/-- Where the loop runs over all steps, its yield is the recurrence rounded down at each of them. -/
theorem Advancing.loop_eq (h : Advancing first steps) {u : IndexUpdate} {y : Int}
    (hloop : claimLoop balance first 0 steps=.ok (u,y)) :
    y=accrueDown first.index 0 (intPoints balance steps) ∧
      Rising ((first.index : ℤ) : ℚ) (castPoints ℚ (intPoints balance steps)) := by
  have hdown := claimLoop_accrueDown hloop le_rfl h.positive
  rw [h.laterSeconds_eq] at hdown
  exact hdown

/-- With balances of at most c the loop yields at most what c yields over all steps at once. -/
theorem Advancing.yield_le (h : Advancing first steps) {u : IndexUpdate} {y c : Int}
    (hloop : claimLoop balance first 0 steps=.ok (u,y)) (hc : ∀ v∈steps,(balance v.ts : Int) ≤ c) :
    0≤y ∧ (y : ℚ) ≤ c*((u.index : ℚ)/first.index-1) := by
  obtain ⟨hy,hrising⟩ := h.loop_eq hloop
  obtain ⟨hnonneg,hle⟩ := accrueDown_le hrising le_rfl (x := 0) (by simp)
  rw [← hy,castPoints_intPoints,Int.cast_natCast] at hle
  rw [castPoints_intPoints,Int.cast_natCast] at hrising
  have hfirst : (0 : ℚ)<first.index := by exact_mod_cast h.positive
  have hc' : ∀ p∈points balance steps,p.1≤(c : ℚ) := by
    intro p hp
    obtain ⟨v,hv,rfl⟩ := List.mem_map.mp hp
    have hv' : ((balance v.ts : ℕ) : ℚ) ≤ c := by exact_mod_cast hc v hv
    exact hv'
  have hbound := accrue_le_of_balance_le (y := 0) hrising hfirst hc'
    (by rw [div_self hfirst.ne']; simp)
  rw [finalIndex_points,← h.loop_last hloop] at hbound
  exact ⟨hy ▸ hnonneg,hle.trans hbound⟩

/-- The claim balance that the yield stands for between the first index and the last is that of
one of the steps at most. -/
theorem Advancing.claimBalance_le (h : Advancing first steps) {u : IndexUpdate} {y : Int}
    (hloop : claimLoop balance first 0 steps=.ok (u,y)) (hlt : first.index<u.index) :
    ∃ v∈steps,(y*first.index).tdiv ((u.index : Int)-first.index)≤balance v.ts := by
  by_contra hall
  push Not at hall
  obtain ⟨hnonneg,hle⟩ := h.yield_le hloop fun v hv => Int.le_sub_one_of_lt (hall v hv)
  have hreward := (reward_le hnonneg h.positive hlt).trans hle
  have hfirst : (0 : ℚ)<first.index := by exact_mod_cast h.positive
  have hlt' : (first.index : ℚ)<u.index := by exact_mod_cast hlt
  have hgap : (0 : ℚ)<(u.index : ℚ)/first.index-1 := by
    have hone := (one_lt_div hfirst).mpr hlt'
    linarith
  have hratio : ((u.index : ℚ)-first.index)/first.index=(u.index : ℚ)/first.index-1 := by
    rw [sub_div,div_self hfirst.ne']
  rw [mul_div_assoc,hratio] at hreward
  have hcontra := Int.cast_le.mp (le_of_mul_le_mul_right hreward hgap)
  omega

/-- The yield of the loop is not negative, is at most the exact one, and falls short of it by less
than the ratios of the last index to the index of each step. -/
theorem claimLoop_rounding (h : Advancing first steps) :
    ((∀ u∈first::steps,u.index<2^53) →
      ∃ y,claimLoop balance first 0 steps=.ok (finalStep first steps,y)) ∧
    ∀ u y,claimLoop balance first 0 steps=.ok (u,y) →
      u=finalStep first steps ∧ 0≤y ∧ (y : ℚ)≤exactYield balance (first::steps) ∧
        (steps≠[] → exactYield balance (first::steps)-y<
          (steps.map fun v => (u.index : ℚ)/v.index).sum) ∧
        (first.index<u.index → ∃ claimBalance,
          bnDiv (y*first.index) ((u.index : Int)-first.index)=.ok claimBalance ∧
            ∃ v∈steps,claimBalance≤balance v.ts) := by
  refine ⟨fun hsafe => h.loop_isOk hsafe 0,?_⟩
  intro u y hloop
  obtain ⟨hy,hrising⟩ := h.loop_eq hloop
  have hu := h.loop_last hloop
  have hexact : exactYield balance (first::steps)=
      accrue ((first.index : ℤ) : ℚ) 0 (castPoints ℚ (intPoints balance steps)) := by
    rw [castPoints_intPoints]
    rfl
  obtain ⟨hnonneg,hle⟩ := accrueDown_le hrising le_rfl (x := 0) (by simp)
  obtain ⟨_,hlt⟩ := accrue_sub_accrueDown_le hrising (y := 0) (x := 0) (e := 0) (by simp)
  rw [← hy] at hnonneg hle
  refine ⟨hu,hnonneg,hexact ▸ hle,?_,?_⟩
  · intro hsteps
    have hlt' := hlt (by simpa [intPoints] using hsteps)
    rw [castPoints_intPoints] at hlt'
    have hratios : ((points balance steps).map fun p =>
          finalIndex ((first.index : ℤ) : ℚ) (points balance steps)/p.2).sum=
        (steps.map fun v => (u.index : ℚ)/v.index).sum := by
      rw [hu,Int.cast_natCast,finalIndex_points]
      simp [points,Function.comp_def]
    rw [hexact,hy,castPoints_intPoints]
    rw [hratios] at hlt'
    simpa using hlt'
  · intro hindex
    have hpos : 0<(u.index : Int)-first.index := by omega
    exact ⟨_,bnDiv_of_pos hpos,h.claimBalance_le hloop hindex⟩

end

theorem claimLoop_rounding_spread :
    claimLoop (fun _ => 7) ⟨100,10,1⟩ 0 [⟨110,20,2⟩,⟨121,30,3⟩]=.ok (⟨121,30,3⟩,0) ∧
      exactYield (fun _ => 7) [⟨100,10,1⟩,⟨110,20,2⟩,⟨121,30,3⟩]-((0 : Int) : ℚ)<
        (([⟨110,20,2⟩,⟨121,30,3⟩] : List IndexUpdate).map fun v => ((121 : ℕ) : ℚ)/v.index).sum := by
  have hrun : Advancing ⟨100,10,1⟩ [⟨110,20,2⟩,⟨121,30,3⟩] := ⟨by decide,by decide,by decide⟩
  have hloop : claimLoop (fun _ => 7) ⟨100,10,1⟩ 0 [⟨110,20,2⟩,⟨121,30,3⟩]=.ok (⟨121,30,3⟩,0) := by
    decide +kernel
  obtain ⟨_,_,_,hlt,_⟩ := (claimLoop_rounding hrun).2 _ _ hloop
  exact ⟨hloop,hlt (by simp)⟩

end SolanaM.Sdk
