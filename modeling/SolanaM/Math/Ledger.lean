import Mathlib.Algebra.BigOperators.Group.Finset.Piecewise
import Mathlib.Algebra.Order.BigOperators.Group.Finset

namespace SolanaM.Ledger

open Finset Function

variable {ι : Type*} [DecidableEq ι]

/-- x units moved from a to b. -/
def move (f : ι → ℕ) (a b : ι) (x : ℕ) : ι → ℕ := update (update f a (f a-x)) b (f b+x)

variable {f : ι → ℕ} {a b : ι} {x : ℕ}

theorem total_update {s : Finset ι} {k : ι} (hk : k∈s) (f : ι → ℕ) (n : ℕ) :
    ∑ i∈s,update f k n i+f k=∑ i∈s,f i+n := by
  have hrest := sum_sdiff (f := f) (singleton_subset_iff.mpr hk)
  rw [sum_singleton] at hrest
  rw [sum_update_of_mem hk]
  omega

/-- Among holders that include both ends a move changes no total. -/
theorem sum_move {s : Finset ι} (ha : a∈s) (hb : b∈s) (hne : a≠b) (hx : x≤f a) :
    ∑ i∈s,move f a b x i=∑ i∈s,f i := by
  have hfrom := total_update ha f (f a-x)
  have hto := total_update hb (update f a (f a-x)) (f b+x)
  rw [update_of_ne hne.symm] at hto
  unfold move
  omega

/-- A move takes from the holder it starts at and from no other. -/
theorem eq_of_move_lt {i : ι} (h : move f a b x i<f i) : i=a := by
  by_contra hi
  unfold move at h
  by_cases hb : i=b
  · rw [hb,update_self] at h
    omega
  · rw [update_of_ne hb,update_of_ne hi] at h
    exact lt_irrefl _ h

/-- x units new in the hands of a. -/
def issue (f : ι → ℕ) (a : ι) (x : ℕ) : ι → ℕ := update f a (f a+x)

/-- x units taken out of the hands of a. -/
def redeem (f : ι → ℕ) (a : ι) (x : ℕ) : ι → ℕ := update f a (f a-x)

theorem sum_issue {s : Finset ι} (ha : a∈s) (f : ι → ℕ) (x : ℕ) :
    ∑ i∈s,issue f a x i=∑ i∈s,f i+x := by
  have htotal := total_update ha f (f a+x)
  unfold issue
  omega

theorem sum_redeem {s : Finset ι} (ha : a∈s) (hx : x≤f a) :
    ∑ i∈s,redeem f a x i+x=∑ i∈s,f i := by
  have htotal := total_update ha f (f a-x)
  unfold redeem
  omega

/-- Nobody loses by an issue. -/
theorem le_issue (f : ι → ℕ) (a : ι) (x : ℕ) (i : ι) : f i ≤ issue f a x i := by
  unfold issue
  by_cases hi : i=a
  · rw [hi,update_self]
    exact Nat.le_add_right _ _
  · rw [update_of_ne hi]

theorem eq_of_redeem_lt {i : ι} (h : redeem f a x i<f i) : i=a := by
  by_contra hi
  unfold redeem at h
  rw [update_of_ne hi] at h
  exact lt_irrefl _ h

/-- No holders, however many, hold more than the supply. -/
def Backed (f : ι → ℕ) (supply : ℕ) : Prop := ∀ s : Finset ι,∑ i∈s,f i ≤ supply

/-- One entry in the books of holdings and supply: nothing, a hand-over between two holders, an
issue to one or a redemption by one. -/
inductive Entry (f : ι → ℕ) (supply : ℕ) : (ι → ℕ) → ℕ → Prop
  | nothing : Entry f supply f supply
  | move {a b : ι} {x : ℕ} (hne : a≠b) (hx : x≤f a) : Entry f supply (move f a b x) supply
  | issue (a : ι) (x : ℕ) : Entry f supply (issue f a x) (supply+x)
  | redeem {a : ι} {x : ℕ} (hx : x≤f a) (hs : x ≤ supply) :
      Entry f supply (redeem f a x) (supply-x)

variable {f' : ι → ℕ} {n n' : ℕ}

/-- What is said of a large enough set of holders bounds every set. -/
theorem backed_of_superset (t : Finset ι) (h : ∀ s,t⊆s → ∑ i∈s,f i≤n) : Backed f n := by
  intro s
  calc ∑ i∈s,f i ≤ ∑ i∈s∪t,f i := sum_le_sum_of_subset subset_union_left
    _ ≤ n := h _ subset_union_right

theorem Backed.entry (h : Backed f n) (he : Entry f n f' n') : Backed f' n' := by
  cases he with
  | nothing => exact h
  | @move a b x hne hx =>
    refine backed_of_superset {a,b} ?_
    intro s hs
    rw [sum_move (hs (by simp)) (hs (by simp)) hne hx]
    exact h s
  | issue a x =>
    refine backed_of_superset {a} ?_
    intro s hs
    rw [sum_issue (hs (by simp))]
    exact Nat.add_le_add_right (h s) x
  | @redeem a x hx =>
    refine backed_of_superset {a} ?_
    intro s hs
    have hsum := sum_redeem (hs (by simp)) hx
    have hle := h s
    omega

/-- For some finite set of holders, and every larger one, what they hold and the supply have
changed alike. -/
def Balanced (f : ι → ℕ) (n : ℕ) (f' : ι → ℕ) (n' : ℕ) : Prop :=
  ∃ t : Finset ι,∀ u,t⊆u → ∑ i∈u,f' i+n=∑ i∈u,f i+n'

omit [DecidableEq ι] in
theorem Balanced.refl (f : ι → ℕ) (n : ℕ) : Balanced f n f n := ⟨∅,fun _ _ => rfl⟩

theorem Balanced.trans {f'' : ι → ℕ} {n'' : ℕ} (h : Balanced f n f' n')
    (h' : Balanced f' n' f'' n'') : Balanced f n f'' n'' := by
  obtain ⟨t,ht⟩ := h
  obtain ⟨t',ht'⟩ := h'
  refine ⟨t∪t',?_⟩
  intro u hu
  have hfirst := ht u (subset_union_left.trans hu)
  have hsecond := ht' u (subset_union_right.trans hu)
  omega

theorem Entry.balanced (h : Entry f n f' n') : Balanced f n f' n' := by
  cases h with
  | nothing => exact .refl f n
  | @move a b x hne hx =>
    refine ⟨{a,b},?_⟩
    intro u hu
    rw [sum_move (hu (by simp)) (hu (by simp)) hne hx]
  | issue a x =>
    refine ⟨{a},?_⟩
    intro u hu
    rw [sum_issue (hu (by simp))]
    omega
  | @redeem a x hx hs =>
    refine ⟨{a},?_⟩
    intro u hu
    have hsum := sum_redeem (hu (by simp)) hx
    omega

theorem Backed.pair {supply : ℕ} (h : Backed f supply) (hne : a≠b) : f a+f b ≤ supply := by
  have hsum := h {a,b}
  rwa [sum_pair hne] at hsum

/-- A supply in one pair of hands. -/
theorem backed_of_single {supply : ℕ} (hothers : ∀ i,i≠a → f i=0) (ha : f a ≤ supply) :
    Backed f supply := by
  intro s
  by_cases hmem : a∈s
  · rw [sum_eq_single_of_mem a hmem (fun i _ hi => hothers i hi)]
    exact ha
  · rw [sum_eq_zero fun i hi => hothers i (ne_of_mem_of_not_mem hi hmem)]
    exact Nat.zero_le supply

end SolanaM.Ledger
