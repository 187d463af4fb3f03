import SolanaM.Framework.Fallible
import SolanaM.Sdk.Claim

namespace SolanaM.Sdk

/-- Ledger order of two index updates. -/
def Precedes (a b : IndexUpdate) : Prop :=
  a.blockHeight<b.blockHeight ∧ a.index≤b.index ∧ a.ts≤b.ts

instance (a b : IndexUpdate) : Decidable (Precedes a b) := inferInstanceAs (Decidable (_ ∧ _))

/-- The index updates of the ledger: block heights distinct, indices and times never falling. -/
structure History where
  updates : List IndexUpdate
  ordered : updates.Pairwise Precedes

namespace History

/-- New updates join at the end, or are none of this ledger's. -/
def extend (h : History) (arriving : List IndexUpdate) : Option History :=
  if ho : (h.updates++arriving).Pairwise Precedes then some ⟨h.updates++arriving,ho⟩ else none

theorem extend_eq_some {h h' : History} {arriving : List IndexUpdate}
    (he : h.extend arriving=some h') : h'.updates=h.updates++arriving := by
  unfold extend at he
  split at he
  · cases he
    rfl
  · exact nomatch he

private theorem heights (h : History) (p : IndexUpdate → Bool) :
    (h.updates.filter p).Pairwise (fun a b => a.blockHeight<b.blockHeight) :=
  (h.ordered.imp (fun hab => hab.1)).filter p

theorem times (h : History) : h.updates.Pairwise (fun a b => a.ts≤b.ts) :=
  h.ordered.imp (fun hab => hab.2.2)

theorem currentIndex_eq (h : History) (order : DescendingSort IndexUpdate.blockHeight) :
    currentIndex order h.updates=h.updates.getLast? := by
  have hs := order.sort_eq (List.Perm.refl h.updates) (h.ordered.imp (fun hab => hab.1))
  rw [currentIndex,hs,List.getLast?_eq_head?_reverse]
  cases h.updates.reverse <;> rfl

/-- The updates of seconds fromTime to toTime, oldest first. -/
def window (h : History) (fromTime toTime : Nat) : List IndexUpdate :=
  h.updates.filter (fun u => decide (fromTime≤u.ts) && decide (u.ts<toTime))

theorem indexUpdates_eq (h : History) (order : DescendingSort IndexUpdate.blockHeight)
    (fromTime t : Nat) :
    (indexUpdates order h.updates fromTime (some (t+1))).reverse=h.window fromTime (t+1) := by
  have hs := order.sort_eq (List.Perm.refl (h.updates.filter fun u => decide (fromTime≤u.ts)))
    (h.heights _)
  simp only [indexUpdates,hs,List.filter_reverse,List.reverse_reverse,List.filter_filter,window]
  congr 1
  funext u
  rw [Bool.and_comm]

end History

/-- Scanning rows in time order, a bound from above does not change what is found first. -/
theorem find_bounded (rows : List IndexUpdate) (hord : rows.Pairwise (fun a b => a.ts≤b.ts))
    (fromTime toTime : Nat) (u : IndexUpdate)
    (h : rows.find? (fun v => decide (fromTime≤v.ts) && decide (v.ts<toTime))=some u) :
    rows.find? (fun v => fromTime≤v.ts)=some u := by
  induction rows with
  | nil => exact nomatch h
  | cons v rows ih =>
    obtain ⟨hv,hrows⟩ := List.pairwise_cons.mp hord
    by_cases hf : fromTime≤v.ts
    · by_cases ht : v.ts<toTime
      · simp only [List.find?_cons,hf,ht,decide_true,Bool.and_self] at h ⊢
        exact h
      · simp only [List.find?_cons,hf,ht,decide_true,decide_false,Bool.and_false] at h
        have hu := List.mem_of_find?_eq_some h
        have hlt := List.find?_some h
        simp only [Bool.and_eq_true,decide_eq_true_eq] at hlt
        have hle := hv u hu
        omega
    · simp only [List.find?_cons,hf,decide_false,Bool.false_and] at h ⊢
      exact ih hrows h

end SolanaM.Sdk
