import SolanaM.Framework.Run
import Mathlib.Logic.Function.Basic

namespace SolanaM

open Function

variable {K V : Type*}

/-- A guarded attempt to settle the value stored at a key; a value that is settled already is
never accepted. -/
structure Attempt (K : Type*) {V : Type*} (settle : V → V) where
  key : K
  guard : V → Prop
  unsettled : ∀ v,guard v → settle v≠v

namespace Attempt

variable [DecidableEq K] {settle : V → V}

def Accepts (t : K → Option V) (a : Attempt K settle) : Prop := ∃ v,t a.key=some v ∧ a.guard v

open Classical in
/-- The table after an attempt: the value is settled where the guard accepts it. -/
noncomputable def apply (a : Attempt K settle) (t : K → Option V) : K → Option V :=
  if a.Accepts t then update t a.key ((t a.key).map settle) else t

theorem apply_of_guard {t : K → Option V} {a : Attempt K settle} {v : V} (hv : t a.key=some v)
    (hg : a.guard v) : a.apply t=update t a.key (some (settle v)) := by
  rw [apply,if_pos ⟨v,hv,hg⟩,hv,Option.map_some]

theorem apply_of_not {t : K → Option V} {a : Attempt K settle} (h : ¬a.Accepts t) :
    a.apply t=t := if_neg h

/-- Each key keeps its value or has it settled. -/
theorem apply_cases (t : K → Option V) (a : Attempt K settle) (k : K) :
    a.apply t k=t k ∨ ∃ v,t k=some v ∧ settle v≠v ∧ a.apply t k=some (settle v) := by
  by_cases h : a.Accepts t
  · obtain ⟨v,hv,hg⟩ := h
    rw [apply_of_guard hv hg]
    by_cases hk : k=a.key
    · rw [hk,update_self]
      exact .inr ⟨v,hv,a.unsettled v hg,rfl⟩
    · exact .inl (update_of_ne hk _ _)
  · rw [apply_of_not h]
    exact .inl rfl

theorem accepts_of_ne {t : K → Option V} {a b : Attempt K settle} (h : a.key≠b.key) :
    b.Accepts (a.apply t) ↔ b.Accepts t := by
  by_cases ha : a.Accepts t
  · obtain ⟨v,hv,hg⟩ := ha
    rw [apply_of_guard hv hg,Accepts,Accepts,update_of_ne h.symm]
  · rw [apply_of_not ha]

section Idempotent

variable (hid : ∀ v,settle (settle v)=settle v)

include hid

/-- What one attempt settled, no other attempt accepts. -/
theorem not_accepts_of_eq {t : K → Option V} {a b : Attempt K settle} (ha : a.Accepts t)
    (h : a.key=b.key) : ¬b.Accepts (a.apply t) := by
  obtain ⟨v,hv,hg⟩ := ha
  rintro ⟨w,hw,hgw⟩
  rw [apply_of_guard hv hg,← h,update_self] at hw
  cases hw
  exact b.unsettled _ hgw (hid v)

theorem apply_comm (t : K → Option V) (a b : Attempt K settle) :
    b.apply (a.apply t)=a.apply (b.apply t) := by
  by_cases h : a.key=b.key
  · by_cases ha : a.Accepts t
    · rw [apply_of_not (not_accepts_of_eq hid ha h)]
      by_cases hb : b.Accepts t
      · rw [apply_of_not (not_accepts_of_eq hid hb h.symm)]
        obtain ⟨v,hv,hg⟩ := ha
        obtain ⟨w,hw,hgw⟩ := hb
        rw [apply_of_guard hv hg,apply_of_guard hw hgw,← h]
        rw [← h,hv] at hw
        cases hw
        rfl
      · rw [apply_of_not hb]
    · rw [apply_of_not ha]
      by_cases hb : b.Accepts t
      · rw [apply_of_not (not_accepts_of_eq hid hb h.symm)]
      · rw [apply_of_not hb,apply_of_not ha]
  · have hba := accepts_of_ne (t := t) h
    have hab := accepts_of_ne (t := t) (Ne.symm h)
    by_cases ha : a.Accepts t
    · by_cases hb : b.Accepts t
      · obtain ⟨v,hv,hg⟩ := ha
        obtain ⟨w,hw,hgw⟩ := hb
        have hw' : a.apply t b.key=some w := by
          rw [apply_of_guard hv hg,update_of_ne (Ne.symm h),hw]
        have hv' : b.apply t a.key=some v := by
          rw [apply_of_guard hw hgw,update_of_ne h,hv]
        rw [apply_of_guard hw' hgw,apply_of_guard hv' hg,apply_of_guard hv hg,
          apply_of_guard hw hgw,update_comm h]
      · rw [apply_of_not hb,apply_of_not (fun hn => hb (hba.mp hn))]
    · rw [apply_of_not ha,apply_of_not (fun hn => ha (hab.mp hn))]

end Idempotent

end Attempt

/-- A table on which attempts arrive one after the other. -/
noncomputable def settling [DecidableEq K] (settle : V → V) :
    Machine (K → Option V) (Attempt K settle) Empty Empty where
  step t a := .ok (a.apply t,[])

namespace settling

variable [DecidableEq K] {settle : V → V} (hid : ∀ v,settle (settle v)=settle v)

include hid

/-- The order of the attempts does not matter. -/
theorem run_perm {as bs : List (Attempt K settle)} (hp : as.Perm bs) (t : K → Option V) :
    (settling settle).run t as=(settling settle).run t bs :=
  (settling settle).run_perm (I := fun _ => True) (fun _ _ _ => trivial)
    (fun t a b _ => Attempt.apply_comm hid t a b) hp t trivial

variable [DecidableEq V]

omit hid in
theorem run_of_settled (t : K → Option V) (as : List (Attempt K settle)) (k : K) (v : V)
    (hv : t k=some v) (hs : settle v=v) :
    (settling settle).run t as k=some v ∧ (settling settle).changes (fun t => t k) t as=0 := by
  induction as generalizing t with
  | nil => exact ⟨hv,rfl⟩
  | cons a as ih =>
    have hkeep : a.apply t k=some v := by
      rcases a.apply_cases t k with h|⟨w,hw,hne,_⟩
      · exact h.trans hv
      · cases hv.symm.trans hw
        exact absurd hs hne
    obtain ⟨hrun,hch⟩ := ih (a.apply t) hkeep
    refine ⟨hrun,?_⟩
    rw [Machine.changes]
    change (if a.apply t k=t k then 0 else 1)+_=0
    rw [if_pos (hkeep.trans hv.symm)]
    exact (Nat.zero_add _).trans hch

/-- Whatever arrives, a key changes at most once, and what changed is settled. -/
theorem run_cases (t : K → Option V) (as : List (Attempt K settle)) (k : K) :
    (settling settle).changes (fun t => t k) t as≤1 ∧
      ((settling settle).run t as k=t k ∨
        ∃ v,t k=some v ∧ settle v≠v ∧ (settling settle).run t as k=some (settle v)) := by
  induction as generalizing t with
  | nil => exact ⟨Nat.zero_le 1,.inl rfl⟩
  | cons a as ih =>
    rw [Machine.changes,Machine.run_cons]
    change (if a.apply t k=t k then 0 else 1)+(settling settle).changes (fun t => t k) (a.apply t) as≤1 ∧
      ((settling settle).run (a.apply t) as k=t k ∨ _)
    rcases a.apply_cases t k with h|⟨v,hv,hne,hset⟩
    · obtain ⟨hch,hrun⟩ := ih (a.apply t)
      rw [if_pos h,Nat.zero_add]
      rw [h] at hrun
      exact ⟨hch,hrun⟩
    · obtain ⟨hrun,hch⟩ := run_of_settled (a.apply t) as k (settle v) hset (hid v)
      rw [hch]
      refine ⟨?_,.inr ⟨v,hv,hne,hrun⟩⟩
      split <;> decide

end settling

end SolanaM
