import SolanaM.Framework.Run

namespace SolanaM

namespace Machine

variable {S A F E S' A' F' E' : Type*}

/-- One machine seen as another: an action that stands for an action of the second does what that
does, with the outputs it has, and every other action leaves what is seen as it was. -/
structure Refines (m : Machine S A F E) (m' : Machine S' A' F' E') (label : A → Option A')
    (R : S → S' → Prop) (out : E → E') : Prop where
  visible : ∀ s s' a a',label a=some a' → R s s' →
    R (m.exec s a) (m'.exec s' a') ∧ (m.emitted s a).map out=m'.emitted s' a'
  silent : ∀ s s' a,label a=none → R s s' → R (m.exec s a) s' ∧ m.emitted s a=[]

variable {m : Machine S A F E} {m' : Machine S' A' F' E'} {label : A → Option A'}
  {R : S → S' → Prop} {out : E → E'}

/-- A run is seen as the run of the actions that stand for something. -/
theorem Refines.run (h : Refines m m' label R out) {s : S} {s' : S'} (hs : R s s') (as : List A) :
    R (m.run s as) (m'.run s' (as.filterMap label)) := by
  induction as generalizing s s' with
  | nil => exact hs
  | cons a as ih =>
    rw [run_cons,List.filterMap_cons]
    cases ha : label a with
    | none => exact ih (h.silent s s' a ha hs).1
    | some a' => exact ih (h.visible s s' a a' ha hs).1

theorem Refines.outputs (h : Refines m m' label R out) {s : S} {s' : S'} (hs : R s s')
    (as : List A) : (m.outputs s as).map out=m'.outputs s' (as.filterMap label) := by
  induction as generalizing s s' with
  | nil => rfl
  | cons a as ih =>
    rw [Machine.outputs,List.filterMap_cons,List.map_append]
    cases ha : label a with
    | none =>
      obtain ⟨hr,he⟩ := h.silent s s' a ha hs
      rw [he,ih hr]
      rfl
    | some a' =>
      obtain ⟨hr,he⟩ := h.visible s s' a a' ha hs
      rw [he,ih hr,Machine.outputs]

end Machine

end SolanaM
