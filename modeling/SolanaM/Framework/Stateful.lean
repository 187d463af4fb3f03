import SolanaM.Framework.Fallible

namespace SolanaM

/-- A computation that may fail and keeps its state when it does. -/
abbrev Stateful (ε σ α : Type) := ExceptT ε (StateM σ) α

namespace Stateful

variable {ε σ α β : Type}

/-- The computation starts from s, returns a and leaves s'. -/
def Returns (x : Stateful ε σ α) (s : σ) (a : α) (s' : σ) : Prop := x.run.run s=(.ok a,s')

theorem returns_pure {s s' : σ} {a b : α} :
    Returns (pure a : Stateful ε σ α) s b s' ↔ a=b ∧ s=s' := by
  rw [Returns]
  show ((Except.ok a,s) : Except ε α×σ)=(.ok b,s') ↔ _
  rw [Prod.mk.injEq,Except.ok.injEq]

theorem returns_bind {x : Stateful ε σ α} {f : α → Stateful ε σ β} {s s' : σ} {b : β} :
    Returns (x >>= f) s b s' ↔ ∃ a t,Returns x s a t ∧ Returns (f a) t b s' := by
  simp only [Returns,ExceptT.run_bind,StateT.run_bind]
  obtain ⟨r,t⟩ := x.run.run s
  cases r with
  | error e => exact ⟨nofun,fun ⟨_,_,h,_⟩ => nomatch h⟩
  | ok a => exact ⟨fun h => ⟨a,t,rfl,h⟩,fun ⟨_,_,h,hf⟩ => by cases h; exact hf⟩

theorem returns_ofExcept {x : Except ε α} {s s' : σ} {a : α} :
    Returns (ofExcept x : Stateful ε σ α) s a s' ↔ x=.ok a ∧ s=s' := by
  cases x with
  | error e => exact ⟨nofun,nofun⟩
  | ok b => exact returns_pure.trans (and_congr_left' (by rw [Except.ok.injEq]))

/-- A loop that collects a result for each element, whatever it does to the state. -/
theorem returns_mapM {f : α → Stateful ε σ β} {as : List α} {bs : List β} {s s' : σ}
    (h : Returns (as.mapM f) s bs s') :
    List.Forall₂ (fun a b => ∃ t t',Returns (f a) t b t') as bs := by
  induction as generalizing bs s with
  | nil =>
    rw [List.mapM_nil,returns_pure] at h
    rw [← h.1]
    exact .nil
  | cons a as ih =>
    simp only [List.mapM_cons,returns_bind,returns_pure] at h
    obtain ⟨b,t,hb,bs',t',hbs,rfl,rfl⟩ := h
    exact .cons ⟨s,t,hb⟩ (ih hbs)

end Stateful

end SolanaM
