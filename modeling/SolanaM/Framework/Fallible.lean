import Mathlib.Data.List.Forall2

namespace SolanaM

/-- A sequence of fallible steps succeeds exactly when each does. -/
theorem bind_eq_ok {ε α β : Type} {x : Except ε α} {f : α → Except ε β} {b : β} :
    (x >>= f)=.ok b ↔ ∃ a,x=.ok a ∧ f a=.ok b := by
  cases x with
  | error e => exact ⟨nofun,fun ⟨_,h,_⟩ => nomatch h⟩
  | ok a => exact ⟨fun h => ⟨a,rfl,h⟩,fun ⟨_,h,hf⟩ => by cases h; exact hf⟩

theorem bind_of_ok {ε α β : Type} {x : Except ε α} {a : α} (h : x=.ok a) (f : α → Except ε β) :
    (x >>= f)=f a := by
  rw [h]
  rfl

theorem mapError_eq_ok {ε ε' α : Type} {x : Except ε α} {f : ε → ε'} {a : α} :
    x.mapError f=.ok a ↔ x=.ok a := by
  cases x with
  | error e => exact ⟨nofun,nofun⟩
  | ok b => exact ⟨fun h => congrArg _ (Except.ok.inj h),fun h => congrArg _ (Except.ok.inj h)⟩

/-- What a loop collects, element by element. -/
theorem forall₂_of_mapM {ε α β : Type} {f : α → Except ε β} {as : List α} {bs : List β}
    (h : as.mapM f=.ok bs) : List.Forall₂ (fun a b => f a=.ok b) as bs := by
  induction as generalizing bs with
  | nil =>
    rw [List.mapM_nil] at h
    rw [← Except.ok.inj h]
    exact .nil
  | cons a as ih =>
    simp only [List.mapM_cons,bind_eq_ok] at h
    obtain ⟨b,hb,bs',hbs,h⟩ := h
    rw [← Except.ok.inj h]
    exact .cons hb (ih hbs)

/-- One more step of a run that has not failed so far. -/
theorem foldlM_take_succ {ε A S : Type} {f : S → A → Except ε S} {as : List A} {s s' : S} {j : Nat}
    (hj : j<as.length) (h : (as.take j).foldlM f s=.ok s') :
    (as.take (j+1)).foldlM f s=f s' as[j] := by
  rw [List.take_succ_eq_append_getElem hj,List.foldlM_append,h]
  show [as[j]].foldlM f s'=f s' as[j]
  simp

theorem exists_forall₂ {α β : Type} {R : α → β → Prop} {as : List α} (h : ∀ a∈as,∃ b,R a b) :
    ∃ bs,List.Forall₂ R as bs := by
  induction as with
  | nil => exact ⟨[],.nil⟩
  | cons a as ih =>
    obtain ⟨b,hb⟩ := h a (by simp)
    obtain ⟨bs,hbs⟩ := ih fun c hc => h c (by simp [hc])
    exact ⟨b::bs,.cons hb hbs⟩

theorem exists_of_mem_forall₂ {α β : Type} {R : α → β → Prop} {as : List α} {bs : List β}
    (h : List.Forall₂ R as bs) {a : α} (ha : a∈as) : ∃ b∈bs,R a b := by
  induction h with
  | nil => exact absurd ha List.not_mem_nil
  | cons hab _ ih =>
    rcases List.mem_cons.mp ha with rfl|hrest
    · exact ⟨_,List.mem_cons_self,hab⟩
    · obtain ⟨b,hb,hr⟩ := ih hrest
      exact ⟨b,List.mem_cons_of_mem _ hb,hr⟩

section Checked

variable {ε α β : Type} {abort : ε} {long : Prop}

/-- A checked computation is the exact one, or aborts where the inputs are long. -/
def Checked (abort : ε) (long : Prop) (x exact : Except ε α) : Prop :=
  x=.error abort ∧ long ∨ x=exact

theorem Checked.of_eq {x exact : Except ε α} (h : x=exact) : Checked abort long x exact := .inr h

theorem Checked.mono {long' : Prop} (hl : long → long') {x exact : Except ε α}
    (h : Checked abort long x exact) : Checked abort long' x exact :=
  h.imp (And.imp_right hl) id

/-- Steps checked one by one are checked together: the first abort aborts the rest. -/
theorem Checked.bind {x exact : Except ε α} {f g : α → Except ε β}
    (h : Checked abort long x exact)
    (hf : ∀ a,exact=.ok a → Checked abort long (f a) (g a)) :
    Checked abort long (x >>= f) (exact >>= g) := by
  obtain ⟨rfl,hl⟩|rfl := h
  · exact .inl ⟨rfl,hl⟩
  · cases x with
    | error e => exact .inr rfl
    | ok a => exact hf a rfl

/-- A checked step whose exact value is known. -/
theorem Checked.step {x : Except ε α} {a : α} {f : α → Except ε β} {exact : Except ε β}
    (h : Checked abort long x (.ok a)) (hf : Checked abort long (f a) exact) :
    Checked abort long (x >>= f) exact := by
  obtain ⟨rfl,hl⟩|rfl := h
  · exact .inl ⟨rfl,hl⟩
  · exact hf

end Checked

section Loop

variable {S A B : Type} (read : A → Option B) (write : S → B → S)
  {loop : List A → S → Option S} (hnil : ∀ s,loop [] s=some s)
  (hcons : ∀ a as s,loop (a::as) s=(read a).bind fun b => loop as (write s b))

include hnil hcons

/-- A loop that may fail to read an element, but not to write what it has read. -/
theorem loop_eq_some {as : List A} {s s' : S} :
    loop as s=some s' ↔
      ∃ bs,List.Forall₂ (fun a b => read a=some b) as bs ∧ bs.foldl write s=s' := by
  induction as generalizing s with
  | nil => simp [hnil]
  | cons a as ih =>
    simp only [hcons,Option.bind_eq_some_iff,ih,List.forall₂_cons_left_iff]
    constructor
    · intro h
      obtain ⟨b,hb,bs,hbs,hw⟩ := h
      exact ⟨b::bs,⟨b,bs,hb,hbs,rfl⟩,hw⟩
    · intro h
      obtain ⟨_,⟨b,bs,hb,hbs,rfl⟩,hw⟩ := h
      exact ⟨b,hb,bs,hbs,hw⟩

theorem loop_isSome {as : List A} (h : ∀ a∈as,∃ b,read a=some b) (s : S) :
    ∃ s',loop as s=some s' := by
  obtain ⟨bs,hbs⟩ := exists_forall₂ h
  exact ⟨_,(loop_eq_some read write hnil hcons).mpr ⟨bs,hbs,rfl⟩⟩

end Loop

section Together

variable {α β γ δ : Type} {R : α → β → Prop} {Q : γ → δ → Prop}

/-- Computations that fail together, step after step, fail together. -/
theorem rel_bind {x : Option α} {y : Option β} {f : α → Option γ} {g : β → Option δ}
    (h : Option.Rel R x y) (hf : ∀ a b,R a b → Option.Rel Q (f a) (g b)) :
    Option.Rel Q (x >>= f) (y >>= g) := by
  cases h with
  | none => exact .none
  | some hab => exact hf _ _ hab

theorem rel_bind_same (x : Option α) {f : α → Option γ} {g : α → Option δ}
    (hf : ∀ a,x=some a → Option.Rel Q (f a) (g a)) : Option.Rel Q (x >>= f) (x >>= g) := by
  cases x with
  | none => exact .none
  | some a => exact hf a rfl

end Together

end SolanaM
