import Mathlib.Data.List.Perm.Basic
import Mathlib.Data.List.Forall2

namespace SolanaM.Tables

variable {A B K : Type} [DecidableEq K] (f : A → K) (g : B → K)

/-- The equi-join of two tables: a row of the first with each row of the second of its key. -/
def join (as : List A) (bs : List B) : List (A × B) :=
  as.flatMap fun a => (bs.filter fun b => g b=f a).map fun b => (a,b)

variable {f g}

/-- The order in which the tables are stored shows in the order of the answer alone. -/
theorem join_perm {as as' : List A} {bs bs' : List B} (ha : as.Perm as') (hb : bs.Perm bs') :
    (join f g as bs).Perm (join f g as' bs') := by
  apply List.Perm.flatMap ha
  intro a _
  apply List.Perm.map
  exact hb.filter _

theorem join_filter (p : A → Bool) (as : List A) (bs : List B) :
    join f g (as.filter p) bs=(join f g as bs).filter fun d => p d.1 := by
  induction as with
  | nil => rfl
  | cons a as ih =>
    simp only [join,List.flatMap_cons,List.filter_append,List.filter_map] at ih ⊢
    rw [← ih]
    by_cases hp : p a=true
    · simp [hp,Function.comp_def]
    · simp [hp,Function.comp_def]

/-- All rows refer to the one row there is. -/
theorem join_one {as : List A} {b : B} (h : ∀ a∈as,g b=f a) :
    join f g as [b]=as.map fun a => (a,b) := by
  induction as with
  | nil => rfl
  | cons a as ih =>
    have hrest := ih fun a ha => h a (List.mem_cons_of_mem _ ha)
    rw [join] at hrest ⊢
    rw [List.flatMap_cons,hrest]
    simp [h a List.mem_cons_self]

/-- Rows without a partner in the second table do not count. -/
theorem join_append_right {as : List A} {bs cs : List B} (h : ∀ a∈as,∀ c∈cs,g c≠f a) :
    join f g as (bs++cs)=join f g as bs ∧ join f g as (cs++bs)=join f g as bs := by
  have hnone : ∀ a∈as,cs.filter (fun c => g c=f a)=[] := by
    intro a ha
    rw [List.filter_eq_nil_iff]
    intro c hc
    simpa using h a ha c hc
  constructor
  all_goals
    apply List.flatMap_congr
    intro a ha
    rw [List.filter_append,hnone a ha]
    simp

/-- No row of either part refers to the other one. -/
def Apart (f : A → K) (g : B → K) (as cs : List A) (bs ds : List B) : Prop :=
  (∀ a∈as,∀ d∈ds,g d≠f a) ∧ ∀ c∈cs,∀ b∈bs,g b≠f c

theorem join_append {as cs : List A} {bs ds : List B} (h : Apart f g as cs bs ds) :
    join f g (as++cs) (bs++ds)=join f g as bs++join f g cs ds := by
  have hsplit : join f g (as++cs) (bs++ds)=join f g as (bs++ds)++join f g cs (bs++ds) := by
    rw [join,List.flatMap_append]
    rfl
  rw [hsplit,(join_append_right h.1).1,(join_append_right h.2).2]

/-- Tables made of parts that keep to themselves are joined part by part. -/
theorem join_parts {P : Type} {as : P → List A} {bs : P → List B} {parts : List P}
    (h : parts.Pairwise fun p q => Apart f g (as p) (as q) (bs p) (bs q)) :
    join f g (parts.flatMap as) (parts.flatMap bs)=
      parts.flatMap fun p => join f g (as p) (bs p) := by
  induction h with
  | nil => rfl
  | @cons p rest hp _ ih =>
    rw [List.flatMap_cons,List.flatMap_cons,List.flatMap_cons,← ih]
    apply join_append
    constructor
    · intro a ha d hd
      obtain ⟨q,hq,hd⟩ := List.mem_flatMap.mp hd
      exact (hp q hq).1 a ha d hd
    · intro c hc b hb
      obtain ⟨q,hq,hc⟩ := List.mem_flatMap.mp hc
      exact (hp q hq).2 c hc b hb

variable {C : Type} {R : A → C → Prop}

/-- The documents stand for the rows of a table, in whatever order they are stored. -/
def Shows (R : A → C → Prop) (documents : List A) (rows : List C) : Prop :=
  ∃ listed,documents.Perm listed ∧ List.Forall₂ R listed rows

theorem shows_of_forall₂ {documents : List A} {rows : List C}
    (h : List.Forall₂ R documents rows) : Shows R documents rows :=
  ⟨documents,List.Perm.refl documents,h⟩

theorem Shows.perm {documents stored : List A} {rows : List C} (h : Shows R documents rows)
    (hp : stored.Perm documents) : Shows R stored rows := by
  obtain ⟨listed,hlisted,hrows⟩ := h
  exact ⟨listed,hp.trans hlisted,hrows⟩

theorem Shows.append {documents documents' : List A} {rows rows' : List C}
    (h : Shows R documents rows) (h' : Shows R documents' rows') :
    Shows R (documents++documents') (rows++rows') := by
  obtain ⟨listed,hp,hrows⟩ := h
  obtain ⟨listed',hp',hrows'⟩ := h'
  exact ⟨listed++listed',hp.append hp',List.rel_append hrows hrows'⟩

theorem Shows.flatMap {P Q : Type} {f : P → List A} {g : Q → List C} {ps : List P} {qs : List Q}
    (h : List.Forall₂ (fun p q => Shows R (f p) (g q)) ps qs) :
    Shows R (ps.flatMap f) (qs.flatMap g) := by
  induction h with
  | nil => exact shows_of_forall₂ .nil
  | cons hp _ ih =>
    rw [List.flatMap_cons,List.flatMap_cons]
    exact hp.append ih

theorem Shows.filter {documents : List A} {rows : List C} (h : Shows R documents rows)
    {p : A → Bool} {q : C → Bool} (hpq : ∀ a c,R a c → p a=q c) :
    Shows R (documents.filter p) (rows.filter q) := by
  obtain ⟨listed,hlisted,hrows⟩ := h
  refine ⟨listed.filter p,hlisted.filter p,?_⟩
  apply List.rel_filter _ hrows
  intro a c hac
  show p a=true ↔ q c=true
  rw [hpq a c hac]

/-- Whatever order the documents are in, there is one of the rows to match. -/
theorem Shows.listed {documents : List A} {rows : List C} (h : Shows R documents rows) :
    ∃ arranged,arranged.Perm rows ∧ List.Forall₂ R documents arranged := by
  obtain ⟨listed,hlisted,hrows⟩ := h
  obtain ⟨arranged,harranged,hperm⟩ := List.perm_comp_forall₂ hlisted hrows
  exact ⟨arranged,hperm,harranged⟩

end SolanaM.Tables
