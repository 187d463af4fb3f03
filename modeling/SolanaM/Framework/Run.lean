import Mathlib.Data.List.Induction
import Mathlib.Data.List.Perm.Basic

namespace SolanaM

/-- A transition function whose failing actions are rolled back; a successful one may emit
outputs. -/
structure Machine (S A F E : Type*) where
  step : S → A → Except F (S×List E)

namespace Machine

variable {S A F E : Type*} (m : Machine S A F E)

def exec (s : S) (a : A) : S :=
  match m.step s a with
  | .ok (s',_) => s'
  | .error _ => s

def emitted (s : S) (a : A) : List E :=
  match m.step s a with
  | .ok (_,es) => es
  | .error _ => []

def run (s : S) (as : List A) : S := as.foldl m.exec s

/-- Everything emitted along a run, oldest first. -/
def outputs (s : S) : List A → List E
  | [] => []
  | a::as => m.emitted s a++outputs (m.exec s a) as

@[simp] theorem run_nil (s : S) : m.run s []=s := rfl

@[simp] theorem run_cons (s : S) (a : A) (as : List A) :
    m.run s (a::as)=m.run (m.exec s a) as := rfl

theorem run_append (s : S) (as bs : List A) : m.run s (as++bs)=m.run (m.run s as) bs :=
  List.foldl_append

theorem exec_of_ok {s s' : S} {a : A} {es : List E} (h : m.step s a=.ok (s',es)) :
    m.exec s a=s' := by
  simp only [exec,h]

theorem exec_of_error {s : S} {a : A} {f : F} (h : m.step s a=.error f) : m.exec s a=s := by
  simp only [exec,h]

theorem emitted_of_ok {s s' : S} {a : A} {es : List E} (h : m.step s a=.ok (s',es)) :
    m.emitted s a=es := by
  simp only [emitted,h]

theorem emitted_of_error {s : S} {a : A} {f : F} (h : m.step s a=.error f) :
    m.emitted s a=[] := by
  simp only [emitted,h]

/-- What successful steps preserve, every action preserves. -/
theorem exec_invariant {I : S → Prop} {s : S} {a : A}
    (hstep : ∀ s' es,m.step s a=.ok (s',es) → I s') (hs : I s) : I (m.exec s a) := by
  cases h : m.step s a with
  | error f => rw [m.exec_of_error h]; exact hs
  | ok p => rw [m.exec_of_ok h]; exact hstep p.1 p.2 h

/-- What the successful steps of allowed actions preserve holds along every run of such actions. -/
theorem run_invariant_of {I : S → Prop} {allowed : A → Prop}
    (hstep : ∀ s a s' es,allowed a → I s → m.step s a=.ok (s',es) → I s') (s : S) (as : List A)
    (has : ∀ a∈as,allowed a) (hs : I s) : I (m.run s as) := by
  induction as generalizing s with
  | nil => exact hs
  | cons a as ih =>
    apply ih (m.exec s a) (fun b hb => has b (by simp [hb]))
    exact m.exec_invariant (fun s' es h => hstep s a s' es (has a (by simp)) hs h) hs

/-- What successful steps preserve holds along every run. -/
theorem run_invariant {I : S → Prop}
    (hstep : ∀ s a s' es,I s → m.step s a=.ok (s',es) → I s') (s : S) (as : List A) (hs : I s) :
    I (m.run s as) :=
  m.run_invariant_of (fun s a s' es (_ : True) => hstep s a s' es) s as (fun _ _ => trivial) hs

/-- What actions preserve as long as P lasts holds at the end of a run on which P lasts. -/
theorem run_invariant_while {I P : S → Prop}
    (hstep : ∀ s a,I s → P s → P (m.exec s a) → I (m.exec s a)) (s : S) (as : List A) (hs : I s)
    (hP : ∀ mid,mid<+:as → P (m.run s mid)) : I (m.run s as) := by
  induction as generalizing s with
  | nil => exact hs
  | cons a as ih =>
    have h0 : P s := hP [] List.nil_prefix
    have h1 : P (m.exec s a) := hP [a] ⟨as,rfl⟩
    refine ih (m.exec s a) (hstep s a hs h0 h1) ?_
    intro mid hm
    exact hP (a::mid) (List.prefix_cons_inj a |>.mpr hm)

/-- A property that holds after a run and not before it was brought about by one action of the
run, and has held ever since that action. -/
theorem exists_last_rise (P : S → Prop) (s : S) (as : List A) (h0 : ¬P s) (h1 : P (m.run s as)) :
    ∃ pre a post,as=pre++a::post ∧ ¬P (m.run s pre) ∧
      ∀ mid,mid<+:post → P (m.run s (pre++a::mid)) := by
  induction as using List.reverseRecOn with
  | nil => exact absurd h1 h0
  | append_singleton as a ih =>
    by_cases hp : P (m.run s as)
    · obtain ⟨pre,b,post,rfl,hn,hmid⟩ := ih hp
      refine ⟨pre,b,post++[a],by simp,hn,?_⟩
      intro mid hm
      rcases List.prefix_concat_iff.mp hm with rfl|hm
      · rw [List.append_assoc] at h1
        exact h1
      · exact hmid mid hm
    · refine ⟨as,a,[],rfl,hp,?_⟩
      intro mid hm
      rw [List.prefix_nil.mp hm]
      exact h1

/-- If any two actions commute in every state that satisfies an invariant, a run depends only
on which actions it contains. -/
theorem run_perm {I : S → Prop} (hI : ∀ s a,I s → I (m.exec s a))
    (hcomm : ∀ s a b,I s → m.exec (m.exec s a) b=m.exec (m.exec s b) a) {as bs : List A}
    (hp : as.Perm bs) (s : S) (hs : I s) : m.run s as=m.run s bs := by
  induction hp generalizing s with
  | nil => rfl
  | cons a _ ih => exact ih (m.exec s a) (hI s a hs)
  | swap a b as => simp only [run_cons,hcomm s b a hs]
  | trans _ _ ih1 ih2 => exact (ih1 s hs).trans (ih2 s hs)

section View

variable {V : Type*} [DecidableEq V]

/-- How many actions of the run change what view shows. -/
def changes (view : S → V) (s : S) : List A → Nat
  | [] => 0
  | a::as => (if view (m.exec s a)=view s then 0 else 1)+changes view (m.exec s a) as

end View

section Simulation

variable {S' A' F' E' : Type*} {m : Machine S A F E} {m' : Machine S' A' F' E'} {I : S → Prop}
  {allowed : A → Prop} {view : S → S'} {f : A → A'}
  (hI : ∀ s a,allowed a → I s → I (m.exec s a))
  (hsim : ∀ s a,allowed a → I s → view (m.exec s a)=m'.exec (view s) (f a))

include hI hsim

/-- A machine whose actions look like those of a second one runs like it. -/
theorem run_simulation (s : S) (as : List A) (has : ∀ a∈as,allowed a) (hs : I s) :
    I (m.run s as) ∧ view (m.run s as)=m'.run (view s) (as.map f) := by
  induction as generalizing s with
  | nil => exact ⟨hs,rfl⟩
  | cons a as ih =>
    have ha := has a (by simp)
    obtain ⟨hi,hv⟩ := ih (m.exec s a) (fun b hb => has b (by simp [hb])) (hI s a ha hs)
    rw [List.map_cons,run_cons,run_cons,← hsim s a ha hs]
    exact ⟨hi,hv⟩

theorem changes_simulation {V : Type*} [DecidableEq V] (look : S' → V) (s : S) (as : List A)
    (has : ∀ a∈as,allowed a) (hs : I s) :
    m.changes (fun s => look (view s)) s as=m'.changes look (view s) (as.map f) := by
  induction as generalizing s with
  | nil => rfl
  | cons a as ih =>
    have ha := has a (by simp)
    simp only [List.map_cons,changes,hsim s a ha hs]
    rw [ih (m.exec s a) (fun b hb => has b (by simp [hb])) (hI s a ha hs),hsim s a ha hs]

end Simulation

end Machine

end SolanaM
