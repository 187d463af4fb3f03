import Mathlib.Algebra.Order.Field.Basic
import Mathlib.Tactic.FieldSimp
import Mathlib.Tactic.Ring
import Mathlib.Tactic.Linarith

namespace SolanaM.Accrual

variable {K : Type*} [Field K]

/-- Exact yield on a balance b over an index growing from i to j, on top of the yield so far. -/
def grow (i y b j : K) : K := (y+b)*j/i-b

/-- The yield over successive balances and indices, starting from index i with yield y. -/
def accrue (i y : K) : List (K×K) → K
  | [] => y
  | (b,j)::rest => accrue j (grow i y b j) rest

@[simp] theorem accrue_nil (i y : K) : accrue i y []=y := rfl

@[simp] theorem accrue_cons (i y b j : K) (rest : List (K×K)) :
    accrue i y ((b,j)::rest)=accrue j (grow i y b j) rest := rfl

/-- A step that repeats the index pays nothing. -/
theorem grow_same (i y b : K) (hi : i≠0) : grow i y b i=y := by
  rw [grow,mul_div_assoc,div_self hi,mul_one,add_sub_cancel_right]

variable [LinearOrder K] [IsStrictOrderedRing K]

/-- Positive indices that never fall, with balances that are not negative. -/
def Rising (i : K) : List (K×K) → Prop
  | [] => 0 < i
  | (b,j)::rest => 0 < i ∧ 0≤b ∧ i≤j ∧ Rising j rest

theorem grow_mono {i j : K} (hi : 0 < i) (hj : 0≤j) (b : K) {y z : K} (h : y≤z) :
    grow i y b j≤grow i z b j := by
  unfold grow
  gcongr

theorem le_grow {i j y b : K} (hi : 0 < i) (hij : i≤j) (hb : 0≤b) (hy : 0≤y) : y≤grow i y b j := by
  have h : (y+b)*i≤(y+b)*j := mul_le_mul_of_nonneg_left hij (add_nonneg hy hb)
  have hd : y+b≤(y+b)*j/i := (le_div_iff₀ hi).mpr h
  unfold grow
  linarith

/-- Yield never falls. -/
theorem le_accrue {i : K} {l : List (K×K)} (h : Rising i l) {y : K} (hy : 0≤y) :
    y≤accrue i y l := by
  induction l generalizing i y with
  | nil => exact le_refl y
  | cons p l ih =>
    have hstep := le_grow h.1 h.2.2.1 h.2.1 hy
    exact hstep.trans (ih h.2.2.2 (hy.trans hstep))

/-- The index the list ends at. -/
def finalIndex (i : K) : List (K×K) → K
  | [] => i
  | (_,j)::rest => finalIndex j rest

/-- Balances of at most c earn at most what c earns from the index k the yield counts from. -/
theorem accrue_le_of_balance_le {i k c y : K} {l : List (K×K)} (h : Rising i l) (hk : 0 < k)
    (hc : ∀ p∈l,p.1 ≤ c) (hy : y ≤ c*(i/k-1)) : accrue i y l ≤ c*(finalIndex i l/k-1) := by
  induction l generalizing i y with
  | nil => exact hy
  | cons p l ih =>
    obtain ⟨hi,_,hij,hrest⟩ := h
    refine ih hrest (fun q hq => hc q (by simp [hq])) ?_
    have hb : p.1 ≤ c := hc p (by simp)
    have hj : 0≤p.2 := hi.le.trans hij
    have hgap : 0≤p.2/i-1 := by
      have hone : 1≤p.2/i := (one_le_div hi).mpr hij
      linarith
    have hgrow : (c*(i/k-1)+p.1)*p.2/i-p.1=c*(p.2/k-p.2/i)+p.1*(p.2/i-1) := by
      field_simp
      ring
    calc grow i y p.1 p.2 ≤ grow i (c*(i/k-1)) p.1 p.2 := grow_mono hi hj p.1 hy
      _ = c*(p.2/k-p.2/i)+p.1*(p.2/i-1) := hgrow
      _ ≤ c*(p.2/k-p.2/i)+c*(p.2/i-1) := by gcongr
      _ = c*(p.2/k-1) := by ring

/-- One step of the recurrence on integers, rounded down. -/
def growDown (i y b j : ℤ) : ℤ := (y+b)*j/i-b

def accrueDown (i y : ℤ) : List (ℤ×ℤ) → ℤ
  | [] => y
  | (b,j)::rest => accrueDown j (growDown i y b j) rest

def castPoints (K : Type*) [Field K] (l : List (ℤ×ℤ)) : List (K×K) :=
  l.map fun p => ((p.1 : K),(p.2 : K))

theorem growDown_nonneg {i y b j : ℤ} (hi : 0 < i) (hij : i≤j) (hb : 0≤b) (hy : 0≤y) :
    0≤growDown i y b j := by
  have hup : (y+b)*i≤(y+b)*j := mul_le_mul_of_nonneg_left hij (by omega)
  have hdiv : y+b≤(y+b)*j/i := Int.le_ediv_of_mul_le hi hup
  unfold growDown
  omega

theorem cast_growDown_le {i : ℤ} (hi : 0 < i) (y b j : ℤ) :
    (growDown i y b j : K)≤grow (i : K) y b j := by
  have hi' : (0 : K) < i := by exact_mod_cast hi
  have hmul : (((y+b)*j/i*i : ℤ) : K)≤(((y+b)*j : ℤ) : K) := by
    exact_mod_cast Int.ediv_mul_le _ hi.ne'
  have hdiv : (((y+b)*j/i : ℤ) : K)≤((y : K)+b)*j/i := by
    rw [le_div_iff₀ hi']
    exact_mod_cast hmul
  rw [growDown,grow,Int.cast_sub]
  linarith

theorem grow_lt_cast_growDown {i : ℤ} (hi : 0 < i) (y b j : ℤ) :
    grow (i : K) y b j<growDown i y b j+1 := by
  have hi' : (0 : K) < i := by exact_mod_cast hi
  have hmul : (((y+b)*j : ℤ) : K)<((((y+b)*j/i+1)*i : ℤ) : K) := by
    exact_mod_cast Int.lt_ediv_add_one_mul_self _ hi
  have hdiv : ((y : K)+b)*j/i<(((y+b)*j/i : ℤ) : K)+1 := by
    rw [div_lt_iff₀ hi']
    exact_mod_cast hmul
  rw [growDown,grow,Int.cast_sub]
  linarith

/-- Rounding down keeps the yield from falling below zero and never adds to it. -/
theorem accrueDown_le {i y : ℤ} {l : List (ℤ×ℤ)} {x : K}
    (h : Rising (i : K) (castPoints K l)) (hy : 0≤y) (hx : (y : K)≤x) :
    0≤accrueDown i y l ∧ (accrueDown i y l : K)≤accrue (i : K) x (castPoints K l) := by
  induction l generalizing i y x with
  | nil => exact ⟨hy,hx⟩
  | cons p l ih =>
    obtain ⟨hi,hb,hij,hrest⟩ := h
    have hi' : 0 < i := by exact_mod_cast hi
    have hstep : (growDown i y p.1 p.2 : K)≤grow (i : K) x p.1 p.2 :=
      (cast_growDown_le hi' y p.1 p.2).trans (grow_mono hi (hi.le.trans hij) (p.1 : K) hx)
    exact ih hrest (growDown_nonneg hi' (by exact_mod_cast hij) (by exact_mod_cast hb) hy) hstep

/-- Each rounding loses less than one, and what it loses grows with the later indices. -/
theorem accrue_sub_accrueDown_le {i y : ℤ} {l : List (ℤ×ℤ)} {x e : K}
    (h : Rising (i : K) (castPoints K l)) (hx : x-y≤e) :
    let n := finalIndex (i : K) (castPoints K l)
    let bound := e*n/i+((castPoints K l).map fun p => n/p.2).sum
    accrue (i : K) x (castPoints K l)-accrueDown i y l≤bound ∧
      (l≠[] → accrue (i : K) x (castPoints K l)-accrueDown i y l<bound) := by
  induction l generalizing i y x e with
  | nil =>
    have hi : (i : K)≠0 := (show (0 : K) < i from h).ne'
    simpa [castPoints,finalIndex,accrueDown,hi] using hx
  | cons p l ih =>
    obtain ⟨hi,_,hij,hrest⟩ := h
    have hi' : 0 < i := by exact_mod_cast hi
    have hj : (0 : K)<p.2 := hi.trans_le hij
    have hround := grow_lt_cast_growDown (K := K) hi' y p.1 p.2
    have hgrown : grow (i : K) x p.1 p.2-grow (i : K) y p.1 p.2=(x-y)*p.2/i := by
      unfold grow
      ring
    have hcarried : (x-y)*p.2/i≤e*p.2/i := by gcongr
    have hstep : grow (i : K) x p.1 p.2-growDown i y p.1 p.2<e*p.2/i+1 := by linarith
    obtain ⟨hle,hlt⟩ := ih hrest hstep.le
    have hbound : (e*p.2/i+1)*finalIndex (p.2 : K) (castPoints K l)/p.2+
          ((castPoints K l).map fun q => finalIndex (p.2 : K) (castPoints K l)/q.2).sum=
        e*finalIndex (p.2 : K) (castPoints K l)/i+((castPoints K (p::l)).map fun q =>
          finalIndex (p.2 : K) (castPoints K l)/q.2).sum := by
      simp only [castPoints,List.map_cons,List.sum_cons]
      field_simp
      ring
    refine ⟨hle.trans_eq hbound,fun _ => ?_⟩
    by_cases hl : l=[]
    · subst hl
      refine hstep.trans_eq ?_
      simp [castPoints,finalIndex,hj.ne']
    · exact (hlt hl).trans_eq hbound

end SolanaM.Accrual
