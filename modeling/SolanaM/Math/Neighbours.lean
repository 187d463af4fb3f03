import Mathlib.Data.List.Nodup
import Mathlib.Order.Lattice
import Mathlib.Order.Nat

namespace SolanaM.Neighbours

variable {α : Type*}

/-- y directly follows x somewhere in L. -/
def Adjacent (L : List α) (x y : α) : Prop := ∃ i,L[i]? = some x ∧ L[i+1]? = some y

/-- V continues L with copies of L's own tail: the order of L is only ever broken after
a copy of its last element. -/
structure Padded (L V : List α) : Prop where
  pre : L<+:V
  mem : ∀ x∈V,x∈L
  last : V.getLast? = L.getLast?
  step : ∀ i x y,V[i]? = some x → V[i+1]? = some y → Adjacent L x y ∨ L.getLast? = some x

theorem Padded.refl (L : List α) : Padded L L :=
  ⟨List.prefix_refl L,fun _ h => h,rfl,fun i _ _ hx hy => Or.inl ⟨i,hx,hy⟩⟩

theorem Padded.getElem {L V : List α} (h : Padded L V) {i : Nat} {x : α}
    (hx : L[i]? = some x) : V[i]? = some x := by
  obtain ⟨w,rfl⟩ := h.pre
  rw [List.getElem?_append_left (List.getElem?_eq_some_iff.mp hx).1]
  exact hx

/-- Repeating any non-empty suffix keeps the padding shape. -/
theorem Padded.extend {L V b : List α} (h : Padded L V) (hb : b<:+V) (hne : b≠[]) :
    Padded L (V++b) := by
  obtain ⟨w,rfl⟩ := hb
  have hlast : (w++b).getLast? = b.getLast? := by
    simp [List.getLast?_append,List.getLast?_eq_some_getLast hne]
  refine ⟨h.pre.trans (List.prefix_append _ _),?_,?_,?_⟩
  · intro x hx
    rcases List.mem_append.mp hx with hx|hx
    · exact h.mem x hx
    · exact h.mem x (List.mem_append_right w hx)
  · rw [List.getLast?_append,← hlast,Option.or_self]
    exact h.last
  · intro i x y hx hy
    rcases lt_trichotomy (i+1) (w++b).length with hi|hi|hi
    · rw [List.getElem?_append_left (by omega)] at hx
      rw [List.getElem?_append_left hi] at hy
      exact h.step i x y hx hy
    · rw [List.getElem?_append_left (by omega)] at hx
      refine Or.inr ?_
      rw [← h.last,List.getLast?_eq_getElem?,← hi]
      exact hx
    · -- both positions fall into the repeated block
      rw [List.getElem?_append_right (by omega)] at hx hy
      have hs : i+1-(w++b).length=i-(w++b).length+1 := by omega
      rw [hs] at hy
      apply h.step (w.length+(i-(w++b).length)) x y
      · rw [List.getElem?_append_right (by omega),Nat.add_sub_cancel_left]
        exact hx
      · rw [List.getElem?_append_right (by omega)]
        have ho : w.length+(i-(w++b).length)+1-w.length=i-(w++b).length+1 := by omega
        rw [ho]
        exact hy

section Sorted

variable [LinearOrder α] {L : List α}

theorem le_of_getElem (hs : L.Pairwise (·≤·)) {i j : Nat} {x y : α} (hx : L[i]? = some x)
    (hy : L[j]? = some y) (hij : i≤j) : x≤y := by
  obtain ⟨hi,rfl⟩ := List.getElem?_eq_some_iff.mp hx
  obtain ⟨hj,rfl⟩ := List.getElem?_eq_some_iff.mp hy
  rcases hij.lt_or_eq with h|h
  · exact List.pairwise_iff_getElem.mp hs i j hi hj h
  · subst h
    exact le_refl _

theorem head_le (hs : L.Pairwise (·≤·)) {x v : α} (hx : L[0]? = some x) (hv : v∈L) : x≤v := by
  obtain ⟨j,hj⟩ := List.mem_iff_getElem?.mp hv
  exact le_of_getElem hs hx hj (Nat.zero_le j)

theorem le_last (hs : L.Pairwise (·≤·)) {x v : α} (hx : L.getLast? = some x) (hv : v∈L) :
    v≤x := by
  obtain ⟨j,hj⟩ := List.mem_iff_getElem?.mp hv
  rw [List.getLast?_eq_getElem?] at hx
  have hl := (List.getElem?_eq_some_iff.mp hj).1
  exact le_of_getElem hs hj hx (by omega)

/-- Distinct values in ascending order: each stands behind the smaller ones. -/
theorem countP_lt_of_getElem (hs : L.Pairwise (·≤·)) (hn : L.Nodup) {i : Nat} {x : α}
    (hx : L[i]? = some x) : L.countP (fun y => y<x)=i := by
  induction L generalizing i with
  | nil => simp at hx
  | cons a L ih =>
    rw [List.pairwise_cons] at hs
    rw [List.nodup_cons] at hn
    cases i with
    | zero =>
      have ha : a=x := by simpa using hx
      rw [List.countP_eq_zero]
      intro y hy
      have hxy : x≤y := by
        rcases List.mem_cons.mp hy with rfl|hy
        · exact ha.ge
        · exact ha ▸ hs.1 y hy
      simpa using hxy
    | succ i =>
      have hx' : L[i]? = some x := by simpa using hx
      have hmem := List.mem_of_getElem? hx'
      have hax : a<x := lt_of_le_of_ne (hs.1 x hmem) (fun h => hn.1 (h ▸ hmem))
      simp [hax,ih hs.2 hn.2 hx']

/-- The greatest of distinct values in ascending order stands last. -/
theorem last_position_iff_max (hs : L.Pairwise (·≤·)) (hn : L.Nodup) {i : Nat} {x : α}
    (hx : L[i]? = some x) : i=L.length-1 ↔ ∀ y∈L,y≤x := by
  have hi := (List.getElem?_eq_some_iff.mp hx).1
  constructor
  · intro h y hy
    refine le_last hs ?_ hy
    rw [List.getLast?_eq_getElem?,← h,hx]
  · intro h
    by_contra hne
    have hl : L.length-1<L.length := by omega
    have hlast := List.getElem?_eq_getElem hl
    have hle := h _ (List.mem_of_getElem? hlast)
    have hge := le_of_getElem hs hx hlast (by omega)
    have hsame : L[i]=L[L.length-1] :=
      (List.getElem?_eq_some_iff.mp hx).2.trans (le_antisymm hge hle)
    exact hne ((List.Nodup.getElem_inj_iff hn).mp hsame)

/-- Adjacent members split a sorted list. -/
theorem Adjacent.split (hs : L.Pairwise (·≤·)) {x y z : α} (ha : Adjacent L x y) (hz : z∈L) :
    z≤x ∨ y≤z := by
  obtain ⟨i,hi,hi'⟩ := ha
  obtain ⟨j,hj⟩ := List.mem_iff_getElem?.mp hz
  rcases Nat.lt_or_ge i j with h|h
  · exact Or.inr (le_of_getElem hs hi' hj h)
  · exact Or.inl (le_of_getElem hs hj hi h)

theorem countP_lt_of_lt_head (hs : L.Pairwise (·≤·)) {y v : α} (hy : L[0]? = some y)
    (hvy : v<y) : L.countP (fun z => z<v)=0 := by
  rw [List.countP_eq_zero]
  intro z hz
  have hvz : v≤z := (hvy.trans_le (head_le hs hy hz)).le
  simpa using hvz

/-- A value between two adjacent members has one more below it than stand before the lower. -/
theorem countP_lt_of_between (hs : L.Pairwise (·≤·)) (hn : L.Nodup) {i : Nat} {x y v : α}
    (hx : L[i]? = some x) (hy : L[i+1]? = some y) (hxv : x<v) (hvy : v<y) :
    L.countP (fun z => z<v)=i+1 := by
  rw [← countP_lt_of_getElem hs hn hy]
  apply List.countP_congr
  intro z hz
  have hzv : z<v ↔ z<y := by
    rcases Adjacent.split hs ⟨i,hx,hy⟩ hz with h|h
    · exact iff_of_true (h.trans_lt hxv) (h.trans_lt (hxv.trans hvy))
    · exact iff_of_false (hvy.trans_le h).not_gt h.not_gt
  simp [hzv]

theorem not_mem_of_between (hs : L.Pairwise (·≤·)) {x y v : α} (ha : Adjacent L x y)
    (hx : x<v) (hy : v<y) : v∉L := by
  intro hv
  rcases ha.split hs hv with h|h
  · exact h.not_gt hx
  · exact h.not_gt hy

/-- In a sorted list an absent value between two members has adjacent neighbours. -/
theorem exists_between (hs : L.Pairwise (·≤·)) {v : α} (hv : v∉L) (hlo : ∃ x∈L,x<v)
    (hhi : ∃ y∈L,v<y) :
    ∃ i x y,L[i]? = some x ∧ L[i+1]? = some y ∧ x<v ∧ v<y := by
  induction L with
  | nil => simp at hlo
  | cons a L ih =>
    have hav : a<v := by
      obtain ⟨x,hx,hxv⟩ := hlo
      exact (head_le hs rfl hx).trans_lt hxv
    cases L with
    | nil =>
      obtain ⟨y,hy,hvy⟩ := hhi
      have he : y=a := by simpa using hy
      exact absurd hvy (he ▸ hav.not_gt)
    | cons b L =>
      have hbv : b≠v := fun h => hv (by simp [h])
      rcases lt_or_gt_of_ne hbv with h|h
      · have hhi' : ∃ y∈b::L,v<y := by
          obtain ⟨y,hy,hvy⟩ := hhi
          refine ⟨y,?_,hvy⟩
          rcases List.mem_cons.mp hy with rfl|hy
          · exact absurd hvy hav.not_gt
          · exact hy
        obtain ⟨i,x,y,hx,hy,hxv,hvy⟩ :=
          ih (List.pairwise_cons.mp hs).2 (fun h => hv (List.mem_cons_of_mem a h))
            ⟨b,by simp,h⟩ hhi'
        exact ⟨i+1,x,y,by simpa using hx,by simpa using hy,hxv,hvy⟩
      · exact ⟨0,a,b,rfl,rfl,hav,h⟩

/-- Adjacency in the padded sequence is as good as adjacency in the sorted list. -/
theorem Padded.not_mem_of_between {V : List α} (h : Padded L V) (hs : L.Pairwise (·≤·))
    {i : Nat} {x y v : α} (hx : V[i]? = some x) (hy : V[i+1]? = some y) (hxv : x<v) (hvy : v<y) :
    v∉L := by
  rcases h.step i x y hx hy with ha|hl
  · exact Neighbours.not_mem_of_between hs ha hxv hvy
  · -- x is the largest element, so nothing larger can follow it
    have hyx := le_last hs hl (h.mem y (List.mem_of_getElem? hy))
    exact absurd (hxv.trans hvy) hyx.not_gt

end Sorted

end SolanaM.Neighbours
