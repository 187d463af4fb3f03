import Mathlib.Data.List.Forall2
import Mathlib.Data.List.Nodup
import Mathlib.Tactic.Ring

namespace SolanaM.HashTree

variable {V D : Type*}

/-- The two roles of a hash in a tree commitment. -/
structure Hasher (V D : Type*) where
  leaf : V → D
  node : D → D → D

/-- Idealised hashing: both roles are injective and never meet. -/
structure Hasher.CollisionFree (H : Hasher V D) : Prop where
  leaf_inj : ∀ u v,H.leaf u=H.leaf v → u=v
  node_inj : ∀ a b c d,H.node a b=H.node c d → a=c ∧ b=d
  leaf_ne_node : ∀ v a b,H.leaf v≠H.node a b

/-- One authentication step: the sibling and the side it stands on. -/
structure Step (D : Type*) where
  sibling : D
  onRight : Bool

def Step.apply (H : Hasher V D) (d : D) (p : Step D) : D :=
  if p.onRight then H.node d p.sibling else H.node p.sibling d

/-- Hash upwards along a path, leaf level first. -/
def climb (H : Hasher V D) (d : D) (ps : List (Step D)) : D :=
  ps.foldl (Step.apply H) d

/-- Bit i of the position is set exactly when sibling i stands on the left. -/
def pathIndex : List (Step D) → Nat
  | [] => 0
  | p::ps => (if p.onRight then 0 else 1)+2*pathIndex ps

@[simp] theorem climb_nil (H : Hasher V D) (d : D) : climb H d []=d := rfl

@[simp] theorem climb_cons (H : Hasher V D) (d : D) (p : Step D) (ps : List (Step D)) :
    climb H d (p::ps)=climb H (p.apply H d) ps := rfl

theorem climb_append (H : Hasher V D) (d : D) (ps qs : List (Step D)) :
    climb H d (ps++qs)=climb H (climb H d ps) qs := List.foldl_append

theorem pathIndex_append (ps : List (Step D)) (p : Step D) :
    pathIndex (ps++[p])=pathIndex ps+(if p.onRight then 0 else 2^ps.length) := by
  induction ps with
  | nil => simp [pathIndex]
  | cons q ps ih =>
    simp only [List.cons_append,pathIndex,ih,List.length_cons,pow_succ]
    cases p.onRight
    · simp only [Bool.false_eq_true,if_false]
      ring
    · simp

theorem pathIndex_lt (ps : List (Step D)) : pathIndex ps<2^ps.length := by
  induction ps with
  | nil => simp [pathIndex]
  | cons p ps ih =>
    simp only [pathIndex,List.length_cons,pow_succ]
    split <;> omega

theorem pathIndex_cons_div (p : Step D) (ps : List (Step D)) :
    pathIndex (p::ps)/2=pathIndex ps := by
  rw [pathIndex]
  split <;> omega

/-- The position of a shorter path is the low bits of the longer one's. -/
theorem pathIndex_take (ps : List (Step D)) (j : Nat) :
    pathIndex (ps.take j)=pathIndex ps%2^j := by
  induction ps generalizing j with
  | nil => simp [pathIndex]
  | cons p ps ih =>
    cases j with
    | zero => simp [pathIndex,Nat.mod_one]
    | succ j =>
      rw [pow_succ,Nat.mul_comm (2^j),Nat.mod_mul,pathIndex_cons_div,← ih]
      rw [List.take_succ_cons,pathIndex,pathIndex]
      split <;> omega

theorem testBit_pathIndex (ps : List (Step D)) (j : Nat) :
    (pathIndex ps).testBit j=true ↔ ∃ p,ps[j]? = some p ∧ p.onRight=false := by
  induction ps generalizing j with
  | nil => simp [pathIndex]
  | cons p ps ih =>
    cases j with
    | zero =>
      rw [Nat.testBit_zero,pathIndex]
      cases hp : p.onRight <;> simp [hp]
    | succ j => rw [Nat.testBit_succ,pathIndex_cons_div,ih,List.getElem?_cons_succ]

/-- d commits, by a perfect tree of height k, to exactly the values vs. -/
inductive Spans (H : Hasher V D) : Nat → D → List V → Prop
  | leaf (v : V) : Spans H 0 (H.leaf v) [v]
  | node {k : Nat} {a b : D} {xs ys : List V} (ha : Spans H k a xs) (hb : Spans H k b ys) :
      Spans H (k+1) (H.node a b) (xs++ys)

theorem Spans.length {H : Hasher V D} {k : Nat} {d : D} {vs : List V} (h : Spans H k d vs) :
    vs.length=2^k := by
  induction h with
  | leaf v => rfl
  | node ha hb iha ihb => simp [iha,ihb,pow_succ]; ring

theorem Spans.ne_nil {H : Hasher V D} {k : Nat} {d : D} {vs : List V} (h : Spans H k d vs) :
    vs≠[] := by
  intro hn
  have hl := h.length
  rw [hn,List.length_nil] at hl
  exact (Nat.two_pow_pos k).ne hl

/-- A path that hashes to the root of a perfect tree has the tree's height, whatever
siblings and sides it carries, and its flags name a position holding the value. -/
theorem Spans.sound {H : Hasher V D} (hf : H.CollisionFree) {k : Nat} {d : D} {vs : List V}
    (h : Spans H k d vs) (v : V) (ps : List (Step D)) (hc : climb H (H.leaf v) ps=d) :
    ps.length=k ∧ vs[pathIndex ps]? = some v := by
  induction h generalizing ps with
  | leaf u =>
    rcases List.eq_nil_or_concat ps with rfl|⟨qs,p,rfl⟩
    · have hv := hf.leaf_inj v u hc
      simp [pathIndex,hv]
    · rw [List.concat_eq_append,climb_append,climb_cons,climb_nil,Step.apply] at hc
      split at hc <;> exact absurd hc.symm (hf.leaf_ne_node _ _ _)
  | @node k a b xs ys ha hb iha ihb =>
    rcases List.eq_nil_or_concat ps with rfl|⟨qs,p,rfl⟩
    · exact absurd hc (hf.leaf_ne_node _ _ _)
    · rw [List.concat_eq_append] at hc ⊢
      rw [climb_append,climb_cons,climb_nil,Step.apply] at hc
      rw [pathIndex_append]
      cases hp : p.onRight <;> simp only [hp,if_true,if_false,Bool.false_eq_true] at hc ⊢
      · obtain ⟨hl,hi⟩ := ihb qs (hf.node_inj _ _ _ _ hc).2
        have hx := ha.length
        refine ⟨by simp [hl],?_⟩
        rw [List.getElem?_append_right (by rw [hx,hl]; omega),hx,hl]
        simpa using hi
      · obtain ⟨hl,hi⟩ := iha qs (hf.node_inj _ _ _ _ hc).1
        have hx := ha.length
        have hb := pathIndex_lt qs
        rw [hl] at hb
        refine ⟨by simp [hl],?_⟩
        rw [Nat.add_zero,List.getElem?_append_left (by rw [hx]; exact hb)]
        exact hi

/-- Every position of a perfect tree has an authentication path. -/
theorem Spans.complete {H : Hasher V D} {k : Nat} {d : D} {vs : List V} (h : Spans H k d vs)
    (i : Nat) (v : V) (hi : vs[i]? = some v) :
    ∃ ps : List (Step D),ps.length=k ∧ pathIndex ps=i ∧ climb H (H.leaf v) ps=d := by
  induction h generalizing i with
  | leaf u =>
    obtain ⟨hlt,hu⟩ := List.getElem?_eq_some_iff.mp hi
    have hz : i=0 := by simpa using hlt
    subst i
    exact ⟨[],rfl,rfl,congrArg H.leaf hu.symm⟩
  | @node k a b xs ys ha hb iha ihb =>
    have hx := ha.length
    rcases Nat.lt_or_ge i (2^k) with hlt|hge
    · rw [List.getElem?_append_left (by rw [hx]; exact hlt)] at hi
      obtain ⟨ps,hl,hp,hc⟩ := iha i hi
      refine ⟨ps++[⟨b,true⟩],by simp [hl],by simp [pathIndex_append,hp],?_⟩
      simp [climb_append,hc,Step.apply]
    · rw [List.getElem?_append_right (by rw [hx]; exact hge),hx] at hi
      obtain ⟨ps,hl,hp,hc⟩ := ihb (i-2^k) hi
      refine ⟨ps++[⟨a,false⟩],by simp [hl],?_,?_⟩
      · rw [pathIndex_append,hp,hl]
        simp only [Bool.false_eq_true,if_false]
        omega
      · simp [climb_append,hc,Step.apply]

/-- A root commits to one height and one sequence of values. -/
theorem Spans.unique {H : Hasher V D} (hf : H.CollisionFree) {k l : Nat} {d : D} {vs ws : List V}
    (h : Spans H k d vs) (h' : Spans H l d ws) : k=l ∧ vs=ws := by
  induction h generalizing l ws with
  | leaf v =>
    generalize hd : H.leaf v=d at h'
    cases h' with
    | leaf w =>
      rw [hf.leaf_inj v w hd]
      exact ⟨rfl,rfl⟩
    | node _ _ => exact absurd hd (hf.leaf_ne_node _ _ _)
  | @node k a b xs ys _ _ iha ihb =>
    generalize hd : H.node a b=d at h'
    cases h' with
    | leaf w => exact absurd hd.symm (hf.leaf_ne_node _ _ _)
    | @node l a' b' xs' ys' ha' hb' =>
      obtain ⟨rfl,rfl⟩ := hf.node_inj _ _ _ _ hd
      obtain ⟨hk,hx⟩ := iha ha'
      obtain ⟨_,hy⟩ := ihb hb'
      exact ⟨congrArg Nat.succ hk,by rw [hx,hy]⟩

/-- Parents of a level, pairing a last unpaired node with itself. -/
def parents (H : Hasher V D) : List D → List D
  | [] => []
  | [a] => [H.node a a]
  | a::b::ds => H.node a b::parents H ds

/-- The value blocks that the parents of a level commit to. -/
def mergeBlocks : List (List V) → List (List V)
  | [] => []
  | [xs] => [xs++xs]
  | xs::ys::vss => (xs++ys)::mergeBlocks vss

theorem parents_length (H : Hasher V D) (ds : List D) :
    (parents H ds).length=(ds.length+1)/2 := by
  induction ds using parents.induct with
  | case1 => simp [parents]
  | case2 a => simp [parents]
  | case3 a b ds ih => simp only [parents,List.length_cons,ih]; omega

theorem parents_spans (H : Hasher V D) (k : Nat) (ds : List D) (vss : List (List V))
    (h : List.Forall₂ (Spans H k) ds vss) :
    List.Forall₂ (Spans H (k+1)) (parents H ds) (mergeBlocks vss) := by
  induction ds using parents.induct generalizing vss with
  | case1 => cases h; exact .nil
  | case2 a =>
    rcases h with _|⟨ha,_|_⟩
    exact .cons (.node ha ha) .nil
  | case3 a b ds ih =>
    rcases h with _|⟨ha,_|⟨hb,ht⟩⟩
    exact .cons (.node ha hb) (ih _ ht)

/-- Merging blocks keeps the value sequence, up to one repeated last block. -/
theorem mergeBlocks_flatten (vss : List (List V)) :
    (mergeBlocks vss).flatten=vss.flatten ∨
      ∃ b,vss.getLast? = some b ∧ (mergeBlocks vss).flatten=vss.flatten++b := by
  induction vss using mergeBlocks.induct with
  | case1 => exact Or.inl rfl
  | case2 xs => exact Or.inr ⟨xs,rfl,by simp [mergeBlocks]⟩
  | case3 xs ys vss ih =>
    rcases ih with h|⟨b,hb,h⟩
    · exact Or.inl (by simp [mergeBlocks,h])
    · refine Or.inr ⟨b,?_,by simp [mergeBlocks,h]⟩
      cases vss with
      | nil => simp at hb
      | cons z zs => simpa using hb

/-- An even number of blocks merges without repetition. -/
theorem mergeBlocks_flatten_of_even (vss : List (List V)) (h : vss.length%2=0) :
    (mergeBlocks vss).flatten=vss.flatten := by
  induction vss using mergeBlocks.induct with
  | case1 => rfl
  | case2 xs => simp at h
  | case3 xs ys vss ih =>
    have hrest : vss.length%2=0 := by
      rw [List.length_cons,List.length_cons] at h
      omega
    simp [mergeBlocks,ih hrest]

/-- The values stand in pairs, and no pair is a value and its copy. -/
def PairsDiffer : List V → Prop
  | [] => True
  | [_] => False
  | v::w::vs => v≠w ∧ PairsDiffer vs

theorem PairsDiffer.of_nodup (vs : List V) (hn : vs.Nodup) (h : vs.length%2=0) :
    PairsDiffer vs := by
  induction vs using PairsDiffer.induct with
  | case1 => trivial
  | case2 v => simp at h
  | case3 v w vs ih =>
    rw [List.length_cons,List.length_cons] at h
    rw [List.nodup_cons,List.nodup_cons] at hn
    have hvw : v≠w := by
      rintro rfl
      exact hn.1 (List.mem_cons_self)
    exact ⟨hvw,ih hn.2.2 (by omega)⟩

theorem PairsDiffer.append {vs ws : List V} (h : PairsDiffer vs) (h' : PairsDiffer ws) :
    PairsDiffer (vs++ws) := by
  induction vs using PairsDiffer.induct with
  | case1 => exact h'
  | case2 v => exact absurd h id
  | case3 v w vs ih => exact ⟨h.1,ih h.2⟩

theorem PairsDiffer.of_append {vs ws : List V} (hl : vs.length%2=0) (h : PairsDiffer (vs++ws)) :
    PairsDiffer ws := by
  induction vs using PairsDiffer.induct with
  | case1 => exact h
  | case2 v => simp at hl
  | case3 v w vs ih =>
    rw [List.length_cons,List.length_cons] at hl
    exact ih (by omega) h.2

theorem PairsDiffer.length {vs : List V} (h : PairsDiffer vs) : vs.length%2=0 := by
  induction vs using PairsDiffer.induct with
  | case1 => rfl
  | case2 v => exact absurd h id
  | case3 v w vs ih =>
    have hl := ih h.2
    rw [List.length_cons,List.length_cons]
    omega

/-- Parent i is the node over the pair that contains position j, for i=j/2. -/
theorem parents_getElem (H : Hasher V D) (ds : List D) (j : Nat) (d : D) (hj : ds[j]? = some d) :
    (parents H ds)[j/2]? =
      some (if j%2=0 then H.node d ((ds[j+1]?).getD d) else H.node ((ds[j-1]?).getD d) d) := by
  induction ds using parents.induct generalizing j with
  | case1 => simp at hj
  | case2 a =>
    obtain ⟨hlt,rfl⟩ := List.getElem?_eq_some_iff.mp hj
    have hz : j=0 := by simpa using hlt
    subst j
    simp [parents]
  | case3 a b ds ih =>
    match j with
    | 0 => simp at hj; simp [parents,hj]
    | 1 => simp at hj; simp [parents,hj]
    | j+2 =>
      have hj' : ds[j]? = some d := by simpa using hj
      have hd : (j+2)/2=j/2+1 := by omega
      have hm : (j+2)%2=j%2 := by omega
      rw [hd,hm,parents,List.getElem?_cons_succ,ih j hj']
      rcases Nat.mod_two_eq_zero_or_one j with h|h
      · simp [h]
      · obtain ⟨i,rfl⟩ : ∃ i,j=i+1 := ⟨j-1,by omega⟩
        simp [h]

/-- Distinct nodes in the even positions already make the parents distinct. -/
theorem parents_nodup (H : Hasher V D) (hf : H.CollisionFree) (ds : List D)
    (hn : ∀ i j d,ds[2*i]? = some d → ds[2*j]? = some d → i=j) : (parents H ds).Nodup := by
  rw [List.nodup_iff_injective_get]
  intro ⟨i,hi⟩ ⟨j,hj⟩ he
  have left (m : Nat) (hm : m<(parents H ds).length) :
      ∃ d c,ds[2*m]? = some d ∧ (parents H ds)[m]=H.node d c := by
    have hlen : 2*m<ds.length := by rw [parents_length] at hm; omega
    have hg := parents_getElem H ds (2*m) _ (List.getElem?_eq_getElem hlen)
    have hd : 2*m/2=m := by omega
    have hz : 2*m%2=0 := by omega
    rw [hd,hz,if_pos rfl] at hg
    exact ⟨_,_,List.getElem?_eq_getElem hlen,(List.getElem?_eq_some_iff.mp hg).2⟩
  obtain ⟨d,c,hd,hp⟩ := left i hi
  obtain ⟨d',c',hd',hp'⟩ := left j hj
  have hne : H.node d c=H.node d' c' := by rw [← hp,← hp']; exact he
  have hdd := (hf.node_inj _ _ _ _ hne).1
  subst d'
  exact Fin.ext (hn i j d hd hd')

end SolanaM.HashTree
