import SolanaM.Sdk.Merkle
import SolanaM.Math.Neighbours
import Mathlib.Data.Nat.Log

namespace SolanaM.Sdk

open HashTree Neighbours

theorem bufferSort_le_zero (a b : Key) : bufferSort a b≤0 ↔ a≤b := by
  unfold bufferSort
  have hab := Key.toBigInt_lt_iff a b
  have hba := Key.toBigInt_lt_iff b a
  split
  · rename_i h
    exact ⟨fun _ => (hab.mp h).le,fun _ => by decide⟩
  · split
    · rename_i h
      exact ⟨fun h1 => absurd h1 (by decide),fun h1 => absurd (hba.mp h) h1.not_gt⟩
    · rename_i h
      exact ⟨fun _ => not_lt.mp (fun h1 => h (hba.mpr h1)),fun _ => by decide⟩

theorem sortKeys_perm (ks : List Key) : (sortKeys ks).Perm ks := List.perm_insertionSort _ ks

theorem sortKeys_sorted (ks : List Key) : (sortKeys ks).Pairwise (·≤·) := by
  have he : (fun a b : Key => bufferSort a b≤0)=(fun a b : Key => a≤b) := by
    funext a b
    exact propext (bufferSort_le_zero a b)
  have htotal : Std.Total (fun a b : Key => bufferSort a b≤0) := by rw [he]; infer_instance
  have htrans : IsTrans Key (fun a b : Key => bufferSort a b≤0) := by rw [he]; infer_instance
  have h := List.pairwise_insertionSort (fun a b : Key => bufferSort a b≤0) ks
  exact h.imp (fun h => (bufferSort_le_zero _ _).mp h)

namespace MerkleTree

variable {D : Type}

/-- The bottom level over sorted raw leaves; a single leaf is not duplicated. -/
def bottom (H : Keccak D) (raw : List Key) : List D :=
  if raw.length=1 then raw.map H.leaf else padLeaves (raw.map H.leaf)

/-- What the constructor leaves behind, as a function of the sorted raw leaves alone. -/
def ofSorted (H : Keccak D) (raw : List Key) : MerkleTree D where
  rawLeaves := raw
  leaves := bottom H raw
  tree := bottom H raw::upperLevels H (bottom H raw).length (bottom H raw)
  root := (bottom H raw::upperLevels H (bottom H raw).length (bottom H raw)).getLast?.bind (·[0]?)
  depth := (upperLevels H (bottom H raw).length (bottom H raw)).length

private theorem updateTree_eq_ofSorted (H : Keccak D) (raw : List Key) (hne : raw≠[]) :
    updateTree H ⟨raw,raw.map H.leaf,[],none,0⟩=ofSorted H raw := by
  match raw with
  | [] => exact absurd rfl hne
  | [k] => simp [updateTree,ofSorted,bottom,upperLevels]
  | k::l::ks =>
    have hl : (k::l::ks).length≠1 := by simp
    have hb : bottom H (k::l::ks)=padLeaves ((k::l::ks).map H.leaf) := if_neg hl
    simp only [updateTree,ofSorted,hb,List.map_cons]
    rw [List.getLast?_eq_getElem?,List.length_cons,Nat.add_sub_cancel]

/-- The keys the constructor keeps, in the order it sorts them into. -/
def constructorKeys (leaves : List PublicKey) : List Key :=
  sortKeys (leaves.eraseDups.map PublicKey.bytes)

theorem mem_constructorKeys (leaves : List PublicKey) (k : Key) :
    k∈constructorKeys leaves ↔ k∈leaves.map PublicKey.bytes := by
  rw [constructorKeys,(sortKeys_perm _).mem_iff]
  simp [List.mem_map,List.mem_eraseDups]

theorem constructorKeys_ne_nil (leaves : List PublicKey) (hne : leaves≠[]) :
    constructorKeys leaves≠[] := by
  obtain ⟨p,hp⟩ := List.exists_mem_of_ne_nil leaves hne
  exact List.ne_nil_of_mem ((mem_constructorKeys leaves p.bytes).mpr (List.mem_map_of_mem hp))

theorem new_eq_ofSorted (H : Keccak D) (leaves : List PublicKey) (hne : leaves≠[]) :
    new H leaves=ofSorted H (constructorKeys leaves) := by
  have hl : leaves.length≠0 := fun h => hne (List.eq_nil_of_length_eq_zero h)
  simp only [new,if_neg hl]
  exact updateTree_eq_ofSorted H _ (constructorKeys_ne_nil leaves hne)

theorem eraseDups_sublist (leaves : List PublicKey) : leaves.eraseDups.Sublist leaves := by
  induction hn : leaves.length using Nat.strong_induction_on generalizing leaves with
  | _ n ih =>
    cases leaves with
    | nil => simp
    | cons p leaves =>
      rw [List.eraseDups_cons]
      have hs : (leaves.filter fun b => !b==p).Sublist leaves := List.filter_sublist
      have hl : (leaves.filter fun b => !b==p).length<n := by
        have := hs.length_le
        simp only [List.length_cons] at hn
        omega
      exact List.Sublist.cons_cons p ((ih _ hl _ rfl).trans hs)

theorem constructorKeys_length_le (leaves : List PublicKey) :
    (constructorKeys leaves).length≤leaves.length := by
  rw [constructorKeys,(sortKeys_perm _).length_eq,List.length_map]
  exact (eraseDups_sublist leaves).length_le

/-- Distinct keys are all kept: the Set removes nothing. -/
theorem constructorKeys_perm (leaves : List PublicKey) (hn : (leaves.map PublicKey.bytes).Nodup) :
    (constructorKeys leaves).Perm (leaves.map PublicKey.bytes) := by
  have hnd := hn.sublist ((eraseDups_sublist leaves).map PublicKey.bytes)
  have hc : (constructorKeys leaves).Nodup := (sortKeys_perm _).nodup_iff.mpr hnd
  exact (List.perm_ext_iff_of_nodup hc hn).mpr (mem_constructorKeys leaves)

/-- raw holds the keys of an array of distinct keys, in ascending order. -/
structure Arranged (leaves : List PublicKey) (raw : List Key) : Prop where
  perm : raw.Perm (leaves.map PublicKey.bytes)
  sorted : raw.Pairwise (·≤·)
  nodup : raw.Nodup

theorem Arranged.length_eq {leaves : List PublicKey} {raw : List Key} (h : Arranged leaves raw) :
    raw.length=leaves.length := by
  rw [h.perm.length_eq,List.length_map]

theorem Arranged.ne_nil {leaves : List PublicKey} {raw : List Key} (h : Arranged leaves raw)
    (hne : leaves≠[]) : raw≠[] := by
  apply List.ne_nil_of_length_pos
  rw [h.length_eq]
  exact List.length_pos_iff.mpr hne

theorem constructorKeys_arranged {leaves : List PublicKey}
    (hnd : (leaves.map PublicKey.bytes).Nodup) : Arranged leaves (constructorKeys leaves) := by
  have hperm := constructorKeys_perm leaves hnd
  exact ⟨hperm,sortKeys_sorted _,hperm.nodup_iff.mpr hnd⟩

private theorem blocks_length (H : Keccak D) (k : Nat) (nodes : List D) (vss : List (List Key))
    (h : List.Forall₂ (Spans H k) nodes vss) : ∀ b∈vss,b.length=2^k := by
  induction h with
  | nil => simp
  | cons ha _ ih =>
    intro b hb
    rcases List.mem_cons.mp hb with rfl|hb
    · exact ha.length
    · exact ih b hb

private theorem blocks_ne_nil (H : Keccak D) (k : Nat) (nodes : List D) (vss : List (List Key))
    (h : List.Forall₂ (Spans H k) nodes vss) : ∀ b∈vss,b≠[] := by
  induction h with
  | nil => simp
  | cons ha _ ih =>
    intro b hb
    rcases List.mem_cons.mp hb with rfl|hb
    · exact ha.ne_nil
    · exact ih b hb

/-- Repeating a proper suffix of whole blocks, as an odd level does with its last node, keeps P. -/
def RepeatsSuffix (block : Nat) (P : List Key → Prop) : Prop :=
  ∀ V b,P V → b<:+V → b≠[] → b≠V → block∣b.length → P (V++b)

theorem padded_repeatsSuffix (L : List Key) : RepeatsSuffix 1 (Padded L) :=
  fun _ _ hp hb hne _ _ => hp.extend hb hne

private theorem mergeBlocks_keeps {block : Nat} {P : List Key → Prop} (hP : RepeatsSuffix block P)
    {vss : List (List Key)} (hne : ∀ b∈vss,b≠[]) (hblock : ∀ b∈vss,block∣b.length)
    (hlen : 1<vss.length) (hp : P vss.flatten) : P (mergeBlocks vss).flatten := by
  rcases mergeBlocks_flatten vss with h|⟨b,hlast,h⟩
  · rw [h]
    exact hp
  · obtain ⟨ws,rfl⟩ := List.getLast?_eq_some_iff.mp hlast
    have hb : b<:+(ws++[b]).flatten := ⟨ws.flatten,by simp⟩
    have hproper : b≠(ws++[b]).flatten := by
      intro he
      cases ws with
      | nil => simp at hlen
      | cons w ws =>
        have hw := List.length_pos_iff.mpr (hne w (by simp))
        have hl := congrArg List.length he
        simp only [List.flatten_append,List.flatten_cons,List.length_append,List.flatten_nil,
          List.length_nil] at hl
        omega
    rw [h]
    exact hP _ b hp hb (hne b (by simp)) hproper (hblock b (by simp))

/-- With enough fuel the while loop ends in a single root that commits to the padded
value sequence. -/
theorem upperLevels_spans (H : Keccak D) {block : Nat} {P : List Key → Prop}
    (hP : RepeatsSuffix block P) (fuel k : Nat) (hblock : block∣2^k) (nodes : List D)
    (vss : List (List Key)) (hfuel : nodes.length≤fuel) (hne : nodes≠[])
    (hs : List.Forall₂ (Spans H k) nodes vss) (hp : P vss.flatten) :
    ∃ r vs,(nodes::upperLevels H fuel nodes).getLast? = some [r] ∧
      Spans H (k+(upperLevels H fuel nodes).length) r vs ∧ P vs := by
  induction fuel generalizing k nodes vss with
  | zero => exact absurd (List.eq_nil_of_length_eq_zero (by omega)) hne
  | succ fuel ih =>
    by_cases hlen : nodes.length>1
    · have hpl := parents_length H nodes
      have hp' : P (mergeBlocks vss).flatten :=
        mergeBlocks_keeps hP (blocks_ne_nil H k nodes vss hs)
          (fun b hb => (blocks_length H k nodes vss hs b hb).symm ▸ hblock) (hs.length_eq ▸ hlen) hp
      have hblock' : block∣2^(k+1) := hblock.trans (Nat.pow_dvd_pow 2 (Nat.le_succ k))
      obtain ⟨r,vs,hr,hsp,hpv⟩ := ih (k+1) hblock' (parents H nodes) (mergeBlocks vss) (by omega)
        (List.ne_nil_of_length_pos (by omega)) (parents_spans H k nodes vss hs) hp'
      refine ⟨r,vs,?_,?_,hpv⟩
      · rw [upperLevels,if_pos hlen,List.getLast?_cons_cons]
        exact hr
      · rw [upperLevels,if_pos hlen,List.length_cons]
        have ha : k+((upperLevels H fuel (parents H nodes)).length+1)=
            k+1+(upperLevels H fuel (parents H nodes)).length := by omega
        rw [ha]
        exact hsp
    · have hone : nodes.length=1 := by
        have hpos := List.length_pos_iff.mpr hne
        omega
      obtain ⟨r,rfl⟩ := List.length_eq_one_iff.mp hone
      obtain ⟨vs,vss,hr,ht,rfl⟩ := List.forall₂_cons_left_iff.mp hs
      cases ht
      refine ⟨r,vs,by simp [upperLevels],?_,?_⟩
      · simpa [upperLevels] using hr
      · simpa using hp

private theorem upperLevels_length (H : Keccak D) (fuel : Nat) (nodes : List D)
    (hfuel : nodes.length≤fuel) : (upperLevels H fuel nodes).length=Nat.clog 2 nodes.length := by
  induction fuel generalizing nodes with
  | zero =>
    have h : nodes.length=0 := by omega
    simp [upperLevels,h]
  | succ fuel ih =>
    have hpl := parents_length H nodes
    by_cases hlen : nodes.length>1
    · rw [upperLevels,if_pos hlen,List.length_cons,ih (parents H nodes) (by omega),hpl,
        Nat.clog_of_two_le (by decide) hlen]
      congr 2
    · rw [upperLevels,if_neg hlen,List.length_nil,Nat.clog_of_right_le_one (by omega)]

theorem leaves_spans (H : Keccak D) (raw : List Key) :
    List.Forall₂ (Spans H 0) (raw.map H.leaf) (raw.map ([·])) := by
  induction raw with
  | nil => exact .nil
  | cons k raw ih => exact .cons (.leaf k) ih

theorem flatten_singletons (raw : List Key) : (raw.map ([·])).flatten=raw := by
  induction raw with
  | nil => rfl
  | cons k raw ih => simp [ih]

private theorem bottom_ne_nil (H : Keccak D) (raw : List Key) (hne : raw≠[]) : bottom H raw≠[] := by
  unfold bottom padLeaves
  split_ifs <;> simp [hne]

/-- The bottom level commits leaf by leaf to the raw leaves, the last one repeated when
their number is odd. -/
theorem bottom_spans (H : Keccak D) {P : List Key → Prop} (hP : RepeatsSuffix 1 P) (raw : List Key)
    (hne : raw≠[]) (hp : P raw) :
    ∃ vss,List.Forall₂ (Spans H 0) (bottom H raw) vss ∧ P vss.flatten := by
  have hs := leaves_spans H raw
  have hf := flatten_singletons raw
  unfold bottom padLeaves
  split_ifs with h1 hodd
  · exact ⟨_,hs,by rwa [hf]⟩
  · obtain ⟨ks,k,rfl⟩ := List.eq_nil_or_concat raw |>.resolve_left hne
    rw [List.concat_eq_append] at *
    refine ⟨(ks++[k]).map ([·])++[[k]],?_,?_⟩
    · apply List.rel_append hs
      simp only [List.map_append,List.map_cons,List.map_nil,List.getLast?_concat,Option.toList_some]
      exact .cons (.leaf k) .nil
    · have hproper : [k]≠ks++[k] := by
        intro he
        exact h1 (he ▸ rfl)
      rw [List.flatten_append,hf]
      simpa using hP _ _ hp (List.suffix_append ks [k]) (by simp) hproper (one_dvd _)
  · exact ⟨_,hs,by rwa [hf]⟩

theorem bottom_length (H : Keccak D) (raw : List Key) (hne : raw≠[]) :
    (bottom H raw).length=if raw.length=1 then 1 else raw.length+raw.length%2 := by
  unfold bottom padLeaves
  split_ifs with h1 hodd
  · simpa using h1
  · rw [List.length_map] at hodd
    obtain ⟨ks,k,rfl⟩ := List.eq_nil_or_concat raw |>.resolve_left hne
    simp at hodd ⊢
    omega
  · rw [List.length_map] at hodd ⊢
    omega

/-- The height of the tree is the binary logarithm of the number of leaves, rounded up. -/
theorem depth_eq (H : Keccak D) (raw : List Key) (hne : raw≠[]) :
    (ofSorted H raw).depth=Nat.clog 2 raw.length := by
  have hpos := List.length_pos_iff.mpr hne
  change (upperLevels H _ _).length=_
  rw [upperLevels_length H _ _ le_rfl,bottom_length H raw hne]
  split_ifs with h1
  · rw [h1]
  · rw [Nat.clog_of_two_le (by decide) (by omega),Nat.clog_of_two_le (n := raw.length) (by decide) (by omega)]
    congr 2
    omega

/-- The root the constructor computes commits to the sorted keys, padded with copies of
their own tail to a power of two. -/
theorem root_spans_of (H : Keccak D) {P : List Key → Prop} (hP : RepeatsSuffix 1 P)
    (raw : List Key) (hne : raw≠[]) (hp : P raw) :
    ∃ r vs,(ofSorted H raw).getRoot=some r ∧ Spans H (Nat.clog 2 raw.length) r vs ∧ P vs := by
  obtain ⟨vss,hs,hp⟩ := bottom_spans H hP raw hne hp
  obtain ⟨r,vs,hr,hsp,hpv⟩ := upperLevels_spans H hP (bottom H raw).length 0 (one_dvd _)
    (bottom H raw) vss le_rfl (bottom_ne_nil H raw hne) hs hp
  have hd := depth_eq H raw hne
  change (upperLevels H _ _).length=_ at hd
  rw [Nat.zero_add,hd] at hsp
  refine ⟨r,vs,?_,hsp,hpv⟩
  simp only [getRoot,ofSorted,hr,Option.bind_some]
  rfl

theorem root_spans (H : Keccak D) (raw : List Key) (hne : raw≠[]) :
    ∃ r vs,(ofSorted H raw).getRoot=some r ∧ Spans H (Nat.clog 2 raw.length) r vs ∧
      Padded raw vs :=
  root_spans_of H (padded_repeatsSuffix raw) raw hne (Padded.refl raw)

end MerkleTree

end SolanaM.Sdk
