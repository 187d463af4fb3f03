import SolanaM.Framework.Fallible
import SolanaM.Earn.MerkleProof
import SolanaM.Math.Neighbours

namespace SolanaM.Earn

open HashTree Neighbours

variable {D : Type}

theorem err_ne_ok {α : Type} (e : EarnError) (a : α) : (err e : Result α)≠.ok a := nofun

/-- The partial sum stays below 2^i before element i, so the u64 index is exact until a
left sibling stands at position 64 or above, where the power itself overflows. -/
theorem verifyInTreeLoop_eq (H : Keccak D) (proof : List (ProofElement D)) (i index : Nat) (d : D)
    (hi : i+proof.length≤2^32) (hx : index<2^i) (h64 : index<2^64) :
    verifyInTreeLoop H i d index proof=
      if index+2^i*pathIndex proof<2^64 then .ok (climb H d proof,index+2^i*pathIndex proof)
      else .error .panic := by
  induction proof generalizing i index d with
  | nil =>
    have hz : index+2^i*pathIndex ([] : List (ProofElement D))=index := by simp [pathIndex]
    rw [hz,if_pos h64]
    rfl
  | cons p proof ih =>
    have hlen : i+1+proof.length≤2^32 := by simp only [List.length_cons] at hi; omega
    have hpow : 2^(i+1)=2*2^i := by ring
    rw [verifyInTreeLoop]
    cases hp : p.onRight with
    | true =>
      have hsum : index+2^i*pathIndex (p::proof)=index+2^(i+1)*pathIndex proof := by
        simp only [pathIndex,hp,if_true]; ring
      rw [if_pos rfl,ih (i+1) index _ hlen (by omega) h64,hsum,climb_cons,Step.apply,
        if_pos hp]
    | false =>
      have hsum : index+2^i*pathIndex (p::proof)=index+2^i+2^(i+1)*pathIndex proof := by
        simp only [pathIndex,hp,Bool.false_eq_true,if_false]; ring
      rw [if_neg Bool.false_ne_true,hsum,climb_cons,Step.apply,hp,if_neg Bool.false_ne_true]
      by_cases hlt : i<64
      · have hle : 2^(i+1)≤2^64 := Nat.pow_le_pow_right (by decide) hlt
        have hadd : index+2^i<2^64 := by omega
        rw [powU64_of_lt hlt]
        change (addU64 index (2^i) >>= fun index =>
          verifyInTreeLoop H (i+1) (H.node p.sibling d) index proof)=_
        rw [addU64_of_lt hadd]
        exact ih (i+1) (index+2^i) _ hlen (by omega) hadd
      · have hle : 2^64≤2^i := Nat.pow_le_pow_right (by decide) (by omega)
        rw [powU64_of_ge (by omega) (by simp only [List.length_cons] at hi; omega),
          if_neg (by omega)]
        rfl

private theorem verifyInTreeLoop_climb (H : Keccak D) (proof : List (ProofElement D))
    (i index : Nat)
    (d e : D) (j : Nat) (h : verifyInTreeLoop H i d index proof=.ok (e,j)) :
    climb H d proof=e := by
  induction proof generalizing i index d with
  | nil => cases h; rfl
  | cons p proof ih =>
    rw [verifyInTreeLoop] at h
    rw [climb_cons,Step.apply]
    split at h
    · rename_i hp
      rw [if_pos hp]
      exact ih _ _ _ h
    · rename_i hp
      rw [if_neg hp]
      obtain ⟨bit,_,h⟩ := bind_eq_ok.mp h
      obtain ⟨sum,_,h⟩ := bind_eq_ok.mp h
      exact ih _ _ _ h

variable [DecidableEq D]

/-- On every proof short enough for its usize-to-u32 positions not to wrap, the verifier
returns the position its flags encode, or aborts exactly when that exceeds u64. -/
theorem verifyInTree_eq (H : Keccak D) (root : D) (value : Key) (proof : List (ProofElement D))
    (hl : proof.length≤2^32) :
    verifyInTree H root value proof=
      if pathIndex proof<2^64 then
        if climb H (H.leaf value) proof=root then .ok (pathIndex proof) else err .InvalidProof
      else .error .panic := by
  have h := verifyInTreeLoop_eq H proof 0 0 (H.leaf value) (by omega) (by decide) (by decide)
  simp only [pow_zero,one_mul,zero_add] at h
  rw [verifyInTree,h]
  split
  · change (if climb H (H.leaf value) proof≠root then _ else _)=_
    split <;> simp_all
  · rfl

theorem verifyInTree_climb (H : Keccak D) (root : D) (value : Key) (proof : List (ProofElement D))
    (i : Nat) (h : verifyInTree H root value proof=.ok i) :
    climb H (H.leaf value) proof=root := by
  obtain ⟨⟨d,index⟩,hl,h⟩ := bind_eq_ok.mp h
  have hc := verifyInTreeLoop_climb H proof 0 0 _ d index hl
  by_cases hr : d=root
  · exact hc.trans hr
  · change (if d≠root then err .InvalidProof else _)=_ at h
    rw [if_pos hr] at h
    exact absurd h (err_ne_ok _ _)

section Spans

variable {H : Keccak D} {k : Nat} {root : D} {vs : List Key}

/-- An accepted inclusion proof has the tree's height and its index names the value. -/
theorem verifyInTree_sound (hf : H.CollisionFree) (hs : Spans H k root vs) (hk : k≤2^32)
    (value : Key) (proof : List (ProofElement D)) (i : Nat)
    (h : verifyInTree H root value proof=.ok i) :
    proof.length=k ∧ pathIndex proof=i ∧ vs[i]? = some value := by
  obtain ⟨hl,hv⟩ := hs.sound hf value proof (verifyInTree_climb H root value proof i h)
  rw [verifyInTree_eq H root value proof (hl.trans_le hk)] at h
  split at h
  · split at h
    · have hi : pathIndex proof=i := Except.ok.inj h
      exact ⟨hl,hi,hi ▸ hv⟩
    · exact absurd h (err_ne_ok _ _)
  · exact nomatch h

theorem verifyInTree_complete (hs : Spans H k root vs) (hk : k≤2^32) (value : Key) (i : Nat)
    (hi : vs[i]? = some value) (h64 : i<2^64) :
    ∃ proof : List (ProofElement D),
      proof.length=k ∧ verifyInTree H root value proof=.ok i := by
  obtain ⟨ps,hl,hp,hc⟩ := hs.complete i value hi
  refine ⟨ps,hl,?_⟩
  rw [verifyInTree_eq H root value ps (hl.trans_le hk),hp,if_pos h64,if_pos hc]

variable {L : List Key}

private theorem verifyOutside_sound (hf : H.CollisionFree) (hs : Spans H k root vs) (hk : k<2^32)
    (hp : Padded L vs) (hL : L.Pairwise (·≤·)) (value neighbor : Key)
    (proof : List (ProofElement D))
    (h : verifyOutside H root value proof neighbor=.ok ()) : value∉L := by
  have hne : L≠[] := by
    intro hn
    have hl := hp.last
    rw [hn,List.getLast?_nil,List.getLast?_eq_none_iff] at hl
    exact hs.ne_nil hl
  intro hmem
  unfold verifyOutside at h
  by_cases hlt : value<neighbor
  · -- position 0 holds the smallest key
    rw [if_pos hlt] at h
    obtain ⟨i,hi,h⟩ := bind_eq_ok.mp h
    by_cases hz : i=0
    · subst hz
      have hv := (verifyInTree_sound hf hs hk.le neighbor proof 0 hi).2.2
      have hx := List.getElem?_eq_getElem (List.length_pos_iff.mpr hne)
      have he := Option.some.inj ((hp.getElem hx).symm.trans hv)
      exact (head_le hL hx hmem).not_gt (he ▸ hlt)
    · rw [if_neg hz] at h
      exact err_ne_ok _ _ h
  · rw [if_neg hlt] at h
    by_cases hgt : neighbor<value
    · -- position 2^k-1 of the padded sequence holds the largest key
      rw [if_pos hgt] at h
      obtain ⟨width,hw,h⟩ := bind_eq_ok.mp h
      obtain ⟨i,hi,h⟩ := bind_eq_ok.mp h
      by_cases hz : i=width-1
      · obtain ⟨hl,_,hv⟩ := verifyInTree_sound hf hs hk.le neighbor proof i hi
        have hwk : width=2^k := by
          have hm : proof.length%2^32=k := by rw [hl,Nat.mod_eq_of_lt hk]
          rw [powU64,hm] at hw
          split at hw
          · exact (Except.ok.inj hw).symm
          · cases hw
        have hlast : L.getLast? = some neighbor := by
          rw [← hp.last,List.getLast?_eq_getElem?,hs.length,← hwk,← hz]
          exact hv
        exact (le_last hL hlast hmem).not_gt hgt
      · rw [if_neg hz] at h
        exact err_ne_ok _ _ h
    · rw [if_neg hgt] at h
      exact err_ne_ok _ _ h

private theorem verifyBetween_sound (hf : H.CollisionFree) (hs : Spans H k root vs) (hk : k<2^32)
    (hp : Padded L vs) (hL : L.Pairwise (·≤·)) (value left right : Key)
    (leftProof rightProof : List (ProofElement D))
    (h : verifyBetween H root value leftProof rightProof left right=.ok ()) : value∉L := by
  unfold verifyBetween at h
  by_cases hord : right≤left ∨ value≤left ∨ right≤value
  · rw [if_pos hord] at h
    exact absurd h (err_ne_ok _ _)
  · rw [if_neg hord] at h
    simp only [not_or,not_le] at hord
    obtain ⟨i,hi,h⟩ := bind_eq_ok.mp h
    obtain ⟨j,hj,h⟩ := bind_eq_ok.mp h
    obtain ⟨next,hn,h⟩ := bind_eq_ok.mp h
    by_cases he : next=j
    · have hnext : i+1=next := by
        rw [addU64] at hn
        split at hn
        · exact Except.ok.inj hn
        · exact nomatch hn
      have hx := (verifyInTree_sound hf hs hk.le left leftProof i hi).2.2
      have hy := (verifyInTree_sound hf hs hk.le right rightProof j hj).2.2
      rw [← he,← hnext] at hy
      exact hp.not_mem_of_between hL hx hy hord.2.1 hord.2.2
    · rw [if_pos he] at h
      exact absurd h (err_ne_ok _ _)

/-- Whatever proofs and neighbours are accepted, the value is not in the committed list. -/
theorem verifyNotInTree_sound (hf : H.CollisionFree) (hs : Spans H k root vs) (hk : k<2^32)
    (hp : Padded L vs) (hL : L.Pairwise (·≤·)) (value : Key)
    (proofs : List (List (ProofElement D))) (neighbors : List Key)
    (h : verifyNotInTree H root value proofs neighbors=.ok ()) : value∉L := by
  unfold verifyNotInTree at h
  split at h
  · exact verifyOutside_sound hf hs hk hp hL value _ _ h
  · exact verifyBetween_sound hf hs hk hp hL value _ _ _ _ h
  · exact absurd h (err_ne_ok _ _)

/-- Up to height 63 every absent value has proofs and neighbours that are accepted. -/
theorem verifyNotInTree_complete (hs : Spans H k root vs) (hk : k<64) (hp : Padded L vs)
    (hL : L.Pairwise (·≤·)) (value : Key) (hv : value∉L) :
    ∃ proofs neighbors,verifyNotInTree H root value proofs neighbors=.ok () := by
  have hk32 : k≤2^32 := hk.le.trans (by norm_num)
  have h64 (i : Nat) (x : Key) (hi : vs[i]? = some x) : i+1<2^64 := by
    have hlt := (List.getElem?_eq_some_iff.mp hi).1
    rw [hs.length] at hlt
    have hle : 2^k≤2^63 := Nat.pow_le_pow_right (by decide) (by omega)
    omega
  have hpos : 0<vs.length := List.length_pos_iff.mpr hs.ne_nil
  by_cases hlo : ∃ x∈L,x<value
  · by_cases hhi : ∃ y∈L,value<y
    · obtain ⟨i,x,y,hx,hy,hxv,hvy⟩ := exists_between hL hv hlo hhi
      obtain ⟨ps,_,hps⟩ := verifyInTree_complete hs hk32 x i (hp.getElem hx)
        (Nat.lt_of_succ_lt (h64 i x (hp.getElem hx)))
      obtain ⟨qs,_,hqs⟩ := verifyInTree_complete hs hk32 y (i+1) (hp.getElem hy)
        (Nat.lt_of_succ_lt (h64 _ y (hp.getElem hy)))
      refine ⟨[ps,qs],[x,y],?_⟩
      have hord : ¬(y≤x ∨ value≤x ∨ y≤value) := by
        simp only [not_or,not_le]
        exact ⟨hxv.trans hvy,hxv,hvy⟩
      simp [verifyNotInTree,verifyBetween,hord,hps,hqs,addU64_of_lt (h64 i x (hp.getElem hx)),
        bind,Except.bind]
    · have hall : ∀ y∈L,y<value := by
        intro y hy
        exact lt_of_le_of_ne (not_lt.mp (fun h => hhi ⟨y,hy,h⟩)) (fun h => hv (h ▸ hy))
      obtain ⟨x,hx⟩ : ∃ x,vs[2^k-1]? = some x := by
        rw [← hs.length]
        exact ⟨_,List.getElem?_eq_getElem (by omega)⟩
      obtain ⟨ps,hl,hps⟩ := verifyInTree_complete hs hk32 x (2^k-1) hx
        (Nat.lt_of_succ_lt (h64 _ x hx))
      have hxv := hall x (hp.mem x (List.mem_of_getElem? hx))
      refine ⟨[ps],[x],?_⟩
      simp [verifyNotInTree,verifyOutside,hxv.not_gt,hxv,hl,powU64_of_lt hk,hps,bind,Except.bind]
  · obtain ⟨x,hx⟩ : ∃ x,vs[0]? = some x := ⟨_,List.getElem?_eq_getElem hpos⟩
    have hxm := hp.mem x (List.mem_of_getElem? hx)
    have hvx : value<x :=
      lt_of_le_of_ne (not_lt.mp (fun h => hlo ⟨x,hxm,h⟩)) (fun h => hv (h ▸ hxm))
    obtain ⟨ps,_,hps⟩ := verifyInTree_complete hs hk32 x 0 hx (by norm_num)
    refine ⟨[ps],[x],?_⟩
    simp [verifyNotInTree,verifyOutside,hvx,hps,bind,Except.bind]

end Spans

end SolanaM.Earn
