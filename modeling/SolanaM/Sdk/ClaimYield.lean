import SolanaM.Math.Accrual
import SolanaM.Sdk.ClaimWalk
import Mathlib.Data.Rat.Cast.Order

namespace SolanaM.Sdk

open Accrual

/-- The updates that are the first of their second, once the second of last is over. -/
def laterSeconds (last : IndexUpdate) : List IndexUpdate → List IndexUpdate
  | [] => []
  | current::steps =>
      if current.ts=last.ts then laterSeconds last steps else current::laterSeconds current steps

def perSecond : List IndexUpdate → List IndexUpdate
  | [] => []
  | first::steps => first::laterSeconds first steps

def points (balance : Nat → Nat) (steps : List IndexUpdate) : List (ℚ×ℚ) :=
  steps.map (fun u => ((balance u.ts : ℚ),(u.index : ℚ)))

/-- The recurrence Y := (Y + b) * I_n / I_(n-1) - b without rounding, from the first update. -/
def exactYield (balance : Nat → Nat) : List IndexUpdate → ℚ
  | [] => 0
  | first::steps => accrue (first.index : ℚ) 0 (points balance steps)

private theorem tdiv_le_div {a b : Int} (ha : 0≤a) (hb : 0<b) :
    ((a.tdiv b : Int) : ℚ)≤(a : ℚ)/b := by
  have h : a.tdiv b*b≤a := by
    rw [Int.tdiv_eq_ediv_of_nonneg ha]
    exact Int.ediv_mul_le a hb.ne'
  have hb' : (0 : ℚ)<b := by exact_mod_cast hb
  rw [le_div_iff₀ hb']
  exact_mod_cast h

/-- The same points on integers, as the loop computes with them. -/
def intPoints (balance : Nat → Nat) (steps : List IndexUpdate) : List (ℤ×ℤ) :=
  steps.map (fun u => ((balance u.ts : ℤ),(u.index : ℤ)))

theorem castPoints_intPoints (balance : Nat → Nat) (steps : List IndexUpdate) :
    castPoints ℚ (intPoints balance steps)=points balance steps := by
  simp [castPoints,intPoints,points]

/-- The loop computes the rounded recurrence over the first updates of the seconds, and it only
gets to its end when their indices never fall. -/
theorem claimLoop_accrueDown {balance : Nat → Nat} {last u : IndexUpdate} {y z : Int}
    {steps : List IndexUpdate} (h : claimLoop balance last y steps=.ok (u,z)) (hy : 0≤y)
    (hi : 0<last.index) :
    z=accrueDown last.index y (intPoints balance (laterSeconds last steps)) ∧
      Rising ((last.index : ℤ) : ℚ) (castPoints ℚ (intPoints balance (laterSeconds last steps))) := by
  induction steps generalizing last y with
  | nil =>
    cases h
    refine ⟨rfl,?_⟩
    show (0 : ℚ)<((u.index : ℤ) : ℚ)
    exact_mod_cast hi
  | cons current steps ih =>
    by_cases hsame : current.ts=last.ts
    · rw [claimLoop,if_pos hsame] at h
      rw [laterSeconds,if_pos hsame]
      exact ih h hy hi
    · rw [claimLoop,if_neg hsame] at h
      rw [laterSeconds,if_neg hsame]
      split at h
      · cases h
      · rename_i hvalid
        simp only [bind_eq_ok] at h
        obtain ⟨n,hn,l,hl,grown,hgrown,h⟩ := h
        obtain rfl := safeInteger_eq_ok hn
        obtain rfl := safeInteger_eq_ok hl
        obtain ⟨_,rfl⟩ := bnDiv_eq_ok hgrown
        have hle : last.index ≤ current.index := by omega
        have hlast : (0 : Int)<last.index := by exact_mod_cast hi
        have hnum : 0≤(y+(balance current.ts : Int))*(current.index : Int) :=
          Int.mul_nonneg (by omega) (Int.natCast_nonneg _)
        rw [Int.tdiv_eq_ediv_of_nonneg hnum] at h
        have hnext : 0≤growDown last.index y (balance current.ts) current.index :=
          growDown_nonneg hlast (by exact_mod_cast hle) (Int.natCast_nonneg _) hy
        obtain ⟨hz,hrising⟩ := ih h hnext (hi.trans_le hle)
        have hle' : ((last.index : ℤ) : ℚ)≤((current.index : ℤ) : ℚ) := by exact_mod_cast hle
        exact ⟨hz,by exact_mod_cast hi,by positivity,hle',hrising⟩

/-- The loop rounds the exact yield over the first updates of the seconds down. -/
theorem claimLoop_le {balance : Nat → Nat} {last u : IndexUpdate} {y z : Int}
    {steps : List IndexUpdate} (h : claimLoop balance last y steps=.ok (u,z)) (hy : 0≤y)
    (hi : 0<last.index) {x : ℚ} (hx : (y : ℚ)≤x) :
    0≤z ∧ (z : ℚ)≤accrue (last.index : ℚ) x (points balance (laterSeconds last steps)) := by
  obtain ⟨hz,hrising⟩ := claimLoop_accrueDown h hy hi
  have hdown := accrueDown_le hrising hy hx
  rw [← hz,castPoints_intPoints] at hdown
  exact hdown

private theorem rising_points (balance : Nat → Nat) {last : IndexUpdate} {steps : List IndexUpdate}
    (hord : (last::steps).Pairwise Precedes) (hi : 0<last.index) :
    Rising (last.index : ℚ) (points balance steps) := by
  induction steps generalizing last with
  | nil =>
    show (0 : ℚ)<last.index
    exact_mod_cast hi
  | cons current steps ih =>
    obtain ⟨hlast,hrest⟩ := List.pairwise_cons.mp hord
    have hle := (hlast current (by simp)).2.1
    refine ⟨by exact_mod_cast hi,by positivity,by exact_mod_cast hle,?_⟩
    exact ih hrest (hi.trans_le hle)

theorem laterSeconds_congr {last last' : IndexUpdate} (h : last.ts=last'.ts)
    (steps : List IndexUpdate) : laterSeconds last steps=laterSeconds last' steps := by
  induction steps with
  | nil => rfl
  | cons current steps ih => rw [laterSeconds,laterSeconds,h,ih]

theorem laterSeconds_append {last : IndexUpdate} {same : List IndexUpdate}
    (h : ∀ v∈same,v.ts=last.ts) (steps : List IndexUpdate) :
    laterSeconds last (same++steps)=laterSeconds last steps := by
  induction same with
  | nil => rfl
  | cons v same ih =>
    rw [List.cons_append,laterSeconds,if_pos (h v (by simp))]
    exact ih (fun w hw => h w (by simp [hw]))

/-- Where updates of one second carry one index, the last second apart, leaving out all but the
first of a second pays no more. -/
theorem accrue_laterSeconds_le (balance : Nat → Nat) {last : IndexUpdate}
    {steps : List IndexUpdate} (hord : (last::steps).Pairwise Precedes) (hi : 0<last.index)
    (final : Nat) (hfinal : ∀ v∈last::steps,v.ts≤final)
    (hsame : ∀ v∈last::steps,∀ w∈last::steps,v.ts=w.ts → v.ts<final → v.index=w.index) {x : ℚ}
    (hx : 0≤x) :
    accrue (last.index : ℚ) x (points balance (laterSeconds last steps))≤
      accrue (last.index : ℚ) x (points balance steps) := by
  induction steps generalizing last x with
  | nil => exact le_refl x
  | cons current steps ih =>
    have hrising := rising_points balance hord hi
    obtain ⟨hlast,hrest⟩ := List.pairwise_cons.mp hord
    have hle := (hlast current (by simp)).2.1
    have hipos : (0 : ℚ)<last.index := by exact_mod_cast hi
    have hstep := le_grow hipos (hrising.2.2.1) hrising.2.1 hx
    by_cases hc : current.ts=last.ts
    · rw [laterSeconds,if_pos hc]
      by_cases ht : last.ts<final
      · have he := hsame last (by simp) current (by simp) hc.symm ht
        have hgrow : grow (last.index : ℚ) x (balance current.ts) current.index=x := by
          rw [← he]
          exact grow_same _ _ _ hipos.ne'
        rw [laterSeconds_congr hc.symm]
        show _≤accrue (current.index : ℚ) (grow (last.index : ℚ) x (balance current.ts) current.index) _
        rw [hgrow,he]
        refine ih hrest (hi.trans_le hle) (fun v hv => hfinal v (by simp [hv])) ?_ hx
        intro v hv w hw
        exact hsame v (by simp [hv]) w (by simp [hw])
      · -- the last second: nothing more is counted, and the full recurrence only grows
        have hnone : laterSeconds last steps=[] := by
          have hts : ∀ v∈steps,v.ts=last.ts := by
            intro v hv
            have h1 := (hlast v (by simp [hv])).2.2
            have h2 := hfinal v (by simp [hv])
            omega
          have h := laterSeconds_append hts []
          rw [List.append_nil] at h
          exact h
        rw [hnone]
        exact le_accrue hrising hx
    · rw [laterSeconds,if_neg hc]
      refine ih hrest (hi.trans_le hle) (fun v hv => hfinal v (by simp [hv])) ?_ (hx.trans hstep)
      intro v hv w hw
      exact hsame v (by simp [hv]) w (by simp [hw])

/-- The reward a claim balance stands for is at most the yield it was computed from. -/
theorem reward_le {claimYield : Int} (hy : 0 ≤ claimYield) {lastClaim latest : Nat}
    (hl : 0<lastClaim) (hlt : lastClaim<latest) :
    (((claimYield*lastClaim).tdiv ((latest : Int)-lastClaim) : Int) : ℚ)*
      ((latest : ℚ)-lastClaim)/lastClaim ≤ claimYield := by
  have hd : (0 : Int)<(latest : Int)-lastClaim := by omega
  have hn : 0 ≤ claimYield*(lastClaim : Int) := Int.mul_nonneg hy (Int.natCast_nonneg _)
  have h := tdiv_le_div hn hd
  have hd' : (0 : ℚ)<(latest : ℚ)-lastClaim := by
    have : (lastClaim : ℚ)<latest := by exact_mod_cast hlt
    linarith
  have hl' : (0 : ℚ)<lastClaim := by exact_mod_cast hl
  push_cast at h
  rw [le_div_iff₀ hd'] at h
  rw [div_le_iff₀ hl']
  exact h

/-- The updates after u, oldest first. -/
def History.after (h : History) (u : IndexUpdate) : List IndexUpdate :=
  h.updates.filter (fun v => u.blockHeight<v.blockHeight)

/-- The updates from the second of u on, oldest first. -/
def History.since (h : History) (u : IndexUpdate) : List IndexUpdate :=
  h.updates.filter (fun v => u.ts≤v.ts)

/-- Before u stand only updates of its own second. -/
theorem History.since_split (h : History) {u : IndexUpdate} (hu : u∈h.updates) :
    ∃ same,h.since u=same++u::h.after u ∧ ∀ v∈same,v.ts=u.ts := by
  obtain ⟨pre,post,hsplit⟩ := List.append_of_mem hu
  have hord := h.ordered
  rw [hsplit] at hord
  obtain ⟨_,hpost,hpre⟩ := List.pairwise_append.mp hord
  obtain ⟨hu',_⟩ := List.pairwise_cons.mp hpost
  have hafter : h.after u=post := by
    have hnone : pre.filter (fun v => decide (u.blockHeight<v.blockHeight))=[] := by
      refine List.filter_eq_nil_iff.mpr ?_
      intro v hv
      have hlt := (hpre v hv u (by simp)).1
      simp only [decide_eq_true_eq]
      omega
    have hall : post.filter (fun v => decide (u.blockHeight<v.blockHeight))=post :=
      List.filter_eq_self.mpr (fun v hv => decide_eq_true (hu' v hv).1)
    rw [after,hsplit,List.filter_append,hnone,List.filter_cons_of_neg (by simp),hall]
    rfl
  have hsince : post.filter (fun v => decide (u.ts≤v.ts))=post :=
    List.filter_eq_self.mpr (fun v hv => decide_eq_true (hu' v hv).2.2)
  refine ⟨pre.filter (fun v => u.ts≤v.ts),?_,?_⟩
  · rw [hafter,since,hsplit,List.filter_append,List.filter_cons_of_pos (by simp),hsince]
  · intro v hv
    obtain ⟨hmem,hts⟩ := List.mem_filter.mp hv
    have hle := (hpre v hmem u (by simp)).2.2
    have hge := of_decide_eq_true hts
    omega

theorem History.ts_le_latest (h : History) {latest : IndexUpdate}
    (hlatest : h.updates.getLast? = some latest) : ∀ v∈h.updates,v.ts≤latest.ts := by
  obtain ⟨pre,hsplit⟩ := List.getLast?_eq_some_iff.mp hlatest
  have hord := h.times
  rw [hsplit] at hord ⊢
  intro v hv
  rcases List.mem_append.mp hv with hv|hv
  · exact (List.pairwise_append.mp hord).2.2 v hv latest (by simp)
  · rw [List.mem_singleton.mp hv]

section Claim

variable {history : History} {latestOrder windowOrder : DescendingSort IndexUpdate.blockHeight}
  {feeTokenAccount : Key → Option Key} {global : GlobalAccountData} {earner : Earner}
  {balance : Nat → Nat} {ix : ClaimFor} {u latest : IndexUpdate}

/-- The answers of one unchanging ledger. -/
def History.database (history : History)
    (latestOrder windowOrder : DescendingSort IndexUpdate.blockHeight) (balance : Nat → Nat) :
    Database where
  currentIndex := currentIndex latestOrder history.updates
  indexUpdates := indexUpdates windowOrder history.updates
  getBalanceAt _ _ := balance

theorem claim_le_perSecond (hpos : ∀ v∈history.updates,0<v.index) (hu : u∈history.updates)
    (hindex : earner.lastClaimIndex=u.index) (hts : earner.lastClaimTimestamp=u.ts)
    (hlatest : history.updates.getLast? = some latest)
    (h : buildClaimInstruction feeTokenAccount (history.database latestOrder windowOrder balance)
      global earner true=.ok (some ix)) :
    (ix.claimBalance : ℚ)*((latest.index : ℚ)-u.index)/u.index≤
      exactYield balance (perSecond (history.since u)) := by
  obtain ⟨w,hw,hcb⟩ := buildClaimInstruction_eq_ok h
  obtain ⟨newest,steps,claimYield,hwalk⟩ := claimWalk_eq_ok hw
  have hnewest : newest=latest := by
    have hn := hwalk.newest
    rw [History.database,history.currentIndex_eq,hlatest] at hn
    exact (Option.some.inj hn).symm
  subst hnewest
  have hsteps : history.since u=w.first::steps := by
    have hwin := hwalk.window
    rw [hts,History.database,history.indexUpdates_eq] at hwin
    rw [← hwin,History.window,History.since]
    refine List.filter_congr ?_
    intro v hv
    have hle := history.ts_le_latest hlatest v hv
    simp only [Nat.lt_succ_of_le hle,decide_true,Bool.and_true]
  have hfirst : w.first∈history.updates :=
    List.mem_of_mem_filter (hsteps ▸ List.mem_cons_self : w.first∈history.since u)
  obtain ⟨hnn,hle⟩ := claimLoop_le hwalk.loop (le_refl 0) (hpos w.first hfirst) (le_refl (0 : ℚ))
  have hlt := hwalk.unclaimed
  rw [hindex] at hlt
  rw [hcb,hwalk.claimBalance,hindex,hsteps]
  exact (reward_le hnn (hpos u hu) hlt).trans hle

/-- Where the updates in the second of u carry its index, the first of them may stand for u. -/
theorem exactYield_perSecond {same : List IndexUpdate} {after : List IndexUpdate}
    (hsecond : ∀ v∈same,v.ts=u.ts)
    (hindex : laterSeconds u after=[] ∨ ∀ v∈same,v.index=u.index) :
    exactYield balance (perSecond (same++u::after))=
      accrue (u.index : ℚ) 0 (points balance (laterSeconds u after)) := by
  cases same with
  | nil => rfl
  | cons p same =>
    have hp := hsecond p (by simp)
    have hskip : laterSeconds p (same++u::after)=laterSeconds u after := by
      have hall : ∀ v∈same++[u],v.ts=p.ts := by
        intro v hv
        rcases List.mem_append.mp hv with hv|hv
        · rw [hp,hsecond v (by simp [hv])]
        · rw [List.mem_singleton.mp hv,hp]
      rw [List.append_cons,laterSeconds_append hall,laterSeconds_congr hp]
    rw [List.cons_append,perSecond,exactYield,hskip]
    rcases hindex with hnone|hindex
    · rw [hnone]
      rfl
    · rw [hindex p (by simp)]

/-- A claim on the newest index pays at most the exact yield over the first updates of the
seconds since the last claim's. Where the updates of a second carry one index, the newest second
apart, that is at most the exact yield over all updates after the one last claimed. -/
theorem claim_le_exactYield (hpos : ∀ v∈history.updates,0<v.index) (hu : u∈history.updates)
    (hindex : earner.lastClaimIndex=u.index) (hts : earner.lastClaimTimestamp=u.ts)
    (hlatest : history.updates.getLast? = some latest)
    (h : buildClaimInstruction feeTokenAccount (history.database latestOrder windowOrder balance)
      global earner true=.ok (some ix)) :
    (ix.claimBalance : ℚ)*((latest.index : ℚ)-u.index)/u.index≤
        exactYield balance (perSecond (history.since u)) ∧
      ((∀ v∈history.since u,∀ w∈history.since u,v.ts=w.ts → v.ts<latest.ts → v.index=w.index) →
        (ix.claimBalance : ℚ)*((latest.index : ℚ)-u.index)/u.index≤
          exactYield balance (u::history.after u)) := by
  have hle := claim_le_perSecond hpos hu hindex hts hlatest h
  refine ⟨hle,?_⟩
  intro hsame
  refine hle.trans ?_
  obtain ⟨same,hsplit,hsecond⟩ := history.since_split hu
  have hord : (u::history.after u).Pairwise Precedes := by
    have ho : (history.since u).Pairwise Precedes := history.ordered.filter _
    rw [hsplit] at ho
    exact (List.pairwise_append.mp ho).2.1
  have hmem : ∀ v∈u::history.after u,v∈history.since u := by
    intro v hv
    rw [hsplit]
    exact List.mem_append_right same hv
  have hfinal : ∀ v∈u::history.after u,v.ts≤latest.ts :=
    fun v hv => history.ts_le_latest hlatest v (List.mem_of_mem_filter (hmem v hv))
  have hfirst : laterSeconds u (history.after u)=[] ∨ ∀ v∈same,v.index=u.index := by
    by_cases ht : u.ts<latest.ts
    · refine .inr ?_
      intro v hv
      have hv' : v∈history.since u := by
        rw [hsplit]
        exact List.mem_append_left _ hv
      have hvu := hsecond v hv
      exact hsame v hv' u (hmem u (by simp)) hvu (hvu ▸ ht)
    · have hts' : ∀ v∈history.after u,v.ts=u.ts := by
        intro v hv
        have h1 := ((List.pairwise_cons.mp hord).1 v hv).2.2
        have h2 := hfinal v (by simp [hv])
        omega
      have hnil := laterSeconds_append hts' []
      rw [List.append_nil] at hnil
      exact .inl hnil
  rw [hsplit,exactYield_perSecond hsecond hfirst]
  exact accrue_laterSeconds_le balance hord (hpos u hu) latest.ts hfinal
    (fun v hv w hw => hsame v (hmem v hv) w (hmem w hw)) (le_refl 0)

end Claim

/-- The claim of an earner with 100 tokens (or the given balances) from a ledger. -/
def sampleClaim (history : History) (earner : Earner) (balance : Nat → Nat) :
    Except ClaimError (Option ClaimFor) :=
  buildClaimInstruction some (history.database (.stable _) (.stable _) balance)
    ⟨.ofByte 1,none,none⟩ earner true

def sampleEarner (lastClaimIndex lastClaimTimestamp : Nat) : Earner :=
  ⟨.ofByte 2,lastClaimIndex,lastClaimTimestamp,.ofByte 3,.ofByte 4,none⟩

/-- One update a second. -/
def spread : History := ⟨[⟨100,10,1⟩,⟨110,20,2⟩,⟨121,30,3⟩],by decide⟩

theorem claim_le_exactYield_spread :
    ((100 : Int) : ℚ)*(((121 : Nat) : ℚ)-((100 : Nat) : ℚ))/((100 : Nat) : ℚ)≤
        exactYield (fun _ => 100) (perSecond (spread.since ⟨100,10,1⟩)) ∧
      ((100 : Int) : ℚ)*(((121 : Nat) : ℚ)-((100 : Nat) : ℚ))/((100 : Nat) : ℚ)≤
        exactYield (fun _ => 100) (⟨100,10,1⟩::spread.after ⟨100,10,1⟩) := by
  have h : sampleClaim spread (sampleEarner 100 10) (fun _ => 100)=
      .ok (some ⟨100,.ofByte 3,.ofByte 4,.ofByte 2⟩) := by decide +kernel
  have hc := claim_le_exactYield (u := ⟨100,10,1⟩) (by decide) (by decide) rfl rfl rfl h
  exact ⟨hc.1,hc.2 (by decide)⟩

/-- The second of the last claim and a second in the middle of the window each hold two updates. -/
def crowded : History := ⟨[⟨100,10,1⟩,⟨110,10,2⟩,⟨121,20,3⟩],by decide⟩

def crowdedMiddle : History := ⟨[⟨100,10,1⟩,⟨110,20,2⟩,⟨121,20,3⟩,⟨242,30,4⟩],by decide⟩

theorem claim_exceeds_yield_after :
    (sampleClaim crowded (sampleEarner 110 10) (fun _ => 100)=
        .ok (some ⟨210,.ofByte 3,.ofByte 4,.ofByte 2⟩) ∧
      exactYield (fun _ => 100) (⟨110,10,2⟩::crowded.after ⟨110,10,2⟩)<(210 : ℚ)*(121-110)/110) ∧
    (sampleClaim crowdedMiddle (sampleEarner 100 10) (fun ts => if ts<30 then 0 else 100)=
        .ok (some ⟨84,.ofByte 3,.ofByte 4,.ofByte 2⟩) ∧
      exactYield (fun ts => if ts<30 then 0 else 100)
        (⟨100,10,1⟩::crowdedMiddle.after ⟨100,10,1⟩)<(84 : ℚ)*(242-100)/100) := by
  refine ⟨⟨by decide +kernel,?_⟩,by decide +kernel,?_⟩
  · have hafter : crowded.after ⟨110,10,2⟩=[⟨121,20,3⟩] := by decide
    rw [hafter]
    norm_num [exactYield,points,grow]
  · have hafter : crowdedMiddle.after ⟨100,10,1⟩=[⟨110,20,2⟩,⟨121,20,3⟩,⟨242,30,4⟩] := by decide
    rw [hafter]
    norm_num [exactYield,points,grow]

end SolanaM.Sdk
