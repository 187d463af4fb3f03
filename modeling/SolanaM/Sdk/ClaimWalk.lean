import SolanaM.Sdk.History

namespace SolanaM.Sdk

theorem defined_eq_ok {α : Type} {o : Option α} {a : α} : defined o=.ok a ↔ o=some a := by
  cases o <;> simp [defined]

theorem safeInteger_of_lt {n : Nat} (h : n<2^53) : safeInteger n=.ok n := if_pos h

theorem bnDiv_of_pos {a b : Int} (h : 0<b) : bnDiv a b=.ok (a.tdiv b) := if_neg h.ne'

theorem safeInteger_eq_ok {n m : Nat} (h : safeInteger n=.ok m) : m=n := by
  unfold safeInteger at h
  split at h
  · cases h
    rfl
  · exact nomatch h

theorem bnDiv_eq_ok {a b q : Int} (h : bnDiv a b=.ok q) : b≠0 ∧ q=a.tdiv b := by
  unfold bnDiv at h
  split at h
  · exact nomatch h
  · rename_i hb
    cases h
    exact ⟨hb,rfl⟩

/-- A step to a later second: the yield and the balance grow with the index. -/
theorem claimLoop_later (balance : Nat → Nat) {last current : IndexUpdate} (y : Int)
    (steps : List IndexUpdate) (hts : last.ts<current.ts) (hle : last.index ≤ current.index)
    (hpos : 0<last.index) (hsafe : current.index<2^53) :
    claimLoop balance last y (current::steps)=claimLoop balance current
      (((y+balance current.ts)*current.index).tdiv last.index-balance current.ts) steps := by
  have hsame : ¬current.ts=last.ts := by omega
  have hvalid : ¬(current.index<last.index ∨ current.ts<last.ts) := by omega
  have hi : (0 : Int)<last.index := by exact_mod_cast hpos
  rw [claimLoop,if_neg hsame,if_neg hvalid,safeInteger_of_lt hsafe,
    safeInteger_of_lt (hle.trans_lt hsafe)]
  simp only [bind,Except.bind,bnDiv_of_pos hi]

/-- What a claim on the latest index came from. -/
structure Walked (db : Database) (global : GlobalAccountData) (earner : Earner) (w : ClaimWalk)
    (latest : IndexUpdate) (steps : List IndexUpdate) (claimYield : Int) : Prop where
  newest : db.currentIndex=some latest
  unclaimed : earner.lastClaimIndex<latest.index
  window : (db.indexUpdates earner.lastClaimTimestamp (some (latest.ts+1))).reverse=w.first::steps
  loop : claimLoop (db.getBalanceAt earner.userTokenAccount global.extMint) w.first 0 steps=
    .ok (w.last,claimYield)
  claimBalance : w.claimBalance=
    (claimYield*earner.lastClaimIndex).tdiv (latest.index-earner.lastClaimIndex)
  positive : 0<w.claimBalance

theorem claimWalk_eq_ok {db : Database} {global : GlobalAccountData} {earner : Earner}
    {w : ClaimWalk} (h : claimWalk db global earner true=.ok (some w)) :
    ∃ latest steps claimYield,Walked db global earner w latest steps claimYield := by
  simp only [claimWalk,bind_eq_ok,defined_eq_ok,if_true] at h
  obtain ⟨latest,hlatest,latestIndex,hidx,h⟩ := h
  obtain rfl := safeInteger_eq_ok hidx
  by_cases hc : earner.lastClaimIndex≥latest.index
  · rw [if_pos hc] at h
    exact nomatch h
  · simp only [if_neg hc,bind_eq_ok] at h
    obtain ⟨fromTime,hfrom,toTime,hto,h⟩ := h
    obtain rfl := safeInteger_eq_ok hfrom
    cases hto
    cases hsteps : (db.indexUpdates earner.lastClaimTimestamp (some (latest.ts+1))).reverse with
    | nil =>
      rw [hsteps] at h
      exact nomatch h
    | cons first steps =>
      simp only [hsteps,bind_eq_ok] at h
      obtain ⟨⟨last,claimYield⟩,hloop,claimBalance,hdiv,h⟩ := h
      obtain ⟨_,rfl⟩ := bnDiv_eq_ok hdiv
      split at h
      · exact nomatch h
      · rename_i hpos
        cases h
        exact ⟨latest,steps,claimYield,hlatest,Nat.lt_of_not_le hc,hsteps,hloop,rfl,
          Int.lt_of_not_ge hpos⟩

/-- The claimBalance of an instruction is the one the walk came to. -/
theorem buildClaimInstruction_eq_ok {feeTokenAccount : Key → Option Key} {db : Database}
    {global : GlobalAccountData} {earner : Earner} {pendingSync : Bool} {ix : ClaimFor}
    (h : buildClaimInstruction feeTokenAccount db global earner pendingSync=.ok (some ix)) :
    ∃ w,claimWalk db global earner pendingSync=.ok (some w) ∧ ix.claimBalance=w.claimBalance := by
  simp only [buildClaimInstruction,bind_eq_ok] at h
  obtain ⟨walk,hwalk,h⟩ := h
  cases walk with
  | none => exact nomatch h
  | some w =>
    simp only [bind_eq_ok] at h
    obtain ⟨fee,_,h⟩ := h
    split at h
    · cases h
      exact ⟨w,hwalk,rfl⟩
    · exact nomatch h

/-- The loop ends at the first update of the latest second it saw. -/
theorem claimLoop_last {indexBalance : Nat → Nat} {last u : IndexUpdate} {y z : Int}
    {steps : List IndexUpdate} (h : claimLoop indexBalance last y steps=.ok (u,z))
    (hord : (last::steps).Pairwise (fun a b => a.ts≤b.ts)) :
    (last::steps).find? (fun v => u.ts≤v.ts)=some u ∧ ∀ v∈last::steps,v.ts≤u.ts := by
  induction steps generalizing last y with
  | nil =>
    cases h
    simp
  | cons current steps ih =>
    obtain ⟨hlast,hrest⟩ := List.pairwise_cons.mp hord
    obtain ⟨hcur,hsteps⟩ := List.pairwise_cons.mp hrest
    have hlc := hlast current (by simp)
    by_cases hsame : current.ts=last.ts
    · rw [claimLoop,if_pos hsame] at h
      have hord' : (last::steps).Pairwise (fun a b => a.ts≤b.ts) :=
        List.pairwise_cons.mpr ⟨fun v hv => hlast v (by simp [hv]),hsteps⟩
      obtain ⟨hfind,hmax⟩ := ih h hord'
      refine ⟨?_,?_⟩
      · by_cases hu : u.ts≤last.ts
        · simp only [List.find?_cons,hu,decide_true] at hfind ⊢
          exact hfind
        · have hu' : ¬u.ts ≤ current.ts := by omega
          simp only [List.find?_cons,hu,hu',decide_false] at hfind ⊢
          exact hfind
      · intro v hv
        have hlu := hmax last (by simp)
        rcases List.mem_cons.mp hv with rfl|hv
        · exact hlu
        · rcases List.mem_cons.mp hv with rfl|hv
          · omega
          · exact hmax v (by simp [hv])
    · rw [claimLoop,if_neg hsame] at h
      split at h
      · exact nomatch h
      · simp only [bind_eq_ok] at h
        obtain ⟨_,_,_,_,_,_,h⟩ := h
        obtain ⟨hfind,hmax⟩ := ih h hrest
        have hcu := hmax current (by simp)
        have hu : ¬u.ts≤last.ts := by omega
        refine ⟨?_,?_⟩
        · rw [List.find?_cons]
          simp only [hu,decide_false]
          exact hfind
        · intro v hv
          rcases List.mem_cons.mp hv with rfl|hv
          · omega
          · exact hmax v hv

end SolanaM.Sdk
