import SolanaM.Sdk.ClaimWalk

namespace SolanaM.Sdk

/-- The index updates of a ledger that may hold several in one block: from block to block neither
index nor time falls, a block has one time, and times are dates. -/
structure TiedHistory where
  updates : List IndexUpdate
  grows : ∀ u∈updates,∀ v∈updates,u.blockHeight<v.blockHeight → u.index≤v.index ∧ u.ts≤v.ts
  sameTime : ∀ u∈updates,∀ v∈updates,u.blockHeight=v.blockHeight → u.ts=v.ts
  dated : ∀ u∈updates,u.ts≤8640000000000

/-- How the server breaks ties for the two queries of one run. -/
structure TieBreak where
  latest : DescendingSort IndexUpdate.blockHeight
  window : DescendingSort IndexUpdate.blockHeight

/-- What follows the loop of buildClaimInstruction once it has come to claimYield. -/
def claimYielded (feeTokenAccount : Key → Option Key) (earner : Earner) (latestIndex : Nat)
    (claimYield : Int) : Except ClaimError (Option ClaimFor) := do
  let claimBalance ← bnDiv (claimYield*earner.lastClaimIndex) (latestIndex-earner.lastClaimIndex)
  if claimBalance≤0 then .ok none
  else do
    let feeAccount ← defined (feeTokenAccount earner.earnManager)
    if claimBalance<2^64 then
      .ok (some ⟨claimBalance,earner.recipientTokenAccount.getD earner.userTokenAccount,
        feeAccount,earner.pubkey⟩)
    else .error .bigNumber

def claimOver (feeTokenAccount : Key → Option Key) (earner : Earner) (balance : Nat → Nat)
    (latestIndex : Nat) : List IndexUpdate → Except ClaimError (Option ClaimFor)
  | [] => .ok none
  | first::steps => do
      let (_,claimYield) ← claimLoop balance first 0 steps
      claimYielded feeTokenAccount earner latestIndex claimYield

theorem buildClaimInstruction_missing {feeTokenAccount : Key → Option Key} {db : Database}
    {global : GlobalAccountData} {earner : Earner} (h : db.currentIndex=none) :
    buildClaimInstruction feeTokenAccount db global earner true=.error .typeError := by
  simp only [buildClaimInstruction,claimWalk,h,defined]
  rfl

/-- buildClaimInstruction behind its queries, when it waits for no sync. -/
theorem buildClaimInstruction_pending {feeTokenAccount : Key → Option Key} {db : Database}
    {global : GlobalAccountData} {earner : Earner} {latest : IndexUpdate}
    (h : db.currentIndex=some latest) :
    buildClaimInstruction feeTokenAccount db global earner true=(do
      let latestIndex ← safeInteger latest.index
      if earner.lastClaimIndex≥latestIndex then .ok none
      else do
        let fromTime ← safeInteger earner.lastClaimTimestamp
        claimOver feeTokenAccount earner
          (db.getBalanceAt earner.userTokenAccount global.extMint) latestIndex
          (db.indexUpdates fromTime (some (latest.ts+1))).reverse) := by
  have hdef : defined db.currentIndex=.ok latest := defined_eq_ok.mpr h
  simp only [buildClaimInstruction,claimWalk,hdef,bind,Except.bind,if_true]
  cases safeInteger latest.index with
  | error e => rfl
  | ok latestIndex =>
    by_cases hclaimed : earner.lastClaimIndex≥latestIndex
    · simp only [if_pos hclaimed]
    · simp only [if_neg hclaimed]
      cases safeInteger earner.lastClaimTimestamp with
      | error e => rfl
      | ok fromTime =>
        simp only
        cases (db.indexUpdates fromTime (some (latest.ts+1))).reverse with
        | nil => rfl
        | cons first steps =>
          simp only [claimOver,bind,Except.bind]
          cases claimLoop (db.getBalanceAt earner.userTokenAccount global.extMint) first 0 steps with
          | error e => rfl
          | ok p =>
            simp only [claimYielded,bind,Except.bind]
            cases bnDiv (p.2*earner.lastClaimIndex) (latestIndex-earner.lastClaimIndex) with
            | error e => rfl
            | ok claimBalance =>
              simp only
              by_cases hpos : claimBalance≤0
              · simp only [if_pos hpos]
              · simp only [if_neg hpos]

namespace TiedHistory

variable (h : TiedHistory)

def database (order : TieBreak) (balance : Key → Key → Nat → Nat) : Database where
  currentIndex := currentIndex order.latest h.updates
  indexUpdates := indexUpdates order.window h.updates
  getBalanceAt := balance

/-- The latest index of a run and what the run returns or throws. -/
def outcome (balance : Key → Key → Nat → Nat) (feeTokenAccount : Key → Option Key)
    (global : GlobalAccountData) (earner : Earner) (order : TieBreak) :
    Option Nat × Except ClaimError (Option ClaimFor) :=
  ((h.database order balance).currentIndex.map IndexUpdate.index,
    buildClaimInstruction feeTokenAccount (h.database order balance) global earner true)

/-- u is in the newest block. -/
def Newest (u : IndexUpdate) : Prop := u∈h.updates ∧ ∀ v∈h.updates,v.blockHeight≤u.blockHeight

/-- u is in the first block of its second. -/
def Opens (u : IndexUpdate) : Prop :=
  u∈h.updates ∧ ∀ v∈h.updates,v.ts=u.ts → u.blockHeight≤v.blockHeight

/-- u is in the first block of the window that starts at fromTime. -/
def Starts (fromTime : Nat) (u : IndexUpdate) : Prop :=
  (u∈h.updates ∧ fromTime≤u.ts) ∧
    ∀ v∈h.updates,fromTime≤v.ts → u.blockHeight≤v.blockHeight

/-- The window that starts at fromTime goes over more than one second. -/
def Spans (fromTime : Nat) : Prop :=
  ∃ u∈h.updates,∃ v∈h.updates,fromTime≤u.ts ∧ u.ts<v.ts

/-- What an earner of that record needs of the window: its first block throws whichever update
stands for it, or throws with none, and unless the record is zero the first block of each second
carries one index. -/
def SettledFrom (earner : Earner) : Prop :=
  (∀ u,h.Starts earner.lastClaimTimestamp u → u.index=0) ∨
    (∀ u,h.Starts earner.lastClaimTimestamp u → u.index≠0) ∧
      (earner.lastClaimIndex=0 ∨ ∀ v v',h.Opens v → h.Opens v' →
        earner.lastClaimTimestamp≤v.ts → v.ts=v'.ts → v.index=v'.index)

/-- The run gets to the updates of the window: the newest index is one that a BN takes and that
is above the earner's, and the window starts at a second that a number holds. -/
def Walks (earner : Earner) : Prop :=
  (∃ u,h.Newest u ∧ u.index<2^53 ∧ earner.lastClaimIndex<u.index) ∧
    earner.lastClaimTimestamp<2^53

/-- The updates of the newest block carry one index and, where a run walks over more than one
second, the window of the earner is settled. -/
def TieProof (earner : Earner) : Prop :=
  (∀ u u',h.Newest u → h.Newest u' → u.index=u'.index) ∧
    (h.Walks earner → h.Spans earner.lastClaimTimestamp → h.SettledFrom earner)

/-- An earner with the same window, whose record is zero or above the newest indices where the
other's is. -/
structure Alike (earner earner' : Earner) : Prop where
  window : earner'.lastClaimTimestamp=earner.lastClaimTimestamp
  zero : earner'.lastClaimIndex=0 ↔ earner.lastClaimIndex=0
  claimed : ∀ u,h.Newest u → (earner'.lastClaimIndex<u.index ↔ earner.lastClaimIndex<u.index)

variable {h}

theorem ts_le_of_height {u v : IndexUpdate} (hu : u∈h.updates) (hv : v∈h.updates)
    (hle : u.blockHeight≤v.blockHeight) : u.ts≤v.ts := by
  rcases Nat.lt_or_eq_of_le hle with hlt|heq
  · exact (h.grows u hu v hv hlt).2
  · exact Nat.le_of_eq (h.sameTime u hu v hv heq)

theorem height_lt_of_ts {u v : IndexUpdate} (hu : u∈h.updates) (hv : v∈h.updates)
    (hlt : u.ts<v.ts) : u.blockHeight<v.blockHeight := by
  apply Nat.lt_of_not_le
  intro hle
  have := ts_le_of_height hv hu hle
  omega

theorem index_le_of_ts {u v : IndexUpdate} (hu : u∈h.updates) (hv : v∈h.updates)
    (hlt : u.ts<v.ts) : u.index≤v.index := (h.grows u hu v hv (height_lt_of_ts hu hv hlt)).1

theorem currentIndex_newest {order : DescendingSort IndexUpdate.blockHeight} {u : IndexUpdate}
    (hu : currentIndex order h.updates=some u) : h.Newest u := by
  rw [currentIndex] at hu
  cases hs : order.sort h.updates with
  | nil => simp [hs] at hu
  | cons v rest =>
    have huv : v=u := by simpa [hs] using hu
    exact huv ▸ order.first_max hs

/-- Every update of the newest block is one that the server may name as the current index. -/
theorem exists_currentIndex {u : IndexUpdate} (hu : h.Newest u) :
    ∃ order,currentIndex order h.updates=some u := by
  obtain ⟨order,rest,hs⟩ := DescendingSort.exists_first hu.1 hu.2
  exact ⟨order,by simp [currentIndex,hs]⟩

/-- The updates from a second on, oldest block first. -/
structure Ascending (h : TiedHistory) (fromTime : Nat) (rows : List IndexUpdate) : Prop where
  perm : rows.Perm (h.updates.filter fun u => fromTime≤u.ts)
  sorted : rows.Pairwise fun u v => u.blockHeight≤v.blockHeight

theorem indexUpdates_all {latest : IndexUpdate} (hl : h.Newest latest)
    (order : DescendingSort IndexUpdate.blockHeight) (fromTime : Nat) :
    indexUpdates order h.updates fromTime (some (latest.ts+1))=
      order.sort (h.updates.filter fun u => fromTime≤u.ts) := by
  rw [indexUpdates]
  apply List.filter_eq_self.mpr
  intro u hu
  have hmem : u∈h.updates := List.mem_of_mem_filter ((order.perm _).subset hu)
  have hle := ts_le_of_height hmem hl.1 (hl.2 u hmem)
  simp only [decide_eq_true_eq]
  omega

theorem ascending_indexUpdates {latest : IndexUpdate} (hl : h.Newest latest)
    (order : DescendingSort IndexUpdate.blockHeight) (fromTime : Nat) :
    h.Ascending fromTime (indexUpdates order h.updates fromTime (some (latest.ts+1))).reverse := by
  rw [indexUpdates_all hl]
  exact ⟨(List.reverse_perm _).trans (order.perm _),List.pairwise_reverse.mpr (order.sorted _)⟩

/-- The server may answer with any ascending arrangement. -/
theorem exists_indexUpdates {latest : IndexUpdate} (hl : h.Newest latest) {fromTime : Nat}
    {rows : List IndexUpdate} (hr : h.Ascending fromTime rows) :
    ∃ order,(indexUpdates order h.updates fromTime (some (latest.ts+1))).reverse=rows := by
  obtain ⟨order,hsort⟩ := DescendingSort.exists_sort ((List.reverse_perm rows).trans hr.perm)
    (List.pairwise_reverse.mpr hr.sorted)
  exact ⟨order,by rw [indexUpdates_all hl,hsort,List.reverse_reverse]⟩

theorem Ascending.mem_iff {fromTime : Nat} {rows : List IndexUpdate}
    (hr : h.Ascending fromTime rows) {u : IndexUpdate} :
    u∈rows ↔ u∈h.updates ∧ fromTime≤u.ts := by
  rw [hr.perm.mem_iff,List.mem_filter,decide_eq_true_eq]

/-- The rest of an ascending arrangement, once the seconds up to t are over. -/
structure Remaining (h : TiedHistory) (t : Nat) (rows : List IndexUpdate) : Prop where
  sorted : rows.Pairwise fun u v => u.blockHeight≤v.blockHeight
  known : ∀ u∈rows,u∈h.updates ∧ t≤u.ts
  complete : ∀ u∈h.updates,t<u.ts → u∈rows

/-- What follows an update, in a sorted list that holds all the later seconds. -/
theorem Remaining.of_cons {u : IndexUpdate} {rows : List IndexUpdate}
    (hsorted : (u::rows).Pairwise fun u v => u.blockHeight≤v.blockHeight)
    (hknown : ∀ v∈u::rows,v∈h.updates) (hcomplete : ∀ v∈h.updates,u.ts<v.ts → v∈u::rows) :
    h.Remaining u.ts rows := by
  obtain ⟨hu,hrows⟩ := List.pairwise_cons.mp hsorted
  refine ⟨hrows,?_,?_⟩
  · intro v hv
    have hv' := hknown v (List.mem_cons_of_mem u hv)
    exact ⟨hv',ts_le_of_height (hknown u List.mem_cons_self) hv' (hu v hv)⟩
  · intro v hv hlt
    rcases List.mem_cons.mp (hcomplete v hv hlt) with hvu|hvr
    · rw [hvu] at hlt
      exact absurd hlt (Nat.lt_irrefl _)
    · exact hvr

/-- The head of a sorted list that holds all of its second opens it. -/
theorem opens_of_cons {u : IndexUpdate} {rows : List IndexUpdate}
    (hsorted : (u::rows).Pairwise fun u v => u.blockHeight≤v.blockHeight) (hu : u∈h.updates)
    (hcomplete : ∀ v∈h.updates,v.ts=u.ts → v∈u::rows) : h.Opens u := by
  refine ⟨hu,?_⟩
  intro v hv hts
  rcases List.mem_cons.mp (hcomplete v hv hts) with hvu|hvr
  · rw [hvu]
  · exact (List.pairwise_cons.mp hsorted).1 v hvr

theorem Remaining.tail {t : Nat} {u : IndexUpdate} {rows : List IndexUpdate}
    (hr : h.Remaining t (u::rows)) : h.Remaining u.ts rows := by
  have ht := (hr.known u List.mem_cons_self).2
  apply Remaining.of_cons hr.sorted
  · intro v hv
    exact (hr.known v hv).1
  · intro v hv hlt
    exact hr.complete v hv (Nat.lt_of_le_of_lt ht hlt)

/-- The update that comes first after a second is over opens its own second. -/
theorem Remaining.opens {t : Nat} {u : IndexUpdate} {rows : List IndexUpdate}
    (hr : h.Remaining t (u::rows)) (hlt : t<u.ts) : h.Opens u := by
  apply opens_of_cons hr.sorted (hr.known u List.mem_cons_self).1
  intro v hv hts
  exact hr.complete v hv (hts ▸ hlt)

theorem Ascending.remaining {fromTime : Nat} {u : IndexUpdate} {rows : List IndexUpdate}
    (hr : h.Ascending fromTime (u::rows)) : h.Remaining u.ts rows := by
  have hfrom := (hr.mem_iff.mp List.mem_cons_self).2
  apply Remaining.of_cons hr.sorted
  · intro v hv
    exact (hr.mem_iff.mp hv).1
  · intro v hv hlt
    exact hr.mem_iff.mpr ⟨hv,by omega⟩

theorem Ascending.opens {fromTime : Nat} {u : IndexUpdate} {rows : List IndexUpdate}
    (hr : h.Ascending fromTime (u::rows)) : h.Opens u := by
  have hu := hr.mem_iff.mp List.mem_cons_self
  apply opens_of_cons hr.sorted hu.1
  intro v hv hts
  exact hr.mem_iff.mpr ⟨hv,by omega⟩

theorem Ascending.starts {fromTime : Nat} {u : IndexUpdate} {rows : List IndexUpdate}
    (hr : h.Ascending fromTime (u::rows)) : h.Starts fromTime u := by
  refine ⟨hr.mem_iff.mp List.mem_cons_self,?_⟩
  intro v hv hfrom
  rcases List.mem_cons.mp (hr.mem_iff.mpr ⟨hv,hfrom⟩) with hvu|hvr
  · rw [hvu]
  · exact (List.pairwise_cons.mp hr.sorted).1 v hvr

/-- Two arrangements have the same seconds at the same places. -/
theorem Ascending.times_eq {fromTime : Nat} {rows rows' : List IndexUpdate}
    (hr : h.Ascending fromTime rows) (hr' : h.Ascending fromTime rows') :
    rows.map IndexUpdate.ts=rows'.map IndexUpdate.ts := by
  have htimes {l : List IndexUpdate} (hl : h.Ascending fromTime l) :
      (l.map IndexUpdate.ts).Pairwise (·≤·) := by
    rw [List.pairwise_map]
    refine hl.sorted.imp_of_mem ?_
    intro u v hu hv hle
    exact ts_le_of_height (hl.mem_iff.mp hu).1 (hl.mem_iff.mp hv).1 hle
  apply List.Perm.eq_of_pairwise' (htimes hr) (htimes hr')
  exact (hr.perm.trans hr'.perm.symm).map _

/-- Where the openers agree, the loop comes to the same yield over both arrangements. -/
theorem claimLoop_agree {balance : Nat → Nat} {last last' : IndexUpdate} {y : Int}
    {rows rows' : List IndexUpdate} (hr : h.Remaining last.ts rows)
    (hr' : h.Remaining last'.ts rows')
    (htimes : rows.map IndexUpdate.ts=rows'.map IndexUpdate.ts) (hlast : last.ts=last'.ts)
    (hindex : last.index=last'.index)
    (hsettled : ∀ v v',h.Opens v → h.Opens v' → v.ts=v'.ts → last.ts<v.ts → v.index=v'.index) :
    (claimLoop balance last y rows).map Prod.snd=(claimLoop balance last' y rows').map Prod.snd := by
  induction rows generalizing last last' y rows' with
  | nil =>
    have hnil : rows'=[] := List.map_eq_nil_iff.mp htimes.symm
    rw [hnil]
    rfl
  | cons u rows ih =>
    cases rows' with
    | nil => simp at htimes
    | cons u' rows' =>
      rw [List.map_cons,List.map_cons,List.cons.injEq] at htimes
      obtain ⟨huu,htimes⟩ := htimes
      by_cases hsame : u.ts=last.ts
      · have hsame' : u'.ts=last'.ts := by omega
        rw [claimLoop,if_pos hsame,claimLoop,if_pos hsame']
        exact ih (hsame ▸ hr.tail) (hsame' ▸ hr'.tail) htimes hlast hindex hsettled
      · have hsame' : ¬u'.ts=last'.ts := by omega
        have hlt : last.ts<u.ts := by
          have := (hr.known u List.mem_cons_self).2
          omega
        have hlt' : last'.ts<u'.ts := by omega
        have hui := hsettled u u' (hr.opens hlt) (hr'.opens hlt') huu hlt
        rw [claimLoop,if_neg hsame,claimLoop,if_neg hsame',← huu,← hui,← hindex,← hlast]
        split
        · rfl
        · simp only [bind,Except.bind]
          cases safeInteger u.index with
          | error e => rfl
          | ok n =>
            simp only
            cases safeInteger last.index with
            | error e => rfl
            | ok l =>
              simp only
              cases bnDiv ((y+(balance u.ts : Int))*n) l with
              | error e => rfl
              | ok grown =>
                simp only
                refine ih hr.tail hr'.tail htimes huu hui ?_
                intro v v' hv hv' hvv hltv
                exact hsettled v v' hv hv' hvv (hlt.trans hltv)

theorem claimLoop_same {balance : Nat → Nat} {last : IndexUpdate} {y : Int}
    {rows : List IndexUpdate} (hsame : ∀ u∈rows,u.ts=last.ts) :
    claimLoop balance last y rows=.ok (last,y) := by
  induction rows with
  | nil => rfl
  | cons u rows ih =>
    rw [claimLoop,if_pos (hsame u List.mem_cons_self)]
    exact ih fun v hv => hsame v (List.mem_cons_of_mem u hv)

/-- A BN division by zero throws as soon as a second follows one with index 0. -/
theorem claimLoop_zero {balance : Nat → Nat} {last : IndexUpdate} {y : Int}
    {rows : List IndexUpdate} (hr : h.Remaining last.ts rows)
    (hsafe : ∀ u∈h.updates,u.index<2^53) (hzero : last.index=0)
    (hlater : ∃ v∈rows,v.ts≠last.ts) : claimLoop balance last y rows=.error .bigNumber := by
  induction rows with
  | nil => simp at hlater
  | cons u rows ih =>
    by_cases hsame : u.ts=last.ts
    · rw [claimLoop,if_pos hsame]
      apply ih (hsame ▸ hr.tail)
      obtain ⟨v,hv,hne⟩ := hlater
      rcases List.mem_cons.mp hv with hvu|hvr
      · exact absurd (hvu ▸ hsame) hne
      · exact ⟨v,hvr,hne⟩
    · obtain ⟨hu,hle⟩ := hr.known u List.mem_cons_self
      have hvalid : ¬(u.index<last.index ∨ u.ts<last.ts) := by omega
      have hsafeu : safeInteger u.index=.ok u.index := if_pos (hsafe u hu)
      rw [claimLoop,if_neg hsame,if_neg hvalid,hsafeu,hzero]
      rfl

theorem claimOver_cons {feeTokenAccount : Key → Option Key} {earner : Earner}
    {balance : Nat → Nat} {latestIndex : Nat} {first : IndexUpdate} {steps : List IndexUpdate} :
    claimOver feeTokenAccount earner balance latestIndex (first::steps)=
      (((claimLoop balance first 0 steps).map Prod.snd) >>=
        claimYielded feeTokenAccount earner latestIndex) := by
  rw [claimOver]
  cases claimLoop balance first 0 steps with
  | error e => rfl
  | ok p => rfl

/-- After an index that is not zero the loop comes to its end. -/
theorem claimLoop_ok (balance : Nat → Nat) (y : Int) {last : IndexUpdate}
    {rows : List IndexUpdate} (hl : last∈h.updates) (hr : h.Remaining last.ts rows)
    (hsafe : ∀ u∈h.updates,u.index<2^53) (hpos : last.index≠0) :
    ∃ u z,claimLoop balance last y rows=.ok (u,z) := by
  induction rows generalizing last y with
  | nil => exact ⟨last,y,rfl⟩
  | cons u rows ih =>
    by_cases hsame : u.ts=last.ts
    · rw [claimLoop,if_pos hsame]
      exact ih y hl (hsame ▸ hr.tail) hpos
    · obtain ⟨hu,hle⟩ := hr.known u List.mem_cons_self
      have hlt : last.ts<u.ts := by omega
      have hindex := index_le_of_ts hl hu hlt
      rw [claimLoop_later balance y rows hlt hindex (Nat.pos_of_ne_zero hpos) (hsafe u hu)]
      exact ih _ hu hr.tail (by omega)

/-- With nothing on record there is nothing to claim. -/
theorem claimYielded_zero {feeTokenAccount : Key → Option Key} {earner : Earner}
    {latestIndex : Nat} (hzero : earner.lastClaimIndex=0) (hpos : 0<latestIndex) (y : Int) :
    claimYielded feeTokenAccount earner latestIndex y=.ok none := by
  have hd : (0 : Int)<(latestIndex : Int)-(0 : Nat) := by omega
  rw [claimYielded,hzero,bnDiv_of_pos hd]
  simp [bind,Except.bind]

private theorem claimOver_agree {feeTokenAccount : Key → Option Key} {earner : Earner}
    {balance : Nat → Nat} {latestIndex : Nat} {rows rows' : List IndexUpdate}
    (hr : h.Ascending earner.lastClaimTimestamp rows)
    (hr' : h.Ascending earner.lastClaimTimestamp rows')
    (hsettled : h.Spans earner.lastClaimTimestamp → h.SettledFrom earner)
    (hsafe : ∀ u∈h.updates,u.index<2^53) (hpos : 0<latestIndex) :
    claimOver feeTokenAccount earner balance latestIndex rows=
      claimOver feeTokenAccount earner balance latestIndex rows' := by
  have htimes := hr.times_eq hr'
  cases rows with
  | nil =>
    have hnil : rows'=[] := List.map_eq_nil_iff.mp htimes.symm
    rw [hnil]
  | cons first steps =>
    cases rows' with
    | nil => simp at htimes
    | cons first' steps' =>
      rw [List.map_cons,List.map_cons,List.cons.injEq] at htimes
      obtain ⟨hfirst,htimes⟩ := htimes
      have hmem {t : Nat} : (∃ w∈steps,w.ts=t) ↔ ∃ w∈steps',w.ts=t := by
        rw [← List.mem_map,← List.mem_map,htimes]
      rw [claimOver_cons,claimOver_cons]
      by_cases hone : ∀ w∈steps,w.ts=first.ts
      · -- one second: nothing accrues, whatever update stands for it
        have hone' : ∀ w∈steps',w.ts=first'.ts := by
          intro w hw
          obtain ⟨w',hw',hww⟩ := hmem.mpr ⟨w,hw,rfl⟩
          rw [← hww,hone w' hw',hfirst]
        rw [claimLoop_same hone,claimLoop_same hone']
        rfl
      · push Not at hone
        obtain ⟨w,hw,hne⟩ := hone
        obtain ⟨w',hw',hww⟩ := hmem.mp ⟨w,hw,rfl⟩
        have hwk := hr.remaining.known w hw
        have hf := hr.mem_iff.mp List.mem_cons_self
        rcases hsettled ⟨first,hf.1,w,hwk.1,hf.2,by omega⟩ with hzero|⟨hnonzero,hrest⟩
        · rw [claimLoop_zero hr.remaining hsafe (hzero first hr.starts) ⟨w,hw,hne⟩,
            claimLoop_zero hr'.remaining hsafe (hzero first' hr'.starts) ⟨w',hw',by omega⟩]
        · rcases hrest with hrecord|hopeners
          · obtain ⟨u,z,hloop⟩ := claimLoop_ok balance 0 hr.opens.1
              hr.remaining hsafe (hnonzero first hr.starts)
            obtain ⟨u',z',hloop'⟩ := claimLoop_ok balance 0 hr'.opens.1
              hr'.remaining hsafe (hnonzero first' hr'.starts)
            rw [hloop,hloop']
            exact (claimYielded_zero hrecord hpos z).trans (claimYielded_zero hrecord hpos z').symm
          · congr 1
            refine claimLoop_agree hr.remaining hr'.remaining htimes hfirst
              (hopeners first first' hr.opens hr'.opens hf.2 hfirst) ?_
            intro u u' hu hu' huu hltu
            exact hopeners u u' hu hu' (by omega) huu

theorem index_le_newest (hone : ∀ u u',h.Newest u → h.Newest u' → u.index=u'.index)
    {latest : IndexUpdate} (hl : h.Newest latest) {u : IndexUpdate} (hu : u∈h.updates) :
    u.index≤latest.index := by
  rcases Nat.lt_or_eq_of_le (hl.2 u hu) with hlt|heq
  · exact (h.grows u hu latest hl.1 hlt).1
  · exact Nat.le_of_eq (hone u latest ⟨hu,fun v hv => heq ▸ hl.2 v hv⟩ hl)

private theorem newest_ts {u v : IndexUpdate} (hu : h.Newest u) (hv : h.Newest v) : u.ts=v.ts :=
  h.sameTime u hu.1 v hv.1 (Nat.le_antisymm (hv.2 u hu.1) (hu.2 v hv.1))

theorem currentIndex_none {order : DescendingSort IndexUpdate.blockHeight} :
    currentIndex order h.updates=none ↔ h.updates=[] := by
  have hperm := order.perm h.updates
  rw [currentIndex]
  cases hs : order.sort h.updates with
  | nil =>
    rw [hs] at hperm
    simp [hperm.nil_eq]
  | cons u rest =>
    rw [hs] at hperm
    have hne : h.updates≠[] := List.ne_nil_of_mem (hperm.subset List.mem_cons_self)
    simp [hne]

/-- Where nothing is tied that counts, all runs come to the same. -/
theorem outcome_agree {earner : Earner} (hu : h.TieProof earner)
    (balance : Key → Key → Nat → Nat) (feeTokenAccount : Key → Option Key)
    (global : GlobalAccountData) (order order' : TieBreak) :
    h.outcome balance feeTokenAccount global earner order=
      h.outcome balance feeTokenAccount global earner order' := by
  obtain ⟨hone,hsettled⟩ := hu
  cases hl : (h.database order balance).currentIndex with
  | none =>
    have hl' : (h.database order' balance).currentIndex=none :=
      currentIndex_none.mpr (currentIndex_none.mp hl)
    rw [outcome,outcome,hl,hl',buildClaimInstruction_missing hl,buildClaimInstruction_missing hl']
  | some latest =>
    cases hl' : (h.database order' balance).currentIndex with
    | none =>
      have hnil : (h.database order balance).currentIndex=none :=
        currentIndex_none.mpr (currentIndex_none.mp hl')
      exact absurd (hl.symm.trans hnil) (by simp)
    | some latest' =>
      have hn := currentIndex_newest hl
      have hn' := currentIndex_newest hl'
      have hindex := hone latest latest' hn hn'
      rw [outcome,outcome,hl,hl',buildClaimInstruction_pending hl,
        buildClaimInstruction_pending hl',← hindex,← newest_ts hn hn']
      refine Prod.ext (congrArg some hindex) ?_
      by_cases hsafe : latest.index<2^53
      · have hsafe' : ∀ u∈h.updates,u.index<2^53 :=
          fun u hu => Nat.lt_of_le_of_lt (index_le_newest hone hn hu) hsafe
        rw [safeInteger_of_lt hsafe]
        simp only [bind,Except.bind]
        by_cases hclaimed : earner.lastClaimIndex≥latest.index
        · simp only [if_pos hclaimed]
        · simp only [if_neg hclaimed]
          by_cases hfrom : earner.lastClaimTimestamp<2^53
          · rw [safeInteger_of_lt hfrom]
            have hwalks : h.Walks earner := ⟨⟨latest,hn,hsafe,by omega⟩,hfrom⟩
            exact claimOver_agree (ascending_indexUpdates hn order.window _)
              (ascending_indexUpdates hn order'.window _) (hsettled hwalks) hsafe' (by omega)
          · have herror : safeInteger earner.lastClaimTimestamp=.error .bigNumber := if_neg hfrom
            simp only [herror]
      · have herror : safeInteger latest.index=.error .bigNumber := if_neg hsafe
        simp only [herror,bind,Except.bind]

end TiedHistory

end SolanaM.Sdk
