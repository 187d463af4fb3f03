import SolanaM.Framework.Run
import SolanaM.Sdk.ClaimWalk
import Mathlib.Data.List.Chain

namespace SolanaM.Sdk

/-- One run of the yield bot for the earner. Updates may still arrive between its two queries,
and the server breaks no ties for either. -/
structure ClaimCall where
  feeTokenAccount : Key → Option Key
  global : GlobalAccountData
  latestOrder : DescendingSort IndexUpdate.blockHeight
  windowOrder : DescendingSort IndexUpdate.blockHeight
  arriving : List IndexUpdate
  getBalanceAt : Key → Key → Nat → Nat

inductive BotAction
  | arrive (arriving : List IndexUpdate)
  | claim (call : ClaimCall)

structure BotState where
  history : History
  earner : Earner

namespace ClaimCall

/-- The answers the call gets: the first query from the earlier ledger, the second from the later. -/
def database (call : ClaimCall) (earlier later : History) : Database where
  currentIndex := currentIndex call.latestOrder earlier.updates
  indexUpdates := indexUpdates call.windowOrder later.updates
  getBalanceAt := call.getBalanceAt

end ClaimCall

/-- What the extension program is taken to record when a claim is issued. -/
def Earner.claimed (earner : Earner) (latest : IndexUpdate) : Earner :=
  {earner with lastClaimIndex := latest.index,lastClaimTimestamp := latest.ts}

/-- Updates arrive at the end of the ledger; an issued claim moves the earner's record, one that
throws or returns null changes nothing. -/
def bot : Machine BotState BotAction Unit ClaimWalk where
  step s
    | .arrive arriving =>
        match s.history.extend arriving with
        | some h => .ok (⟨h,s.earner⟩,[])
        | none => .error ()
    | .claim call =>
        match s.history.extend call.arriving with
        | none => .error ()
        | some h =>
            let db := call.database s.history h
            match buildClaimInstruction call.feeTokenAccount db call.global s.earner true,
              claimWalk db call.global s.earner true,db.currentIndex with
            | .ok (some _),.ok (some walk),some latest => .ok (⟨h,s.earner.claimed latest⟩,[walk])
            | _,_,_ => .ok (⟨h,s.earner⟩,[])

/-- The window of the next claim opens at the update the walk ended with. -/
def Resumes (s : BotState) (walk : ClaimWalk) : Prop :=
  s.history.updates.find? (fun u => s.earner.lastClaimTimestamp≤u.ts)=some walk.last

theorem Resumes.extend {s : BotState} {walk : ClaimWalk} (hs : Resumes s walk) {h : History}
    {arriving : List IndexUpdate} (he : s.history.extend arriving=some h) :
    Resumes ⟨h,s.earner⟩ walk := by
  unfold Resumes
  rw [History.extend_eq_some he,List.find?_append,hs]
  rfl

/-- The updates of the ledger that a claim walks over start at the record of the last claim and
end in the second of the newest update. -/
theorem Walked.resumes {earner : Earner} {call : ClaimCall} {earlier later : History}
    {walk : ClaimWalk} {latest : IndexUpdate} {steps : List IndexUpdate} {claimYield : Int}
    (hext : earlier.extend call.arriving=some later)
    (h : Walked (call.database earlier later) call.global earner walk latest steps claimYield) :
    later.updates.find? (fun u => earner.lastClaimTimestamp≤u.ts)=some walk.first ∧
      Resumes ⟨later,earner.claimed latest⟩ walk := by
  have hw : later.window earner.lastClaimTimestamp (latest.ts+1)=walk.first::steps := by
    rw [← later.indexUpdates_eq call.windowOrder]
    exact h.window
  have hmem : ∀ v∈walk.first::steps,
      v∈later.updates ∧ earner.lastClaimTimestamp≤v.ts ∧ v.ts<latest.ts+1 := by
    intro v hv
    rw [← hw] at hv
    simpa [History.window] using hv
  have hfirst := hmem walk.first (by simp)
  have hnewest : latest∈later.updates := by
    have hl : earlier.updates.getLast? = some latest := by
      rw [← earlier.currentIndex_eq call.latestOrder]
      exact h.newest
    rw [History.extend_eq_some hext]
    exact List.mem_append_left _ (List.mem_of_getLast? hl)
  have hord : (walk.first::steps).Pairwise (fun a b => a.ts≤b.ts) := by
    rw [← hw]
    exact later.times.filter _
  obtain ⟨hfind,hmax⟩ := claimLoop_last h.loop hord
  have hlast := hmem walk.last (List.mem_of_find?_eq_some hfind)
  have hsecond : walk.last.ts=latest.ts := by
    have hin : latest∈walk.first::steps := by
      rw [← hw]
      simp only [History.window,List.mem_filter,Bool.and_eq_true,decide_eq_true_eq]
      exact ⟨hnewest,by omega,by omega⟩
    have hle := hmax latest hin
    omega
  constructor
  · refine find_bounded later.updates later.times _ (latest.ts+1) walk.first ?_
    rw [← List.head?_filter]
    exact congrArg List.head? hw
  · show later.updates.find? (fun u => latest.ts≤u.ts)=some walk.last
    refine find_bounded later.updates later.times latest.ts (latest.ts+1) walk.last ?_
    rw [← hw,History.window,List.find?_filter,hsecond] at hfind
    rw [← hfind]
    congr 1
    funext v
    rw [Bool.eq_iff_iff]
    simp only [Bool.and_eq_true,decide_eq_true_eq]
    omega

/-- One action: the update where the next claim resumes stays, and an issued claim starts there. -/
theorem bot_exec (s : BotState) (a : BotAction) :
    (bot.emitted s a=[] ∧ ∀ walk,Resumes s walk → Resumes (bot.exec s a) walk) ∨
    ∃ walk,bot.emitted s a=[walk] ∧ Resumes (bot.exec s a) walk ∧
      ∀ before,Resumes s before → walk.first=before.last := by
  cases a with
  | arrive arriving =>
    cases he : s.history.extend arriving with
    | none =>
      have hstep : bot.step s (.arrive arriving)=.error () := by simp only [bot,he]
      rw [Machine.emitted_of_error _ hstep,Machine.exec_of_error _ hstep]
      exact .inl ⟨rfl,fun _ h => h⟩
    | some h =>
      have hstep : bot.step s (.arrive arriving)=.ok (⟨h,s.earner⟩,[]) := by simp only [bot,he]
      rw [Machine.emitted_of_ok _ hstep,Machine.exec_of_ok _ hstep]
      exact .inl ⟨rfl,fun _ hr => hr.extend he⟩
  | claim call =>
    cases he : s.history.extend call.arriving with
    | none =>
      have hstep : bot.step s (.claim call)=.error () := by simp only [bot,he]
      rw [Machine.emitted_of_error _ hstep,Machine.exec_of_error _ hstep]
      exact .inl ⟨rfl,fun _ h => h⟩
    | some h =>
      by_cases hissued : ∃ ix walk latest,
          buildClaimInstruction call.feeTokenAccount (call.database s.history h) call.global
            s.earner true=.ok (some ix) ∧
          claimWalk (call.database s.history h) call.global s.earner true=.ok (some walk) ∧
          (call.database s.history h).currentIndex=some latest
      · obtain ⟨ix,walk,latest,hix,hwalk,hlatest⟩ := hissued
        have hstep : bot.step s (.claim call)=.ok (⟨h,s.earner.claimed latest⟩,[walk]) := by
          simp only [bot,he,hix,hwalk,hlatest]
        rw [Machine.emitted_of_ok _ hstep,Machine.exec_of_ok _ hstep]
        obtain ⟨latest',steps,claimYield,hw⟩ := claimWalk_eq_ok hwalk
        cases hlatest.symm.trans hw.newest
        obtain ⟨hfirst,hresume⟩ := hw.resumes he
        refine .inr ⟨walk,rfl,hresume,?_⟩
        intro before hb
        exact Option.some.inj (hfirst.symm.trans (hb.extend he))
      · have hstep : bot.step s (.claim call)=.ok (⟨h,s.earner⟩,[]) := by
          simp only [bot,he]
          split
          · rename_i hix hwalk hlatest
            exact absurd ⟨_,_,_,hix,hwalk,hlatest⟩ hissued
          · rfl
        rw [Machine.emitted_of_ok _ hstep,Machine.exec_of_ok _ hstep]
        exact .inl ⟨rfl,fun _ hr => hr.extend he⟩

theorem outputs_tile (s : BotState) (as : List BotAction) :
    (bot.outputs s as).IsChain (fun before walk => walk.first=before.last) ∧
      ∀ before,Resumes s before → ∀ walk∈(bot.outputs s as).head?,walk.first=before.last := by
  induction as generalizing s with
  | nil => exact ⟨List.IsChain.nil,fun _ _ _ h => nomatch h⟩
  | cons a as ih =>
    obtain ⟨hchain,hhead⟩ := ih (bot.exec s a)
    rcases bot_exec s a with ⟨hnone,hkeep⟩|⟨walk,hone,hresume,hfirst⟩
    · rw [Machine.outputs,hnone,List.nil_append]
      exact ⟨hchain,fun before hb => hhead before (hkeep before hb)⟩
    · rw [Machine.outputs,hone,List.singleton_append]
      refine ⟨List.isChain_cons.mpr ⟨hhead walk hresume,hchain⟩,?_⟩
      intro before hb w hw
      cases hw
      exact hfirst before hb

/-- Along every run of arriving updates and claims, each issued claim starts at the index where
the one before it ended. -/
theorem claims_tile (s : BotState) (as : List BotAction) :
    (bot.outputs s as).IsChain (fun before walk => walk.first.index=before.last.index) :=
  (outputs_tile s as).1.imp (fun _ _ h => congrArg IndexUpdate.index h)

def sampleCall : ClaimCall where
  feeTokenAccount := some
  global := ⟨.ofByte 9,none,none⟩
  latestOrder := DescendingSort.stable _
  windowOrder := DescendingSort.stable _
  arriving := []
  getBalanceAt _ _ _ := 1000000

/-- A ledger of two updates, the first of which the earner has claimed. -/
def sampleBot : BotState where
  history := ⟨[⟨1000000,2,2⟩,⟨1100000,5,3⟩],by decide⟩
  earner := ⟨.ofByte 1,1000000,2,.ofByte 2,.ofByte 3,none⟩

/-- Two claims are issued, and the second 5 has an update before and after the first of them. -/
example : (bot.outputs sampleBot [.claim sampleCall,.arrive [⟨1150000,5,4⟩,⟨1200000,8,5⟩],
      .claim sampleCall]).map (fun walk => (walk.first.index,walk.last.index))=
    [(1000000,1100000),(1100000,1200000)] := by
  decide +kernel

end SolanaM.Sdk
