import SolanaM.Sdk.Claim

namespace SolanaM.Sdk

/-- getBalanceAt as its callers see it: the BN it answers with refuses a number from 2^53 on. -/
def queryBalanceAt (order : DescendingSort BalanceUpdate.blockHeight)
    (balances : List BalanceUpdate) (tokenAccount mint : Key) (ts : Nat) : Except ClaimError Nat :=
  safeInteger (getBalanceAt order balances tokenAccount mint ts)

/-- The balance rows in ledger order: block heights and times never fall. -/
structure BalanceHistory where
  rows : List BalanceUpdate
  ordered : rows.Pairwise fun a b => a.blockHeight≤b.blockHeight ∧ a.ts≤b.ts

/-- The rows of the newest block among them. -/
def newest (rows : List BalanceUpdate) : List BalanceUpdate :=
  rows.filter fun b => rows.all fun c => c.blockHeight≤b.blockHeight

theorem mem_newest {rows : List BalanceUpdate} {b : BalanceUpdate} :
    b∈newest rows ↔ b∈rows ∧ ∀ c∈rows,c.blockHeight≤b.blockHeight := by
  simp [newest]

namespace BalanceHistory

/-- What the account recorded before ts, in ledger order. -/
def before (h : BalanceHistory) (tokenAccount mint : Key) (ts : Nat) : List BalanceUpdate :=
  (h.rows.filter fun b => b.pubkey=tokenAccount ∧ b.mint=mint).filter fun b => b.ts<ts

/-- The balance the account really had at ts. -/
def balanceAt (h : BalanceHistory) (tokenAccount mint : Key) (ts : Nat) : Nat :=
  match (h.before tokenAccount mint ts).getLast? with
  | none => 0
  | some b => b.postBalance

variable {h : BalanceHistory} {tokenAccount mint : Key} {ts : Nat}

private theorem last_newest {b : BalanceUpdate}
    (hb : (h.before tokenAccount mint ts).getLast? = some b) :
    b∈newest (h.before tokenAccount mint ts) := by
  have hordered := (h.ordered.filter fun b => b.pubkey=tokenAccount ∧ b.mint=mint).filter
    fun b => b.ts<ts
  obtain ⟨earlier,hsplit⟩ := List.getLast?_eq_some_iff.mp hb
  refine mem_newest.mpr ⟨List.mem_of_getLast? hb,?_⟩
  intro c hc
  rw [hsplit] at hc
  change (h.before tokenAccount mint ts).Pairwise _ at hordered
  rw [hsplit,List.pairwise_append] at hordered
  rcases List.mem_append.mp hc with hc|hc
  · exact (hordered.2.2 c hc b (List.mem_singleton_self b)).1
  · rw [List.mem_singleton.mp hc]

/-- The query answers with a row of the newest block. -/
theorem getBalanceAt_newest (h : BalanceHistory) (tokenAccount mint : Key) (ts : Nat)
    (order : DescendingSort BalanceUpdate.blockHeight) :
    (h.before tokenAccount mint ts=[] ∧ getBalanceAt order h.rows tokenAccount mint ts=0) ∨
      ∃ b∈newest (h.before tokenAccount mint ts),
        getBalanceAt order h.rows tokenAccount mint ts=b.postBalance := by
  cases hs : order.sort (h.before tokenAccount mint ts) with
  | nil =>
    left
    have hperm := order.perm (h.before tokenAccount mint ts)
    rw [hs] at hperm
    refine ⟨hperm.nil_eq.symm,?_⟩
    change order.sort ((h.rows.filter _).filter _)=[] at hs
    simp only [getBalanceAt,hs,List.take_nil]
  | cons b rest =>
    right
    refine ⟨b,mem_newest.mpr (order.first_max hs),?_⟩
    change order.sort ((h.rows.filter _).filter _)=b::rest at hs
    simp only [getBalanceAt,hs,List.take_succ_cons]

/-- Every row of the newest block is an answer that the server may give. -/
theorem exists_getBalanceAt {b : BalanceUpdate} (hb : b∈newest (h.before tokenAccount mint ts)) :
    ∃ order : DescendingSort BalanceUpdate.blockHeight,
      getBalanceAt order h.rows tokenAccount mint ts=b.postBalance := by
  obtain ⟨hmem,hmax⟩ := mem_newest.mp hb
  obtain ⟨order,rest,hs⟩ := DescendingSort.exists_first hmem hmax
  refine ⟨order,?_⟩
  change order.sort ((h.rows.filter _).filter _)=b::rest at hs
  simp only [getBalanceAt,hs,List.take_succ_cons]

end BalanceHistory

theorem safeInteger_eq_ok_iff {n m : Nat} : safeInteger n=.ok m ↔ n=m ∧ n<2^53 := by
  unfold safeInteger
  split
  · rename_i hlt
    simp only [Except.ok.injEq,hlt,and_true]
  · rename_i hlt
    simp only [reduceCtorEq,hlt,and_false]

/-- The query is sure to answer with the last balance before ts exactly when all rows of the
newest block before ts record the same balance, one that a BN takes. -/
theorem queryBalanceAt_last_iff (h : BalanceHistory) (tokenAccount mint : Key) (ts : Nat) :
    (∀ order,queryBalanceAt order h.rows tokenAccount mint ts=
        .ok (h.balanceAt tokenAccount mint ts)) ↔
      ∃ balance<2^53,∀ b∈newest (h.before tokenAccount mint ts),b.postBalance=balance := by
  constructor
  · intro hall
    refine ⟨h.balanceAt tokenAccount mint ts,?_,?_⟩
    · have hstable := safeInteger_eq_ok_iff.mp (hall (DescendingSort.stable _))
      exact hstable.1 ▸ hstable.2
    · intro b hb
      obtain ⟨order,horder⟩ := BalanceHistory.exists_getBalanceAt hb
      rw [← horder]
      exact (safeInteger_eq_ok_iff.mp (hall order)).1
  · intro hone order
    obtain ⟨balance,hbound,hone⟩ := hone
    apply safeInteger_eq_ok_iff.mpr
    rcases h.getBalanceAt_newest tokenAccount mint ts order with ⟨hnil,hzero⟩|⟨b,hb,hanswer⟩
    · rw [hzero,BalanceHistory.balanceAt,hnil]
      exact ⟨rfl,by decide⟩
    · have hne : h.before tokenAccount mint ts≠[] :=
        List.ne_nil_of_mem (mem_newest.mp hb).1
      have hlast := List.getLast?_eq_some_getLast hne
      rw [hanswer,hone b hb,BalanceHistory.balanceAt,hlast]
      exact ⟨(hone _ (BalanceHistory.last_newest hlast)).symm,hbound⟩

/-- Two transfers of an account in one block leave it 40. -/
def twoTransfers : BalanceHistory where
  rows := [⟨.ofByte 1,.ofByte 2,100,5,7⟩,⟨.ofByte 1,.ofByte 2,40,5,7⟩]
  ordered := by simp

theorem queryBalanceAt_two_transfers :
    twoTransfers.balanceAt (.ofByte 1) (.ofByte 2) 6=40 ∧
      queryBalanceAt (DescendingSort.stable _) twoTransfers.rows (.ofByte 1) (.ofByte 2) 6=
        .ok 100 := by
  decide

end SolanaM.Sdk
