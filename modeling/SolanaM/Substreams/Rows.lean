import SolanaM.Framework.Fallible
import SolanaM.Substreams.Graph

namespace SolanaM.Substreams

section
variable {crates : Crates}

/-- A failed transaction has no context, and its instructions are refused too. -/
theorem getContext_eq_some {t : ConfirmedTransaction} {context : Option TransactionContext}
    (h : getContext crates t=some context) :
    ∃ status,t.status=some status ∧
      ((status.err≠none ∧ context=none) ∨
        status.err=none ∧ ∃ built,TransactionContext.build crates t=some built ∧
          context=some built) := by
  simp only [getContext,bind,Option.bind_eq_some_iff] at h
  obtain ⟨status,hs,h⟩ := h
  refine ⟨status,hs,?_⟩
  cases he : status.err with
  | some e =>
    refine Or.inl ⟨by simp,?_⟩
    simpa [he,eq_comm] using h
  | none =>
    simp only [he,Option.isSome_none,Bool.false_eq_true,if_false,Option.bind_eq_some_iff] at h
    obtain ⟨built,hb,hc⟩ := h
    exact Or.inr ⟨rfl,built,hb,(Option.some_inj.mp hc).symm⟩

theorem getStructuredInstructions_eq_some {t : ConfirmedTransaction}
    {status : TransactionStatusMeta} {instructions : Option Forest}
    (hs : t.status=some status) (he : status.err=none)
    (h : getStructuredInstructions crates t=some instructions) :
    ∃ forest,instructions=some forest := by
  simp only [getStructuredInstructions,hs,he,bind,Option.bind_some,Option.isSome_none,
    Bool.false_eq_true,if_false,Option.bind_eq_some_iff] at h
  obtain ⟨_,_,_,_,forest,_,hf⟩ := h
  exact ⟨forest,(Option.some_inj.mp hf).symm⟩

/-- An instruction sets up accounts of the context and changes nothing else. -/
theorem updateAccounts_frame {context context' : TransactionContext} {ix : WrappedInstruction}
    (h : updateAccounts context ix=some context') :
    context'.accounts=context.accounts ∧ context'.signature=context.signature := by
  have hinsert {owner : Option Pubkey}
      (h : insertInitializedAccount context ix owner=some context') :
      context'.accounts=context.accounts ∧ context'.signature=context.signature := by
    simp only [insertInitializedAccount,bind,Option.bind_eq_some_iff] at h
    obtain ⟨a,_,h⟩ := h
    rw [← Option.some_inj.mp h]
    exact ⟨rfl,rfl⟩
  simp only [updateAccounts,bind,Option.bind_eq_some_iff] at h
  obtain ⟨programId,_,h⟩ := h
  split at h
  · rw [← Option.some_inj.mp h]
    exact ⟨rfl,rfl⟩
  · split at h
    · exact hinsert h
    · exact hinsert h
    · exact hinsert h
    · rw [← Option.some_inj.mp h]
      exact ⟨rfl,rfl⟩

private theorem foldlM_signature {ixs : List WrappedInstruction}
    {context context' : TransactionContext}
    (h : ixs.foldlM updateAccounts context=some context') :
    context'.signature=context.signature := by
  induction ixs generalizing context with
  | nil =>
    have hsame : context=context' := by simpa using h
    rw [hsame]
  | cons ix rest ih =>
    rw [List.foldlM_cons] at h
    obtain ⟨next,hnext,hrest⟩ := Option.bind_eq_some_iff.mp h
    exact (ih hrest).trans (updateAccounts_frame hnext).2

def firstSignature (t : ConfirmedTransaction) : Option Bytes :=
  t.transaction.bind fun transaction => transaction.signatures[0]?

/-- A transaction goes by the first of its signatures. -/
theorem getContext_signature {t : ConfirmedTransaction} {context : TransactionContext}
    (h : getContext crates t=some (some context)) :
    ∃ first,firstSignature t=some first ∧ context.signature=crates.bs58Encode first := by
  obtain ⟨status,hs,⟨_,hnone⟩ | ⟨_,built,hbuilt,hsame⟩⟩ := getContext_eq_some h
  · simp at hnone
  · rw [Option.some_inj] at hsame
    simp only [TransactionContext.build,hs,bind,Option.bind_eq_some_iff,Option.bind_some] at hbuilt
    obtain ⟨fresh,hfresh,slots,_,ixs,_,hfold⟩ := hbuilt
    simp only [TransactionContext.new,bind,Option.bind_eq_some_iff] at hfresh
    obtain ⟨accounts,_,transaction,htransaction,first,hfirst,_,_,header,_,hfresh⟩ := hfresh
    have hsig : fresh.signature=crates.bs58Encode first := by
      by_cases hlen : accounts.length<header.numRequiredSignatures
      · simp [hlen] at hfresh
      · rw [if_neg hlen] at hfresh
        have heq := Option.some_inj.mp hfresh
        rw [← heq]
    refine ⟨first,by simp [firstSignature,htransaction,hfirst],?_⟩
    rw [hsame,foldlM_signature hfold]
    exact hsig

section
variable {accounts : List Bytes} {balances : List TokenBalance}

theorem insertPreTokenAccounts_isSome
    (h : ∀ b∈balances,∃ a,preTokenAccount crates accounts b=some a) (slots : TokenAccounts) :
    ∃ slots',insertPreTokenAccounts crates accounts balances slots=some slots' :=
  loop_isSome _ (fun s a => s.insert a.address a) (fun _ => rfl) (fun _ _ _ => rfl) h slots

theorem insertPostBalances_eq_some {slots slots' : TokenAccounts} :
    insertPostBalances crates accounts balances slots=some slots' ↔
      ∃ opened,
        List.Forall₂ (fun b a => postTokenAccount crates accounts b=some a) balances opened ∧
        opened.foldl (fun s a => s.insert a.address a) slots=slots' :=
  loop_eq_some _ _ (fun _ => rfl) (fun _ _ _ => rfl)

theorem insertPostBalances_isSome
    (h : ∀ b∈balances,∃ a,postTokenAccount crates accounts b=some a) (slots : TokenAccounts) :
    ∃ slots',insertPostBalances crates accounts balances slots=some slots' :=
  loop_isSome _ (fun s a => s.insert a.address a) (fun _ => rfl) (fun _ _ _ => rfl) h slots

/-- The address and the amount that an entry of pre_token_balances patches with. -/
def readPatch (accounts : List Bytes) (tokenBalance : TokenBalance) : Option (Bytes×Nat) := do
  let amount ← tokenBalance.uiTokenAmount
  let address ← accounts[tokenBalance.accountIndex]?
  return (address,(parseU64 amount).getD 0)

def patchPre (amount : Nat) (a : TokenAccount) : TokenAccount := {a with preBalance := some amount}

theorem patchPreBalances_cons (b : TokenBalance) (rest : List TokenBalance)
    (slots : TokenAccounts) :
    patchPreBalances accounts (b::rest) slots=(readPatch accounts b).bind fun p =>
      patchPreBalances accounts rest (slots.andModify p.1 (patchPre p.2)) := by
  rw [patchPreBalances,readPatch]
  cases b.uiTokenAmount with
  | none => rfl
  | some text =>
    cases accounts[b.accountIndex]? with
    | none => rfl
    | some address => rfl

theorem patchPreBalances_eq_some {slots slots' : TokenAccounts} :
    patchPreBalances accounts balances slots=some slots' ↔
      ∃ patches,List.Forall₂ (fun b p => readPatch accounts b=some p) balances patches ∧
        patches.foldl (fun s p => s.andModify p.1 (patchPre p.2)) slots=slots' :=
  loop_eq_some _ _ (fun _ => rfl) patchPreBalances_cons

theorem patchPreBalances_isSome (h : ∀ b∈balances,∃ p,readPatch accounts b=some p)
    (slots : TokenAccounts) :
    ∃ slots',patchPreBalances accounts balances slots=some slots' :=
  loop_isSome _ _ (fun _ => rfl) patchPreBalances_cons h slots

end

/-- The parts of a transaction that the map reads without panicking. -/
structure Indexed (crates : Crates) (t : ConfirmedTransaction) where
  context : TransactionContext
  held : List TokenAccount
  instructions : Forest
  context_eq : getContext crates t=some (some context)
  held_eq : tokenAccounts crates t=some held
  instructions_eq : getStructuredInstructions crates t=some (some instructions)

/-- What the loop body pushes for transaction i of the block. -/
def Indexed.changes {t : ConfirmedTransaction} (x : Indexed crates t) (block : Block)
    (blockTime : String) (i : Nat) : List TableChange :=
  balanceRows crates blockTime i x.context.signature x.held++
    eventRows crates blockTime x.context.signature 0 x.instructions.flattened++
    [transactionRow block blockTime i x.context.signature]

variable {block : Block} {blockTime : String}

theorem transactionChanges_eq_some {i : Nat} {t : ConfirmedTransaction}
    {changes : List TableChange}
    (h : transactionChanges crates block blockTime i t=some changes) :
    (getContext crates t=some none ∧ changes=[]) ∨
      ∃ x : Indexed crates t,changes=x.changes block blockTime i := by
  simp only [transactionChanges,bind,Option.bind_eq_some_iff] at h
  obtain ⟨context,hc,h⟩ := h
  cases context with
  | none => exact Or.inl ⟨hc,(Option.some_inj.mp h).symm⟩
  | some context =>
    simp only [Option.bind_eq_some_iff] at h
    obtain ⟨held,hheld,instructions,hi,h⟩ := h
    obtain ⟨status,hs,hfailed | ⟨he,_⟩⟩ := getContext_eq_some hc
    · exact absurd hfailed.2 (by simp)
    · obtain ⟨forest,hforest⟩ := getStructuredInstructions_eq_some hs he hi
      subst hforest
      exact Or.inr ⟨⟨context,held,forest,hc,hheld,hi⟩,(Option.some_inj.mp h).symm⟩

/-- Transaction by transaction, what the loop adds to the changes it has. -/
theorem transactionsLoop_eq_some {i : Nat} {ts : List ConfirmedTransaction}
    {dbChanges out : List TableChange} :
    transactionsLoop crates block blockTime i ts dbChanges=some out ↔
      ∃ parts,List.Forall₂
        (fun p changes => transactionChanges crates block blockTime p.2 p.1=some changes)
        (ts.zipIdx i) parts ∧ out=dbChanges++parts.flatten := by
  induction ts generalizing i dbChanges with
  | nil => simp [transactionsLoop,eq_comm]
  | cons t rest ih =>
    simp only [transactionsLoop,bind,Option.bind_eq_some_iff,ih,List.zipIdx_cons,
      List.forall₂_cons_left_iff]
    constructor
    · intro h
      obtain ⟨changes,hc,parts,hparts,hout⟩ := h
      exact ⟨changes::parts,⟨changes,parts,hc,hparts,rfl⟩,by simp [hout]⟩
    · intro h
      obtain ⟨_,⟨changes,parts,hc,hparts,rfl⟩,hout⟩ := h
      exact ⟨changes,hc,parts,hparts,by simp [hout]⟩

def fieldValue (fields : List Field) (name : String) : Option String :=
  (fields.find? fun f => f.name=name).map Field.newValue

/-- A row of the balance_updates table that transaction n wrote. -/
def isBalanceRow (n : Nat) (row : TableChange) : Bool :=
  row.table=="balance_updates" && row.ordinal==n

private theorem filter_balanceRows (n i : Nat) (signature : String) (accounts : List TokenAccount) :
    (balanceRows crates blockTime i signature accounts).filter (isBalanceRow n)=
      if i=n then balanceRows crates blockTime i signature accounts else [] := by
  have hall : ∀ row∈balanceRows crates blockTime i signature accounts,
      isBalanceRow n row=(i==n) := by
    intro row hrow
    obtain ⟨a,_,hrow⟩ := List.mem_map.mp hrow
    simp [← hrow,isBalanceRow,balanceRow]
  by_cases hi : i=n
  · rw [if_pos hi]
    apply List.filter_eq_self.mpr
    intro row hrow
    simpa [hi] using hall row hrow
  · rw [if_neg hi]
    apply List.filter_eq_nil_iff.mpr
    intro row hrow
    rw [hall row hrow]
    simpa using hi

private theorem eventRow_table {signature : String} {ixIdx : Nat} {ix : StructuredInstruction}
    {row : TableChange} (h : eventRow crates blockTime signature ixIdx ix=some row) :
    row.table="events" := by
  simp only [eventRow] at h
  split at h
  · simp at h
  · split at h
    · simp at h
    · rw [← Option.some_inj.mp h]

theorem eventRows_table {signature : String} {ixIdx : Nat} {ixs : List StructuredInstruction}
    {row : TableChange} (h : row∈eventRows crates blockTime signature ixIdx ixs) :
    row.table="events" := by
  induction ixs generalizing ixIdx with
  | nil => simp [eventRows] at h
  | cons ix rest ih =>
    rw [eventRows,List.mem_append,Option.mem_toList] at h
    cases h with
    | inl h => exact eventRow_table h
    | inr h => exact ih h

theorem Indexed.filter_balance {t : ConfirmedTransaction} (x : Indexed crates t) (n i : Nat) :
    (x.changes block blockTime i).filter (isBalanceRow n)=
      if i=n then balanceRows crates blockTime i x.context.signature x.held else [] := by
  have hevents : (eventRows crates blockTime x.context.signature 0
      x.instructions.flattened).filter (isBalanceRow n)=[] := by
    apply List.filter_eq_nil_iff.mpr
    intro row hrow
    simp [isBalanceRow,eventRows_table hrow]
  have hlast : [transactionRow block blockTime i x.context.signature].filter (isBalanceRow n)=[] :=
    by simp [isBalanceRow,transactionRow]
  rw [Indexed.changes,List.filter_append,List.filter_append,filter_balanceRows,hevents,hlast]
  simp

theorem filter_balance_ne {i n : Nat} (hne : i≠n) {t : ConfirmedTransaction}
    {changes : List TableChange}
    (h : transactionChanges crates block blockTime i t=some changes) :
    changes.filter (isBalanceRow n)=[] := by
  obtain ⟨_,hnil⟩ | ⟨x,hx⟩ := transactionChanges_eq_some h
  · simp [hnil]
  · rw [hx,x.filter_balance,if_neg hne]

/-- Later transactions write no balance row under an earlier number. -/
theorem filter_parts_later {n i : Nat} (hlt : n < i) {ts : List ConfirmedTransaction}
    {parts : List (List TableChange)}
    (h : List.Forall₂
      (fun p changes => transactionChanges crates block blockTime p.2 p.1=some changes)
      (ts.zipIdx i) parts) :
    parts.flatten.filter (isBalanceRow n)=[] := by
  induction ts generalizing i parts with
  | nil =>
    rw [List.zipIdx_nil,List.forall₂_nil_left_iff] at h
    simp [h]
  | cons t rest ih =>
    rw [List.zipIdx_cons,List.forall₂_cons_left_iff] at h
    obtain ⟨changes,parts',hc,hrest,hparts⟩ := h
    rw [hparts,List.flatten_cons,List.filter_append,filter_balance_ne (by omega) hc,
      ih (by omega) hrest,List.append_nil]

private theorem filter_parts {i k : Nat} {ts : List ConfirmedTransaction} {t : ConfirmedTransaction}
    {parts : List (List TableChange)}
    (h : List.Forall₂
      (fun p changes => transactionChanges crates block blockTime p.2 p.1=some changes)
      (ts.zipIdx i) parts) (hk : ts[k]?=some t) :
    ∃ changes,transactionChanges crates block blockTime (i+k) t=some changes ∧
      parts.flatten.filter (isBalanceRow (i+k))=changes.filter (isBalanceRow (i+k)) := by
  induction ts generalizing i k parts with
  | nil => simp at hk
  | cons t0 rest ih =>
    rw [List.zipIdx_cons,List.forall₂_cons_left_iff] at h
    obtain ⟨changes,parts',hc,hrest,hparts⟩ := h
    rw [hparts,List.flatten_cons,List.filter_append]
    cases k with
    | zero =>
      have ht : t0=t := by simpa using hk
      refine ⟨changes,ht ▸ hc,?_⟩
      rw [filter_parts_later (by omega) hrest,List.append_nil]
    | succ k =>
      obtain ⟨changes',hc',hfilter⟩ := ih hrest (k:=k) (by simpa using hk)
      have hidx : i+1+k=i+(k+1) := by omega
      rw [hidx] at hc' hfilter
      refine ⟨changes',hc',?_⟩
      rw [filter_balance_ne (by omega) hc,List.nil_append,hfilter]

/-- The balance rows of transaction i in the output of the map. -/
theorem map_balance_rows {out : List TableChange} {i : Nat} {t : ConfirmedTransaction}
    (h : mapTransferEventsToDb crates block=some out) (ht : block.transactions[i]?=some t) :
    ∃ changes,
      transactionChanges crates block (toString (block.blockTime.getD 0)) i t=some changes ∧
      out.filter (isBalanceRow i)=changes.filter (isBalanceRow i) := by
  obtain ⟨parts,hparts,hout⟩ := transactionsLoop_eq_some.mp h
  obtain ⟨changes,hc,hfilter⟩ := filter_parts hparts ht
  rw [Nat.zero_add] at hc hfilter
  exact ⟨changes,hc,by rw [hout,List.nil_append,hfilter]⟩

end

end SolanaM.Substreams
