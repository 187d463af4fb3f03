import SolanaM.Substreams.Rows

namespace SolanaM.Substreams

namespace Transfers

/-- The messages of the transfers package; the oneof of an instruction is an Update. -/
structure TokenBalanceUpdate where
  pubkey : String
  mint : String
  owner : String
  preBalance : Nat
  postBalance : Nat
  deriving DecidableEq

structure Instruction where
  programId : String
  instruction : Option String
  update : Option Update
  deriving DecidableEq

structure TokenTransaction where
  signature : String
  balanceUpdates : List TokenBalanceUpdate
  instructions : List Instruction
  deriving DecidableEq

structure TokenTransactions where
  transactions : List TokenTransaction
  blockhash : String
  slot : Nat
  blockTime : Int
  blockHeight : Nat
  deriving DecidableEq

end Transfers

open Transfers

section
variable (crates : Crates)

def tokenBalanceUpdate (tokenAccount : TokenAccount) : TokenBalanceUpdate where
  pubkey := crates.bs58Encode tokenAccount.address
  mint := tokenAccount.mint.toString crates
  owner := tokenAccount.owner.toString crates
  preBalance := tokenAccount.preBalance.getD 0
  postBalance := tokenAccount.postBalance.getD 0

def tokenBalanceUpdates (accounts : List TokenAccount) : List TokenBalanceUpdate :=
  (accounts.filter fun a => a.preBalance≠a.postBalance).map (tokenBalanceUpdate crates)

/-- None for a system program; an instruction without an event is listed all the same. -/
def transferInstruction (ix : StructuredInstruction) : Option Instruction :=
  if pid ix∈systemPrograms then none
  else some {
    programId := (pid ix).toString crates
    instruction := parseLogsForInstructionName ix.logs
    update := parseLogsForEvents crates ix.logs}

/-- What the loop body pushes for a transaction, if anything. -/
def tokenTransaction (t : ConfirmedTransaction) : Option (Option TokenTransaction) := do
  let some context ← getContext crates t | return none
  let balanceUpdates := tokenBalanceUpdates crates (← tokenAccounts crates t)
  let some instructions ← getStructuredInstructions crates t | return none
  return some {
    signature := context.signature
    balanceUpdates
    instructions := instructions.flattened.filterMap (transferInstruction crates)}

def tokenTransactionsLoop : List ConfirmedTransaction → List TokenTransaction →
    Option (List TokenTransaction)
  | [],transactions => some transactions
  | t::rest,transactions => do
    let txn ← tokenTransaction crates t
    tokenTransactionsLoop rest (transactions++txn.toList)

/-- The transfers of a block, or none when the handler panics. -/
def mapTransferEvents (block : Block) : Option TokenTransactions := do
  let transactions ← tokenTransactionsLoop crates block.transactions []
  return {
    transactions
    blockhash := block.blockhash
    slot := block.slot
    blockTime := block.blockTime.getD 0
    blockHeight := block.blockHeight.getD 0}

end

/-- What a row says, apart from its key and its place in the block. -/
def TableChange.content (row : TableChange) : TableChange := {row with ordinal := 0,pk := ""}

namespace Transfers

/-- A row of a table, without key and place. -/
def created (table : String) (fields : List Field) : TableChange := ⟨table,0,.create,"",fields⟩

def TokenBalanceUpdate.row (blockTime signature : String) (u : TokenBalanceUpdate) :
    TableChange :=
  created "balance_updates" [newField "pubkey" u.pubkey,newField "mint" u.mint,
    newField "owner" u.owner,newField "pre_balance" (toString u.preBalance),
    newField "post_balance" (toString u.postBalance),newField "signature" signature,
    newField "ts" blockTime]

def Instruction.row (crates : Crates) (blockTime signature : String) (ix : Instruction) :
    Option TableChange :=
  ix.update.map fun u =>
    created "events" ([newField "program_id" ix.programId,
      newField "instruction" (ix.instruction.getD ""),newField "signature" signature,
      newField "ts" blockTime]++(updateFields crates u).2)

def TokenTransactions.row (events : TokenTransactions) (hasHeight : Bool) (signature : String) :
    TableChange :=
  created "transactions" ([newField "blockhash" events.blockhash,
    newField "slot" (toString events.slot),newField "signature" signature,
    newField "block_time" (toString events.blockTime)]++
    if hasHeight then [newField "block_height" (toString events.blockHeight)] else [])

/-- The rows that a transaction message stands for. The messages cannot tell a block of height 0
from one without a height, so this is said on the side. -/
def TokenTransactions.rows (crates : Crates) (events : TokenTransactions) (hasHeight : Bool)
    (txn : TokenTransaction) : List TableChange :=
  txn.balanceUpdates.map (TokenBalanceUpdate.row (toString events.blockTime) txn.signature)++
    txn.instructions.filterMap (Instruction.row crates (toString events.blockTime) txn.signature)++
    [events.row hasHeight txn.signature]

end Transfers

/-- The message of a block has the block's header. -/
structure Transfers.TokenTransactions.Heads (events : TokenTransactions) (block : Block) :
    Prop where
  blockhash : events.blockhash=block.blockhash
  slot : events.slot=block.slot
  blockTime : events.blockTime=block.blockTime.getD 0
  blockHeight : events.blockHeight=block.blockHeight.getD 0

/-- The same crates with the hash map order of other ones: each handler has a map of its own. -/
def Crates.listing (crates other : Crates) : Crates :=
  {crates with values := other.values,values_perm := other.values_perm}

section
variable {crates : Crates} (other : Crates)

private theorem insertPostBalances_listing (accounts : List Bytes) (balances : List TokenBalance)
    (slots : TokenAccounts) :
    insertPostBalances (crates.listing other) accounts balances slots=
      insertPostBalances crates accounts balances slots := by
  induction balances generalizing slots with
  | nil => rfl
  | cons b rest ih =>
    rw [insertPostBalances,insertPostBalances]
    simp only [ih]
    rfl

private theorem tokenAccounts_listing (t : ConfirmedTransaction) :
    Option.Rel List.Perm (tokenAccounts crates t) (tokenAccounts (crates.listing other) t) := by
  apply rel_bind_same (crates.resolvedAccounts t)
  intro accounts _
  apply rel_bind_same t.status
  intro status _
  rw [insertPostBalances_listing]
  apply rel_bind_same
  intro slots _
  apply rel_bind_same
  intro slots' _
  exact .some ((crates.values_perm _).trans (other.values_perm _).symm)

private theorem getContext_listing (t : ConfirmedTransaction) :
    getContext (crates.listing other) t=getContext crates t := by
  have hinsert (accounts : List Bytes) (balances : List TokenBalance) (slots : TokenAccounts) :
      insertPreTokenAccounts (crates.listing other) accounts balances slots=
        insertPreTokenAccounts crates accounts balances slots := by
    induction balances generalizing slots with
    | nil => rfl
    | cons b rest ih =>
      rw [insertPreTokenAccounts,insertPreTokenAccounts]
      simp only [ih]
      rfl
  unfold getContext TransactionContext.build
  simp only [hinsert]
  rfl

private theorem eventRows_listing (blockTime signature : String) (ixIdx : Nat)
    (ixs : List StructuredInstruction) :
    eventRows (crates.listing other) blockTime signature ixIdx ixs=
      eventRows crates blockTime signature ixIdx ixs := by
  induction ixs generalizing ixIdx with
  | nil => rfl
  | cons ix rest ih =>
    rw [eventRows,eventRows,ih]
    rfl

private theorem balanceUpdates_rows (blockTime signature : String) (i : Nat)
    (accounts : List TokenAccount) :
    (tokenBalanceUpdates crates accounts).map (TokenBalanceUpdate.row blockTime signature)=
      (balanceRows crates blockTime i signature accounts).map TableChange.content := by
  rw [tokenBalanceUpdates,balanceRows,List.map_map,List.map_map]
  rfl

private theorem transferInstruction_row (blockTime signature : String) (ixIdx : Nat)
    (ix : StructuredInstruction) :
    (transferInstruction crates ix).bind (Instruction.row crates blockTime signature)=
      (eventRow crates blockTime signature ixIdx ix).map TableChange.content := by
  unfold transferInstruction eventRow
  by_cases hpid : pid ix∈systemPrograms
  · rw [if_pos hpid,if_pos hpid]
    rfl
  · rw [if_neg hpid,if_neg hpid]
    cases h : parseLogsForEvents crates ix.logs with
    | none => simp [Instruction.row]
    | some u => simp [Instruction.row,created,TableChange.content]

private theorem instructions_rows (blockTime signature : String) (ixIdx : Nat)
    (ixs : List StructuredInstruction) :
    (ixs.filterMap (transferInstruction crates)).filterMap
        (Instruction.row crates blockTime signature)=
      (eventRows crates blockTime signature ixIdx ixs).map TableChange.content := by
  rw [List.filterMap_filterMap]
  induction ixs generalizing ixIdx with
  | nil => rfl
  | cons ix rest ih =>
    have hrow : (transferInstruction crates ix).bind (Instruction.row crates blockTime signature)=
        (eventRow crates blockTime signature ixIdx ix).map TableChange.content :=
      transferInstruction_row blockTime signature ixIdx ix
    rw [eventRows,List.map_append,← ih,List.filterMap_cons,hrow]
    cases eventRow crates blockTime signature ixIdx ix with
    | none => rfl
    | some row => rfl

variable (crates) in
/-- The rows part of a database say what the message txn of the block says, in any order. -/
def Said (events : TokenTransactions) (hasHeight : Bool) (txn : TokenTransaction)
    (part : List TableChange) : Prop :=
  (part.map TableChange.content).Perm (events.rows crates hasHeight txn)

variable (crates) in
/-- The rows say, transaction by transaction, what the messages say. -/
def Told (events : TokenTransactions) (hasHeight : Bool) (txns : List TokenTransaction)
    (rows : List TableChange) : Prop :=
  ∃ parts,List.Forall₂ (Said crates events hasHeight) txns parts ∧ rows=parts.flatten

theorem Told.append {events : TokenTransactions} {hasHeight : Bool}
    {txns txns' : List TokenTransaction} {rows rows' : List TableChange}
    (h : Told crates events hasHeight txns rows) (h' : Told crates events hasHeight txns' rows') :
    Told crates events hasHeight (txns++txns') (rows++rows') := by
  obtain ⟨parts,hparts,rfl⟩ := h
  obtain ⟨parts',hparts',rfl⟩ := h'
  exact ⟨parts++parts',List.rel_append hparts hparts',by rw [List.flatten_append]⟩

variable (events : TokenTransactions) {block : Block}

/-- The pieces of a transaction, one by one. -/
theorem said_of_held (hheads : events.Heads block) (i : Nat) (signature : String)
    (instructions : List StructuredInstruction) {held held' : List TokenAccount}
    (hheld : held.Perm held') :
    Said crates events block.blockHeight.isSome
      ⟨signature,tokenBalanceUpdates crates held,
        instructions.filterMap (transferInstruction crates)⟩
      (balanceRows crates (toString (block.blockTime.getD 0)) i signature held'++
        eventRows crates (toString (block.blockTime.getD 0)) signature 0 instructions++
        [transactionRow block (toString (block.blockTime.getD 0)) i signature]) := by
  unfold Said TokenTransactions.rows
  rw [List.map_append,List.map_append,hheads.blockTime,instructions_rows _ _ 0,
    balanceUpdates_rows _ _ i]
  have htransaction : events.row block.blockHeight.isSome signature=
      (transactionRow block (toString (block.blockTime.getD 0)) i signature).content := by
    unfold TokenTransactions.row transactionRow
    rw [hheads.blockhash,hheads.slot,hheads.blockTime,hheads.blockHeight]
    cases block.blockHeight <;> rfl
  rw [htransaction]
  apply List.Perm.append_right
  apply List.Perm.append_right
  apply List.Perm.map
  apply List.Perm.map
  exact (hheld.filter _).symm

/-- One transaction: both handlers panic, both skip it, or the rows say what the message says. -/
theorem tokenTransaction_changes (hheads : events.Heads block) (i : Nat)
    (t : ConfirmedTransaction) :
    Option.Rel
      (fun txn changes => Told crates events block.blockHeight.isSome txn.toList changes)
      (tokenTransaction crates t)
      (transactionChanges (crates.listing other) block (toString (block.blockTime.getD 0)) i t) := by
  unfold tokenTransaction transactionChanges
  rw [getContext_listing]
  apply rel_bind_same
  intro context hcontext
  cases context with
  | none => exact .some ⟨[],.nil,rfl⟩
  | some context =>
    apply rel_bind (tokenAccounts_listing other t)
    intro held held' hheld
    apply rel_bind_same (getStructuredInstructions crates t)
    intro instructions hinstructions
    -- a transaction with a context did not fail, so its instructions are not refused
    obtain ⟨status,hs,hfailed|⟨he,_⟩⟩ := getContext_eq_some hcontext
    · exact absurd hfailed.2 (by simp)
    · obtain ⟨forest,rfl⟩ := getStructuredInstructions_eq_some hs he hinstructions
      refine .some ⟨[_],.cons ?_ .nil,(List.flatten_singleton).symm⟩
      rw [eventRows_listing]
      exact said_of_held events hheads i context.signature forest.flattened hheld

/-- All transactions, one after the other. -/
theorem tokenTransactionsLoop_changes (hheads : events.Heads block) (i : Nat)
    (ts : List ConfirmedTransaction) {txns : List TokenTransaction} {rows : List TableChange}
    (h : Told crates events block.blockHeight.isSome txns rows) :
    Option.Rel (Told crates events block.blockHeight.isSome)
      (tokenTransactionsLoop crates ts txns)
      (transactionsLoop (crates.listing other) block (toString (block.blockTime.getD 0)) i ts
        rows) := by
  induction ts generalizing i txns rows with
  | nil => exact .some h
  | cons t rest ih =>
    apply rel_bind (tokenTransaction_changes other events hheads i t)
    intro txn changes hchanges
    exact ih (i+1) (h.append hchanges)

/-- For every block the two handlers panic together, and otherwise the rows of the database say
what the messages say: transaction by transaction the same balance updates, the same events with
their instructions, and the same transaction, whatever the order of the two hash maps. -/
theorem database_tells_transfers (crates other : Crates) (block : Block) :
    Option.Rel
      (fun events rows =>
        Told crates events block.blockHeight.isSome events.transactions rows)
      (mapTransferEvents crates block)
      (mapTransferEventsToDb (crates.listing other) block) := by
  let events : TokenTransactions :=
    ⟨[],block.blockhash,block.slot,block.blockTime.getD 0,block.blockHeight.getD 0⟩
  have hloop : Option.Rel (Told crates events block.blockHeight.isSome)
      (tokenTransactionsLoop crates block.transactions [])
      (mapTransferEventsToDb (crates.listing other) block) :=
    tokenTransactionsLoop_changes other events ⟨rfl,rfl,rfl,rfl⟩ 0 block.transactions ⟨[],.nil,rfl⟩
  rw [← bind_pure (mapTransferEventsToDb (crates.listing other) block)]
  apply rel_bind hloop
  intro txns rows h
  exact .some h

end

end SolanaM.Substreams
