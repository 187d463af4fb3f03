import SolanaM.Substreams.PrimaryKeys

namespace SolanaM.Substreams

/-- Two rows that a table can hold side by side. -/
def DistinctKeys (a b : TableChange) : Prop := a.table=b.table → a.pk≠b.pk

theorem distinctKeys_of_ne {a b : TableChange} (h : a.pk≠b.pk) : DistinctKeys a b := fun _ => h

/-- A transactions row that carries the signature. -/
def isTransaction (signature : String) (row : TableChange) : Bool :=
  row.table=="transactions" && fieldValue row.fields "signature"==some signature

section
variable {crates : Crates}

/-- What one transaction adds: rows of its own signature, one of them in transactions. -/
structure KeyedPart (crates : Crates) (signature : String) (changes : List TableChange) :
    Prop where
  keys : ∀ row∈changes,KeyFor crates signature row
  distinct : changes.Pairwise DistinctKeys
  parent : changes.countP (isTransaction signature)=1

variable {block : Block} {blockTime : String}

private theorem transactionRow_key (i : Nat) (signature : String) :
    KeyFor crates signature (transactionRow block blockTime i signature) where
  signed := by simp [transactionRow,fieldValue,newField]
  pk := Or.inl ⟨rfl,rfl⟩

theorem pairwise_append_tables {a b : List TableChange}
    (ha : a.Pairwise DistinctKeys) (hb : b.Pairwise DistinctKeys)
    (h : ∀ x∈a,∀ y∈b,x.table≠y.table) : (a++b).Pairwise DistinctKeys := by
  rw [List.pairwise_append]
  refine ⟨ha,hb,?_⟩
  intro x hx y hy htable
  exact absurd htable (h x hx y hy)

private theorem Indexed.changes_keyed (h58 : Base58 crates.bs58Encode) {t : ConfirmedTransaction}
    (x : Indexed crates t) (i : Nat) :
    KeyedPart crates x.context.signature (x.changes block blockTime i) := by
  obtain ⟨hbalances,hbpair⟩ := balanceRows_keys h58 blockTime x.context.signature i
    (tokenAccounts_nodup x.held_eq)
  obtain ⟨hevents,hepair⟩ := eventRows_keys crates blockTime x.context.signature
    x.instructions.flattened 0
  have hevent : ∀ row∈eventRows crates blockTime x.context.signature 0 x.instructions.flattened,
      row.table="events" := fun row hrow => (hevents row hrow).2.1
  have hbalance : ∀ row∈balanceRows crates blockTime i x.context.signature x.held,
      row.table="balance_updates" := fun row hrow => (hbalances row hrow).2
  refine ⟨?_,?_,?_⟩
  · intro row hrow
    rcases List.mem_append.mp hrow with hrow|hrow
    · rcases List.mem_append.mp hrow with hrow|hrow
      · exact (hbalances row hrow).1
      · exact (hevents row hrow).1
    · rw [List.mem_singleton.mp hrow]
      exact transactionRow_key i _
  · apply pairwise_append_tables
    · apply pairwise_append_tables
      · exact hbpair.imp distinctKeys_of_ne
      · exact hepair.imp distinctKeys_of_ne
      · intro a ha b hb htable
        rw [hbalance a ha,hevent b hb] at htable
        exact absurd htable (by decide)
    · exact List.pairwise_singleton _ _
    · intro a ha b hb htable
      rw [List.mem_singleton.mp hb] at htable
      rcases List.mem_append.mp ha with ha|ha
      · rw [hbalance a ha] at htable
        exact absurd htable (by simp [transactionRow])
      · rw [hevent a ha] at htable
        exact absurd htable (by simp [transactionRow])
  · have hnone {rows : List TableChange} {table : String} (hne : table≠"transactions")
        (h : ∀ row∈rows,row.table=table) :
        rows.countP (isTransaction x.context.signature)=0 := by
      rw [List.countP_eq_zero]
      intro row hrow
      simp [isTransaction,h row hrow,hne]
    rw [Indexed.changes,List.countP_append,List.countP_append,hnone (by decide) hbalance,
      hnone (by decide) hevent,List.countP_singleton]
    simp [isTransaction,transactionRow,fieldValue,newField]

/-- What the loop adds for a transaction: nothing, or a part of the transaction's signature. -/
theorem transactionChanges_keyed (h58 : Base58 crates.bs58Encode) {i : Nat}
    {t : ConfirmedTransaction} {changes : List TableChange}
    (h : transactionChanges crates block blockTime i t=some changes) :
    changes=[] ∨ ¬Failed t ∧ ∃ first,firstSignature t=some first ∧
      KeyedPart crates (crates.bs58Encode first) changes := by
  obtain ⟨_,hnil⟩ | ⟨x,hx⟩ := transactionChanges_eq_some h
  · exact Or.inl hnil
  · refine Or.inr ⟨?_,?_⟩
    · intro hfailed
      obtain ⟨status,hs,he⟩ := hfailed
      obtain ⟨status',hs',⟨_,hnone⟩ | ⟨he',_⟩⟩ := getContext_eq_some x.context_eq
      · simp at hnone
      · rw [hs] at hs'
        exact he (Option.some_inj.mp hs' ▸ he')
    · obtain ⟨first,hfirst,hsig⟩ := getContext_signature x.context_eq
      exact ⟨first,hfirst,hx ▸ hsig ▸ x.changes_keyed h58 i⟩

theorem countP_isTransaction_other {rows : List TableChange} {signature : String}
    (h : ∀ row∈rows,fieldValue row.fields "signature"≠some signature) :
    rows.countP (isTransaction signature)=0 := by
  rw [List.countP_eq_zero]
  intro row hrow
  simp [isTransaction,h row hrow]

/-- A row of a successful transaction among ts, whose own row is there exactly once. -/
def Parented (crates : Crates) (ts : List ConfirmedTransaction) (out : List TableChange)
    (row : TableChange) : Prop :=
  ∃ t∈ts,¬Failed t ∧ ∃ first,firstSignature t=some first ∧
    KeyFor crates (crates.bs58Encode first) row ∧
    out.countP (isTransaction (crates.bs58Encode first))=1

private theorem KeyedPart.countP_other {signature signature' : String} {changes : List TableChange}
    (h : KeyedPart crates signature changes) (hne : signature≠signature') :
    changes.countP (isTransaction signature')=0 := by
  apply countP_isTransaction_other
  intro row hrow hsame
  rw [(h.keys row hrow).signed,Option.some_inj] at hsame
  exact hne hsame

/-- Rows of transactions that do not share a signature hold no row of its transaction. -/
theorem countP_parented_other {ts : List ConfirmedTransaction} {out rows : List TableChange}
    {signature : String} (h : ∀ row∈rows,Parented crates ts out row)
    (hother : ∀ t∈ts,∀ first,firstSignature t=some first → signature≠crates.bs58Encode first) :
    rows.countP (isTransaction signature)=0 := by
  apply countP_isTransaction_other
  intro row hrow hsame
  obtain ⟨t,ht,_,first,hfirst,hkey,_⟩ := h row hrow
  rw [hkey.signed,Option.some_inj] at hsame
  exact hother t ht first hfirst hsame.symm

/-- Part by part, the rows keep distinct keys and a parent each. -/
theorem parts_consistent (h58 : Base58 crates.bs58Encode) {i : Nat}
    {ts : List ConfirmedTransaction} {parts : List (List TableChange)}
    (h : List.Forall₂
      (fun p changes => transactionChanges crates block blockTime p.2 p.1=some changes)
      (ts.zipIdx i) parts) (hsigs : (ts.filterMap firstSignature).Nodup) :
    parts.flatten.Pairwise DistinctKeys ∧
      ∀ row∈parts.flatten,Parented crates ts parts.flatten row := by
  induction ts generalizing i parts with
  | nil =>
    rw [List.zipIdx_nil,List.forall₂_nil_left_iff] at h
    simp [h]
  | cons t rest ih =>
    rw [List.zipIdx_cons,List.forall₂_cons_left_iff] at h
    obtain ⟨changes,parts',hc,hrest,hparts⟩ := h
    have hsigs' : (rest.filterMap firstSignature).Nodup :=
      hsigs.sublist ((List.sublist_cons_self t rest).filterMap firstSignature)
    obtain ⟨hpair,hparented⟩ := ih hrest hsigs'
    rw [hparts,List.flatten_cons]
    rcases transactionChanges_keyed h58 hc with hnil|⟨hok,first,hfirst,hkeyed⟩
    · rw [hnil,List.nil_append]
      refine ⟨hpair,?_⟩
      intro row hrow
      obtain ⟨u,hu,h⟩ := hparented row hrow
      exact ⟨u,List.mem_cons_of_mem t hu,h⟩
    · rw [List.filterMap_cons_some hfirst,List.nodup_cons] at hsigs
      -- no later transaction shares the signature of this one
      have hother : ∀ u∈rest,∀ second,firstSignature u=some second →
          crates.bs58Encode first≠crates.bs58Encode second := by
        intro u hu second hsecond hsame
        apply hsigs.1
        rw [h58.injective hsame]
        exact List.mem_filterMap.mpr ⟨u,hu,hsecond⟩
      refine ⟨?_,?_⟩
      · rw [List.pairwise_append]
        refine ⟨hkeyed.distinct,hpair,?_⟩
        intro a ha b hb htable hpk
        obtain ⟨u,hu,_,second,hsecond,hkey,_⟩ := hparented b hb
        exact hother u hu second hsecond
          (KeyFor.signature_inj h58 (h58.dashless _) (h58.dashless _) (hkeyed.keys a ha) hkey
            htable hpk)
      · intro row hrow
        rcases List.mem_append.mp hrow with hrow|hrow
        · refine ⟨t,List.mem_cons_self,hok,first,hfirst,hkeyed.keys row hrow,?_⟩
          rw [List.countP_append,hkeyed.parent,countP_parented_other hparented hother]
        · obtain ⟨u,hu,huok,second,hsecond,hkey,hone⟩ := hparented row hrow
          refine ⟨u,List.mem_cons_of_mem t hu,huok,second,hsecond,hkey,?_⟩
          have hne := hother u hu second hsecond
          rw [List.countP_append,hkeyed.countP_other hne,hone]

private theorem eq_of_firstSignature {ts : List ConfirmedTransaction}
    (hsigs : (ts.filterMap firstSignature).Nodup) {t u : ConfirmedTransaction} (ht : t∈ts)
    (hu : u∈ts) {first : Bytes} (htf : firstSignature t=some first)
    (huf : firstSignature u=some first) : t=u := by
  induction ts with
  | nil => simp at ht
  | cons a rest ih =>
    have hsigs' : (rest.filterMap firstSignature).Nodup :=
      hsigs.sublist ((List.sublist_cons_self a rest).filterMap firstSignature)
    have hhead {v : ConfirmedTransaction} (hv : v∈rest) (hvf : firstSignature v=some first) :
        firstSignature a≠some first := by
      intro haf
      rw [List.filterMap_cons_some haf,List.nodup_cons] at hsigs
      exact hsigs.1 (List.mem_filterMap.mpr ⟨v,hv,hvf⟩)
    rcases List.mem_cons.mp ht with hta|htr
    · rcases List.mem_cons.mp hu with hua|hur
      · rw [hta,hua]
      · exact absurd (hta ▸ htf) (hhead hur huf)
    · rcases List.mem_cons.mp hu with hua|hur
      · exact absurd (hua ▸ huf) (hhead htr htf)
      · exact ih hsigs' htr hur

/-- The rows of a block are a consistent database: no two rows of a table have the same key, the
signature of a balance or event row is that of exactly one transactions row, and failed
transactions leave no trace. -/
theorem rows_consistent (h58 : Base58 crates.bs58Encode) {out : List TableChange}
    (hsigs : (block.transactions.filterMap firstSignature).Nodup)
    (h : mapTransferEventsToDb crates block=some out) :
    out.Pairwise (fun a b => a.table=b.table → a.pk≠b.pk) ∧
      (∀ row∈out,row.table="balance_updates" ∨ row.table="events" →
        ∃ signature,fieldValue row.fields "signature"=some signature ∧
          out.countP (isTransaction signature)=1) ∧
      ∀ i t,block.transactions[i]?=some t → Failed t →
        transactionChanges crates block (toString (block.blockTime.getD 0)) i t=some [] ∧
        ∀ first,firstSignature t=some first →
          ∀ row∈out,fieldValue row.fields "signature"≠some (crates.bs58Encode first) := by
  obtain ⟨parts,hparts,hout⟩ := transactionsLoop_eq_some.mp h
  rw [List.nil_append] at hout
  obtain ⟨hpair,hparented⟩ := parts_consistent h58 hparts hsigs
  rw [← hout] at hpair hparented
  refine ⟨hpair,?_,?_⟩
  · intro row hrow _
    obtain ⟨_,_,_,first,_,hkey,hone⟩ := hparented row hrow
    exact ⟨crates.bs58Encode first,hkey.signed,hone⟩
  · intro i t ht hfailed
    refine ⟨?_,?_⟩
    · obtain ⟨changes,hc,_⟩ := map_balance_rows h ht
      rcases transactionChanges_keyed h58 hc with hnil|⟨hok,_⟩
      · rw [hc,hnil]
      · exact absurd hfailed hok
    · intro first hfirst row hrow hsame
      obtain ⟨u,hu,huok,second,hsecond,hkey,_⟩ := hparented row hrow
      rw [hkey.signed,Option.some_inj] at hsame
      have htu : u=t := eq_of_firstSignature hsigs hu (List.mem_of_getElem? ht)
        (h58.injective hsame ▸ hsecond) hfirst
      exact huok (htu ▸ hfailed)

end

/-- A transaction with an index update that also moves tokens. -/
def indexingMeta : TransactionStatusMeta where
  err := none
  preBalances := []
  postBalances := []
  innerInstructions := []
  logMessages := ["Program mz2vDzjbQDUDXBH6FPF5s4odCJ4y8YLE5QWaZ8XdZ9Z invoke [1]",
    "Program data: ZUE5CMH+EMEAhOB49AAAAAEAAAAAAAAAAAAAAAAAAAAAAAAAAADwPwAAAAAAAPA/",
    "Program mz2vDzjbQDUDXBH6FPF5s4odCJ4y8YLE5QWaZ8XdZ9Z success"]
  preTokenBalances := []
  postTokenBalances := [⟨0,b58Encode (sampleAddress 3),some "5",b58Encode (sampleAddress 1)⟩]
  loadedWritableAddresses := []
  loadedReadonlyAddresses := []

def indexingMessage : Message where
  header := some ⟨1⟩
  accountKeys := [sampleAddress 1,(b58 earnId).bytes]
  instructions := [⟨1,[],[]⟩]

def indexingBlock : Block where
  blockhash := "hash"
  slot := 1
  blockHeight := some 1
  blockTime := some 1
  transactions := [⟨some ⟨[sampleAddress 7],some indexingMessage⟩,some indexingMeta⟩,
    ⟨some ⟨[sampleAddress 8],some indexingMessage⟩,some {indexingMeta with err := some []}⟩]

theorem rows_consistent_indexing :
    ∃ out,mapTransferEventsToDb reference indexingBlock=some out ∧
      out.map TableChange.table=["balance_updates","events","transactions"] ∧
      out.Pairwise (fun a b => a.table=b.table → a.pk≠b.pk) ∧
      (∀ row∈out,row.table="balance_updates" ∨ row.table="events" →
        ∃ signature,fieldValue row.fields "signature"=some signature ∧
          out.countP (isTransaction signature)=1) ∧
      ∀ row∈out,fieldValue row.fields "signature"≠some (b58Encode (sampleAddress 8)) := by
  have hmap : (mapTransferEventsToDb reference indexingBlock).map (List.map TableChange.table)=
      some ["balance_updates","events","transactions"] := by decide +kernel
  obtain ⟨out,hout,htables⟩ := Option.map_eq_some_iff.mp hmap
  obtain ⟨hkeys,hparents,hfailed⟩ := rows_consistent reference_base58 (by decide) hout
  have hsecond := (hfailed 1 _ rfl ⟨_,rfl,by decide⟩).2 (sampleAddress 8) rfl
  exact ⟨out,hout,htables,hkeys,hparents,hsecond⟩

end SolanaM.Substreams
