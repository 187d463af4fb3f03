import SolanaM.Substreams.Answers

namespace SolanaM.Substreams

open Tables

/-- Addresses have 32 bytes; a list of any other length stands for no address. -/
def keyOf (address : Bytes) : Key := if h : address.length=32 then ⟨address,h⟩ else .zero

theorem keyOf_bytes {address : Bytes} (h : address.length=32) : (keyOf address).bytes=address := by
  rw [keyOf,dif_pos h]

/-- The account and the mint of an entry. -/
def accountOf (a : TokenAccount) : Key × Key := (keyOf a.address,keyOf a.mint.bytes)

def moved (a : TokenAccount) : Bool := a.preBalance≠a.postBalance

abbrev Holdings := Key × Key → Nat

def Holdings.after (held : Holdings) (a : TokenAccount) : Holdings :=
  Function.update held (accountOf a) (a.postBalance.getD 0)

/-- Every entry starts from what the entries before it have left. -/
def Replays : Holdings → List TokenAccount → Prop
  | _,[] => True
  | held,a::rest => a.preBalance.getD 0=held (accountOf a) ∧ Replays (held.after a) rest

def heldAfter (held : Holdings) (entries : List TokenAccount) : Holdings :=
  entries.foldl Holdings.after held

theorem Replays.left {held : Holdings} {a b : List TokenAccount} (h : Replays held (a++b)) :
    Replays held a := by
  induction a generalizing held with
  | nil => exact trivial
  | cons e rest ih => exact ⟨h.1,ih h.2⟩

/-- Entries that leave a balance as it was may go. -/
theorem heldAfter_moved {held : Holdings} {entries : List TokenAccount}
    (h : Replays held entries) :
    heldAfter held (entries.filter moved)=heldAfter held entries := by
  induction entries generalizing held with
  | nil => rfl
  | cons a rest ih =>
    have hrest := ih h.2
    by_cases hm : moved a=true
    · rw [List.filter_cons_of_pos hm]
      exact hrest
    · have hsame : a.preBalance=a.postBalance := by simpa [moved] using hm
      have hstill : held.after a=held := by
        rw [Holdings.after,← hsame,h.1]
        exact Function.update_eq_self _ _
      rw [List.filter_cons_of_neg hm]
      rw [hstill] at hrest
      rw [hrest,heldAfter,heldAfter,List.foldl_cons,hstill]

/-- An account holds what its last entry says. -/
theorem heldAfter_last (held : Holdings) (entries : List TokenAccount) (account : Key × Key) :
    heldAfter held entries account=
      (((entries.filter fun a => accountOf a=account).getLast?).map fun a =>
        a.postBalance.getD 0).getD (held account) := by
  induction entries using List.reverseRecOn with
  | nil => rfl
  | append_singleton rest a ih =>
    rw [heldAfter,List.foldl_append,List.foldl_cons,List.foldl_nil,List.filter_append]
    by_cases ha : accountOf a=account
    · simp [Holdings.after,ha]
    · rw [Holdings.after,Function.update_of_ne (Ne.symm ha)]
      simpa [ha,heldAfter] using ih

/-- The entries of a transaction: every account in either of its lists, one entry each; a failed
transaction has none. All that held something before it are listed after it. -/
def Touches (crates : Crates) (t : ConfirmedTransaction) (ledger : List TokenAccount) : Prop :=
  Failed t ∧ ledger=[] ∨ ∃ x : Confirmed crates t,
    (x.status.preTokenBalances.map TokenBalance.accountIndex).Nodup ∧
    (x.status.postTokenBalances.map TokenBalance.accountIndex).Nodup ∧
    AllListedAfter x.status ∧
    List.Forall₂ (fun b a => ledgerAccount crates x.accounts x.status b=some a)
      (touched x.status) ledger

/-- The joined document of a balance row shows the update. -/
structure ShowsBalance (crates : Crates) (d : List Field × List Field) (b : Sdk.BalanceUpdate) :
    Prop where
  pubkey : fieldValue d.1 "pubkey"=some (crates.bs58Encode b.pubkey.bytes)
  mint : fieldValue d.1 "mint"=some (crates.bs58Encode b.mint.bytes)
  post : Documents.double d.1 "post_balance"=some (number b.postBalance)
  time : Documents.blockTime d=some b.ts
  height : Documents.blockHeight d=b.blockHeight

namespace Dated

/-- What the balance query should see of an entry. -/
def balanceUpdate (b : Dated) (a : TokenAccount) : Sdk.BalanceUpdate :=
  ⟨(accountOf a).1,(accountOf a).2,a.postBalance.getD 0,b.time,b.height⟩

def balancesOf (b : Dated) (ledger : List TokenAccount) : List Sdk.BalanceUpdate :=
  (ledger.filter moved).map b.balanceUpdate

end Dated

section
variable {crates : Crates}

private theorem parseU64_lt {s : String} {n : Nat} (h : parseU64 s=some n) : n<2^64 := by
  simp only [parseU64] at h
  split_ifs at h with hok
  rw [← Option.some_inj.mp h]
  exact hok.2.2

private theorem heldIn_lt (balances : List TokenBalance) (i : Nat) : heldIn balances i<2^64 := by
  rw [heldIn]
  cases balances.find? fun b => b.accountIndex=i with
  | none => exact Nat.two_pow_pos 64
  | some b =>
    rw [Option.map_some,Option.getD_some,TokenBalance.amount]
    cases hparse : b.uiTokenAmount.bind parseU64 with
    | none => exact Nat.two_pow_pos 64
    | some n =>
      obtain ⟨_,_,hn⟩ := Option.bind_eq_some_iff.mp hparse
      exact parseU64_lt hn

/-- An entry read off the two lists of a transaction. -/
structure Entry (a : TokenAccount) : Prop where
  address : a.address.length=32
  post : a.postBalance.getD 0<2^64

private theorem ledgerAccount_entry {t : ConfirmedTransaction} (x : Confirmed crates t)
    {b : TokenBalance} {a : TokenAccount}
    (h : ledgerAccount crates x.accounts x.status b=some a) : Entry a := by
  simp only [ledgerAccount,bind,Option.bind_eq_some_iff] at h
  obtain ⟨address,haddress,mint,_,owner,_,ha⟩ := h
  rw [← Option.some_inj.mp ha]
  exact ⟨x.keys address (List.mem_of_getElem? haddress),heldIn_lt _ _⟩

theorem documents_balances {t : ConfirmedTransaction} (y : Indexed crates t) (block : Block)
    (blockTime : String) (i : Nat) :
    documents "balance_updates" (y.changes block blockTime i)=
      (balanceRows crates blockTime i y.context.signature y.held).map TableChange.fields := by
  have hevents : documents "balance_updates"
      (eventRows crates blockTime y.context.signature 0 y.instructions.flattened)=[] :=
    documents_eventRows (by decide) _ 0
  have hbalances : documents "balance_updates"
      (balanceRows crates blockTime i y.context.signature y.held)=
        (balanceRows crates blockTime i y.context.signature y.held).map TableChange.fields := by
    rw [documents,List.filter_eq_self.mpr]
    intro row hrow
    obtain ⟨a,_,hrow⟩ := List.mem_map.mp hrow
    simp [← hrow,balanceRow]
  rw [Indexed.changes,documents_append,documents_append,hevents,hbalances]
  simp [documents,transactionRow]

private theorem balanceRow_shows {b : Dated} {i : Nat} {signature : String} {parent : List Field}
    (hparent : TransactionDocument signature b.time b.height parent) {a : TokenAccount}
    (ha : Entry a) :
    ShowsBalance crates ((balanceRow crates b.blockTime i signature a).fields,parent)
      (b.balanceUpdate a) where
  pubkey := by
    simp [balanceRow,fieldValue,newField,Dated.balanceUpdate,accountOf,keyOf_bytes ha.address]
  mint := by
    simp [balanceRow,fieldValue,newField,Dated.balanceUpdate,accountOf,Pubkey.toString,
      keyOf_bytes a.mint.size]
  post := by
    have hfield : fieldValue (balanceRow crates b.blockTime i signature a).fields "post_balance"=
        some (toString (a.postBalance.getD 0)) := by simp [balanceRow,fieldValue,newField]
    rw [Documents.double,hfield,Option.bind_some,parseU64_toString ha.post,Option.map_some]
    rfl
  time := hparent.time
  height := by
    rw [Documents.blockHeight,hparent.height]
    rfl

/-- The accounts of the rows: the entries that moved, in any order. -/
theorem held_perm {t : ConfirmedTransaction} (x : Confirmed crates t) (y : Indexed crates t)
    (hpre : (x.status.preTokenBalances.map TokenBalance.accountIndex).Nodup)
    (hpost : (x.status.postTokenBalances.map TokenBalance.accountIndex).Nodup)
    (hlisted : AllListedAfter x.status) {ledger : List TokenAccount}
    (hledger : List.Forall₂ (fun b a => ledgerAccount crates x.accounts x.status b=some a)
      (touched x.status) ledger) :
    (y.held.filter moved).Perm (ledger.filter moved) := by
  obtain ⟨post,gone,hsame,hperm,hgone⟩ := ledger_split x hpre hpost y.held_eq hledger
  have hnone : gone.filter moved=[] := by
    have hrows : balanceRows crates "" 0 "" gone=[] :=
      (balanceRows_emptied hpre hgone).mpr hlisted
    exact List.map_eq_nil_iff.mp hrows
  rw [hsame,List.filter_append,hnone,List.append_nil]
  exact hperm.filter moved

theorem Touches.confirmed {t : ConfirmedTransaction} {ledger : List TokenAccount}
    (h : Touches crates t ledger) : Failed t ∨ Nonempty (Confirmed crates t) :=
  h.imp And.left fun ⟨x,_⟩ => ⟨x⟩

/-- The step lemma: the documents of a transaction show the entries that moved. -/
theorem Dated.shows_balances (b : Dated) {t : ConfirmedTransaction} {ledger : List TokenAccount}
    (ht : Touches crates t ledger) {i : Nat} {changes : List TableChange}
    (h : transactionChanges crates b.block b.blockTime i t=some changes) :
    Shows (ShowsBalance crates) ((Selection.ofTable "balance_updates").linked changes)
      (b.balancesOf ledger) := by
  rcases ht with ⟨hf,rfl⟩|⟨x,hpre,hpost,hlisted,hledger⟩
  · rw [Failed.adds_nothing hf h]
    exact shows_of_forall₂ .nil
  · obtain ⟨y,rfl,_⟩ := x.indexed h
    have hparent := transactionRow_document b.dated b.numbered b.timeBound b.heightBound i
      y.context.signature
    have hmoved := held_perm x y hpre hpost hlisted hledger
    have hentries : ∀ a∈ledger.filter moved,Entry a := by
      intro a ha
      obtain ⟨_,_,hread⟩ := exists_of_mem_forall₂ hledger.flip (List.mem_of_mem_filter ha)
      exact ledgerAccount_entry x hread
    have hone : ∀ fields∈documents "balance_updates" (y.changes b.block b.blockTime i),
        fieldValue (transactionRow b.block b.blockTime i y.context.signature).fields "signature"=
          fieldValue fields "signature" := by
      intro fields hfields
      rw [documents_balances y] at hfields
      obtain ⟨row,hrow,rfl⟩ := List.mem_map.mp hfields
      obtain ⟨a,_,rfl⟩ := List.mem_map.mp hrow
      simp [transactionRow,balanceRow,fieldValue,newField]
    have hlinked : (Selection.ofTable "balance_updates").linked
        (y.changes b.block b.blockTime i)=
          (y.held.filter moved).map fun a =>
            ((balanceRow crates b.blockTime i y.context.signature a).fields,
              (transactionRow b.block b.blockTime i y.context.signature).fields) := by
      rw [Selection.linked,y.transactions]
      rw [show (Selection.ofTable "balance_updates").select=documents "balance_updates" from rfl,
        withTransactions_one hone,documents_balances y,balanceRows,List.map_map,List.map_map]
      rfl
    rw [hlinked]
    refine ⟨_,hmoved.map _,?_⟩
    rw [Dated.balancesOf,List.forall₂_map_left_iff,List.forall₂_map_right_iff,List.forall₂_same]
    intro a ha
    exact balanceRow_shows hparent (hentries a ha)

/-- The rows of one account. -/
def ofAccount (tokenAccount mint : Key) (b : Sdk.BalanceUpdate) : Bool :=
  b.pubkey=tokenAccount ∧ b.mint=mint

private theorem ShowsBalance.selected (h58 : Base58 crates.bs58Encode) (tokenAccount mint : Key)
    {d : List Field × List Field} {b : Sdk.BalanceUpdate} (h : ShowsBalance crates d b) :
    Documents.balancesOf crates tokenAccount mint d.1=ofAccount tokenAccount mint b := by
  have hkey (k l : Key) : crates.bs58Encode k.bytes=crates.bs58Encode l.bytes ↔ k=l :=
    (h58.injective.comp Key.bytes_injective).eq_iff
  simp only [Documents.balancesOf,ofAccount,h.pubkey,h.mint,Option.some_inj,hkey]

/-- The BN refuses the same balances, rounded or not. -/
theorem safeInteger_number (n : Nat) : Sdk.safeInteger (number n)=Sdk.safeInteger n := by
  by_cases h : n<2^53
  · rw [number_eq h]
  · have hge := number_ge (Nat.not_lt.mp h)
    rw [Sdk.safeInteger,Sdk.safeInteger,if_neg h,if_neg (Nat.not_lt.mpr hge)]

private theorem head_shown {B C : Type} {R : List Field × List Field → C → Prop}
    {found : List (List Field × List Field)} {rows : List C} (h : List.Forall₂ R found rows)
    {f : List Field × List Field → B} {g : C → B} (hfg : ∀ d c,R d c → f d=g c) :
    found.head?.map f=rows.head?.map g := by
  cases h with
  | nil => rfl
  | cons hd _ => rw [List.head?_cons,List.head?_cons,Option.map_some,Option.map_some,hfg _ _ hd]

private theorem documents_getBalanceAt (order : Sdk.DescendingSort Documents.blockHeight)
    (stored : List TableChange) (tokenAccount mint : Key) (ts : Nat) :
    Documents.getBalanceAt crates order stored tokenAccount mint ts=
      ((order.sort ((withTransactions
        ((documents "balance_updates" stored).filter
          (Documents.balancesOf crates tokenAccount mint))
        (documents "transactions" stored)).filter fun d =>
          (Documents.blockTime d).any (·<ts))).head?.map fun d =>
            (Documents.double d.1 "post_balance").map Sdk.safeInteger).getD (some (.ok 0)) := by
  simp only [Documents.getBalanceAt]
  generalize order.sort _=found
  cases found <;> rfl

theorem getBalanceAt_eq (order : Sdk.DescendingSort Sdk.BalanceUpdate.blockHeight)
    (rows : List Sdk.BalanceUpdate) (tokenAccount mint : Key) (ts : Nat) :
    Sdk.getBalanceAt order rows tokenAccount mint ts=
      ((order.sort ((rows.filter (ofAccount tokenAccount mint)).filter fun b =>
        b.ts<ts)).head?.map Sdk.BalanceUpdate.postBalance).getD 0 := by
  have hselect : (fun b : Sdk.BalanceUpdate => decide (b.pubkey=tokenAccount ∧ b.mint=mint))=
      ofAccount tokenAccount mint := rfl
  simp only [Sdk.getBalanceAt,hselect]
  generalize order.sort _=found
  cases found <;> rfl

theorem getBalanceAt_refines (h58 : Base58 crates.bs58Encode) {stored : List TableChange}
    {rows : List Sdk.BalanceUpdate}
    (h : Shows (ShowsBalance crates) ((Selection.ofTable "balance_updates").linked stored) rows)
    (order : Sdk.DescendingSort Documents.blockHeight) (tokenAccount mint : Key) (ts : Nat) :
    ∃ order',Documents.getBalanceAt crates order stored tokenAccount mint ts=
      some (Sdk.queryBalanceAt order' rows tokenAccount mint ts) := by
  have hselected := h.filter (p:=fun d => Documents.balancesOf crates tokenAccount mint d.1)
    (q:=ofAccount tokenAccount mint) fun _ _ hd => hd.selected h58 tokenAccount mint
  have hearlier := hselected.filter (p:=fun d => (Documents.blockTime d).any (·<ts))
    (q:=fun b => b.ts<ts) fun _ _ hd => by rw [hd.time,Option.any_some]
  obtain ⟨order',hsort⟩ := sort_refines (fun _ _ hd => hd.height) hearlier order
  refine ⟨order',?_⟩
  rw [← Selection.linked_filter] at hsort
  have hfirst := head_shown hsort (f:=fun d => (Documents.double d.1 "post_balance").map
    Sdk.safeInteger) (g:=fun b => some (Sdk.safeInteger b.postBalance)) fun d b hd => by
      rw [hd.post,Option.map_some,safeInteger_number]
  rw [documents_getBalanceAt,Sdk.queryBalanceAt,getBalanceAt_eq]
  refine (congrArg (fun answer => answer.getD (some (.ok 0))) hfirst).trans ?_
  cases (order'.sort _).head? <;> rfl

/-- Of blocks in order of time those before ts come first. -/
theorem earlier_first {T : Type} (ts : Nat) {chain : List (Dated × List T)}
    (h : chain.Pairwise fun p q => p.1.time≤q.1.time) :
    ∃ later,chain=chain.filter (fun p => p.1.time<ts)++later := by
  induction h with
  | nil => exact ⟨[],rfl⟩
  | @cons p chain hp _ ih =>
    by_cases hts : p.1.time<ts
    · obtain ⟨later,hlater⟩ := ih
      refine ⟨later,?_⟩
      rw [List.filter_cons_of_pos (by simpa using hts),List.cons_append,← hlater]
    · have hnone : chain.filter (fun p => p.1.time<ts)=[] := by
        rw [List.filter_eq_nil_iff]
        intro q hq
        have hle := hp q hq
        simp only [decide_eq_true_eq]
        omega
      refine ⟨p::chain,?_⟩
      rw [List.filter_cons_of_neg (by simpa using hts),hnone,List.nil_append]

/-- All entries of the chain, in order. -/
def entries (chain : List (Dated × List (List TokenAccount))) : List TokenAccount :=
  chain.flatMap fun p => p.2.flatten

/-- The rows that the balance query should see. -/
def chainBalances (chain : List (Dated × List (List TokenAccount))) : List Sdk.BalanceUpdate :=
  rowsOfChain Dated.balancesOf chain

theorem ofAccount_balanceUpdate (b : Dated) (tokenAccount mint : Key) (a : TokenAccount) :
    ofAccount tokenAccount mint (b.balanceUpdate a)=decide (accountOf a=(tokenAccount,mint)) := by
  rw [ofAccount,decide_eq_decide,Prod.ext_iff]
  rfl

private theorem entries_cons (p : Dated × List (List TokenAccount))
    (chain : List (Dated × List (List TokenAccount))) :
    entries (p::chain)=p.2.flatten++entries chain := List.flatMap_cons

private theorem chainBalances_cons (p : Dated × List (List TokenAccount))
    (chain : List (Dated × List (List TokenAccount))) :
    chainBalances (p::chain)=p.2.flatMap p.1.balancesOf++chainBalances chain := by
  rw [chainBalances,rowsOfChain,List.flatMap_cons]
  rfl

theorem flatMap_balancesOf (b : Dated) (ledgers : List (List TokenAccount)) :
    ledgers.flatMap b.balancesOf=(ledgers.flatten.filter moved).map b.balanceUpdate := by
  induction ledgers with
  | nil => rfl
  | cons ledger rest ih =>
    rw [List.flatMap_cons,ih,List.flatten_cons,List.filter_append,List.map_append]
    rfl

/-- Before ts the rows of an account record what its entries do that moved. -/
theorem chainBalances_earlier (tokenAccount mint : Key) (ts : Nat)
    (chain : List (Dated × List (List TokenAccount))) :
    (((chainBalances chain).filter (ofAccount tokenAccount mint)).filter fun b =>
        b.ts<ts).map Sdk.BalanceUpdate.postBalance=
      (((entries (chain.filter fun p => p.1.time<ts)).filter moved).filter fun a =>
        accountOf a=(tokenAccount,mint)).map fun a => a.postBalance.getD 0 := by
  induction chain with
  | nil => rfl
  | cons p chain ih =>
    have hblock : (p.2.flatMap p.1.balancesOf).filter (ofAccount tokenAccount mint)=
        ((p.2.flatten.filter moved).filter fun a =>
          accountOf a=(tokenAccount,mint)).map p.1.balanceUpdate := by
      rw [flatMap_balancesOf,List.filter_map]
      congr 1
      apply List.filter_congr
      intro a _
      exact ofAccount_balanceUpdate p.1 tokenAccount mint a
    rw [chainBalances_cons,List.filter_append,List.filter_append,List.map_append,hblock,ih]
    by_cases hts : p.1.time<ts
    · rw [List.filter_cons_of_pos (by simpa using hts),entries_cons,List.filter_append,
        List.filter_append,List.map_append,List.filter_eq_self.mpr]
      · rw [List.map_map]
        rfl
      · intro b hb
        obtain ⟨a,_,rfl⟩ := List.mem_map.mp hb
        exact decide_eq_true hts
    · rw [List.filter_cons_of_neg (by simpa using hts),List.filter_eq_nil_iff.mpr]
      · rfl
      · intro b hb
        obtain ⟨a,_,rfl⟩ := List.mem_map.mp hb
        show ¬decide (p.1.time<ts)=true
        simpa using hts

/-- One move of an account a block puts its rows in order. -/
theorem chainBalances_heights {tokenAccount mint : Key}
    {chain : List (Dated × List (List TokenAccount))}
    (hordered : chain.Pairwise fun p q => p.1.height<q.1.height)
    (hone : ∀ p∈chain,
      (p.2.flatten.countP fun a => moved a ∧ accountOf a=(tokenAccount,mint)) ≤ 1) :
    ((chainBalances chain).filter (ofAccount tokenAccount mint)).Pairwise fun b c =>
      b.blockHeight<c.blockHeight := by
  have hrows : (chainBalances chain).filter (ofAccount tokenAccount mint)=
      rowsOfChain (fun (b : Dated) ledger =>
        (b.balancesOf ledger).filter (ofAccount tokenAccount mint)) chain := by
    simp only [chainBalances,rowsOfChain,List.filter_flatMap]
  rw [hrows]
  apply heights_increase _ hordered
  · intro p hp
    have hlen := hone p hp
    rw [← List.filter_flatMap,flatMap_balancesOf,List.filter_map,List.length_map,
      List.filter_filter,← List.countP_eq_length_filter]
    refine Nat.le_trans (Nat.le_of_eq ?_) hlen
    apply List.countP_congr
    intro a _
    simp only [Function.comp_apply,ofAccount_balanceUpdate,Bool.and_eq_true,decide_eq_true_eq,
      and_comm]
  · intro b ledger c hc
    obtain ⟨a,_,rfl⟩ := List.mem_map.mp (List.mem_of_mem_filter hc)
    rfl

private theorem getBalanceAt_last (order : Sdk.DescendingSort Sdk.BalanceUpdate.blockHeight)
    {rows : List Sdk.BalanceUpdate} {tokenAccount mint : Key}
    (h : (rows.filter (ofAccount tokenAccount mint)).Pairwise fun b c =>
      b.blockHeight<c.blockHeight) (ts : Nat) :
    Sdk.getBalanceAt order rows tokenAccount mint ts=
      ((((rows.filter (ofAccount tokenAccount mint)).filter fun b =>
        b.ts<ts).map Sdk.BalanceUpdate.postBalance).getLast?).getD 0 := by
  have hsort := order.sort_eq (List.Perm.refl _) (h.filter fun b => b.ts<ts)
  rw [getBalanceAt_eq,hsort,List.getLast?_map,List.getLast?_eq_head?_reverse]

/-- A chain on whose logs the structuring does not panic is indexed; once its rows are stored, in
whatever order, the balance query answers what replaying every transaction before ts leaves the
account, as far as a BN takes it. The account moves at most once a block, and none that held
something disappears from the lists. -/
theorem balance_query_answered (h58 : Base58 crates.bs58Encode)
    {chain : List (Dated × List (List TokenAccount))} (htrue : TrueOf (Touches crates) chain)
    (hsigs : ((transactionsOf chain).filterMap firstSignature).Nodup)
    (hordered : chain.Pairwise fun p q => p.1.height<q.1.height ∧ p.1.time≤q.1.time)
    (hstructured : ∀ t∈transactionsOf chain,Structured crates t)
    (hreplays : Replays (fun _ => 0) (entries chain)) :
    ∃ outs,List.Forall₂ (fun p out => mapTransferEventsToDb crates p.1.block=some out) chain outs ∧
      ∀ stored,stored.Perm outs.flatten → ∀ tokenAccount mint,
        (∀ p∈chain,
          (p.2.flatten.countP fun a => moved a ∧ accountOf a=(tokenAccount,mint)) ≤ 1) →
        ∀ order ts,Documents.getBalanceAt crates order stored tokenAccount mint ts=
          some (Sdk.safeInteger (heldAfter (fun _ => 0)
            (entries (chain.filter fun p => p.1.time<ts)) (tokenAccount,mint))) := by
  have hstep : ShowsTruth crates (Selection.ofTable "balance_updates") (ShowsBalance crates)
      (Touches crates) Dated.balancesOf := fun b _ _ _ _ ht h => b.shows_balances ht h
  have hmap : ∀ p∈chain,∃ out,mapTransferEventsToDb crates p.1.block=some out := by
    intro p hp
    refine (map_isSome_iff fun t ht => ?_).mpr fun t ht =>
      hstructured t (List.mem_flatMap.mpr ⟨p,hp,ht⟩)
    obtain ⟨_,_,htouches⟩ := exists_of_mem_forall₂ (htrue p hp) ht
    exact htouches.confirmed
  obtain ⟨outs,houts,hstored⟩ := stored_shows h58 hstep htrue hmap hsigs
  refine ⟨outs,houts,?_⟩
  intro stored hperm tokenAccount mint hone order ts
  obtain ⟨order',hanswer⟩ :=
    getBalanceAt_refines h58 (hstored stored hperm) order tokenAccount mint ts
  have hheights := chainBalances_heights (hordered.imp And.left) hone
  -- the transactions before ts are the first ones of the chain
  obtain ⟨later,hlater⟩ := earlier_first ts (hordered.imp And.right)
  have hearlier : Replays (fun _ => 0) (entries (chain.filter fun p => p.1.time<ts)) := by
    rw [hlater,entries,List.flatMap_append] at hreplays
    exact hreplays.left
  rw [hanswer,Sdk.queryBalanceAt,show rowsOfChain Dated.balancesOf chain=chainBalances chain from rfl,
    getBalanceAt_last order' hheights,chainBalances_earlier,← heldAfter_moved hearlier,
    heldAfter_last,List.getLast?_map]

end

def burn : CompiledInstruction := ⟨3,[1,2,0],[8,3,0,0,0,0,0,0,0]⟩

def holdingOf (amount : String) : TokenBalance := {sampleHolding with uiTokenAmount := some amount}

def holdingMeta (pre post : List TokenBalance) : TransactionStatusMeta where
  err := none
  preBalances := []
  postBalances := []
  innerInstructions := []
  logMessages := tokenLog ["Program log: Instruction: Burn"]
  preTokenBalances := pre
  postTokenBalances := post
  loadedWritableAddresses := []
  loadedReadonlyAddresses := []

def holdingMessage : Message := ⟨some ⟨1⟩,burnAndCloseKeys,[burn]⟩

def holdingTransaction (n : Nat) (pre post : List TokenBalance) : ConfirmedTransaction :=
  ⟨some ⟨[sampleAddress n],some holdingMessage⟩,some (holdingMeta pre post)⟩

def holdingConfirmed (n : Nat) {pre post : List TokenBalance}
    (hpre : ∀ b∈pre,Listed reference burnAndCloseKeys b)
    (hpost : ∀ b∈post,Listed reference burnAndCloseKeys b) :
    Confirmed reference (holdingTransaction n pre post) where
  accounts := burnAndCloseKeys
  status := holdingMeta pre post
  transaction := ⟨[sampleAddress n],some holdingMessage⟩
  message := holdingMessage
  header := ⟨1⟩
  signature := sampleAddress n
  instructions := [.compiled burn]
  accounts_eq := rfl
  distinct := burnAndCloseConfirmed.distinct
  keys := burnAndCloseConfirmed.keys
  transaction_eq := rfl
  message_eq := rfl
  header_eq := rfl
  signed := rfl
  signers := burnAndCloseConfirmed.signers
  status_eq := rfl
  succeeded := rfl
  pre := hpre
  post := hpost
  instructions_eq := rfl
  program := by decide
  inRange := by decide +kernel
  initialized := by
    intro ix hix _ init hinit
    have hnone : ∀ ix∈[burn].map WrappedInstruction.compiled,
        TokenInstruction.unpack ix.data=none := by decide
    have hcontra := (hnone ix hix).symm.trans hinit
    cases hcontra

theorem holdingOf_listed : ∀ b∈[holdingOf "5",holdingOf "2"],
    Listed reference burnAndCloseKeys b := by
  intro b hb
  have hsame : ∃ text n,b=holdingOf text ∧ parseU64 text=some n := by
    rcases List.mem_cons.mp hb with rfl|hb
    · exact ⟨"5",5,rfl,by decide⟩
    · exact ⟨"2",2,List.mem_singleton.mp hb,by decide⟩
  obtain ⟨text,n,rfl,hn⟩ := hsame
  exact ⟨sampleHolding_listed.inRange,⟨text,n,rfl,hn⟩,sampleHolding_listed.mint,
    sampleHolding_listed.owner⟩

theorem holding_touches (n : Nat) {pre post : List TokenBalance} {ledger : List TokenAccount}
    (hpre : ∀ b∈pre,Listed reference burnAndCloseKeys b)
    (hpost : ∀ b∈post,Listed reference burnAndCloseKeys b)
    (hnpre : (pre.map TokenBalance.accountIndex).Nodup)
    (hnpost : (post.map TokenBalance.accountIndex).Nodup)
    (hlisted : AllListedAfter (holdingMeta pre post))
    (hledger : List.Forall₂
      (fun b a => ledgerAccount reference burnAndCloseKeys (holdingMeta pre post) b=some a)
      (touched (holdingMeta pre post)) ledger) :
    Touches reference (holdingTransaction n pre post) ledger :=
  .inr ⟨holdingConfirmed n hpre hpost,hnpre,hnpost,hlisted,hledger⟩

def holdingBlock (n : Fin 3) (pre post : List TokenBalance) : Dated where
  block := ⟨"hash",n.val,some n.val,some n.val,[holdingTransaction n.val pre post]⟩
  time := n.val
  height := n.val
  dated := rfl
  numbered := rfl
  timeBound := by omega
  heightBound := by omega

theorem sampleAddress_size (n : Nat) : (sampleAddress n).length=32 := rfl

/-- The account of the sample with a balance before and after. -/
def holdingEntry (pre post : Nat) : TokenAccount where
  address := sampleAddress 2
  mint := ⟨sampleAddress 3,sampleAddress_size 3⟩
  owner := ⟨sampleAddress 1,sampleAddress_size 1⟩
  preBalance := some pre
  postBalance := some post

/-- An account that receives 5 tokens, and 3 of them burnt in a later block. -/
def holdingChain : List (Dated × List (List TokenAccount)) :=
  [(holdingBlock 1 [] [holdingOf "5"],[[holdingEntry 0 5]]),
    (holdingBlock 2 [holdingOf "5"] [holdingOf "2"],[[holdingEntry 5 2]])]

private theorem holdingChain_true : TrueOf (Touches reference) holdingChain := by
  have hfive : ∀ b∈[holdingOf "5"],Listed reference burnAndCloseKeys b := by
    intro b hb
    exact holdingOf_listed b (by simp [List.mem_singleton.mp hb])
  have htwo : ∀ b∈[holdingOf "2"],Listed reference burnAndCloseKeys b := by
    intro b hb
    exact holdingOf_listed b (by simp [List.mem_singleton.mp hb])
  intro p hp
  rcases List.mem_cons.mp hp with rfl|hp
  · refine .cons (holding_touches 1 (by simp) hfive (by decide) (by decide) ?_
      (.cons (by decide +kernel) .nil)) .nil
    intro b hb
    cases hb
  · rw [List.mem_singleton.mp hp]
    refine .cons (holding_touches 2 hfive htwo (by decide) (by decide) ?_
      (.cons (by decide +kernel) .nil)) .nil
    intro b hb _
    have hindex : b.accountIndex=1 := by rw [List.mem_singleton.mp hb]; rfl
    rw [hindex]
    decide

private theorem holdingChain_structured :
    ∀ t∈transactionsOf holdingChain,Structured reference t := by
  have hall : ∀ t∈transactionsOf holdingChain,
      (getStructuredInstructions reference t).isSome=true := by decide +kernel
  exact fun t ht => Option.isSome_iff_exists.mp (hall t ht)

private theorem holdingChain_replays : Replays (fun _ => 0) (entries holdingChain) := by
  show Replays (fun _ => 0) [holdingEntry 0 5,holdingEntry 5 2]
  exact ⟨rfl,by decide +kernel,trivial⟩

theorem balance_query_answered_burn :
    ∃ outs,List.Forall₂ (fun (p : Dated × List (List TokenAccount)) out =>
        mapTransferEventsToDb reference p.1.block=some out) holdingChain outs ∧
      ∀ order,[0,1,2,3].map (Documents.getBalanceAt reference order outs.flatten
        (keyOf (sampleAddress 2)) (keyOf (sampleAddress 3)))=
          [some (.ok 0),some (.ok 0),some (.ok 5),some (.ok 2)] := by
  obtain ⟨outs,houts,hstored⟩ := balance_query_answered reference_base58 holdingChain_true
    (by decide +kernel) (by decide) holdingChain_structured holdingChain_replays
  refine ⟨outs,houts,?_⟩
  intro order
  have hanswer := hstored outs.flatten (List.Perm.refl _) (keyOf (sampleAddress 2))
    (keyOf (sampleAddress 3)) (by decide +kernel) order
  simp only [List.map_cons,List.map_nil,hanswer]
  decide +kernel

end SolanaM.Substreams
