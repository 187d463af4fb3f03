import SolanaM.Substreams.Confirmed
import SolanaM.Substreams.Reference

namespace SolanaM.Substreams

/-- The balance an entry records; a text that is no u64 counts as nothing. -/
def TokenBalance.amount (b : TokenBalance) : Nat := (b.uiTokenAmount.bind parseU64).getD 0

/-- What account i holds by one of the two lists: 0 when the list leaves it out. -/
def heldIn (balances : List TokenBalance) (i : Nat) : Nat :=
  ((balances.find? fun b => b.accountIndex=i).map TokenBalance.amount).getD 0

/-- The account of an entry with its balances before and after the transaction. -/
def ledgerAccount (crates : Crates) (accounts : List Bytes) (status : TransactionStatusMeta)
    (b : TokenBalance) : Option TokenAccount := do
  let address ← accounts[b.accountIndex]?
  let mint ← Pubkey.tryFromString crates b.mint
  let owner ← Pubkey.tryFromString crates b.owner
  return ⟨address,mint,owner,some (heldIn status.preTokenBalances b.accountIndex),
    some (heldIn status.postTokenBalances b.accountIndex)⟩

theorem heldIn_of_mem {balances : List TokenBalance} {b : TokenBalance}
    (hn : (balances.map TokenBalance.accountIndex).Nodup) (hb : b∈balances) :
    heldIn balances b.accountIndex=b.amount := by
  induction balances with
  | nil => simp at hb
  | cons c rest ih =>
    rw [List.map_cons,List.nodup_cons] at hn
    rcases List.mem_cons.mp hb with hbc | hbr
    · simp [heldIn,hbc]
    · have hne : c.accountIndex≠b.accountIndex := by
        intro heq
        exact hn.1 (heq ▸ List.mem_map_of_mem hbr)
      have ih' := ih hn.2 hbr
      simp only [heldIn] at ih' ⊢
      rwa [List.find?_cons_of_neg (by simpa using hne)]

private theorem heldIn_of_not_mem {balances : List TokenBalance} {i : Nat}
    (hi : i∉balances.map TokenBalance.accountIndex) : heldIn balances i=0 := by
  have hnone : (balances.find? fun b => b.accountIndex=i)=none := by
    apply List.find?_eq_none.mpr
    intro b hb hbi
    exact hi (List.mem_map.mpr ⟨b,hb,of_decide_eq_true hbi⟩)
  simp [heldIn,hnone]

section
variable {crates : Crates} {accounts : List Bytes}

/-- The address an entry names and the balance it records. -/
def Names (accounts : List Bytes) (b : TokenBalance) (p : Bytes × Nat) : Prop :=
  accounts[b.accountIndex]?=some p.1 ∧ p.2=b.amount

private theorem names_of_readPatch {b : TokenBalance} {p : Bytes×Nat}
    (h : readPatch accounts b=some p) : Names accounts b p := by
  simp only [readPatch,bind,Option.bind_eq_some_iff] at h
  obtain ⟨text,htext,address,haddress,h⟩ := h
  rw [← Option.some_inj.mp h]
  exact ⟨haddress,by simp [TokenBalance.amount,htext]⟩

/-- Distinct addresses make indices and addresses the same thing. -/
theorem index_unique (hd : accounts.Nodup) {i j : Nat} {address : Bytes}
    (hi : accounts[i]?=some address) (hj : accounts[j]?=some address) : i=j := by
  have hlt : i<accounts.length := (List.getElem?_eq_some_iff.mp hi).1
  exact (List.getElem?_inj hlt hd).mp (hi.trans hj.symm)

private theorem find_patch (hd : accounts.Nodup) {balances : List TokenBalance}
    {patches : Slots Bytes Nat} (h : List.Forall₂ (Names accounts) balances patches) {i : Nat}
    {address : Bytes} (hi : accounts[i]?=some address) :
    ((patches.find? fun p => p.1=address).map Prod.snd).getD 0=heldIn balances i := by
  induction h with
  | nil => rfl
  | @cons b p rest patches hname _ ih =>
    by_cases hk : p.1=address
    · have hbi : b.accountIndex=i := index_unique hd (hk ▸ hname.1) hi
      simp [heldIn,hk,hbi,hname.2]
    · have hbi : b.accountIndex≠i := by
        intro heq
        have hsame : some p.1=some address := (heq ▸ hname.1).symm.trans hi
        exact hk (Option.some_inj.mp hsame)
      simpa [heldIn,hk,hbi] using ih

theorem addresses_nodup (hd : accounts.Nodup) {indices : List Nat} {addresses : List Bytes}
    (h : List.Forall₂ (fun i address => accounts[i]?=some address) indices addresses)
    (hn : indices.Nodup) : addresses.Nodup := by
  have hunique : Relator.BiUnique fun (i : Nat) address => accounts[i]?=some address := by
    constructor
    · intro i j address hi hj
      exact index_unique hd hi hj
    · intro i address address' ha ha'
      exact Option.some_inj.mp (ha.symm.trans ha')
  exact (List.rel_nodup hunique h).mp hn

/-- The slots after both loops: the accounts of post_token_balances with both balances. -/
theorem ledgerAccount_of_post (hd : accounts.Nodup) {status : TransactionStatusMeta}
    (hpost : (status.postTokenBalances.map TokenBalance.accountIndex).Nodup)
    {patches : Slots Bytes Nat}
    (hp : List.Forall₂ (Names accounts) status.preTokenBalances patches) {b : TokenBalance}
    (hb : b∈status.postTokenBalances) {a : TokenAccount}
    (ha : postTokenAccount crates accounts b=some a) :
    ledgerAccount crates accounts status b=
      some (((patches.find? fun p => p.1=a.address).map fun p => patchPre p.2 a).getD a) := by
  simp only [postTokenAccount,bind,Option.bind_eq_some_iff] at ha
  obtain ⟨text,htext,address,haddress,mint,hmint,owner,howner,ha⟩ := ha
  have hfind := find_patch hd hp haddress
  have hafter : heldIn status.postTokenBalances b.accountIndex=(parseU64 text).getD 0 := by
    rw [heldIn_of_mem hpost hb]
    simp [TokenBalance.amount,htext]
  have ha' : a=⟨address,mint,owner,some 0,some ((parseU64 text).getD 0)⟩ :=
    (Option.some_inj.mp ha).symm
  subst ha'
  cases hpatch : patches.find? fun p => p.1=address with
  | none => simp_all [ledgerAccount]
  | some p => simp_all [ledgerAccount,patchPre]

private theorem tokenAccounts_perm {t : ConfirmedTransaction} {status : TransactionStatusMeta}
    {held : List TokenAccount} (hacc : crates.resolvedAccounts t=some accounts)
    (hs : t.status=some status) (hd : accounts.Nodup)
    (hpre : (status.preTokenBalances.map TokenBalance.accountIndex).Nodup)
    (hpost : (status.postTokenBalances.map TokenBalance.accountIndex).Nodup)
    (h : tokenAccounts crates t=some held) :
    ∃ ledger,List.Forall₂ (fun b a => ledgerAccount crates accounts status b=some a)
      status.postTokenBalances ledger ∧ held.Perm ledger := by
  simp only [tokenAccounts,hacc,hs,bind,Option.bind_eq_some_iff,Option.bind_some] at h
  obtain ⟨slots,hslots,patched,hpatched,hheld⟩ := h
  obtain ⟨opened,hopened,hslots⟩ := insertPostBalances_eq_some.mp hslots
  obtain ⟨patches,hread,hpatched⟩ := patchPreBalances_eq_some.mp hpatched
  have hpatches : List.Forall₂ (Names accounts) status.preTokenBalances patches :=
    hread.imp fun _ _ hp => names_of_readPatch hp
  have haddr : (opened.map TokenAccount.address).Nodup := by
    refine addresses_nodup hd ?_ hpost
    rw [List.forall₂_map_left_iff,List.forall₂_map_right_iff]
    refine hopened.imp ?_
    intro b a ha
    simp only [postTokenAccount,bind,Option.bind_eq_some_iff] at ha
    obtain ⟨_,_,address,haddress,_,_,_,_,ha⟩ := ha
    rw [haddress,← Option.some_inj.mp ha]
  have hpatchAddr : (patches.map Prod.fst).Nodup := by
    refine addresses_nodup hd ?_ hpre
    rw [List.forall₂_map_left_iff,List.forall₂_map_right_iff]
    exact hpatches.imp fun b p hname => hname.1
  have hopen : slots=opened.map fun a => (a.address,a) := by
    have hfold := Slots.insertAll_fresh (opened.map fun a => (a.address,a)) []
      (by simpa [Function.comp_def] using haddr)
    rwa [List.foldl_map,hslots,List.nil_append] at hfold
  have hvalues : patched.map Prod.snd=opened.map fun a =>
      ((patches.find? fun p => p.1=a.address).map fun p => patchPre p.2 a).getD a := by
    rw [← hpatched,Slots.modifyAll patchPre patches slots hpatchAddr,hopen]
    simp [Function.comp_def]
  refine ⟨patched.map Prod.snd,?_,?_⟩
  · rw [hvalues,List.forall₂_map_right_iff]
    refine ((List.forall₂_and_left _ _).mpr ⟨fun b hb => hb,hopened⟩).imp ?_
    intro b a hba
    exact ledgerAccount_of_post hd hpost hpatches hba.1 hba.2
  · have hheld' : crates.values (patched.map Prod.snd)=held := Option.some_inj.mp hheld
    exact hheld' ▸ crates.values_perm _

/-- The entries of pre_token_balances whose account post_token_balances leaves out. -/
def emptied (status : TransactionStatusMeta) : List TokenBalance :=
  status.preTokenBalances.filter fun b =>
    b.accountIndex∉status.postTokenBalances.map TokenBalance.accountIndex

/-- One entry for each account that either list names. -/
def touched (status : TransactionStatusMeta) : List TokenBalance :=
  status.postTokenBalances++emptied status

/-- Every nonzero balance before the transaction has an entry after it, be it of 0. -/
def AllListedAfter (status : TransactionStatusMeta) : Prop :=
  ∀ b∈status.preTokenBalances,b.amount≠0 →
    b.accountIndex∈status.postTokenBalances.map TokenBalance.accountIndex

private theorem ledger_emptied {status : TransactionStatusMeta}
    (h : ∀ b∈status.preTokenBalances,∃ a,preTokenAccount crates accounts b=some a) :
    ∃ ledger,List.Forall₂ (fun b a => ledgerAccount crates accounts status b=some a)
      (emptied status) ledger := by
  apply exists_forall₂
  intro b hb
  obtain ⟨a,ha⟩ := h b (List.mem_of_mem_filter hb)
  simp only [preTokenAccount,bind,Option.bind_eq_some_iff] at ha
  obtain ⟨address,haddress,_,_,_,_,mint,hmint,owner,howner,_⟩ := ha
  exact ⟨_,by simp [ledgerAccount,haddress,hmint,howner]; rfl⟩

/-- The emptied accounts owe no row exactly when they held nothing. -/
theorem balanceRows_emptied {blockTime signature : String} {i : Nat}
    {status : TransactionStatusMeta} {ledger : List TokenAccount}
    (hpre : (status.preTokenBalances.map TokenBalance.accountIndex).Nodup)
    (h : List.Forall₂ (fun b a => ledgerAccount crates accounts status b=some a)
      (emptied status) ledger) :
    balanceRows crates blockTime i signature ledger=[] ↔ AllListedAfter status := by
  have hheld : ∀ b∈emptied status,∀ a,ledgerAccount crates accounts status b=some a →
      (a.preBalance=a.postBalance ↔ b.amount=0) := by
    intro b hb a ha
    have hmem := List.mem_filter.mp hb
    simp only [ledgerAccount,bind,Option.bind_eq_some_iff] at ha
    obtain ⟨address,_,mint,_,owner,_,ha⟩ := ha
    have hafter : heldIn status.postTokenBalances b.accountIndex=0 :=
      heldIn_of_not_mem (of_decide_eq_true hmem.2)
    rw [← Option.some_inj.mp ha]
    simp [hafter,heldIn_of_mem hpre hmem.1]
  have hempty : balanceRows crates blockTime i signature ledger=[] ↔
      ∀ b∈emptied status,b.amount=0 := by
    simp only [balanceRows,List.map_eq_nil_iff,List.filter_eq_nil_iff]
    generalize emptied status=entries at h hheld
    induction h with
    | nil => simp
    | @cons b a rest ledger ha _ ih =>
      have ih' := ih fun c hc => hheld c (by simp [hc])
      simp only [List.mem_cons,forall_eq_or_imp,ih']
      have hb := hheld b (by simp) a ha
      simp [hb]
  rw [hempty]
  simp only [emptied,AllListedAfter,List.mem_filter,decide_eq_true_eq]
  constructor
  · intro hz b hb hne
    by_contra hnot
    exact hne (hz b ⟨hb,hnot⟩)
  · intro hl b hb
    by_contra hne
    exact hb.2 (hl b hb.1 hne)

theorem balanceRows_perm {blockTime signature : String} {i : Nat} {held ledger : List TokenAccount}
    (h : held.Perm ledger) :
    (balanceRows crates blockTime i signature held).Perm
      (balanceRows crates blockTime i signature ledger) :=
  (h.filter _).map _

/-- Every account that either list names can be read. -/
theorem ledger_touched {t : ConfirmedTransaction} (x : Confirmed crates t) :
    ∃ ledger,List.Forall₂ (fun b a => ledgerAccount crates x.accounts x.status b=some a)
      (touched x.status) ledger := by
  apply exists_forall₂
  intro b hb
  have hlisted : Listed crates x.accounts b := by
    rcases List.mem_append.mp hb with hpost|hgone
    · exact x.post b hpost
    · exact x.pre b (List.mem_of_mem_filter hgone)
  obtain ⟨mint,hmint⟩ := hlisted.mint
  obtain ⟨owner,howner⟩ := hlisted.owner
  exact ⟨_,by simp [ledgerAccount,List.getElem?_eq_getElem hlisted.inRange,hmint,howner]; rfl⟩

/-- The ledger is what the map holds at the end, in some order, and the emptied accounts. -/
theorem ledger_split {t : ConfirmedTransaction} (x : Confirmed crates t)
    (hpre : (x.status.preTokenBalances.map TokenBalance.accountIndex).Nodup)
    (hpost : (x.status.postTokenBalances.map TokenBalance.accountIndex).Nodup)
    {held ledger : List TokenAccount} (hheld : tokenAccounts crates t=some held)
    (hledger : List.Forall₂ (fun b a => ledgerAccount crates x.accounts x.status b=some a)
      (touched x.status) ledger) :
    ∃ post gone,ledger=post++gone ∧ held.Perm post ∧
      List.Forall₂ (fun b a => ledgerAccount crates x.accounts x.status b=some a)
        (emptied x.status) gone := by
  obtain ⟨post,hpostLedger,hperm⟩ :=
    tokenAccounts_perm x.accounts_eq x.status_eq x.distinct hpre hpost hheld
  obtain ⟨gone,hgone⟩ := ledger_emptied fun b hb =>
    Confirmed.preTokenAccount_of_listed (x.pre b hb)
  have hunique : Relator.RightUnique fun (b : TokenBalance) (a : TokenAccount) =>
      ledgerAccount crates x.accounts x.status b=some a :=
    fun _ _ _ ha ha' => Option.some_inj.mp (ha.symm.trans ha')
  exact ⟨post,gone,List.right_unique_forall₂' hunique hledger
    (List.rel_append hpostLedger hgone),hperm,hgone⟩

/-- The rows of transaction i are the changed accounts of its ledger, short of the emptied ones. -/
theorem balance_rows_of_map {block : Block} {out : List TableChange} {i : Nat}
    {t : ConfirmedTransaction} (h : mapTransferEventsToDb crates block=some out)
    (ht : block.transactions[i]?=some t) (x : Confirmed crates t)
    (hpre : (x.status.preTokenBalances.map TokenBalance.accountIndex).Nodup)
    (hpost : (x.status.postTokenBalances.map TokenBalance.accountIndex).Nodup)
    {ledger : List TokenAccount}
    (hledger : List.Forall₂ (fun b a => ledgerAccount crates x.accounts x.status b=some a)
      (touched x.status) ledger) :
    (out.filter (isBalanceRow i)).Perm (balanceRows crates (toString (block.blockTime.getD 0))
        i (crates.bs58Encode x.signature) ledger) ↔ AllListedAfter x.status := by
  obtain ⟨changes,hc,hrows⟩ := map_balance_rows h ht
  obtain ⟨y,rfl,hsig⟩ := x.indexed hc
  obtain ⟨post,gone,rfl,hperm,hgone⟩ := ledger_split x hpre hpost y.held_eq hledger
  rw [hrows,y.filter_balance,if_pos rfl,hsig]
  generalize toString (block.blockTime.getD 0)=blockTime
  generalize crates.bs58Encode x.signature=signature
  have hsplit : balanceRows crates blockTime i signature (post++gone)=
      balanceRows crates blockTime i signature post++
        balanceRows crates blockTime i signature gone := by
    simp [balanceRows]
  have hempty : balanceRows crates blockTime i signature gone=[] ↔
      AllListedAfter x.status := balanceRows_emptied hpre hgone
  rw [hsplit,← hempty]
  constructor
  · intro hp
    have hlen := ((balanceRows_perm hperm).symm.trans hp).length_eq
    rw [List.length_append] at hlen
    exact List.eq_nil_of_length_eq_zero (by omega)
  · intro hnil
    rw [hnil,List.append_nil]
    exact balanceRows_perm hperm

end

def tokenLog (lines : List String) : List String :=
  ["Program TokenkegQfeZyiNwAJbNbGKPFXCWuBvf9Ss623VQ5DA invoke [1]"]++lines++
    ["Program TokenkegQfeZyiNwAJbNbGKPFXCWuBvf9Ss623VQ5DA success"]

def burnAndClose : List CompiledInstruction :=
  [⟨3,[1,2,0],[8,5,0,0,0,0,0,0,0]⟩,⟨3,[1,0,0],[9]⟩]

def sampleHolding : TokenBalance :=
  ⟨1,b58Encode (sampleAddress 3),some "5",b58Encode (sampleAddress 1)⟩

def burnAndCloseMeta : TransactionStatusMeta where
  err := none
  preBalances := []
  postBalances := []
  innerInstructions := []
  logMessages := tokenLog ["Program log: Instruction: Burn"]++
    tokenLog ["Program log: Instruction: CloseAccount"]
  preTokenBalances := [sampleHolding]
  postTokenBalances := []
  loadedWritableAddresses := []
  loadedReadonlyAddresses := []

def burnAndCloseKeys : List Bytes :=
  [sampleAddress 1,sampleAddress 2,sampleAddress 3,tokenProgramId.bytes]

def burnAndCloseMessage : Message := ⟨some ⟨1⟩,burnAndCloseKeys,burnAndClose⟩

/-- A holder burns all of its tokens and closes the account. -/
def burnAndCloseTransaction : ConfirmedTransaction :=
  ⟨some ⟨[sampleAddress 7],some burnAndCloseMessage⟩,some burnAndCloseMeta⟩

def burnAndCloseBlock : Block := ⟨"hash",1,some 1,some 1,[burnAndCloseTransaction]⟩

theorem sampleHolding_listed : Listed reference burnAndCloseKeys sampleHolding where
  inRange := by decide
  amount := ⟨"5",5,rfl,by decide⟩
  mint := Option.isSome_iff_exists.mp (by decide +kernel)
  owner := Option.isSome_iff_exists.mp (by decide +kernel)

def burnAndCloseConfirmed : Confirmed reference burnAndCloseTransaction where
  accounts := burnAndCloseKeys
  status := burnAndCloseMeta
  transaction := ⟨[sampleAddress 7],some burnAndCloseMessage⟩
  message := burnAndCloseMessage
  header := ⟨1⟩
  signature := sampleAddress 7
  instructions := burnAndClose.map .compiled
  accounts_eq := rfl
  distinct := by decide +kernel
  keys := by decide +kernel
  transaction_eq := rfl
  message_eq := rfl
  header_eq := rfl
  signed := rfl
  signers := by decide
  status_eq := rfl
  succeeded := rfl
  pre := by
    intro b hb
    rw [List.mem_singleton.mp hb]
    exact sampleHolding_listed
  post := by simp [burnAndCloseMeta]
  instructions_eq := rfl
  program := by decide
  inRange := by decide +kernel
  initialized := by
    intro ix hix _ init hinit
    have hnone : ∀ ix∈burnAndClose.map WrappedInstruction.compiled,
        TokenInstruction.unpack ix.data=none := by decide
    have hcontra := (hnone ix hix).symm.trans hinit
    cases hcontra

private theorem burnAndClose_confirmed : ∀ t∈burnAndCloseBlock.transactions,
    Failed t ∨ Nonempty (Confirmed reference t) := by
  intro t ht
  rw [List.mem_singleton.mp ht]
  exact Or.inr ⟨burnAndCloseConfirmed⟩

end SolanaM.Substreams
