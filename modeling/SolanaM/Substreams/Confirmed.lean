import SolanaM.Substreams.Rows

namespace SolanaM.Substreams

/-- An entry of a token balance list as a node writes it. -/
structure Listed (crates : Crates) (accounts : List Bytes) (b : TokenBalance) : Prop where
  inRange : b.accountIndex<accounts.length
  amount : ∃ text n,b.uiTokenAmount=some text ∧ parseU64 text=some n
  mint : ∃ key,Pubkey.tryFromString crates b.mint=some key
  owner : ∃ key,Pubkey.tryFromString crates b.owner=some key

/-- How many of its accounts an Initialize instruction of the token program has looked at. -/
def TokenInstruction.accountsRead : TokenInstruction → Nat
  | initializeAccount => 3
  | initializeAccount2 _ | initializeAccount3 _ => 2

def Failed (t : ConfirmedTransaction) : Prop := ∃ status,t.status=some status ∧ status.err≠none

/-- A successful transaction as the chain confirms it, with any log: keys that are distinct and
whole, instructions and balances that name accounts of it, balances that parse. -/
structure Confirmed (crates : Crates) (t : ConfirmedTransaction) where
  accounts : List Bytes
  status : TransactionStatusMeta
  transaction : Transaction
  message : Message
  header : MessageHeader
  signature : Bytes
  instructions : List WrappedInstruction
  accounts_eq : crates.resolvedAccounts t=some accounts
  distinct : accounts.Nodup
  keys : ∀ account∈accounts,account.length=32
  transaction_eq : t.transaction=some transaction
  message_eq : transaction.message=some message
  header_eq : message.header=some header
  signed : transaction.signatures[0]?=some signature
  signers : header.numRequiredSignatures≤accounts.length
  status_eq : t.status=some status
  succeeded : status.err=none
  pre : ∀ b∈status.preTokenBalances,Listed crates accounts b
  post : ∀ b∈status.postTokenBalances,Listed crates accounts b
  instructions_eq : flattenedFrom 0 message.instructions status.innerInstructions=instructions
  program : ∀ ix∈instructions,ix.programIdIndex<accounts.length
  inRange : ∀ ix∈instructions,∀ n∈ix.accounts,n.val<accounts.length
  initialized : ∀ ix∈instructions,
    accounts[ix.programIdIndex]?=some tokenProgramId.bytes →
    ∀ init,TokenInstruction.unpack ix.data=some init → init.accountsRead ≤ ix.accounts.length

/-- The indexer takes the transaction's log apart without a panic. -/
def Structured (crates : Crates) (t : ConfirmedTransaction) : Prop :=
  ∃ instructions,getStructuredInstructions crates t=some instructions

namespace Confirmed

section
variable {crates : Crates} {t : ConfirmedTransaction} (x : Confirmed crates t)

include x

private theorem account_key {i : Nat} (hi : i<x.accounts.length) :
    ∃ bytes key,x.accounts[i]?=some bytes ∧ Pubkey.ofBytes bytes=some key := by
  have hlen : x.accounts[i].length=32 := x.keys _ (List.getElem_mem hi)
  exact ⟨x.accounts[i],⟨x.accounts[i],hlen⟩,List.getElem?_eq_getElem hi,by
    simp [Pubkey.ofBytes,hlen]⟩

/-- The account at a place of the instruction is there, and is a key. -/
theorem named_account {ix : WrappedInstruction} (hix : ix∈x.instructions) {i : Nat}
    (hi : i < ix.accounts.length) :
    ∃ n bytes key,ix.accounts[i]?=some n ∧ x.accounts[n.val]?=some bytes ∧
      Pubkey.ofBytes bytes=some key := by
  have hn : (ix.accounts[i]).val<x.accounts.length := x.inRange ix hix _ (List.getElem_mem hi)
  obtain ⟨bytes,key,hbytes,hkey⟩ := x.account_key hn
  exact ⟨ix.accounts[i],bytes,key,List.getElem?_eq_getElem hi,hbytes,hkey⟩

private theorem parse_isSome {context : TransactionContext} (hc : context.accounts=x.accounts)
    {ix : WrappedInstruction} (hix : ix∈x.instructions) (owner : Option Pubkey)
    (hlen : (if owner.isSome then 2 else 3) ≤ ix.accounts.length) :
    ∃ a,parseTokenAccountFromInitializeAccountInstruction ix context owner=some a := by
  have h2 : 2 ≤ ix.accounts.length := by split at hlen <;> omega
  obtain ⟨n0,address,_,hn0,haddress,_⟩ := x.named_account hix (i := 0) (by omega)
  obtain ⟨n1,mint,mintKey,hn1,hmint,hmintKey⟩ := x.named_account hix (i := 1) (by omega)
  cases owner with
  | some key =>
    exact ⟨_,by
      simp [parseTokenAccountFromInitializeAccountInstruction,hc,hn0,hn1,haddress,hmint,
        hmintKey]
      rfl⟩
  | none =>
    obtain ⟨n2,bytes,key,hn2,hbytes,hkey⟩ := x.named_account hix (i := 2) (by simp at hlen; omega)
    exact ⟨_,by
      simp [parseTokenAccountFromInitializeAccountInstruction,hc,hn0,hn1,hn2,haddress,hmint,
        hmintKey,hbytes,hkey]
      rfl⟩

theorem insertInitialized_isSome {context : TransactionContext}
    (hc : context.accounts=x.accounts) {ix : WrappedInstruction}
    (hix : ix∈x.instructions) (owner : Option Pubkey)
    (hlen : (if owner.isSome then 2 else 3) ≤ ix.accounts.length) :
    ∃ context',insertInitializedAccount context ix owner=some context' := by
  obtain ⟨a,ha⟩ := x.parse_isSome hc hix owner hlen
  exact ⟨{context with tokenAccounts := context.tokenAccounts.insert a.address a},
    by simp [insertInitializedAccount,ha]⟩

private theorem updateAccounts_isSome {context : TransactionContext}
    (hc : context.accounts=x.accounts)
    {ix : WrappedInstruction} (hix : ix∈x.instructions) :
    ∃ context',updateAccounts context ix=some context' := by
  obtain ⟨programId,hprogram⟩ : ∃ programId,x.accounts[ix.programIdIndex]?=some programId :=
    ⟨_,List.getElem?_eq_getElem (x.program ix hix)⟩
  by_cases htoken : programId=tokenProgramId.bytes
  · have hread := x.initialized ix hix (htoken ▸ hprogram)
    cases hunpack : TokenInstruction.unpack ix.data with
    | none => exact ⟨context,by simp [updateAccounts,hc,hprogram,htoken,hunpack]⟩
    | some init =>
      have hlen := hread init hunpack
      simp only [updateAccounts,hc,hprogram,htoken,hunpack,bind,Option.bind_some,ne_eq,
        not_true_eq_false,if_false]
      cases init with
      | initializeAccount => exact x.insertInitialized_isSome hc hix none hlen
      | initializeAccount2 key => exact x.insertInitialized_isSome hc hix (some key) hlen
      | initializeAccount3 key => exact x.insertInitialized_isSome hc hix (some key) hlen
  · exact ⟨context,by simp [updateAccounts,hc,hprogram,htoken]⟩

private theorem foldlM_isSome (ixs : List WrappedInstruction)
    (hixs : ∀ ix∈ixs,ix∈x.instructions) (context : TransactionContext)
    (hc : context.accounts=x.accounts) :
    ∃ context',ixs.foldlM updateAccounts context=some context' := by
  induction ixs generalizing context with
  | nil => exact ⟨context,rfl⟩
  | cons ix rest ih =>
    obtain ⟨next,hnext⟩ := x.updateAccounts_isSome hc (hixs ix (by simp))
    have haccounts : next.accounts=x.accounts := (updateAccounts_frame hnext).1.trans hc
    rw [List.foldlM_cons,hnext]
    exact ih (fun ix hix => hixs ix (by simp [hix])) next haccounts

omit x

variable {accounts : List Bytes}

theorem preTokenAccount_of_listed {b : TokenBalance} (h : Listed crates accounts b) :
    ∃ a,preTokenAccount crates accounts b=some a := by
  obtain ⟨text,n,htext,hn⟩ := h.amount
  obtain ⟨mint,hmint⟩ := h.mint
  obtain ⟨owner,howner⟩ := h.owner
  have haddress := List.getElem?_eq_getElem h.inRange
  exact ⟨_,by simp [preTokenAccount,haddress,htext,hn,hmint,howner]; rfl⟩

private theorem postTokenAccount_of_listed {b : TokenBalance} (h : Listed crates accounts b) :
    ∃ a,postTokenAccount crates accounts b=some a := by
  obtain ⟨text,n,htext,hn⟩ := h.amount
  obtain ⟨mint,hmint⟩ := h.mint
  obtain ⟨owner,howner⟩ := h.owner
  have haddress := List.getElem?_eq_getElem h.inRange
  exact ⟨_,by simp [postTokenAccount,haddress,htext,hn,hmint,howner]; rfl⟩

private theorem readPatch_of_listed {b : TokenBalance} (h : Listed crates accounts b) :
    ∃ p,readPatch accounts b=some p := by
  obtain ⟨text,n,htext,hn⟩ := h.amount
  have haddress := List.getElem?_eq_getElem h.inRange
  exact ⟨_,by simp [readPatch,haddress,htext,hn]; rfl⟩

include x

theorem flattened_eq : getFlattenedInstructions t=some x.instructions := by
  simp [getFlattenedInstructions,x.transaction_eq,x.message_eq,x.status_eq,x.instructions_eq]

theorem firstSignature_eq : firstSignature t=some x.signature := by
  simp [firstSignature,x.transaction_eq,x.signed]

theorem getContext_isSome : ∃ context,getContext crates t=some (some context) := by
  obtain ⟨slots,hslots⟩ :=
    insertPreTokenAccounts_isSome (fun b hb => preTokenAccount_of_listed (x.pre b hb)) []
  have hnew : TransactionContext.new crates t=some ⟨x.accounts,[],[],
      x.accounts.take x.header.numRequiredSignatures,crates.bs58Encode x.signature⟩ := by
    have hlen : ¬x.accounts.length<x.header.numRequiredSignatures := Nat.not_lt.mpr x.signers
    simp [TransactionContext.new,x.accounts_eq,x.transaction_eq,x.signed,x.message_eq,
      x.header_eq,hlen]
  obtain ⟨context,hfold⟩ := x.foldlM_isSome x.instructions (fun _ h => h)
    ⟨x.accounts,List.zipWith AccountBalance.mk x.status.preBalances x.status.postBalances,slots,
      x.accounts.take x.header.numRequiredSignatures,crates.bs58Encode x.signature⟩ rfl
  exact ⟨context,by
    simp [getContext,TransactionContext.build,x.status_eq,x.succeeded,hnew,hslots,
      x.flattened_eq,hfold]⟩

private theorem tokenAccounts_isSome : ∃ held,tokenAccounts crates t=some held := by
  obtain ⟨slots,hslots⟩ :=
    insertPostBalances_isSome (fun b hb => postTokenAccount_of_listed (x.post b hb)) []
  obtain ⟨patched,hpatched⟩ :=
    patchPreBalances_isSome (fun b hb => readPatch_of_listed (x.pre b hb)) slots
  exact ⟨_,by simp [tokenAccounts,x.accounts_eq,x.status_eq,hslots,hpatched]; rfl⟩

end

end Confirmed

section
variable {crates : Crates} {block : Block} {t : ConfirmedTransaction} {blockTime : String}
  {i : Nat} {changes : List TableChange}

theorem Failed.getContext (hf : Failed t) : getContext crates t=some none := by
  obtain ⟨status,hs,he⟩ := hf
  have herr : status.err.isSome=true := by simpa [Option.isSome_iff_ne_none] using he
  simp [Substreams.getContext,hs,herr]

theorem Failed.structured (hf : Failed t) : Structured crates t := by
  obtain ⟨status,hs,he⟩ := hf
  have herr : status.err.isSome=true := by simpa [Option.isSome_iff_ne_none] using he
  exact ⟨none,by simp [getStructuredInstructions,hs,herr]⟩

theorem Confirmed.indexed (x : Confirmed crates t)
    (h : transactionChanges crates block blockTime i t=some changes) :
    ∃ y : Indexed crates t,changes=y.changes block blockTime i ∧
      y.context.signature=crates.bs58Encode x.signature := by
  rcases transactionChanges_eq_some h with ⟨hnone,_⟩|⟨y,hy⟩
  · obtain ⟨context,hcontext⟩ := x.getContext_isSome
    rw [hcontext] at hnone
    cases hnone
  · refine ⟨y,hy,?_⟩
    obtain ⟨first,hfirst,hsignature⟩ := getContext_signature y.context_eq
    have hsigned := hfirst.symm.trans x.firstSignature_eq
    rw [Option.some_inj] at hsigned
    rw [hsignature,hsigned]

theorem Failed.adds_nothing (hf : Failed t)
    (h : transactionChanges crates block blockTime i t=some changes) : changes=[] := by
  rcases transactionChanges_eq_some h with ⟨_,hnil⟩|⟨y,_⟩
  · exact hnil
  · have hnone := y.context_eq.symm.trans hf.getContext
    cases hnone

private theorem transactionChanges_isSome (h : Failed t ∨ Nonempty (Confirmed crates t))
    (hstructured : Structured crates t) :
    ∃ changes,transactionChanges crates block blockTime i t=some changes := by
  obtain hf | ⟨⟨x⟩⟩ := h
  · exact ⟨[],by simp [transactionChanges,hf.getContext]⟩
  · obtain ⟨context,hcontext⟩ := x.getContext_isSome
    obtain ⟨held,hheld⟩ := x.tokenAccounts_isSome
    obtain ⟨instructions,hinstructions⟩ := hstructured
    obtain ⟨forest,rfl⟩ := getStructuredInstructions_eq_some x.status_eq
      (by simp [x.succeeded]) hinstructions
    exact ⟨_,by simp [transactionChanges,hcontext,hheld,hinstructions]; rfl⟩

theorem structured_of_changes
    (h : transactionChanges crates block blockTime i t=some changes) : Structured crates t := by
  obtain ⟨hf,_⟩ | ⟨x,_⟩ := transactionChanges_eq_some h
  · obtain ⟨status,hs,⟨he,_⟩ | ⟨_,_,_,hnone⟩⟩ := getContext_eq_some hf
    · exact Failed.structured ⟨status,hs,he⟩
    · cases hnone
  · exact ⟨_,x.instructions_eq⟩

/-- On confirmed transactions, failed ones among them, the map panics only where a log cannot be
taken apart. -/
theorem map_isSome_iff
    (h : ∀ t∈block.transactions,Failed t ∨ Nonempty (Confirmed crates t)) :
    (∃ out,mapTransferEventsToDb crates block=some out) ↔
      ∀ t∈block.transactions,Structured crates t := by
  constructor
  · rintro ⟨out,hout⟩ t ht
    obtain ⟨parts,hparts,_⟩ := transactionsLoop_eq_some.mp hout
    obtain ⟨i,hi⟩ := List.mem_iff_getElem?.mp ht
    have hmem : (t,i)∈block.transactions.zipIdx 0 := List.mem_zipIdx_iff_getElem?.mpr hi
    obtain ⟨changes,_,hchanges⟩ := exists_of_mem_forall₂ hparts hmem
    exact structured_of_changes hchanges
  · intro hstructured
    obtain ⟨parts,hparts⟩ : ∃ parts,List.Forall₂ (fun p changes =>
        transactionChanges crates block (toString (block.blockTime.getD 0)) p.2 p.1=
          some changes) (block.transactions.zipIdx 0) parts := by
      apply exists_forall₂
      intro p hp
      have hmem : p.1∈block.transactions := List.fst_mem_of_mem_zipIdx hp
      exact transactionChanges_isSome (h p.1 hmem) (hstructured p.1 hmem)
    exact ⟨_,transactionsLoop_eq_some.mpr ⟨parts,hparts,rfl⟩⟩

end

end SolanaM.Substreams
