import SolanaM.Substreams.Balances
import SolanaM.Substreams.SplToken

namespace SolanaM.Substreams

open Function (update)

namespace TransactionContext

variable (context : TransactionContext)

/-- The account at a place of the instruction. -/
def named (instruction : WrappedInstruction) (i : Nat) : Option Bytes :=
  (instruction.accounts[i]?).bind fun n => context.accounts[n.val]?

/-- get_mut(_).unwrap() and an assignment to the balance after. -/
def setPostBalance (address : Bytes) (f : Option Nat → Option (Option Nat)) :
    Option TransactionContext := do
  let account ← context.tokenAccounts.get address
  let postBalance ← f account.postBalance
  return {context with tokenAccounts :=
    context.tokenAccounts.andModify address fun account => {account with postBalance}}

/-- map(|x| x - amount), map(|x| x + amount): the arithmetic of a u64 is checked. -/
def subtract (amount : UInt64) : Option Nat → Option (Option Nat)
  | none => some none
  | some x => if amount.toNat ≤ x then some (some (x-amount.toNat)) else none

def add (amount : UInt64) : Option Nat → Option (Option Nat)
  | none => some none
  | some x => if x+amount.toNat<2^64 then some (some (x+amount.toNat)) else none

/-- What the instruction before left is what this one starts from. -/
def settled : TransactionContext :=
  {context with tokenAccounts := context.tokenAccounts.map fun slot =>
    (slot.1,{slot.2 with preBalance := slot.2.postBalance})}

def updateBalance (instruction : WrappedInstruction) : Option TransactionContext := do
  let context := context.settled
  let programId ← context.accounts[instruction.programIdIndex]?
  if programId≠tokenProgramId.bytes then return context
  match SplToken.TokenInstruction.unpack instruction.data with
  | .ok .initializeAccount => insertInitializedAccount context instruction none
  | .ok (.initializeAccount2 owner) | .ok (.initializeAccount3 owner) =>
    insertInitializedAccount context instruction (some owner)
  | .ok (.transfer amount) =>
    let sourceAddress ← context.named instruction 0
    let destinationAddress ← context.named instruction 1
    let context ← context.setPostBalance sourceAddress (subtract amount)
    context.setPostBalance destinationAddress (add amount)
  | .ok (.transferChecked amount _) =>
    let sourceAddress ← context.named instruction 0
    let destinationAddress ← context.named instruction 2
    let context ← context.setPostBalance sourceAddress (subtract amount)
    context.setPostBalance destinationAddress (add amount)
  | .ok (.mintTo amount) | .ok (.mintToChecked amount _) =>
    let address ← context.named instruction 1
    context.setPostBalance address (add amount)
  | .ok (.burn amount) | .ok (.burnChecked amount _) =>
    let address ← context.named instruction 0
    context.setPostBalance address (subtract amount)
  | .ok .syncNative =>
    let address ← context.named instruction 0
    context.setPostBalance address fun _ => some none
  | .ok .closeAccount =>
    let address ← context.named instruction 0
    context.setPostBalance address fun _ => some (some 0)
  | _ => return context

end TransactionContext

structure Holding where
  mint : Pubkey
  amount : Nat
  deriving DecidableEq

abbrev TokenLedger := Bytes → Option Holding

/-- What an instruction does to holdings: the places of the accounts it is about. -/
inductive Effect
  | opens (owner : Option Pubkey)
  | move (source destination : Nat) (amount : UInt64)
  | credit (amount : UInt64)
  | debit (amount : UInt64)
  | sync
  | close
  | idle

def SplToken.TokenInstruction.effect : SplToken.TokenInstruction → Effect
  | initializeAccount => .opens none
  | initializeAccount2 owner | initializeAccount3 owner => .opens (some owner)
  | transfer amount => .move 0 1 amount
  | transferChecked amount _ => .move 0 2 amount
  | mintTo amount | mintToChecked amount _ => .credit amount
  | burn amount | burnChecked amount _ => .debit amount
  | syncNative => .sync
  | closeAccount => .close
  | _ => .idle

/-- An effect that the token program allows. Wrapped SOL holds what was sent to the account, which
no instruction says. -/
inductive Changes (account : Nat → Option Bytes) (s : TokenLedger) : Effect → TokenLedger → Prop
  | opens {owner : Option Pubkey} {a key : Bytes} {mint : Pubkey} {amount : Nat}
      (haddress : account 0=some a) (hkey : account 1=some key)
      (hmint : Pubkey.ofBytes key=some mint)
      (howner : owner=none → ∃ key o,account 2=some key ∧ Pubkey.ofBytes key=some o)
      (hnew : s a=none) (hempty : mint≠wrappedSolMint → amount=0) :
      Changes account s (.opens owner) (update s a (some ⟨mint,amount⟩))
  | self {i j : Nat} {amount : UInt64} {a : Bytes} {h : Holding} (hsource : account i=some a)
      (hdestination : account j=some a) (ha : s a=some h) (hle : amount.toNat ≤ h.amount)
      (hlt : h.amount<2^64) : Changes account s (.move i j amount) s
  | move {i j : Nat} {amount : UInt64} {a b : Bytes} {h k : Holding} (hsource : account i=some a)
      (hdestination : account j=some b) (hne : a≠b) (ha : s a=some h) (hb : s b=some k)
      (hmint : k.mint=h.mint) (hle : amount.toNat ≤ h.amount)
      (hlt : k.amount+amount.toNat<2^64) :
      Changes account s (.move i j amount)
        (update (update s a (some {h with amount := h.amount-amount.toNat})) b
          (some {k with amount := k.amount+amount.toNat}))
  | credit {amount : UInt64} {a : Bytes} {h : Holding} (haddress : account 1=some a)
      (ha : s a=some h) (hlt : h.amount+amount.toNat<2^64) :
      Changes account s (.credit amount)
        (update s a (some {h with amount := h.amount+amount.toNat}))
  | debit {amount : UInt64} {a : Bytes} {h : Holding} (haddress : account 0=some a)
      (ha : s a=some h) (hle : amount.toNat ≤ h.amount) :
      Changes account s (.debit amount)
        (update s a (some {h with amount := h.amount-amount.toNat}))
  | sync {amount : Nat} {a : Bytes} {h : Holding} (haddress : account 0=some a) (ha : s a=some h)
      (hnative : h.mint=wrappedSolMint) :
      Changes account s .sync (update s a (some {h with amount}))
  | close {a : Bytes} {h : Holding} (haddress : account 0=some a) (ha : s a=some h)
      (hempty : h.mint≠wrappedSolMint → h.amount=0) : Changes account s .close (update s a none)
  | idle : Changes account s .idle s

/-- The account at a place of the instruction, among those of the transaction. -/
def accountAt (accounts : List Bytes) (ix : WrappedInstruction) (i : Nat) : Option Bytes :=
  (ix.accounts[i]?).bind fun n => accounts[n.val]?

/-- Only the token program changes its ledger, by instructions that it can read. -/
inductive Settles (accounts : List Bytes) (ix : WrappedInstruction) (s : TokenLedger) :
    TokenLedger → Prop
  | other {programId : Bytes} (hprogram : accounts[ix.programIdIndex]?=some programId)
      (hne : programId≠tokenProgramId.bytes) : Settles accounts ix s s
  | token {i : SplToken.TokenInstruction} {s' : TokenLedger}
      (hprogram : accounts[ix.programIdIndex]?=some tokenProgramId.bytes)
      (hunpack : SplToken.TokenInstruction.unpack ix.data=.ok i)
      (hchanges : Changes (accountAt accounts ix) s i.effect s') : Settles accounts ix s s'

/-- A run of instructions over the ledger. -/
inductive Executed (accounts : List Bytes) : TokenLedger → List WrappedInstruction →
    TokenLedger → Prop
  | nil (s : TokenLedger) : Executed accounts s [] s
  | concat {s r r' : TokenLedger} {ixs : List WrappedInstruction} {ix : WrappedInstruction}
      (hixs : Executed accounts s ixs r) (hix : Settles accounts ix r r') :
      Executed accounts s (ixs++[ix]) r'

/-- A recorded balance is the one held, or is left out for wrapped SOL. -/
def Recorded (balance : Option Nat) (h : Holding) : Prop :=
  balance=some h.amount ∨ balance=none ∧ h.mint=wrappedSolMint

/-- The accounts have the ledger's balances before and after an instruction. -/
structure Follows (slots : TokenAccounts) (r s : TokenLedger) : Prop where
  before : ∀ a h,r a=some h → ∃ t,slots.get a=some t ∧ Recorded t.preBalance h
  after : ∀ a h,s a=some h → ∃ t,slots.get a=some t ∧ t.mint=h.mint ∧ Recorded t.postBalance h

namespace TransactionContext

/-- The effects as the replay applies them. -/
def apply (context : TransactionContext) (instruction : WrappedInstruction) :
    Effect → Option TransactionContext
  | .opens owner => insertInitializedAccount context instruction owner
  | .move i j amount => do
    let sourceAddress ← context.named instruction i
    let destinationAddress ← context.named instruction j
    let context ← context.setPostBalance sourceAddress (subtract amount)
    context.setPostBalance destinationAddress (add amount)
  | .credit amount => do
    let address ← context.named instruction 1
    context.setPostBalance address (add amount)
  | .debit amount => do
    let address ← context.named instruction 0
    context.setPostBalance address (subtract amount)
  | .sync => do
    let address ← context.named instruction 0
    context.setPostBalance address fun _ => some none
  | .close => do
    let address ← context.named instruction 0
    context.setPostBalance address fun _ => some (some 0)
  | .idle => some context

private theorem updateBalance_eq {context : TransactionContext} {instruction : WrappedInstruction}
    {i : SplToken.TokenInstruction}
    (hprogram : context.accounts[instruction.programIdIndex]?=some tokenProgramId.bytes)
    (hunpack : SplToken.TokenInstruction.unpack instruction.data=.ok i) :
    context.updateBalance instruction=context.settled.apply instruction i.effect := by
  -- the bytes of the program stay a variable, or the comparison with them is computed
  obtain ⟨program,hsame⟩ : ∃ program,program=tokenProgramId.bytes := ⟨_,rfl⟩
  rw [← hsame] at hprogram
  have hsettled : context.settled.accounts[instruction.programIdIndex]?=some program := hprogram
  rw [updateBalance]
  show (context.settled.accounts[instruction.programIdIndex]? >>= _)=_
  rw [hsettled]
  refine (if_neg (not_not_intro hsame)).trans ?_
  rw [hunpack]
  cases i <;> rfl

/-- Assigning to the balance of an account that the ledger has changes that account in both. -/
theorem setPostBalance_follows {context : TransactionContext} {r s : TokenLedger} {a : Bytes}
    {h : Holding} {new : Option Holding} {f : Option Nat → Option (Option Nat)}
    (hf : Follows context.tokenAccounts r s) (ha : s a=some h)
    (hstep : ∀ balance,Recorded balance h → ∃ balance',f balance=some balance' ∧
      ∀ h',new=some h' → h'.mint=h.mint ∧ Recorded balance' h') :
    ∃ context',context.setPostBalance a f=some context' ∧ context'.accounts=context.accounts ∧
      Follows context'.tokenAccounts r (update s a new) := by
  obtain ⟨t,ht,hmint,hrecorded⟩ := hf.after a h ha
  obtain ⟨balance',hbalance,hnew⟩ := hstep _ hrecorded
  have hset : context.setPostBalance a f=some {context with
      tokenAccounts := context.tokenAccounts.andModify a fun account =>
        {account with postBalance := balance'}} := by
    rw [setPostBalance,ht,Option.bind_eq_bind,Option.bind_some,hbalance]
    rfl
  refine ⟨_,hset,rfl,?_,?_⟩
  · intro b k hb
    obtain ⟨u,hu,hrec⟩ := hf.before b k hb
    rw [Slots.get_andModify,hu]
    by_cases hba : b=a
    · exact ⟨_,if_pos hba,hrec⟩
    · exact ⟨_,if_neg hba,hrec⟩
  · intro b k hb
    rw [Slots.get_andModify]
    by_cases hba : b=a
    · rw [hba,Function.update_self] at hb
      obtain ⟨hkmint,hrec⟩ := hnew k hb
      rw [if_pos hba,hba,ht]
      exact ⟨_,rfl,hmint.trans hkmint.symm,hrec⟩
    · rw [Function.update_of_ne hba] at hb
      rw [if_neg hba]
      exact hf.after b k hb

theorem subtract_recorded {amount : UInt64} {h : Holding} (hle : amount.toNat ≤ h.amount)
    (balance : Option Nat) (hb : Recorded balance h) :
    ∃ balance',subtract amount balance=some balance' ∧
      ∀ h',some {h with amount := h.amount-amount.toNat}=some h' →
        h'.mint=h.mint ∧ Recorded balance' h' := by
  rcases hb with rfl|⟨rfl,hnative⟩
  · refine ⟨_,if_pos hle,?_⟩
    rintro _ ⟨⟩
    exact ⟨rfl,.inl rfl⟩
  · refine ⟨none,rfl,?_⟩
    rintro _ ⟨⟩
    exact ⟨rfl,.inr ⟨rfl,hnative⟩⟩

theorem add_recorded {amount : UInt64} {h : Holding} (hlt : h.amount+amount.toNat<2^64)
    (balance : Option Nat) (hb : Recorded balance h) :
    ∃ balance',add amount balance=some balance' ∧
      ∀ h',some {h with amount := h.amount+amount.toNat}=some h' →
        h'.mint=h.mint ∧ Recorded balance' h' := by
  rcases hb with rfl|⟨rfl,hnative⟩
  · refine ⟨_,if_pos hlt,?_⟩
    rintro _ ⟨⟩
    exact ⟨rfl,.inl rfl⟩
  · refine ⟨none,rfl,?_⟩
    rintro _ ⟨⟩
    exact ⟨rfl,.inr ⟨rfl,hnative⟩⟩

private theorem settled_follows {context : TransactionContext} {q r : TokenLedger}
    (hf : Follows context.tokenAccounts q r) : Follows context.settled.tokenAccounts r r := by
  constructor
  · intro a h ha
    obtain ⟨t,ht,_,hrec⟩ := hf.after a h ha
    rw [settled,Slots.get_mapValues _ fun account : TokenAccount =>
      {account with preBalance := account.postBalance},ht]
    exact ⟨_,rfl,hrec⟩
  · intro a h ha
    obtain ⟨t,ht,hmint,hrec⟩ := hf.after a h ha
    rw [settled,Slots.get_mapValues _ fun account : TokenAccount =>
      {account with preBalance := account.postBalance},ht]
    exact ⟨_,rfl,hmint,hrec⟩

/-- A new account, with a balance that is 0 or, for wrapped SOL, left out. -/
theorem opens_follows {context : TransactionContext} {ix : WrappedInstruction}
    {s : TokenLedger} {owner : Option Pubkey} {a key : Bytes} {mint : Pubkey} {amount : Nat}
    (hf : Follows context.tokenAccounts s s) (haddress : context.named ix 0=some a)
    (hkey : context.named ix 1=some key) (hmint : Pubkey.ofBytes key=some mint)
    (howner : owner=none → ∃ key o,context.named ix 2=some key ∧ Pubkey.ofBytes key=some o)
    (hnew : s a=none) (hempty : mint≠wrappedSolMint → amount=0) :
    ∃ context',insertInitializedAccount context ix owner=some context' ∧
      context'.accounts=context.accounts ∧
      Follows context'.tokenAccounts s (update s a (some ⟨mint,amount⟩)) := by
  let balance := if mint≠wrappedSolMint then some 0 else none
  have hparsed : ∃ o,parseTokenAccountFromInitializeAccountInstruction ix context owner=
      some ⟨a,mint,o,balance,balance⟩ := by
    rw [named] at haddress hkey
    cases owner with
    | some o =>
      exact ⟨o,by
        simp [parseTokenAccountFromInitializeAccountInstruction,haddress,hkey,hmint,balance]⟩
    | none =>
      obtain ⟨key',o,hkey',ho⟩ := howner rfl
      rw [named] at hkey'
      exact ⟨o,by
        simp [parseTokenAccountFromInitializeAccountInstruction,haddress,hkey,hmint,hkey',ho,
          balance]⟩
  obtain ⟨o,hparsed⟩ := hparsed
  have hinsert : insertInitializedAccount context ix owner=some {context with
      tokenAccounts := context.tokenAccounts.insert a ⟨a,mint,o,balance,balance⟩} := by
    rw [insertInitializedAccount,hparsed]
    rfl
  refine ⟨_,hinsert,rfl,?_,?_⟩
  · intro b k hb
    have hba : b≠a := fun h => by rw [h,hnew] at hb; cases hb
    rw [Slots.get_insert,if_neg hba]
    exact hf.before b k hb
  · intro b k hb
    rw [Slots.get_insert]
    by_cases hba : b=a
    · rw [hba,Function.update_self] at hb
      cases hb
      refine ⟨_,if_pos hba,rfl,?_⟩
      by_cases hnative : mint=wrappedSolMint
      · exact .inr ⟨if_neg (not_not.mpr hnative),hnative⟩
      · have hzero := hempty hnative
        exact .inl ((if_pos hnative).trans (congrArg some hzero.symm))
    · rw [Function.update_of_ne hba] at hb
      rw [if_neg hba]
      exact hf.after b k hb

/-- One case for each effect: the replay does to the accounts what the ledger undergoes. -/
theorem apply_follows {context : TransactionContext} {ix : WrappedInstruction} {e : Effect}
    {s s' : TokenLedger} (hf : Follows context.tokenAccounts s s)
    (h : Changes (context.named ix) s e s') :
    ∃ context',context.apply ix e=some context' ∧ context'.accounts=context.accounts ∧
      Follows context'.tokenAccounts s s' := by
  cases h with
  | opens haddress hkey hmint howner hnew hempty =>
    exact opens_follows hf haddress hkey hmint howner hnew hempty
  | @self i j amount a h hsource hdestination ha hle hlt =>
    obtain ⟨c,hc,haccounts,hfc⟩ := setPostBalance_follows hf ha (subtract_recorded hle)
    have hmid : update s a (some {h with amount := h.amount-amount.toNat}) a=
        some {h with amount := h.amount-amount.toNat} := Function.update_self ..
    have hback : h.amount-amount.toNat+amount.toNat=h.amount := Nat.sub_add_cancel hle
    have hsum : h.amount-amount.toNat+amount.toNat<2^64 := by rwa [hback]
    obtain ⟨c',hc',haccounts',hfc'⟩ := setPostBalance_follows hfc hmid (add_recorded hsum)
    refine ⟨c',?_,haccounts'.trans haccounts,?_⟩
    · simp only [apply,hsource,hdestination,Option.bind_eq_bind,Option.bind_some,hc,hc']
    · simpa [hback,← ha] using hfc'
  | move hsource hdestination hne ha hb hmint hle hlt =>
    obtain ⟨c,hc,haccounts,hfc⟩ := setPostBalance_follows hf ha (subtract_recorded hle)
    obtain ⟨c',hc',haccounts',hfc'⟩ := setPostBalance_follows hfc
      ((Function.update_of_ne hne.symm ..).trans hb) (add_recorded hlt)
    refine ⟨c',?_,haccounts'.trans haccounts,hfc'⟩
    simp only [apply,hsource,hdestination,Option.bind_eq_bind,Option.bind_some,hc,hc']
  | credit haddress ha hlt =>
    obtain ⟨c,hc,haccounts,hfc⟩ := setPostBalance_follows hf ha (add_recorded hlt)
    refine ⟨c,?_,haccounts,hfc⟩
    simp only [apply,haddress,Option.bind_eq_bind,Option.bind_some,hc]
  | debit haddress ha hle =>
    obtain ⟨c,hc,haccounts,hfc⟩ := setPostBalance_follows hf ha (subtract_recorded hle)
    refine ⟨c,?_,haccounts,hfc⟩
    simp only [apply,haddress,Option.bind_eq_bind,Option.bind_some,hc]
  | @sync amount a h haddress ha hnative =>
    have hstep (balance : Option Nat) (_ : Recorded balance h) :
        ∃ balance',(fun _ : Option Nat => some none) balance=some balance' ∧
          ∀ h',some {h with amount}=some h' → h'.mint=h.mint ∧ Recorded balance' h' := by
      refine ⟨none,rfl,?_⟩
      rintro _ ⟨⟩
      exact ⟨rfl,.inr ⟨rfl,hnative⟩⟩
    obtain ⟨c,hc,haccounts,hfc⟩ := setPostBalance_follows hf ha hstep
    refine ⟨c,?_,haccounts,hfc⟩
    simp only [apply,haddress,Option.bind_eq_bind,Option.bind_some,hc]
  | @close a h haddress ha hempty =>
    have hstep (balance : Option Nat) (_ : Recorded balance h) :
        ∃ balance',(fun _ : Option Nat => some (some 0)) balance=some balance' ∧
          ∀ h',none=some h' → h'.mint=h.mint ∧ Recorded balance' h' := ⟨some 0,rfl,nofun⟩
    obtain ⟨c,hc,haccounts,hfc⟩ := setPostBalance_follows hf ha hstep
    refine ⟨c,?_,haccounts,hfc⟩
    simp only [apply,haddress,Option.bind_eq_bind,Option.bind_some,hc]
  | idle => exact ⟨context,rfl,rfl,hf⟩

/-- What one instruction of the transaction does. -/
theorem updateBalance_follows {context : TransactionContext} {ix : WrappedInstruction}
    {q r r' : TokenLedger} (hf : Follows context.tokenAccounts q r)
    (h : Settles context.accounts ix r r') :
    ∃ context',context.updateBalance ix=some context' ∧ context'.accounts=context.accounts ∧
      Follows context'.tokenAccounts r r' := by
  have hsettled := settled_follows hf
  cases h with
  | other hprogram hne =>
    refine ⟨context.settled,?_,rfl,hsettled⟩
    have hsame : context.settled.accounts[ix.programIdIndex]?=some _ := hprogram
    rw [updateBalance]
    show (context.settled.accounts[ix.programIdIndex]? >>= _)=_
    rw [hsame]
    exact if_pos hne
  | token hprogram hunpack hchanges =>
    rw [updateBalance_eq hprogram hunpack]
    exact apply_follows hsettled hchanges

theorem replay {context : TransactionContext} {accounts : List Bytes}
    (haccounts : context.accounts=accounts) {s r : TokenLedger}
    (hf : Follows context.tokenAccounts s s) {ixs : List WrappedInstruction}
    (h : Executed accounts s ixs r) :
    ∃ context' q,ixs.foldlM updateBalance context=some context' ∧
      context'.accounts=accounts ∧ Follows context'.tokenAccounts q r := by
  induction h with
  | nil => exact ⟨context,s,rfl,haccounts,hf⟩
  | concat _ hix ih =>
    obtain ⟨mid,q,hfold,hmid,hfollows⟩ := ih
    subst hmid
    obtain ⟨last,hlast,hsame,hlastFollows⟩ := updateBalance_follows hfollows hix
    refine ⟨last,_,?_,hsame,hlastFollows⟩
    rw [List.foldlM_append,hfold]
    simpa using hlast

end TransactionContext

/-- The entry of pre_token_balances for an account of the ledger. -/
def HeldBy (crates : Crates) (accounts : List Bytes) (b : TokenBalance) (a : Bytes) (h : Holding) :
    Prop :=
  accounts[b.accountIndex]?=some a ∧ Pubkey.tryFromString crates b.mint=some h.mint ∧
    b.uiTokenAmount.bind parseU64=some h.amount

/-- Where an instruction initializes an account that the ledger has before the transaction, it
does so for the same mint and the account holds nothing, be it that it holds wrapped SOL. -/
def Spares (accounts : List Bytes) (s : TokenLedger) (ix : WrappedInstruction) : Prop :=
  accounts[ix.programIdIndex]?=some tokenProgramId.bytes →
    TokenInstruction.unpack ix.data≠none → ∀ a key mint h,accountAt accounts ix 0=some a →
      accountAt accounts ix 1=some key → Pubkey.ofBytes key=some mint → s a=some h →
      mint=h.mint ∧ (mint≠wrappedSolMint → h.amount=0)

def startingBalance (mint : Pubkey) : Option Nat := if mint≠wrappedSolMint then some 0 else none

theorem startingBalance_recorded {mint : Pubkey} {h : Holding} (hmint : mint=h.mint)
    (hempty : mint≠wrappedSolMint → h.amount=0) : Recorded (startingBalance mint) h := by
  by_cases hnative : mint=wrappedSolMint
  · exact .inr ⟨if_neg (not_not.mpr hnative),hmint.symm.trans hnative⟩
  · have hzero := hempty hnative
    exact .inl ((if_pos hnative).trans (congrArg some hzero.symm))

private theorem insertInitializedAccount_eq {context context' : TransactionContext}
    {ix : WrappedInstruction} {owner : Option Pubkey}
    (h : insertInitializedAccount context ix owner=some context') :
    ∃ a key mint o,accountAt context.accounts ix 0=some a ∧
      accountAt context.accounts ix 1=some key ∧ Pubkey.ofBytes key=some mint ∧
      context'={context with
        tokenAccounts := context.tokenAccounts.insert a
          ⟨a,mint,o,startingBalance mint,startingBalance mint⟩} := by
  obtain ⟨t,hparsed,h⟩ := Option.bind_eq_some_iff.mp h
  rw [← Option.some.inj h]
  cases owner <;>
    simp only [parseTokenAccountFromInitializeAccountInstruction,bind,
      Option.bind_eq_some_iff] at hparsed <;>
    obtain ⟨a,ha,key,hkey,mint,hmint,o,_,hparsed⟩ := hparsed <;>
    exact ⟨a,key,mint,o,Option.bind_eq_some_iff.mpr ha,Option.bind_eq_some_iff.mpr hkey,hmint,by
      rw [← Option.some.inj hparsed]; rfl⟩

private theorem updateAccounts_follows {context context' : TransactionContext}
    {ix : WrappedInstruction}
    {s : TokenLedger} (h : updateAccounts context ix=some context')
    (hspares : Spares context.accounts s ix) (hf : Follows context.tokenAccounts s s) :
    Follows context'.tokenAccounts s s := by
  have hinsert {owner : Option Pubkey} (hprogram : context.accounts[ix.programIdIndex]?=
      some tokenProgramId.bytes) (hunpack : TokenInstruction.unpack ix.data≠none)
      (h : insertInitializedAccount context ix owner=some context') :
      Follows context'.tokenAccounts s s := by
    obtain ⟨a,key,mint,o,ha,hkey,hmint,rfl⟩ := insertInitializedAccount_eq h
    constructor
    · intro b k hb
      rw [Slots.get_insert]
      by_cases hba : b=a
      · obtain ⟨hsame,hempty⟩ := hspares hprogram hunpack a key mint k ha hkey hmint (hba ▸ hb)
        exact ⟨_,if_pos hba,startingBalance_recorded hsame hempty⟩
      · rw [if_neg hba]
        exact hf.before b k hb
    · intro b k hb
      rw [Slots.get_insert]
      by_cases hba : b=a
      · obtain ⟨hsame,hempty⟩ := hspares hprogram hunpack a key mint k ha hkey hmint (hba ▸ hb)
        exact ⟨_,if_pos hba,hsame,startingBalance_recorded hsame hempty⟩
      · rw [if_neg hba]
        exact hf.after b k hb
  simp only [updateAccounts,bind,Option.bind_eq_some_iff] at h
  obtain ⟨programId,hprogram,h⟩ := h
  split at h
  · rw [← Option.some.inj h]
    exact hf
  · rename_i htoken
    rw [not_not.mp htoken] at hprogram
    split at h
    case h_4 =>
      rw [← Option.some.inj h]
      exact hf
    all_goals
      rename_i hunpack
      refine hinsert hprogram ?_ h
      rw [hunpack]
      simp

private theorem foldlM_follows {context context' : TransactionContext}
    {ixs : List WrappedInstruction}
    {s : TokenLedger} (h : ixs.foldlM updateAccounts context=some context')
    (hspares : ∀ ix∈ixs,Spares context.accounts s ix) (hf : Follows context.tokenAccounts s s) :
    context'.accounts=context.accounts ∧ Follows context'.tokenAccounts s s := by
  induction ixs generalizing context with
  | nil =>
    have hsame : context=context' := by simpa using h
    rw [← hsame]
    exact ⟨rfl,hf⟩
  | cons ix rest ih =>
    rw [List.foldlM_cons] at h
    obtain ⟨next,hnext,hrest⟩ := Option.bind_eq_some_iff.mp h
    have haccounts := (updateAccounts_frame hnext).1
    obtain ⟨hsame,hfollows⟩ := ih hrest
      (fun ix' hix' => haccounts ▸ hspares ix' (List.mem_cons_of_mem ix hix'))
      (updateAccounts_follows hnext (hspares ix List.mem_cons_self) hf)
    exact ⟨hsame.trans haccounts,hfollows⟩

section
variable {crates : Crates}

private theorem insertPreTokenAccounts_eq_some {accounts : List Bytes}
    {balances : List TokenBalance}
    {slots slots' : TokenAccounts} :
    insertPreTokenAccounts crates accounts balances slots=some slots' ↔
      ∃ opened,
        List.Forall₂ (fun b a => preTokenAccount crates accounts b=some a) balances opened ∧
        opened.foldl (fun s a => s.insert a.address a) slots=slots' :=
  loop_eq_some _ _ (fun _ => rfl) (fun _ _ _ => rfl)

theorem preTokenAccount_eq_some {accounts : List Bytes} {b : TokenBalance} {t : TokenAccount}
    (h : preTokenAccount crates accounts b=some t) :
    accounts[b.accountIndex]?=some t.address ∧ Pubkey.tryFromString crates b.mint=some t.mint ∧
      t.preBalance=b.uiTokenAmount.bind parseU64 ∧ t.postBalance=b.uiTokenAmount.bind parseU64 := by
  simp only [preTokenAccount,bind,Option.bind_eq_some_iff] at h
  obtain ⟨address,haddress,text,htext,balance,hbalance,mint,hmint,owner,_,h⟩ := h
  rw [← Option.some.inj h,htext]
  exact ⟨haddress,hmint,hbalance.symm,hbalance.symm⟩

variable {t : ConfirmedTransaction} (x : Confirmed crates t)
  (hpre : (x.status.preTokenBalances.map TokenBalance.accountIndex).Nodup) {s : TokenLedger}
  (hlisted : ∀ a h,s a=some h → ∃ b∈x.status.preTokenBalances,HeldBy crates x.accounts b a h)

include hpre hlisted

private theorem insertPre_follows {slots : TokenAccounts}
    (h : insertPreTokenAccounts crates x.accounts x.status.preTokenBalances []=some slots) :
    Follows slots s s := by
  obtain ⟨opened,hopened,hslots⟩ := insertPreTokenAccounts_eq_some.mp h
  have haddresses : (opened.map TokenAccount.address).Nodup := by
    refine addresses_nodup x.distinct ?_ hpre
    rw [List.forall₂_map_left_iff,List.forall₂_map_right_iff]
    exact hopened.imp fun _ _ ha => (preTokenAccount_eq_some ha).1
  have hentries : slots=opened.map fun a => (a.address,a) := by
    have hfold := Slots.insertAll_fresh (opened.map fun a => (a.address,a)) []
      (by simpa [Function.comp_def] using haddresses)
    rwa [List.foldl_map,hslots,List.nil_append] at hfold
  have hkeys : (slots.map Prod.fst).Nodup := by
    rw [hentries,List.map_map]
    exact haddresses
  have hfound : ∀ a h,s a=some h → ∃ t,slots.get a=some t ∧ t.mint=h.mint ∧
      t.preBalance=some h.amount ∧ t.postBalance=some h.amount := by
    intro a h ha
    obtain ⟨b,hb,haddress,hmint,hamount⟩ := hlisted a h ha
    obtain ⟨t,ht,hread⟩ := exists_of_mem_forall₂ hopened hb
    obtain ⟨htaddress,htmint,hbefore,hafter⟩ := preTokenAccount_eq_some hread
    rw [haddress] at htaddress
    rw [hmint] at htmint
    have hmem : (a,t)∈slots := by
      rw [hentries,Option.some.inj htaddress]
      exact List.mem_map_of_mem ht
    exact ⟨t,Slots.get_of_mem hkeys hmem,(Option.some.inj htmint).symm,hbefore.trans hamount,
      hafter.trans hamount⟩
  constructor
  · intro a h ha
    obtain ⟨t,ht,_,hbefore,_⟩ := hfound a h ha
    exact ⟨t,ht,.inl hbefore⟩
  · intro a h ha
    obtain ⟨t,ht,hmint,_,hafter⟩ := hfound a h ha
    exact ⟨t,ht,hmint,.inl hafter⟩

/-- The context of a transaction has the balances of the ledger before it. -/
theorem getContext_follows {context : TransactionContext}
    (h : getContext crates t=some (some context))
    (hspares : ∀ ix∈x.instructions,Spares x.accounts s ix) :
    context.accounts=x.accounts ∧ Follows context.tokenAccounts s s := by
  obtain ⟨status,hs,⟨_,hnone⟩|⟨_,built,hbuilt,hsame⟩⟩ := getContext_eq_some h
  · cases hnone
  · simp only [TransactionContext.build,hs,x.flattened_eq,bind,Option.bind_eq_some_iff,
      Option.bind_some] at hbuilt
    obtain ⟨fresh,hfresh,slots,hslots,hfold⟩ := hbuilt
    simp only [TransactionContext.new,x.accounts_eq,bind,Option.bind_eq_some_iff,
      Option.bind_some] at hfresh
    obtain ⟨_,_,_,_,_,_,header,_,hfresh⟩ := hfresh
    have haccounts : fresh.accounts=x.accounts := by
      split at hfresh
      · cases hfresh
      · rw [← Option.some.inj hfresh]
    rw [haccounts,← Option.some.inj (x.status_eq.symm.trans hs)] at hslots
    rw [Option.some.inj hsame]
    have hstart := insertPre_follows x hpre hlisted hslots
    obtain ⟨hkept,hfollows⟩ := foldlM_follows hfold
      (fun ix hix => haccounts ▸ hspares ix hix) hstart
    exact ⟨hkept.trans haccounts,hfollows⟩

end

def sampleMint : Pubkey := ⟨sampleAddress 3,rfl⟩

/-- The sample's holder alone, with this amount. -/
def sampleLedger (amount : Nat) : TokenLedger :=
  update (fun _ => none) (sampleAddress 2) (some ⟨sampleMint,amount⟩)

def burnFive : WrappedInstruction := .compiled ⟨3,[1,2,0],[8,5,0,0,0,0,0,0,0]⟩

def closeHolder : WrappedInstruction := .compiled ⟨3,[1,0,0],[9]⟩

private theorem burnFive_executed :
    Executed burnAndCloseKeys (sampleLedger 5) [burnFive] (sampleLedger 0) := by
  have hunpack : SplToken.TokenInstruction.unpack burnFive.data=.ok (.burn 5) := by decide
  have hburn : Changes (accountAt burnAndCloseKeys burnFive) (sampleLedger 5) (.debit 5)
      (update (sampleLedger 5) (sampleAddress 2) (some ⟨sampleMint,5-UInt64.toNat 5⟩)) :=
    .debit rfl (Function.update_self ..) (by decide)
  rw [sampleLedger,Function.update_idem] at hburn
  exact .concat (.nil _) (.token rfl hunpack hburn)

private theorem closeHolder_settles :
    Settles burnAndCloseKeys closeHolder (sampleLedger 0) fun _ => none := by
  have hunpack : SplToken.TokenInstruction.unpack closeHolder.data=.ok .closeAccount := by decide
  have hclose : Changes (accountAt burnAndCloseKeys closeHolder) (sampleLedger 0) .close
      (update (sampleLedger 0) (sampleAddress 2) none) :=
    .close rfl (Function.update_self ..) fun _ => rfl
  rw [sampleLedger,Function.update_idem,Function.update_eq_self] at hclose
  exact .token rfl hunpack hclose

private theorem sampleLedger_listed (a : Bytes) (h : Holding) (ha : sampleLedger 5 a=some h) :
    ∃ b∈burnAndCloseMeta.preTokenBalances,HeldBy reference burnAndCloseKeys b a h := by
  by_cases hne : a=sampleAddress 2
  · rw [hne,sampleLedger,Function.update_self] at ha
    cases ha
    rw [hne]
    exact ⟨sampleHolding,List.mem_singleton_self _,rfl,by decide +kernel,by decide⟩
  · rw [sampleLedger,Function.update_of_ne hne] at ha
    cases ha

end SolanaM.Substreams
