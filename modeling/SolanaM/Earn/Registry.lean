import SolanaM.Earn.Accounts
import SolanaM.Framework.Settling
import SolanaM.Sdk.ExclusionProof

namespace SolanaM.Earn

open Function Sdk

variable {D M : Type} [DecidableEq D]

/-- The two permissionless instructions. -/
def Action.isRegistrar : Action D → Bool
  | .addRegistrarEarner .. => true
  | .removeRegistrarEarner .. => true
  | _ => false

/-- The stored root decides membership in S, zero key apart, for every proof. -/
structure DecidesEarners (P : Program D M) (g : EarnGlobal D) (S : List Key) : Prop where
  included : ∀ user proof i,user≠Key.zero →
    verifyInTree P.keccak g.earnerMerkleRoot user proof=.ok i → user∈S
  excluded : ∀ user proofs neighbors,
    verifyNotInTree P.keccak g.earnerMerkleRoot user proofs neighbors=.ok () → user∉S

/-- The state the registrar's list S asks of an account. -/
def settleAccount (S : List Key) (acc : TokenAccount) : TokenAccount :=
  {acc with state := if acc.owner∈S then .Initialized else .Frozen}

private theorem settleAccount_idem (S : List Key) (acc : TokenAccount) :
    settleAccount S (settleAccount S acc)=settleAccount S acc := rfl

/-- The root of an SDK tree over distinct keys decides them; without keys the SDK hashes the
default key, which add_registrar_earner refuses. -/
theorem DecidesEarners.of_tree {P : Program D M} (hf : P.keccak.CollisionFree)
    (leaves : List PublicKey) (hnd : (leaves.map PublicKey.bytes).Nodup) {g : EarnGlobal D}
    (hroot : (MerkleTree.new P.keccak leaves).getRoot=some g.earnerMerkleRoot) :
    DecidesEarners P g (leaves.map PublicKey.bytes) := by
  by_cases hne : leaves=[]
  · subst hne
    obtain ⟨r,vs,hr,hs,hp⟩ := MerkleTree.root_spans P.keccak [Key.zero] (by decide)
    have hempty : MerkleTree.new P.keccak []=MerkleTree.ofSorted P.keccak [Key.zero] :=
      MerkleTree.new_eq_ofSorted P.keccak [PublicKey.default] (by decide)
    rw [hempty] at hroot
    obtain rfl : r=g.earnerMerkleRoot := Option.some.inj (hr.symm.trans hroot)
    refine ⟨?_,fun _ _ _ _ => List.not_mem_nil⟩
    intro user proof i hz h
    have hv := (verifyInTree_sound hf hs (by decide) user proof i h).2.2
    exact absurd (List.mem_singleton.mp (hp.mem user (List.mem_of_getElem? hv))) hz
  · have hn := (MerkleTree.constructorKeys_perm leaves hnd).nodup_iff.mpr hnd
    have hk := MerkleTree.clog_lt _ hn
    obtain ⟨r,vs,hr,hs,hp⟩ := MerkleTree.root_spans P.keccak (MerkleTree.constructorKeys leaves)
      (MerkleTree.constructorKeys_ne_nil leaves hne)
    rw [MerkleTree.new_eq_ofSorted P.keccak leaves hne] at hroot
    obtain rfl : r=g.earnerMerkleRoot := Option.some.inj (hr.symm.trans hroot)
    constructor
    · intro user proof i _ h
      have hv := (verifyInTree_sound hf hs hk.le user proof i h).2.2
      exact (MerkleTree.mem_constructorKeys leaves user).mp (hp.mem user (List.mem_of_getElem? hv))
    · intro user proofs neighbors h hm
      exact verifyNotInTree_sound hf hs hk hp (sortKeys_sorted _) user proofs neighbors h
        ((MerkleTree.mem_constructorKeys leaves user).mpr hm)

section Attempts

variable {P : Program D M} {g : EarnGlobal D} {S : List Key}

/-- A chain on which every key holds this one account. -/
def single (g : EarnGlobal D) (mints : Key → Option (Mint M)) (acc : TokenAccount) : Chain D M :=
  ⟨some g,mints,fun _ => some acc⟩

omit [DecidableEq D] in
/-- Of the accounts of a registrar instruction only the one it names matters. -/
theorem RegistrarAccounts.congr {s s' : Chain D M} {globalAccount mMint key : Key}
    {acc : TokenAccount} (h : RegistrarAccounts P s globalAccount mMint key g acc)
    (hg : s'.globalAccount=s.globalAccount) (hm : s'.mints=s.mints)
    (ha : s'.accounts key=some acc) : RegistrarAccounts P s' globalAccount mMint key g acc := by
  refine {h with global := hg.trans h.global,account := ha,freezable := ?_}
  rw [Freezable,hm]
  exact h.freezable

/-- A state that the list asks for and the account is not in. -/
theorem settleAccount_of {acc : TokenAccount} {target : AccountState} (hne : acc.state≠target)
    (htarget : (if acc.owner∈S then AccountState.Initialized else .Frozen)=target) :
    settleAccount S acc={acc with state := target} ∧ settleAccount S acc≠acc := by
  have hset : settleAccount S acc={acc with state := target} := by rw [settleAccount,htarget]
  refine ⟨hset,?_⟩
  intro he
  exact hne (congrArg TokenAccount.state (hset.symm.trans he)).symm

theorem AddRegistrarEarner.Accepted.settles {s : Chain D M} {ctx : AddRegistrarEarner}
    {user : Key} {proof : List (ProofElement D)} {acc : TokenAccount} (hd : DecidesEarners P g S)
    (h : Accepted P s ctx user proof g acc) :
    settleAccount S acc={acc with state := .Initialized} ∧ settleAccount S acc≠acc := by
  obtain ⟨i,hi⟩ := h.included
  have hmem : acc.owner∈S := h.owner ▸ hd.included user proof i h.user_ne_zero hi
  exact settleAccount_of (by simp [h.frozen]) (if_pos hmem)

theorem RemoveRegistrarEarner.Accepted.settles {s : Chain D M} {ctx : RemoveRegistrarEarner}
    {proofs : List (List (ProofElement D))} {neighbors : List Key} {acc : TokenAccount}
    (hd : DecidesEarners P g S) (h : Accepted P s ctx proofs neighbors g acc) :
    settleAccount S acc={acc with state := .Frozen} ∧ settleAccount S acc≠acc := by
  have hmem : acc.owner∉S := hd.excluded acc.owner proofs neighbors h.excluded
  exact settleAccount_of (by simp [h.thawed]) (if_neg hmem)

/-- A registrar call seen from the accounts: it settles the account it names or does nothing. -/
def attempt (hd : DecidesEarners P g S) (mints : Key → Option (Mint M)) :
    Action D → Attempt Key (settleAccount S)
  | .addRegistrarEarner ctx user proof =>
      ⟨ctx.userTokenAccount,
        fun acc => AddRegistrarEarner.Accepted P (single g mints acc) ctx user proof g acc,
        fun _ h => (h.settles hd).2⟩
  | .removeRegistrarEarner ctx proofs neighbors =>
      ⟨ctx.userTokenAccount,
        fun acc => RemoveRegistrarEarner.Accepted P (single g mints acc) ctx proofs neighbors g acc,
        fun _ h => (h.settles hd).2⟩
  | _ => ⟨Key.zero,fun _ => False,fun _ h => h.elim⟩

variable [LinearOrder M]

/-- A call that is accepted exactly where the guard of an attempt holds, and then writes the state
that settles the account, does to the chain what the attempt does to its accounts. -/
theorem exec_eq_apply {s : Chain D M} {a : Action D} {t : Attempt Key (settleAccount S)}
    {r : Result (Chain D M)} {accepts : EarnGlobal D → TokenAccount → Prop} {target : AccountState}
    (hstep : (program P).step s a=silent r)
    (hr : ∀ s',r=.ok s' ↔
      ∃ g acc,accepts g acc ∧ s'=s.setAccount t.key {acc with state := target})
    (hto : ∀ g' acc,accepts g' acc → s.accounts t.key=some acc ∧ t.guard acc)
    (hof : ∀ acc,s.accounts t.key=some acc → t.guard acc →
      accepts g acc ∧ settleAccount S acc={acc with state := target}) :
    (program P).exec s a=⟨s.globalAccount,s.mints,t.apply s.accounts⟩ := by
  by_cases h : t.Accepts s.accounts
  · obtain ⟨acc,hacc,hguard⟩ := h
    obtain ⟨haccepts,hset⟩ := hof acc hacc hguard
    have hok : (program P).step s a=.ok (s.setAccount t.key {acc with state := target},[]) :=
      hstep.trans (silent_eq_ok.mpr ⟨(hr _).mpr ⟨g,acc,haccepts,rfl⟩,rfl⟩)
    rw [Machine.exec_of_ok _ hok,Attempt.apply_of_guard hacc hguard,hset]
    rfl
  · rw [Attempt.apply_of_not h]
    cases hok : (program P).step s a with
    | error f => exact Machine.exec_of_error _ hok
    | ok p =>
      obtain ⟨g',acc,haccepts,_⟩ := (hr _).mp (silent_eq_ok.mp (hstep.symm.trans hok)).1
      exact absurd ⟨acc,hto g' acc haccepts⟩ h

theorem registrar_exec (hd : DecidesEarners P g S) {s : Chain D M} (hg : s.globalAccount=some g)
    {a : Action D} (ha : a.isRegistrar) :
    (program P).exec s a=
      ⟨s.globalAccount,s.mints,(attempt hd s.mints a).apply s.accounts⟩ := by
  cases a with
  | addRegistrarEarner ctx user proof =>
    refine exec_eq_apply (g := g) rfl (fun _ => AddRegistrarEarner.handler_eq_ok P) ?_ ?_
    · intro g' acc h
      cases hg.symm.trans h.global
      exact ⟨h.account,{h with toRegistrarAccounts := h.congr hg.symm rfl rfl}⟩
    · intro acc hacc h
      exact ⟨{h with toRegistrarAccounts := h.congr hg rfl hacc},(h.settles hd).1⟩
  | removeRegistrarEarner ctx proofs neighbors =>
    refine exec_eq_apply (g := g) rfl (fun _ => RemoveRegistrarEarner.handler_eq_ok P) ?_ ?_
    · intro g' acc h
      cases hg.symm.trans h.global
      exact ⟨h.account,{h with toRegistrarAccounts := h.congr hg.symm rfl rfl}⟩
    · intro acc hacc h
      exact ⟨{h with toRegistrarAccounts := h.congr hg rfl hacc},(h.settles hd).1⟩
  | _ => exact nomatch ha

/-- The program under registrar calls is the settling machine on its accounts. -/
theorem registrar_run (hd : DecidesEarners P g S) {s : Chain D M} (hg : s.globalAccount=some g)
    (calls : List (Action D)) (hcalls : ∀ a∈calls,a.isRegistrar) :
    (program P).run s calls=⟨s.globalAccount,s.mints,
        (settling (settleAccount S)).run s.accounts (calls.map (attempt hd s.mints))⟩ ∧
      ∀ key,(program P).changes (fun s => s.accounts key) s calls=
        (settling (settleAccount S)).changes (fun t => t key) s.accounts
          (calls.map (attempt hd s.mints)) := by
  have hI : ∀ (u : Chain D M) (a : Action D),a.isRegistrar →
      u.globalAccount=s.globalAccount ∧ u.mints=s.mints →
      ((program P).exec u a).globalAccount=s.globalAccount ∧
        ((program P).exec u a).mints=s.mints := by
    intro u a ha ⟨hug,hum⟩
    rw [registrar_exec hd (hug.trans hg) ha]
    exact ⟨hug,hum⟩
  have hsim : ∀ (u : Chain D M) (a : Action D),a.isRegistrar →
      u.globalAccount=s.globalAccount ∧ u.mints=s.mints →
      ((program P).exec u a).accounts=
        (settling (settleAccount S)).exec u.accounts (attempt hd s.mints a) := by
    intro u a ha ⟨hug,hum⟩
    rw [registrar_exec hd (hug.trans hg) ha,hum]
    rfl
  constructor
  · obtain ⟨⟨hgl,hm⟩,hacc⟩ := Machine.run_simulation hI hsim s calls hcalls ⟨rfl,rfl⟩
    rw [← hacc,← hgl,← hm]
  · intro key
    exact Machine.changes_simulation hI hsim (fun t => t key) s calls hcalls ⟨rfl,rfl⟩

end Attempts

/-- Under the root of a fixed earner list, add_registrar_earner and remove_registrar_earner calls
change each account at most once, towards the list, and end in one state in every order. -/
theorem registrar_confluent [LinearOrder M] {P : Program D M} (hf : P.keccak.CollisionFree)
    (leaves : List PublicKey) (hnd : (leaves.map PublicKey.bytes).Nodup) {s : Chain D M}
    {g : EarnGlobal D} (hg : s.globalAccount=some g)
    (hroot : (MerkleTree.new P.keccak leaves).getRoot=some g.earnerMerkleRoot)
    (calls : List (Action D)) (hcalls : ∀ a∈calls,a.isRegistrar) :
    (∀ key,(program P).changes (fun s => s.accounts key) s calls≤1) ∧
    (∀ key,((program P).run s calls).accounts key=s.accounts key ∨
      ∃ acc state,s.accounts key=some acc ∧ state≠acc.state ∧
        ((program P).run s calls).accounts key=some {acc with state := state} ∧
        (state=.Initialized ↔ acc.owner∈leaves.map PublicKey.bytes)) ∧
    (∀ calls',calls.Perm calls' → (program P).run s calls=(program P).run s calls') ∧
    ∀ pre a post f,calls=pre++a::post → (program P).step ((program P).run s pre) a=.error f →
      (program P).run s (pre++[a])=(program P).run s pre := by
  have hd := DecidesEarners.of_tree hf leaves hnd hroot
  obtain ⟨hrun,hch⟩ := registrar_run hd hg calls hcalls
  have hid := settleAccount_idem (leaves.map PublicKey.bytes)
  refine ⟨?_,?_,?_,?_⟩
  · intro key
    rw [hch key]
    exact (settling.run_cases hid s.accounts (calls.map (attempt hd s.mints)) key).1
  · intro key
    rw [hrun]
    rcases (settling.run_cases hid s.accounts (calls.map (attempt hd s.mints)) key).2 with
      h|⟨acc,hacc,hne,hset⟩
    · exact .inl h
    · refine .inr ⟨acc,_,hacc,?_,hset,?_⟩
      · intro hst
        exact hne (by rw [settleAccount,hst])
      · split <;> simp [*]
  · intro calls' hp
    have hcalls' : ∀ a∈calls',a.isRegistrar := fun a ha => hcalls a (hp.mem_iff.mpr ha)
    rw [hrun,(registrar_run hd hg calls' hcalls').1,
      settling.run_perm hid (hp.map (attempt hd s.mints)) s.accounts]
  · intro pre a post f _ herr
    rw [Machine.run_append]
    exact Machine.exec_of_error _ herr

/-- The sample program after its first root, that of a tree with one earner. -/
def sampleRooted : Chain Digest Nat :=
  (program sampleProgram).exec sampleStart
    (.propagateIndex ⟨.ofByte 2,.ofByte 1,.ofByte 6⟩ 2 (.leaf (.ofByte 8)) 0)

def sampleCalls : List (Action Digest) :=
  [.addRegistrarEarner ⟨.ofByte 12,.ofByte 1,.ofByte 6,.ofByte 7⟩ (.ofByte 8) [],
    .removeRegistrarEarner ⟨.ofByte 13,.ofByte 1,.ofByte 6,.ofByte 7⟩ [[]] [.ofByte 9]]

theorem registrar_confluent_pair :
    (program sampleProgram).changes (fun s => s.accounts (.ofByte 7)) sampleRooted sampleCalls≤1 ∧
      (program sampleProgram).run sampleRooted sampleCalls=
        (program sampleProgram).run sampleRooted sampleCalls.reverse := by
  have h := registrar_confluent (P := sampleProgram) Digest.keccak_collisionFree
    [⟨1,.ofByte 8⟩] (by decide) (s := sampleRooted) rfl rfl sampleCalls (by decide)
  exact ⟨h.1 (.ofByte 7),h.2.2.1 sampleCalls.reverse (List.reverse_perm sampleCalls).symm⟩

end SolanaM.Earn
