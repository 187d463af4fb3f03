import SolanaM.Earn.Configuration
import SolanaM.Earn.Registry
import SolanaM.Membership

namespace SolanaM.Earn

open Function Sdk

variable {D M : Type} [DecidableEq D]

/-- The signer and the token account of a permissionless call. -/
def Action.registrarCall? : Action D → Option (Key×Key)
  | .addRegistrarEarner ctx _ _ => some (ctx.signer,ctx.userTokenAccount)
  | .removeRegistrarEarner ctx _ _ => some (ctx.signer,ctx.userTokenAccount)
  | _ => none

/-- The state in which a list S of earners leaves an account, if anyone calls for it. Listed
owners need an immutable owner, and the zero key is no earner; two owners are exempt. -/
def reconciledState (g : EarnGlobal D) (S : List Key) (acc : TokenAccount) : AccountState :=
  if acc.mint≠g.mMint then acc.state
  else if acc.owner∈S then
    if acc.immutableOwner ∧ acc.owner≠Key.zero then .Initialized else acc.state
  else if acc.owner=g.portalAuthority ∨ acc.owner=g.extSwapGlobalAccount then acc.state
  else .Frozen

def reconciled (g : EarnGlobal D) (S : List Key) (acc : TokenAccount) : TokenAccount :=
  {acc with state := reconciledState g S acc}

omit [DecidableEq D] in
theorem reconciled_idem (g : EarnGlobal D) (S : List Key) (acc : TokenAccount) :
    reconciled g S (reconciled g S acc)=reconciled g S acc := by
  simp only [reconciled,reconciledState]
  split_ifs <;> rfl

/-- The stored root has a proof for every key of S and against every other. -/
structure ProvesEarners (P : Program D M) (g : EarnGlobal D) (S : List Key) : Prop where
  included : ∀ user,(∃ proof i,verifyInTree P.keccak g.earnerMerkleRoot user proof=.ok i) ↔ user∈S
  excluded : ∀ user,(∃ proofs neighbors,
    verifyNotInTree P.keccak g.earnerMerkleRoot user proofs neighbors=.ok ()) ↔ user∉S

theorem ProvesEarners.of_tree {P : Program D M} (hf : P.keccak.CollisionFree)
    {leaves : List PublicKey} (hne : leaves≠[]) (hlen : leaves.length<2^63) {g : EarnGlobal D}
    (hroot : (MerkleTree.new P.keccak leaves).getRoot=some g.earnerMerkleRoot) :
    ProvesEarners P g (leaves.map PublicKey.bytes) := by
  have hraw := MerkleTree.constructorKeys_ne_nil leaves hne
  have hl := (MerkleTree.constructorKeys_length_le leaves).trans_lt hlen
  rw [MerkleTree.new_eq_ofSorted P.keccak leaves hne] at hroot
  have hdecides := verifier_decides P.keccak hf _ hraw (sortKeys_sorted _) hl _ hroot
  constructor
  · intro user
    rw [← MerkleTree.mem_constructorKeys leaves user]
    exact (hdecides user).1
  · intro user
    rw [← MerkleTree.mem_constructorKeys leaves user]
    exact (hdecides user).2

section Calls

variable [LinearOrder M] {P : Program D M} {s : Chain D M} {g : EarnGlobal D} {S : List Key}

/-- One call by anyone brings one account into the state that the list asks for. -/
theorem exists_reconciling_call (hp : ProvesEarners P g S) (hg : s.globalAccount=some g)
    (hfreezable : Freezable s g.mMint P.globalAddress) (signer key : Key) :
    ∃ calls : List (Action D),
      (∀ a∈calls,∃ account,a.registrarCall? = some (signer,account)) ∧
      (program P).run s calls=
        {s with accounts := update s.accounts key ((s.accounts key).map (reconciled g S))} := by
  cases hacc : s.accounts key with
  | none =>
    refine ⟨[],by simp,?_⟩
    rw [Machine.run_nil,Option.map_none,← hacc,update_eq_self]
  | some acc =>
    rw [Option.map_some]
    by_cases hsame : reconciledState g S acc=acc.state
    · refine ⟨[],by simp,?_⟩
      rw [Machine.run_nil,reconciled,hsame,← hacc,update_eq_self]
    · have hmint : acc.mint=g.mMint := by
        by_contra hm
        exact hsame (by rw [reconciledState,if_pos hm])
      by_cases hmem : acc.owner∈S
      · have hguard : acc.immutableOwner ∧ acc.owner≠Key.zero := by
          by_contra hn
          exact hsame (by rw [reconciledState,if_neg (not_not.mpr hmint),if_pos hmem,if_neg hn])
        have hstate : reconciledState g S acc=.Initialized := by
          rw [reconciledState,if_neg (not_not.mpr hmint),if_pos hmem,if_pos hguard]
        have hfrozen : acc.state=.Frozen := by
          cases hst : acc.state with
          | Initialized => exact absurd (hstate.trans hst.symm) hsame
          | Frozen => rfl
        obtain ⟨proof,hproof⟩ := (hp.included acc.owner).mpr hmem
        let ctx : AddRegistrarEarner := ⟨signer,P.globalAddress,g.mMint,key⟩
        have haccepted : AddRegistrarEarner.Accepted P s ctx acc.owner proof g acc :=
          ⟨⟨hg,hacc,rfl,rfl,hmint,hfreezable⟩,rfl,hguard.1,hfrozen,hguard.2,hproof⟩
        have hok := (AddRegistrarEarner.handler_eq_ok P).mpr ⟨g,acc,haccepted,rfl⟩
        refine ⟨[.addRegistrarEarner ctx acc.owner proof],by simp [Action.registrarCall?,ctx],?_⟩
        rw [Machine.run_cons,Machine.run_nil,Machine.exec_of_ok _ (silent_eq_ok.mpr ⟨hok,rfl⟩)]
        rw [reconciled,hstate]
        rfl
      · have hexempt : ¬(acc.owner=g.portalAuthority ∨ acc.owner=g.extSwapGlobalAccount) := by
          intro he
          exact hsame (by rw [reconciledState,if_neg (not_not.mpr hmint),if_neg hmem,if_pos he])
        have hstate : reconciledState g S acc=.Frozen := by
          rw [reconciledState,if_neg (not_not.mpr hmint),if_neg hmem,if_neg hexempt]
        have hthawed : acc.state=.Initialized := by
          cases hst : acc.state with
          | Initialized => rfl
          | Frozen => exact absurd (hstate.trans hst.symm) hsame
        obtain ⟨proofs,neighbors,hproofs⟩ := (hp.excluded acc.owner).mpr hmem
        let ctx : RemoveRegistrarEarner := ⟨signer,P.globalAddress,g.mMint,key⟩
        have haccepted : RemoveRegistrarEarner.Accepted P s ctx proofs neighbors g acc :=
          ⟨⟨hg,hacc,rfl,rfl,hmint,hfreezable⟩,hthawed,hproofs,hexempt⟩
        have hok := (RemoveRegistrarEarner.handler_eq_ok P).mpr ⟨g,acc,haccepted,rfl⟩
        refine ⟨[.removeRegistrarEarner ctx proofs neighbors],by simp [Action.registrarCall?,ctx],?_⟩
        rw [Machine.run_cons,Machine.run_nil,Machine.exec_of_ok _ (silent_eq_ok.mpr ⟨hok,rfl⟩)]
        rw [reconciled,hstate]
        rfl

/-- An account that is as the list asks is left alone by every such call. -/
theorem registrarCall_stuck (hp : ProvesEarners P g S) (hg : s.globalAccount=some g)
    {a : Action D} {signer key : Key} (ha : a.registrarCall? = some (signer,key))
    (hkey : (s.accounts key).map (reconciled g S)=s.accounts key) : (program P).exec s a=s := by
  have hsettled {acc : TokenAccount} (hacc : s.accounts key=some acc) :
      reconciledState g S acc=acc.state := by
    rw [hacc,Option.map_some,Option.some.injEq] at hkey
    exact congrArg TokenAccount.state hkey
  cases hstep : (program P).step s a with
  | error f => exact Machine.exec_of_error _ hstep
  | ok p =>
    exfalso
    cases a with
    | addRegistrarEarner ctx user proof =>
      obtain ⟨g',acc,h,_⟩ := (AddRegistrarEarner.handler_eq_ok P).mp (silent_eq_ok.mp hstep).1
      cases hg.symm.trans h.global
      cases ha
      have hmem : acc.owner∈S := (hp.included acc.owner).mp (h.owner ▸ ⟨proof,h.included⟩)
      have hzero : acc.owner≠Key.zero := h.owner ▸ h.user_ne_zero
      have hst := hsettled h.account
      rw [reconciledState,if_neg (not_not.mpr h.accountMint),if_pos hmem,
        if_pos ⟨h.immutableOwner,hzero⟩,h.frozen] at hst
      exact nomatch hst
    | removeRegistrarEarner ctx proofs neighbors =>
      obtain ⟨g',acc,h,_⟩ := (RemoveRegistrarEarner.handler_eq_ok P).mp (silent_eq_ok.mp hstep).1
      cases hg.symm.trans h.global
      cases ha
      have hmem : acc.owner∉S := (hp.excluded acc.owner).mp ⟨proofs,neighbors,h.excluded⟩
      have hst := hsettled h.account
      rw [reconciledState,if_neg (not_not.mpr h.accountMint),if_neg hmem,if_neg h.exempt,
        h.thawed] at hst
      exact nomatch hst
    | _ => exact nomatch ha

/-- The accounts at keys as the list asks, the others as they are. -/
def reconcile (g : EarnGlobal D) (S : List Key) (keys : List Key) (s : Chain D M) : Chain D M :=
  {s with accounts := fun key =>
    if key∈keys then (s.accounts key).map (reconciled g S) else s.accounts key}

omit [LinearOrder M] [DecidableEq D] in
theorem reconcile_cons (key : Key) (keys : List Key) :
    reconcile g S keys
        {s with accounts := update s.accounts key ((s.accounts key).map (reconciled g S))}=
      reconcile g S (key::keys) s := by
  simp only [reconcile,Chain.mk.injEq,true_and]
  funext k
  by_cases hk : k=key
  · subst hk
    rw [update_self,if_pos List.mem_cons_self,Option.map_map]
    have hidem : reconciled g S∘reconciled g S=reconciled g S := funext (reconciled_idem g S)
    rw [hidem,ite_self]
  · rw [update_of_ne hk]
    simp only [List.mem_cons,hk,false_or]

theorem exists_reconciling_calls (hp : ProvesEarners P g S) (signer : Key) (keys : List Key)
    (s : Chain D M) (hg : s.globalAccount=some g)
    (hfreezable : Freezable s g.mMint P.globalAddress) :
    ∃ calls : List (Action D),
      (∀ a∈calls,∃ account,a.registrarCall? = some (signer,account)) ∧
      (program P).run s calls=reconcile g S keys s := by
  induction keys generalizing s with
  | nil => exact ⟨[],by simp,by simp [reconcile]⟩
  | cons key keys ih =>
    obtain ⟨first,hfirst,hrun⟩ := exists_reconciling_call hp hg hfreezable signer key
    obtain ⟨rest,hrest,hrun'⟩ := ih
      {s with accounts := update s.accounts key ((s.accounts key).map (reconciled g S))} hg hfreezable
    refine ⟨first++rest,?_,?_⟩
    · intro a ha
      rcases List.mem_append.mp ha with ha|ha
      · exact hfirst a ha
      · exact hrest a ha
    · rw [Machine.run_append,hrun,hrun',reconcile_cons]

theorem reconcile_stuck (hp : ProvesEarners P g S) (hg : s.globalAccount=some g) {keys : List Key}
    (more : List (Action D))
    (hmore : ∀ a∈more,∃ signer,∃ account∈keys,a.registrarCall? = some (signer,account)) :
    (program P).run (reconcile g S keys s) more=reconcile g S keys s := by
  have hidem : reconciled g S∘reconciled g S=reconciled g S := funext (reconciled_idem g S)
  have hg' : (reconcile g S keys s).globalAccount=some g := hg
  induction more with
  | nil => rfl
  | cons a more ih =>
    obtain ⟨signer,account,haccount,ha⟩ := hmore a List.mem_cons_self
    have hstuck : (program P).exec (reconcile g S keys s) a=reconcile g S keys s := by
      apply registrarCall_stuck hp hg' ha
      simp only [reconcile,if_pos haccount,Option.map_map,hidem]
    rw [Machine.run_cons,hstuck]
    exact ih fun b hb => hmore b (List.mem_cons_of_mem a hb)

end Calls

/-- In every reachable state whose root is that of an SDK tree, calls that anyone may sign bring
any accounts into the state the tree's list asks for, and no further such call changes them. -/
theorem registrar_converges [LinearOrder M] {P : Program D M} (hf : P.keccak.CollisionFree)
    {leaves : List PublicKey} (hne : leaves≠[]) (hlen : leaves.length<2^63) {s0 s : Chain D M}
    {ctx : Initialize} {currentIndex : Nat}
    (hinit : Initialize.handler P s0 ctx currentIndex=.ok s) (as : List (Action D))
    {g : EarnGlobal D} (hg : ((program P).run s as).globalAccount=some g)
    (hroot : (MerkleTree.new P.keccak leaves).getRoot=some g.earnerMerkleRoot) (signer : Key)
    (keys : List Key) :
    ∃ calls : List (Action D),
      (∀ a∈calls,∃ account,a.registrarCall? = some (signer,account)) ∧
      (program P).run s (as++calls)=
        reconcile g (leaves.map PublicKey.bytes) keys ((program P).run s as) ∧
      ∀ more : List (Action D),
        (∀ a∈more,∃ other,∃ account∈keys,a.registrarCall? = some (other,account)) →
        (program P).run s (as++calls++more)=(program P).run s (as++calls) := by
  have hp := ProvesEarners.of_tree hf hne hlen hroot
  obtain ⟨g',hg',hfreezable⟩ := (Controls.of_initialize hinit).run as
  cases hg.symm.trans hg'
  obtain ⟨calls,hcalls,hrun⟩ := exists_reconciling_calls hp signer keys _ hg hfreezable
  refine ⟨calls,hcalls,by rw [Machine.run_append,hrun],?_⟩
  intro more hmore
  rw [Machine.run_append _ s (as++calls),Machine.run_append _ s as,hrun]
  exact reconcile_stuck hp hg more hmore

/-- One listed and one unlisted owner, whose accounts are both frozen. -/
theorem registrar_converges_sample :
    ∃ calls : List (Action Digest),
      (∀ a∈calls,∃ account,a.registrarCall? = some (.ofByte 12,account)) ∧
      (program sampleProgram).run sampleStart
          ([.propagateIndex ⟨.ofByte 2,.ofByte 1,.ofByte 6⟩ 2 (.leaf (.ofByte 8)) 0]++calls)=
        reconcile ⟨.ofByte 11,.ofByte 6,.ofByte 2,.ofByte 3,.leaf (.ofByte 8)⟩ [.ofByte 8]
          [.ofByte 7,.ofByte 9] sampleRooted := by
  have hne : [(⟨1,.ofByte 8⟩ : PublicKey)]≠[] := by decide
  obtain ⟨calls,hcalls,hrun,_⟩ := registrar_converges (P := sampleProgram)
    Digest.keccak_collisionFree hne (by decide) sampleStart_eq
    [.propagateIndex ⟨.ofByte 2,.ofByte 1,.ofByte 6⟩ 2 (.leaf (.ofByte 8)) 0]
    (g := ⟨.ofByte 11,.ofByte 6,.ofByte 2,.ofByte 3,.leaf (.ofByte 8)⟩) rfl rfl (.ofByte 12)
    [.ofByte 7,.ofByte 9]
  exact ⟨calls,hcalls,hrun⟩

end SolanaM.Earn
