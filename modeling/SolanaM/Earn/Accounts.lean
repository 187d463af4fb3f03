import SolanaM.Earn.Run

namespace SolanaM.Earn

open Function

variable {D M : Type} [DecidableEq D]

/-- Everything one successful action can do to the token account at a key. -/
inductive AccountChange (P : Program D M) (s : Chain D M) (key : Key) :
    Action D → Option TokenAccount → Prop
  | same (a : Action D) : AccountChange P s key a (s.accounts key)
  | added {ctx : AddRegistrarEarner} {user : Key} {proof : List (ProofElement D)}
      {g : EarnGlobal D} {acc : TokenAccount} (hkey : ctx.userTokenAccount=key)
      (h : AddRegistrarEarner.Accepted P s ctx user proof g acc) :
      AccountChange P s key (.addRegistrarEarner ctx user proof)
        (some {acc with state := .Initialized})
  | removed {ctx : RemoveRegistrarEarner} {proofs : List (List (ProofElement D))}
      {neighbors : List Key} {g : EarnGlobal D} {acc : TokenAccount}
      (hkey : ctx.userTokenAccount=key)
      (h : RemoveRegistrarEarner.Accepted P s ctx proofs neighbors g acc) :
      AccountChange P s key (.removeRegistrarEarner ctx proofs neighbors)
        (some {acc with state := .Frozen})
  | recoveredFrom {ctx : RecoverM} {amount : Option Nat} {g : EarnGlobal D}
      {src dst : TokenAccount} (hkey : ctx.sourceTokenAccount=key)
      (h : RecoverM.Accepted s ctx g src dst (amount.getD src.amount)) :
      AccountChange P s key (.recoverM ctx amount)
        (some {src with amount := src.amount-amount.getD src.amount})
  | recoveredTo {ctx : RecoverM} {amount : Option Nat} {g : EarnGlobal D}
      {src dst : TokenAccount} (hkey : ctx.destinationTokenAccount=key)
      (h : RecoverM.Accepted s ctx g src dst (amount.getD src.amount)) :
      AccountChange P s key (.recoverM ctx amount)
        (some {dst with amount := dst.amount+amount.getD src.amount,state := .Initialized})
  | portal {ctx : UpdatePortalAuthority} {g : EarnGlobal D} {acc : TokenAccount}
      (hkey : ctx.portalMAccount=key) (h : UpdatePortalAuthority.Accepted P s ctx g acc) :
      AccountChange P s key (.updatePortalAuthority ctx) (some {acc with state := .Initialized})
  | created {mint owner : Key} {immutableOwner : Bool} {m : Mint M}
      (hnone : s.accounts key=none) (hm : s.mints mint=some m) :
      AccountChange P s key (.token (.createAccount key mint owner immutableOwner))
        (some ⟨mint,owner,0,m.defaultAccountState.getD .Initialized,immutableOwner⟩)
  | ownerSet {newOwner : Key} {acc : TokenAccount} (hacc : s.accounts key=some acc)
      (hthawed : acc.state=.Initialized) (hmutable : ¬acc.immutableOwner) :
      AccountChange P s key (.token (.setOwner key newOwner)) (some {acc with owner := newOwner})
  | moved {step : TokenStep} {n : Nat} {acc : TokenAccount} (hacc : s.accounts key=some acc)
      (hthawed : acc.state=.Initialized) :
      AccountChange P s key (.token step) (some {acc with amount := n})
  | closed : AccountChange P s key (.token (.closeAccount key)) none

variable {P : Program D M} {s s' : Chain D M} {key : Key}

/-- Where one account is written, that account has the change and every other is left alone. -/
theorem AccountChange.of_update {a : Action D} {account : Key} {o : Option TokenAccount}
    (h : key=account → AccountChange P s key a o) :
    AccountChange P s key a (update s.accounts account o key) := by
  by_cases hk : key=account
  · rw [hk,update_self,← hk]
    exact h hk
  · rw [update_of_ne hk]
    exact .same a

/-- Where two accounts are written, each of them has its change. -/
theorem AccountChange.of_update₂ {a : Action D} {source destination : Key}
    {o o' : Option TokenAccount} (h : key=source → AccountChange P s key a o)
    (h' : key=destination → AccountChange P s key a o') :
    AccountChange P s key a (update (update s.accounts source o) destination o' key) := by
  by_cases hk : key=destination
  · rw [hk,update_self,← hk]
    exact h' hk
  · rw [update_of_ne hk]
    exact .of_update h

theorem PropagateIndex.handler_accounts [LinearOrder M] {ctx : PropagateIndex} {newIndex : Nat}
    {root : D} {ts : Int} {es : List (IndexUpdateV2 M)}
    (h : handler P s ctx newIndex root ts=.ok (s',es)) : s'.accounts=s.accounts := by
  obtain ⟨g,m,c,_,_,_,_,h⟩ := handler_eq_ok h
  rcases h with ⟨_,rfl,_⟩|⟨_,rfl,_⟩|⟨_,rfl,_⟩
  · rfl
  · exact storeRoot_accounts s g root
  · exact storeRoot_accounts s g root

/-- A successful action of the running program changes each account in one of the ways of
AccountChange. -/
theorem step_accounts [LinearOrder M] {a : Action D} {es : List (IndexUpdateV2 M)}
    (hg : s.globalAccount≠none) (h : (program P).step s a=.ok (s',es)) :
    AccountChange P s key a (s'.accounts key) := by
  cases step_effect hg h with
  | propagated hok =>
    rw [PropagateIndex.handler_accounts hok]
    exact .same _
  | added hacc =>
    refine .of_update ?_
    rintro rfl
    exact .added rfl hacc
  | removed hacc =>
    refine .of_update ?_
    rintro rfl
    exact .removed rfl hacc
  | recovered hacc =>
    refine .of_update₂ ?_ ?_
    · rintro rfl
      exact .recoveredFrom rfl hacc
    · rintro rfl
      exact .recoveredTo rfl hacc
  | portal hacc =>
    refine .of_update ?_
    rintro rfl
    exact .portal rfl hacc
  | created hnone hm =>
    refine .of_update ?_
    rintro rfl
    exact .created hnone hm
  | ownerSet hacc hthawed hmutable =>
    refine .of_update ?_
    rintro rfl
    exact .ownerSet hacc hthawed hmutable
  | transferred hsrc hdst hsrcThawed hdstThawed =>
    refine .of_update₂ ?_ ?_
    · rintro rfl
      exact .moved hsrc hsrcThawed
    · rintro rfl
      exact .moved hdst hdstThawed
  | minted hacc _ hthawed =>
    refine .of_update ?_
    rintro rfl
    exact .moved hacc hthawed
  | burned hacc _ hthawed =>
    refine .of_update ?_
    rintro rfl
    exact .moved hacc hthawed
  | closed =>
    refine .of_update ?_
    rintro rfl
    exact .closed

end SolanaM.Earn
