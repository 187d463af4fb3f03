import SolanaM.Substreams.Confirmed
import SolanaM.Substreams.Base58

namespace SolanaM.Substreams

/-- Keys are taken apart at the dash behind their first part. -/
theorem append_dash_inj {s t x y : List Char} (hs : '-'∉s) (ht : '-'∉t)
    (h : s++ '-'::x=t++ '-'::y) : s=t ∧ x=y := by
  induction s generalizing t with
  | nil =>
    cases t with
    | nil => exact ⟨rfl,List.tail_eq_of_cons_eq h⟩
    | cons c t => exact absurd (List.head_eq_of_cons_eq h) (fun hc => ht (hc ▸ List.mem_cons_self))
  | cons c s ih =>
    cases t with
    | nil => exact absurd (List.head_eq_of_cons_eq h).symm (fun hc => hs (hc ▸ List.mem_cons_self))
    | cons d t =>
      rw [List.mem_cons,not_or] at hs ht
      obtain ⟨hst,hxy⟩ := ih hs.2 ht.2 (List.tail_eq_of_cons_eq h)
      rw [List.head_eq_of_cons_eq h,hst]
      exact ⟨rfl,hxy⟩

theorem key_inj {label a b s t : String} (ha : '-'∉a.toList) (hb : '-'∉b.toList)
    (h : label++a++"-signature::"++s=label++b++"-signature::"++t) : a=b ∧ s=t := by
  have hlist := congrArg String.toList h
  simp only [String.toList_append,List.append_assoc] at hlist
  have htail := List.append_cancel_left hlist
  have hdash : "-signature::".toList= '-'::"signature::".toList := by decide
  rw [hdash,List.cons_append,List.cons_append] at htail
  obtain ⟨hab,hst⟩ := append_dash_inj ha hb htail
  exact ⟨String.toList_inj.mp hab,String.toList_inj.mp (List.append_cancel_left hst)⟩

theorem suffix_inj {s t x y : String} (hs : '-'∉s.toList) (ht : '-'∉t.toList)
    (hx : x.toList.head? = some '-') (hy : y.toList.head? = some '-') (h : s++x=t++y) : s=t := by
  have hlist := congrArg String.toList h
  rw [String.toList_append,String.toList_append] at hlist
  obtain ⟨x',hx'⟩ := List.head?_eq_some_iff.mp hx
  obtain ⟨y',hy'⟩ := List.head?_eq_some_iff.mp hy
  rw [hx',hy'] at hlist
  exact String.toList_inj.mp (append_dash_inj hs ht hlist).1

theorem dashless_toString (n : Nat) : '-'∉(toString n).toList := by
  intro h
  rw [Nat.toString_eq_repr,Nat.toList_repr] at h
  have hdigit := Nat.isDigit_of_mem_toDigits (by decide) (by decide) h
  exact absurd hdigit (by decide)

theorem toString_inj {m n : Nat} (h : toString m=toString n) : m=n := by
  have hdigits : Nat.toDigits 10 m=Nat.toDigits 10 n := by
    rw [← Nat.toList_repr,← Nat.toList_repr]
    exact congrArg String.toList h
  have hvalue := congrArg (fun ds => Nat.ofDigitChars 10 ds 0) hdigits
  simpa only [Nat.ofDigitChars_ten_toDigits] using hvalue

section
variable {crates : Crates}

theorem updateFields_suffix (crates : Crates) (u : Update) :
    (updateFields crates u).1.toList.head? = some '-' := by
  cases u with
  | bridgeEvent =>
    show "-bridge".toList.head? = some '-'
    decide
  | indexUpdate =>
    show "-index_update".toList.head? = some '-'
    decide
  | indexUpdateV2 =>
    show "-index_update_v2".toList.head? = some '-'
    decide
  | claim =>
    show "-claim".toList.head? = some '-'
    decide

/-- A row with a key of its table made for the signature, which it carries in its fields too. -/
structure KeyFor (crates : Crates) (signature : String) (row : TableChange) : Prop where
  signed : fieldValue row.fields "signature"=some signature
  pk : row.table="transactions" ∧ row.pk=signature ∨
    (∃ address,row.table="balance_updates" ∧
      row.pk="pubkey::"++crates.bs58Encode address++"-signature::"++signature) ∨
    ∃ (ixIdx : Nat) (suffix : String),row.table="events" ∧ suffix.toList.head? = some '-' ∧
      row.pk="instruction::"++toString ixIdx++"-signature::"++(signature++suffix)

/-- A key names its transaction. -/
theorem KeyFor.signature_inj (h58 : Base58 crates.bs58Encode) {s t : String} {a b : TableChange}
    (hs : '-'∉s.toList) (ht : '-'∉t.toList) (ha : KeyFor crates s a) (hb : KeyFor crates t b)
    (htable : a.table=b.table) (hpk : a.pk=b.pk) : s=t := by
  rcases ha.pk with ⟨hta,hka⟩|⟨x,hta,hka⟩|⟨i,x,hta,hx,hka⟩
  · rcases hb.pk with ⟨_,hkb⟩|⟨_,htb,_⟩|⟨_,_,htb,_⟩
    · rw [← hka,← hkb,hpk]
    · exact absurd (hta.symm.trans (htable.trans htb)) (by decide)
    · exact absurd (hta.symm.trans (htable.trans htb)) (by decide)
  · rcases hb.pk with ⟨htb,_⟩|⟨y,_,hkb⟩|⟨_,_,htb,_⟩
    · exact absurd (hta.symm.trans (htable.trans htb)) (by decide)
    · rw [hka,hkb] at hpk
      exact (key_inj (h58.dashless x) (h58.dashless y) hpk).2
    · exact absurd (hta.symm.trans (htable.trans htb)) (by decide)
  · rcases hb.pk with ⟨htb,_⟩|⟨_,htb,_⟩|⟨j,y,_,hy,hkb⟩
    · exact absurd (hta.symm.trans (htable.trans htb)) (by decide)
    · exact absurd (hta.symm.trans (htable.trans htb)) (by decide)
    · rw [hka,hkb] at hpk
      exact suffix_inj hs ht hx hy (key_inj (dashless_toString i) (dashless_toString j) hpk).2

variable {block : Block} {blockTime signature : String}

theorem eventRow_key {ixIdx : Nat} {ix : StructuredInstruction} {row : TableChange}
    (h : eventRow crates blockTime signature ixIdx ix=some row) :
    row.table="events" ∧ fieldValue row.fields "signature"=some signature ∧
      ∃ suffix,suffix.toList.head? = some '-' ∧
        row.pk="instruction::"++toString ixIdx++"-signature::"++(signature++suffix) := by
  simp only [eventRow] at h
  split at h
  · simp at h
  · split at h
    · simp at h
    · rename_i logEvent _
      rw [← Option.some_inj.mp h]
      refine ⟨rfl,by simp [fieldValue,newField],_,updateFields_suffix crates logEvent,?_⟩
      simp only [String.append_assoc]

/-- Every event row names an instruction of its own. -/
theorem eventRows_keys (crates : Crates) (blockTime signature : String)
    (ixs : List StructuredInstruction) (ixIdx : Nat) :
    (∀ row∈eventRows crates blockTime signature ixIdx ixs,KeyFor crates signature row ∧
      row.table="events" ∧ ∃ i suffix,ixIdx ≤ i ∧
        row.pk="instruction::"++toString i++"-signature::"++(signature++suffix)) ∧
      (eventRows crates blockTime signature ixIdx ixs).Pairwise fun a b => a.pk≠b.pk := by
  induction ixs generalizing ixIdx with
  | nil => simp [eventRows]
  | cons ix rest ih =>
    obtain ⟨hkeys,hpair⟩ := ih (ixIdx+1)
    rw [eventRows]
    cases hrow : eventRow crates blockTime signature ixIdx ix with
    | none =>
      refine ⟨?_,by simpa using hpair⟩
      intro row hmem
      obtain ⟨hkey,htable,i,suffix,hi,hpk⟩ := hkeys row (by simpa using hmem)
      exact ⟨hkey,htable,i,suffix,by omega,hpk⟩
    | some first =>
      obtain ⟨htable,hsigned,suffix,hsuffix,hpk⟩ := eventRow_key hrow
      have hfirst : KeyFor crates signature first :=
        ⟨hsigned,Or.inr (Or.inr ⟨ixIdx,suffix,htable,hsuffix,hpk⟩)⟩
      rw [Option.toList_some,List.singleton_append,List.pairwise_cons]
      refine ⟨?_,?_,hpair⟩
      · intro row hmem
        rcases List.mem_cons.mp hmem with rfl|hmem
        · exact ⟨hfirst,htable,ixIdx,suffix,le_rfl,hpk⟩
        · obtain ⟨hkey,htable,i,suffix,hi,hpk⟩ := hkeys row hmem
          exact ⟨hkey,htable,i,suffix,by omega,hpk⟩
      · intro row hmem hsame
        obtain ⟨_,_,i,suffix',hi,hpk'⟩ := hkeys row hmem
        rw [hpk,hpk'] at hsame
        have hidx := (key_inj (dashless_toString _) (dashless_toString _) hsame).1
        have := toString_inj hidx
        omega

/-- Every slot holds an account under its own address. -/
def Addressed (slots : TokenAccounts) : Prop :=
  (slots.map Prod.fst).Nodup ∧ ∀ slot∈slots,slot.2.address=slot.1

theorem Addressed.insert {slots : TokenAccounts} (h : Addressed slots) (a : TokenAccount) :
    Addressed (slots.insert a.address a) := by
  refine ⟨Slots.insert_keys_nodup _ _ h.1,?_⟩
  intro slot hslot
  rw [Slots.insert] at hslot
  split at hslot
  · obtain ⟨old,hold,rfl⟩ := List.mem_map.mp hslot
    by_cases hk : old.1=a.address
    · rw [if_pos hk]
    · rw [if_neg hk]
      exact h.2 old hold
  · rcases List.mem_append.mp hslot with hslot|hslot
    · exact h.2 slot hslot
    · rw [List.mem_singleton.mp hslot]

theorem Addressed.andModify {slots : TokenAccounts} (h : Addressed slots) (p : Bytes×Nat) :
    Addressed (slots.andModify p.1 (patchPre p.2)) := by
  refine ⟨by rw [Slots.andModify_keys]; exact h.1,?_⟩
  intro slot hslot
  obtain ⟨old,hold,rfl⟩ := List.mem_map.mp hslot
  by_cases hk : old.1=p.1
  · rw [if_pos hk,← hk]
    exact h.2 old hold
  · rw [if_neg hk]
    exact h.2 old hold

theorem tokenAccounts_nodup {t : ConfirmedTransaction} {held : List TokenAccount}
    (h : tokenAccounts crates t=some held) : (held.map TokenAccount.address).Nodup := by
  simp only [tokenAccounts,bind,Option.bind_eq_some_iff] at h
  obtain ⟨accounts,_,status,_,slots,hslots,patched,hpatched,h⟩ := h
  obtain ⟨opened,_,hopen⟩ := insertPostBalances_eq_some.mp hslots
  obtain ⟨patches,_,hpatch⟩ := patchPreBalances_eq_some.mp hpatched
  have hslots' : Addressed slots := by
    rw [← hopen]
    exact List.foldlRecOn (motive := Addressed) opened _ ⟨List.nodup_nil,by simp⟩
      (fun s hs a _ => hs.insert a)
  have hpatched' : Addressed patched := by
    rw [← hpatch]
    exact List.foldlRecOn (motive := Addressed) patches _ hslots' (fun s hs p _ => hs.andModify p)
  have hmap : (patched.map Prod.snd).map TokenAccount.address=patched.map Prod.fst := by
    rw [List.map_map]
    exact List.map_congr_left fun slot hslot => hpatched'.2 slot hslot
  have hheld : crates.values (patched.map Prod.snd)=held := Option.some_inj.mp h
  rw [← hheld,((crates.values_perm _).map TokenAccount.address).nodup_iff,hmap]
  exact hpatched'.1

theorem balanceRows_keys (h58 : Base58 crates.bs58Encode) (blockTime signature : String) (i : Nat)
    {held : List TokenAccount} (hn : (held.map TokenAccount.address).Nodup) :
    (∀ row∈balanceRows crates blockTime i signature held,
      KeyFor crates signature row ∧ row.table="balance_updates") ∧
      (balanceRows crates blockTime i signature held).Pairwise fun a b => a.pk≠b.pk := by
  constructor
  · intro row hrow
    obtain ⟨a,_,rfl⟩ := List.mem_map.mp hrow
    exact ⟨⟨by simp [balanceRow,fieldValue,newField],Or.inr (Or.inl ⟨a.address,rfl,rfl⟩)⟩,rfl⟩
  · rw [balanceRows,List.pairwise_map]
    have hpair : held.Pairwise fun a b => a.address≠b.address := List.pairwise_map.mp hn
    refine (hpair.filter _).imp ?_
    intro a b hne hsame
    exact hne (h58.injective (key_inj (h58.dashless _) (h58.dashless _) hsame).1)

end

end SolanaM.Substreams
