import SolanaM.Math.Double
import SolanaM.Math.Tables
import SolanaM.Sdk.Balance
import SolanaM.Substreams.Consistency
import SolanaM.Substreams.EventRows

namespace SolanaM.Substreams

open Tables

namespace Documents

/-- A number as the sink stores it: its schema makes doubles of them. -/
def double (fields : List Field) (name : String) : Option Nat :=
  ((fieldValue fields name).bind parseU64).map number

/-- block_height of the joined transaction; a document without one sorts behind all others. -/
def blockHeight (document : List Field × List Field) : Nat :=
  (double document.2 "block_height").getD 0

/-- block_time is a timestamp in the schema and keeps its seconds. -/
def blockTime (document : List Field × List Field) : Option Nat :=
  (fieldValue document.2 "block_time").bind parseU64

/-- What the index queries return of a document, and the height they sort it by. -/
def indexUpdate (document : List Field × List Field) : Option Sdk.IndexUpdate := do
  let index ← double document.1 "index"
  let ts ← blockTime document
  let height ← double document.2 "block_height"
  return ⟨index,ts,height⟩

/-- result[0] of the aggregation, as far as its document can be read. -/
def currentIndex (order : Sdk.DescendingSort blockHeight) (stored : List TableChange) :
    Option (Option Sdk.IndexUpdate) :=
  ((order.sort (joined stored)).take 1)[0]?.map indexUpdate

def indexUpdates (order : Sdk.DescendingSort blockHeight) (stored : List TableChange)
    (fromTime : Nat) (toTime : Option Nat) : List (Option Sdk.IndexUpdate) :=
  let result := order.sort ((joined stored).filter fun d => (blockTime d).any (fromTime≤·))
  let bounded := match toTime with
    | some (t+1) => result.filter fun d => (blockTime d).any (·<t+1)
    | _ => result
  bounded.map indexUpdate

def balancesOf (crates : Crates) (tokenAccount mint : Key) (balance : List Field) : Bool :=
  fieldValue balance "pubkey"=some (crates.bs58Encode tokenAccount.bytes) ∧
    fieldValue balance "mint"=some (crates.bs58Encode mint.bytes)

/-- The BN of the answer; none for a row without a balance. -/
def getBalanceAt (crates : Crates) (order : Sdk.DescendingSort blockHeight)
    (stored : List TableChange) (tokenAccount mint : Key) (ts : Nat) :
    Option (Except Sdk.ClaimError Nat) :=
  let rows := withTransactions
    ((documents "balance_updates" stored).filter (balancesOf crates tokenAccount mint))
    (documents "transactions" stored)
  match (order.sort (rows.filter fun d => (blockTime d).any (·<ts))).take 1 with
  | [] => some (.ok 0)
  | d::_ => (double d.1 "post_balance").map Sdk.safeInteger

end Documents

private theorem withTransactions_eq (events transactions : List (List Field)) :
    withTransactions events transactions=
      join (fieldValue · "signature") (fieldValue · "signature") events transactions := rfl

/-- A choice of documents that looks at each row alone. -/
structure Selection where
  select : List TableChange → List (List Field)
  within : ∀ changes,∀ fields∈select changes,∃ row∈changes,row.fields=fields
  flatten : ∀ parts,select (List.flatten parts)=parts.flatMap select
  perm : ∀ stored changes,stored.Perm changes → (select stored).Perm (select changes)

namespace Selection

def ofTable (table : String) : Selection where
  select := documents table
  within changes fields h := by
    obtain ⟨row,hrow,hfields⟩ := List.mem_map.mp h
    exact ⟨row,List.mem_of_mem_filter hrow,hfields⟩
  flatten parts := by
    induction parts with
    | nil => rfl
    | cons part parts ih => rw [List.flatten_cons,documents_append,ih,List.flatMap_cons]
  perm _ _ h := (h.filter _).map _

def filter (s : Selection) (p : List Field → Bool) : Selection where
  select changes := (s.select changes).filter p
  within changes fields h := s.within changes fields (List.mem_of_mem_filter h)
  flatten parts := by rw [s.flatten,List.filter_flatMap]
  perm stored changes h := (s.perm stored changes h).filter p

/-- $lookup and $unwind on the selected documents. -/
def linked (s : Selection) (changes : List TableChange) : List (List Field × List Field) :=
  withTransactions (s.select changes) (documents "transactions" changes)

theorem linked_perm (s : Selection) {stored changes : List TableChange}
    (h : stored.Perm changes) : (s.linked stored).Perm (s.linked changes) :=
  join_perm (s.perm stored changes h) ((ofTable "transactions").perm stored changes h)

theorem linked_filter (s : Selection) (p : List Field → Bool) (changes : List TableChange) :
    (s.filter p).linked changes=(s.linked changes).filter fun d => p d.1 :=
  join_filter p _ _

end Selection

def indexSelection : Selection :=
  (Selection.ofTable "events").filter fun event =>
    fieldValue event "event"=some "index_update_v2"

theorem joined_eq (changes : List TableChange) : joined changes=indexSelection.linked changes := rfl

section
variable {crates : Crates}

def SignedBy (crates : Crates) (ts : List ConfirmedTransaction) (changes : List TableChange) :
    Prop :=
  ∀ row∈changes,∃ t∈ts,∃ first,firstSignature t=some first ∧
    fieldValue row.fields "signature"=some (crates.bs58Encode first)

theorem SignedBy.flatten {tss : List (List ConfirmedTransaction)}
    {parts : List (List TableChange)} (h : List.Forall₂ (SignedBy crates) tss parts) :
    SignedBy crates tss.flatten parts.flatten := by
  induction h with
  | nil => simp [SignedBy]
  | cons hts _ ih =>
    intro row hrow
    rw [List.flatten_cons] at hrow ⊢
    rcases List.mem_append.mp hrow with hrow|hrow
    · obtain ⟨t,ht,h⟩ := hts row hrow
      exact ⟨t,List.mem_append_left _ ht,h⟩
    · obtain ⟨t,ht,h⟩ := ih row hrow
      exact ⟨t,List.mem_append_right _ ht,h⟩

private theorem signed_part (h58 : Base58 crates.bs58Encode) {block : Block} {blockTime : String}
    {i : Nat} {t : ConfirmedTransaction} {changes : List TableChange}
    (h : transactionChanges crates block blockTime i t=some changes) :
    SignedBy crates [t] changes := by
  rcases transactionChanges_keyed h58 h with hnil|⟨_,first,hfirst,hkeyed⟩
  · simp [SignedBy,hnil]
  · intro row hrow
    exact ⟨t,List.mem_singleton_self t,first,hfirst,(hkeyed.keys row hrow).signed⟩

theorem signed_parts (h58 : Base58 crates.bs58Encode) {block : Block} {blockTime : String}
    {i : Nat} {ts : List ConfirmedTransaction} {parts : List (List TableChange)}
    (h : List.Forall₂
      (fun p changes => transactionChanges crates block blockTime p.2 p.1=some changes)
      (ts.zipIdx i) parts) :
    List.Forall₂ (SignedBy crates) (ts.map fun t => [t]) parts := by
  induction ts generalizing i parts with
  | nil =>
    rw [List.zipIdx_nil,List.forall₂_nil_left_iff] at h
    rw [h]
    exact .nil
  | cons t rest ih =>
    rw [List.zipIdx_cons,List.forall₂_cons_left_iff] at h
    obtain ⟨changes,parts',hc,hrest,rfl⟩ := h
    exact .cons (signed_part h58 hc) (ih hrest)

/-- The transactions of a block, each as a block part of its own. -/
theorem flatten_alone (ts : List ConfirmedTransaction) : (ts.map fun t => [t]).flatten=ts := by
  rw [← List.flatMap_def,List.flatMap_singleton']

theorem signed_block (h58 : Base58 crates.bs58Encode) {block : Block} {out : List TableChange}
    (h : mapTransferEventsToDb crates block=some out) :
    SignedBy crates block.transactions out := by
  obtain ⟨parts,hparts,hout⟩ := transactionsLoop_eq_some.mp h
  have hsigned := SignedBy.flatten (signed_parts h58 hparts)
  rw [flatten_alone] at hsigned
  rwa [hout,List.nil_append]

theorem signatures_apart (h58 : Base58 crates.bs58Encode) {ts us : List ConfirmedTransaction}
    {a b : List TableChange} (ha : SignedBy crates ts a) (hb : SignedBy crates us b)
    (hsigs : ((ts++us).filterMap firstSignature).Nodup) {x y : TableChange} (hx : x∈a)
    (hy : y∈b) : fieldValue x.fields "signature"≠fieldValue y.fields "signature" := by
  obtain ⟨t,ht,first,hfirst,hxs⟩ := ha x hx
  obtain ⟨u,hu,second,hsecond,hys⟩ := hb y hy
  rw [List.filterMap_append,List.nodup_append] at hsigs
  rw [hxs,hys]
  intro hsame
  have hkey : first=second := h58.injective (Option.some_inj.mp hsame)
  exact hsigs.2.2 first (List.mem_filterMap.mpr ⟨t,ht,hfirst⟩) second
    (List.mem_filterMap.mpr ⟨u,hu,hsecond⟩) hkey

private theorem Selection.apart (h58 : Base58 crates.bs58Encode) (s : Selection)
    {ts us : List ConfirmedTransaction} {a b : List TableChange} (ha : SignedBy crates ts a)
    (hb : SignedBy crates us b) (hsigs : ((ts++us).filterMap firstSignature).Nodup) :
    Apart (fieldValue · "signature") (fieldValue · "signature") (s.select a) (s.select b)
      (documents "transactions" a) (documents "transactions" b) := by
  constructor
  · intro x hx y hy hsame
    obtain ⟨row,hrow,rfl⟩ := s.within a x hx
    obtain ⟨row',hrow',rfl⟩ := (Selection.ofTable "transactions").within b y hy
    exact signatures_apart h58 ha hb hsigs hrow hrow' hsame.symm
  · intro x hx y hy hsame
    obtain ⟨row,hrow,rfl⟩ := s.within b x hx
    obtain ⟨row',hrow',rfl⟩ := (Selection.ofTable "transactions").within a y hy
    exact signatures_apart h58 ha hb hsigs hrow' hrow hsame

/-- A lookup over everything stored answers part by part. -/
theorem Selection.linked_flatten (h58 : Base58 crates.bs58Encode) (s : Selection)
    {tss : List (List ConfirmedTransaction)} {parts : List (List TableChange)}
    (h : List.Forall₂ (SignedBy crates) tss parts)
    (hsigs : (tss.flatten.filterMap firstSignature).Nodup) :
    s.linked parts.flatten=parts.flatMap s.linked := by
  have happart : parts.Pairwise fun a b =>
      Apart (fieldValue · "signature") (fieldValue · "signature") (s.select a) (s.select b)
        (documents "transactions" a) (documents "transactions" b) := by
    induction h with
    | nil => exact .nil
    | @cons ts part tss parts hts hrest ih =>
      rw [List.flatten_cons] at hsigs
      have hlater : (tss.flatten.filterMap firstSignature).Nodup := by
        rw [List.filterMap_append,List.nodup_append] at hsigs
        exact hsigs.2.1
      refine .cons ?_ (ih hlater)
      intro part' hpart'
      obtain ⟨us,hus,hsigned⟩ := exists_of_mem_forall₂ hrest.flip hpart'
      have hboth : List.Sublist (ts++us) (ts++tss.flatten) :=
        (List.Sublist.refl ts).append (List.sublist_flatten_of_mem hus)
      exact s.apart h58 hts hsigned (hsigs.sublist (hboth.filterMap firstSignature))
  rw [Selection.linked,s.flatten,withTransactions_eq,
    show documents "transactions" parts.flatten=parts.flatMap (documents "transactions") from
      (Selection.ofTable "transactions").flatten parts]
  exact join_parts happart

theorem Selection.shows_flatten (h58 : Base58 crates.bs58Encode) (s : Selection) {C : Type}
    {R : List Field × List Field → C → Prop} {tss : List (List ConfirmedTransaction)}
    {parts : List (List TableChange)} {rows : List (List C)}
    (h : List.Forall₂ (SignedBy crates) tss parts)
    (hsigs : (tss.flatten.filterMap firstSignature).Nodup)
    (hrows : List.Forall₂ (fun part rows => Shows R (s.linked part) rows) parts rows) :
    Shows R (s.linked parts.flatten) rows.flatten := by
  rw [s.linked_flatten h58 h hsigs,← List.flatMap_id (L := rows)]
  exact Shows.flatMap hrows

end

end SolanaM.Substreams
