import SolanaM.Substreams.Queries
import SolanaM.Substreams.Balances

namespace SolanaM.Substreams

open Tables

section
variable {C : Type} {R : List Field × List Field → C → Prop} {key : C → Nat}

private theorem map_heights (hkey : ∀ d c,R d c → Documents.blockHeight d=key c)
    {documents : List (List Field × List Field)} {rows : List C}
    (h : List.Forall₂ R documents rows) :
    documents.map Documents.blockHeight=rows.map key := by
  induction h with
  | nil => rfl
  | cons hd _ ih => rw [List.map_cons,List.map_cons,hkey _ _ hd,ih]

/-- Sorting documents by height is one way to sort the rows they show. -/
theorem sort_refines (hkey : ∀ d c,R d c → Documents.blockHeight d=key c)
    {documents : List (List Field × List Field)} {rows : List C} (h : Shows R documents rows)
    (order : Sdk.DescendingSort Documents.blockHeight) :
    ∃ order' : Sdk.DescendingSort key,
      List.Forall₂ R (order.sort documents) (order'.sort rows) := by
  obtain ⟨arranged,hperm,hshown⟩ := (h.perm (order.perm documents)).listed
  have hsorted : arranged.Pairwise fun a b => key b≤key a := by
    have hdocuments : ((order.sort documents).map Documents.blockHeight).Pairwise
        (fun m n => n ≤ m) := List.pairwise_map.mpr (order.sorted documents)
    rw [map_heights hkey hshown] at hdocuments
    exact List.pairwise_map.mp hdocuments
  obtain ⟨order',horder⟩ := Sdk.DescendingSort.exists_sort hperm hsorted
  exact ⟨order',horder ▸ hshown⟩

end

theorem withTransactions_one {events : List (List Field)} {parent : List Field}
    (h : ∀ event∈events,fieldValue parent "signature"=fieldValue event "signature") :
    withTransactions events [parent]=events.map fun event => (event,parent) := join_one h

/-- What an index query reads of a document is the update. -/
def ShowsIndex (document : List Field × List Field) (update : Sdk.IndexUpdate) : Prop :=
  Documents.indexUpdate document=some update

theorem ShowsIndex.block {d : List Field × List Field} {u : Sdk.IndexUpdate}
    (h : ShowsIndex d u) :
    Documents.blockTime d=some u.ts ∧ Documents.blockHeight d=u.blockHeight := by
  simp only [ShowsIndex,Documents.indexUpdate,bind,Option.bind_eq_some_iff] at h
  obtain ⟨_,_,ts,hts,height,hheight,hu⟩ := h
  rw [← Option.some_inj.mp hu]
  exact ⟨hts,by rw [Documents.blockHeight,hheight,Option.getD_some]⟩

theorem reads_of_shows {documents : List (List Field × List Field)}
    {rows : List Sdk.IndexUpdate} (h : List.Forall₂ ShowsIndex documents rows) :
    documents.map Documents.indexUpdate=rows.map some := by
  induction h with
  | nil => rfl
  | cons hd _ ih => rw [List.map_cons,List.map_cons,hd,ih]

theorem currentIndex_refines {stored : List TableChange} {updates : List Sdk.IndexUpdate}
    (h : Shows ShowsIndex (joined stored) updates)
    (order : Sdk.DescendingSort Documents.blockHeight) :
    ∃ order',Documents.currentIndex order stored=
      (Sdk.currentIndex order' updates).map some := by
  obtain ⟨order',hsort⟩ := sort_refines (fun _ _ hd => hd.block.2) h order
  refine ⟨order',?_⟩
  rw [Documents.currentIndex,Sdk.currentIndex,← List.getElem?_map,List.map_take,
    reads_of_shows hsort,← List.map_take,List.getElem?_map]

theorem indexUpdates_refines {stored : List TableChange} {updates : List Sdk.IndexUpdate}
    (h : Shows ShowsIndex (joined stored) updates)
    (order : Sdk.DescendingSort Documents.blockHeight) (fromTime : Nat) (toTime : Option Nat) :
    ∃ order',Documents.indexUpdates order stored fromTime toTime=
      (Sdk.indexUpdates order' updates fromTime toTime).map some := by
  have htime {p : Nat → Bool} {d : List Field × List Field} {u : Sdk.IndexUpdate}
      (hd : ShowsIndex d u) : (Documents.blockTime d).any p=p u.ts := by
    rw [hd.block.1,Option.any_some]
  have hrecent := h.filter (p:=fun d => (Documents.blockTime d).any (fromTime≤·))
    (q:=fun u => fromTime≤u.ts) fun _ _ hd => htime hd
  obtain ⟨order',hsort⟩ := sort_refines (fun _ _ hd => hd.block.2) hrecent order
  refine ⟨order',?_⟩
  match toTime with
  | none => exact reads_of_shows hsort
  | some 0 => exact reads_of_shows hsort
  | some (t+1) =>
    have hbounded : List.Forall₂ ShowsIndex
        ((order.sort ((joined stored).filter fun d =>
          (Documents.blockTime d).any (fromTime≤·))).filter fun d =>
            (Documents.blockTime d).any (·<t+1))
        ((order'.sort (updates.filter fun u => fromTime≤u.ts)).filter fun u => u.ts<t+1) := by
      apply List.rel_filter _ hsort
      intro d u hd
      show (Documents.blockTime d).any (·<t+1)=true ↔ decide (u.ts<t+1)=true
      rw [htime hd]
    exact reads_of_shows hbounded

theorem parseU64_toString {n : Nat} (h : n<2^64) : parseU64 (toString n)=some n := by
  have hdigits : (toString n).toList=Nat.toDigits 10 n := by
    rw [Nat.toString_eq_repr,Nat.toList_repr]
  have hall : (Nat.toDigits 10 n).all Char.isDigit=true := by
    rw [List.all_eq_true]
    intro c hc
    exact Nat.isDigit_of_mem_toDigits (by decide) (by decide) hc
  have hvalue : (Nat.toDigits 10 n).foldl (fun n c => 10*n+(c.toNat-48)) 0=n := by
    have h10 := Nat.ofDigitChars_ten_toDigits (n := n)
    rwa [Nat.ofDigitChars_eq_foldl] at h10
  have hsign : ∀ rest,Nat.toDigits 10 n≠ '+'::rest := by
    intro rest hsign
    rw [hsign] at hall
    exact absurd hall (by simp [Char.isDigit])
  obtain ⟨c,rest,hcons⟩ := List.exists_cons_of_ne_nil (Nat.toDigits_ne_nil (n:=n) (b:=10))
  have hc : c≠ '+' := by
    intro hc
    exact hsign rest (hc ▸ hcons)
  rw [hcons] at hdigits hall hvalue
  simp only [parseU64,hdigits]
  rw [if_pos]
  · simpa [hc] using hvalue
  · refine ⟨by simp [hc],by simpa [hc] using hall,?_⟩
    simpa [hc,hvalue] using h

section
variable {crates : Crates}

private theorem fromLeBytes_lt (bytes : Bytes) : fromLeBytes bytes<256^bytes.length := by
  induction bytes with
  | nil => exact Nat.one_pos
  | cons b bs ih =>
    have hb := b.isLt
    rw [fromLeBytes,List.length_cons,Nat.pow_succ]
    omega

private theorem parseIndexUpdateV2_index {buffer : Bytes} {index ts supply current new : Nat}
    (h : parseIndexUpdateV2 buffer=some (.indexUpdateV2 index ts supply current new)) :
    index<2^64 := by
  rw [parseIndexUpdateV2] at h
  split at h
  · rename_i first _ _ _ _ hfields
    have hfirst : first=buffer.take 8 := by
      rw [tryFromSlice] at hfields
      split at hfields
      · cases hfields
      · obtain ⟨rest,_,hcons⟩ := Option.map_eq_some_iff.mp hfields
        exact (List.head_eq_of_cons_eq hcons).symm
    split at h
    · cases h
    · rw [Option.some_inj,Update.indexUpdateV2.injEq] at h
      have hlen : (buffer.take 8).length ≤ 8 := List.length_take_le 8 buffer
      rw [← h.1,hfirst]
      calc fromLeBytes (buffer.take 8)<256^(buffer.take 8).length := fromLeBytes_lt _
        _≤256^8 := Nat.pow_le_pow_right (by decide) hlen
        _=2^64 := by norm_num
  · cases h

/-- The index of an event is a number that the u64 of the query can hold. -/
theorem decodedLines_index {logs : Option (List Log)} {index ts supply current new : Nat}
    (h : .indexUpdateV2 index ts supply current new∈decodedLines crates logs) : index<2^64 := by
  obtain ⟨line,_,hline⟩ := List.mem_filterMap.mp h
  split at hline
  · rename_i log _
    rw [parseLogForEvents] at hline
    cases hdata : dataLogData crates log with
    | none => simp [hdata] at hline
    | some data =>
      simp only [hdata] at hline
      split_ifs at hline
      · unfold parseIndexUpdate at hline
        split at hline <;> simp at hline
      · exact parseIndexUpdateV2_index hline
      · unfold parseBridgeEvent at hline
        split at hline <;> simp at hline
  · cases hline

/-- The document of an event, as far as the queries read it. -/
structure EventDocument (crates : Crates) (signature : String) (fields : List Field)
    (e : Emitted) : Prop where
  signature : fieldValue fields "signature"=some signature
  event : fieldValue fields "event"=fieldValue (updateFields crates e.update).2 "event"
  index : fieldValue fields "index"=fieldValue (updateFields crates e.update).2 "index"
  bound : ∀ index ts supply current new,
    e.update=.indexUpdateV2 index ts supply current new → index<2^64

private theorem eventFields_documents (signature blockTime : String) (ixIdx : Nat)
    (p : Bytes × Option (List Log)) :
    List.Forall₂ (EventDocument crates signature)
      (eventFields crates blockTime signature p).toList
      ((emittedBy crates signature ixIdx p).take 1) := by
  rw [eventFields,emittedBy,parseLogsForEvents_eq]
  by_cases hs : (Pubkey.ofBytes p.1).getD Pubkey.zero∈systemPrograms
  · simp only [if_pos hs]
    exact .nil
  · simp only [if_neg hs]
    cases hd : decodedLines crates p.2 with
    | nil => exact .nil
    | cons update rest =>
      refine .cons ⟨?_,?_,?_,?_⟩ .nil
      · simp [fieldValue,newField]
      · simp [fieldValue,newField]
      · simp [fieldValue,newField]
      · intro index ts supply current new hupdate
        have hsame : update=.indexUpdateV2 index ts supply current new := hupdate
        have hmem : .indexUpdateV2 index ts supply current new∈decodedLines crates p.2 := by
          rw [hd,← hsame]
          exact List.mem_cons_self
        exact decodedLines_index hmem

private theorem emissions_documents (signature blockTime : String)
    (ps : List (Bytes × Option (List Log))) (ixIdx : Nat) :
    List.Forall₂ (EventDocument crates signature)
      (ps.filterMap (eventFields crates blockTime signature))
      ((emissions crates signature ixIdx ps).flatMap (·.take 1)) := by
  induction ps generalizing ixIdx with
  | nil => exact .nil
  | cons p rest ih =>
    have hhead : List.Forall₂ (EventDocument crates signature) _ _ :=
      eventFields_documents signature blockTime ixIdx p
    rw [emissions,List.flatMap_cons]
    have hsplit : (p::rest).filterMap (eventFields crates blockTime signature)=
        (eventFields crates blockTime signature p).toList++
          rest.filterMap (eventFields crates blockTime signature) := by
      cases hp : eventFields crates blockTime signature p <;> simp [hp]
    rw [hsplit]
    exact List.rel_append hhead (ih (ixIdx+1))

/-- The update that the SDK should see of an event in a block, with the double of its index. -/
def indexUpdateOf (time height : Nat) (e : Emitted) : Option Sdk.IndexUpdate :=
  match e.update with
  | .indexUpdateV2 index _ _ _ _ => some ⟨number index,time,height⟩
  | _ => none

/-- The document of the transaction, as far as the queries read it. -/
structure TransactionDocument (signature : String) (time height : Nat) (fields : List Field) :
    Prop where
  signature : fieldValue fields "signature"=some signature
  time : (fieldValue fields "block_time").bind parseU64=some time
  height : Documents.double fields "block_height"=some height

theorem transactionRow_document {block : Block} {time height : Nat}
    (hdated : block.blockTime=some (time : Int)) (hnumbered : block.blockHeight=some height)
    (htime : time<2^64) (hheight : height<2^53) (i : Nat) (signature : String) :
    TransactionDocument signature time height
      (transactionRow block (toString (block.blockTime.getD 0)) i signature).fields where
  signature := by simp [transactionRow,fieldValue,newField]
  time := by
    have htext : toString (block.blockTime.getD 0)=toString time := by
      rw [hdated]
      rfl
    rw [htext]
    have hfield : fieldValue (transactionRow block (toString time) i signature).fields
        "block_time"=some (toString time) := by simp [transactionRow,fieldValue,newField]
    rw [hfield]
    exact parseU64_toString htime
  height := by
    have hfield : fieldValue
        (transactionRow block (toString (block.blockTime.getD 0)) i signature).fields
        "block_height"=some (toString height) := by
      simp [transactionRow,fieldValue,newField,hnumbered]
    rw [Documents.double,hfield,Option.bind_some,parseU64_toString (by omega),Option.map_some,
      number_eq hheight]

private theorem EventDocument.shows {signature : String} {time height : Nat}
    {parent fields : List Field}
    {e : Emitted} (hparent : TransactionDocument signature time height parent)
    (h : EventDocument crates signature fields e) :
    if fieldValue fields "event"=some "index_update_v2" then
      ∃ u,indexUpdateOf time height e=some u ∧ ShowsIndex (fields,parent) u
    else indexUpdateOf time height e=none := by
  have hevent := h.event
  have hindex := h.index
  cases hu : e.update with
  | indexUpdateV2 index ts supply current new =>
    simp only [hu,updateFields,fieldValue,newField] at hevent hindex
    rw [if_pos (by simpa [fieldValue] using hevent)]
    refine ⟨⟨number index,time,height⟩,by simp [indexUpdateOf,hu],?_⟩
    have htext : fieldValue fields "index"=some (toString index) := by
      simpa [fieldValue] using hindex
    have hread : Documents.double fields "index"=some (number index) := by
      rw [Documents.double,htext,Option.bind_some,
        parseU64_toString (h.bound index ts supply current new hu),Option.map_some]
    have htime : Documents.blockTime (fields,parent)=some time := hparent.time
    simp [ShowsIndex,Documents.indexUpdate,hread,htime,hparent.height]
  | indexUpdate _ _ _ _ =>
    simp only [hu,updateFields] at hevent
    rw [if_neg (by rw [hevent]; simp [fieldValue,newField])]
    simp [indexUpdateOf,hu]
  | claim _ _ _ _ _ =>
    simp only [hu,updateFields] at hevent
    rw [if_neg (by rw [hevent]; simp [fieldValue,newField])]
    simp [indexUpdateOf,hu]
  | bridgeEvent _ _ _ _ _ =>
    simp only [hu,updateFields] at hevent
    rw [if_neg (by rw [hevent]; simp [fieldValue,newField])]
    simp [indexUpdateOf,hu]

/-- The index queries take from the documents of the events what they should see of them. -/
theorem indexDocuments_shown {signature : String} {time height : Nat} {parent : List Field}
    (hparent : TransactionDocument signature time height parent) {events : List (List Field)}
    {es : List Emitted} (h : List.Forall₂ (EventDocument crates signature) events es) :
    List.Forall₂ ShowsIndex
      (withTransactions
        (events.filter fun event => fieldValue event "event"=some "index_update_v2") [parent])
      (es.filterMap (indexUpdateOf time height)) := by
  have hone : ∀ event∈events.filter (fun event => fieldValue event "event"=some "index_update_v2"),
      fieldValue parent "signature"=fieldValue event "signature" := by
    intro event hevent
    obtain ⟨e,_,hdocument⟩ := exists_of_mem_forall₂ h (List.mem_of_mem_filter hevent)
    rw [hparent.signature,hdocument.signature]
  rw [withTransactions_one hone]
  clear hone
  induction h with
  | nil => exact .nil
  | @cons event e events es hdocument _ ih =>
    have hshows := hdocument.shows hparent
    by_cases hindex : fieldValue event "event"=some "index_update_v2"
    · rw [if_pos hindex] at hshows
      obtain ⟨u,hu,hshown⟩ := hshows
      rw [List.filter_cons_of_pos (by simpa using hindex),List.map_cons,
        List.filterMap_cons_some hu]
      exact .cons hshown ih
    · rw [if_neg hindex] at hshows
      rw [List.filter_cons_of_neg (by simpa using hindex),List.filterMap_cons_none hshows]
      exact ih

end

/-- A block of the chain, dated and numbered; a double can hold its height. -/
structure Dated where
  block : Block
  time : Nat
  height : Nat
  dated : block.blockTime=some (time : Int)
  numbered : block.blockHeight=some height
  timeBound : time<2^64
  heightBound : height<2^53

namespace Dated

def blockTime (b : Dated) : String := toString (b.block.blockTime.getD 0)

variable {crates : Crates} (b : Dated) {i : Nat} {t : ConfirmedTransaction}
  {changes : List TableChange}

/-- What the index queries should see of instructions that emit: their first events. -/
def updatesOf (s : Emission) : List Sdk.IndexUpdate :=
  (s.events.flatMap (·.take 1)).filterMap (indexUpdateOf b.time b.height)

/-- The step lemma: the documents of a transaction show the updates of its instructions. -/
theorem shows_updates {s : Emission} (he : Emits crates t s)
    (h : transactionChanges crates b.block b.blockTime i t=some changes) :
    Shows ShowsIndex (indexSelection.linked changes) (b.updatesOf s) := by
  rcases he with ⟨hf,rfl⟩|⟨x,hx,rfl⟩
  · rw [hf.adds_nothing h]
    exact shows_of_forall₂ .nil
  · obtain ⟨y,rfl,hsignature,hlines⟩ := x.indexed hx h
    have hparent := transactionRow_document b.dated b.numbered b.timeBound b.heightBound i
      y.context.signature
    have hevents : List.Forall₂ (EventDocument crates y.context.signature)
        (documents "events" (y.changes b.block b.blockTime i))
        ((emissions crates y.context.signature 0
          (y.instructions.flattened.map fun ix => (ix.programId,ix.logs))).flatMap
            (·.take 1)) := by
      rw [y.events]
      exact emissions_documents _ _ _ 0
    have hshown := indexDocuments_shown hparent hevents
    rw [hlines,hsignature] at hshown
    apply shows_of_forall₂
    rw [← joined_eq,joined,y.transactions,hsignature]
    exact hshown

end Dated

section
variable {crates : Crates} {C T : Type} {R : List Field × List Field → C → Prop}
  {truth : ConfirmedTransaction → T → Prop} {rowsOf : Dated → T → List C} {s : Selection}

/-- The documents of each transaction show what is true of it. -/
def ShowsTruth (crates : Crates) (s : Selection) (R : List Field × List Field → C → Prop)
    (truth : ConfirmedTransaction → T → Prop) (rowsOf : Dated → T → List C) : Prop :=
  ∀ (b : Dated) (t : ConfirmedTransaction) (x : T) (i : Nat) (changes : List TableChange),
    truth t x → transactionChanges crates b.block b.blockTime i t=some changes →
    Shows R (s.linked changes) (rowsOf b x)

/-- Blocks with what is true of their transactions. -/
def TrueOf (truth : ConfirmedTransaction → T → Prop) (chain : List (Dated × List T)) : Prop :=
  ∀ p∈chain,List.Forall₂ truth p.1.block.transactions p.2

def transactionsOf (chain : List (Dated × List T)) : List ConfirmedTransaction :=
  chain.flatMap fun p => p.1.block.transactions

def rowsOfChain (rowsOf : Dated → T → List C) (chain : List (Dated × List T)) : List C :=
  chain.flatMap fun p => p.2.flatMap (rowsOf p.1)

private theorem shows_parts (hshows : ShowsTruth crates s R truth rowsOf) (b : Dated)
    {ts : List ConfirmedTransaction} {xs : List T} (htrue : List.Forall₂ truth ts xs) {i : Nat}
    {parts : List (List TableChange)}
    (h : List.Forall₂
      (fun p changes => transactionChanges crates b.block b.blockTime p.2 p.1=some changes)
      (ts.zipIdx i) parts) :
    List.Forall₂ (fun part rows => Shows R (s.linked part) rows) parts (xs.map (rowsOf b)) := by
  induction htrue generalizing i parts with
  | nil =>
    rw [List.zipIdx_nil,List.forall₂_nil_left_iff] at h
    rw [h]
    exact .nil
  | cons ht _ ih =>
    rw [List.zipIdx_cons,List.forall₂_cons_left_iff] at h
    obtain ⟨changes,rest,hc,hrest,rfl⟩ := h
    exact .cons (hshows b _ _ i changes ht hc) (ih hrest)

private theorem shows_block (h58 : Base58 crates.bs58Encode)
    (hshows : ShowsTruth crates s R truth rowsOf) (b : Dated) {xs : List T}
    (htrue : List.Forall₂ truth b.block.transactions xs) {out : List TableChange}
    (h : mapTransferEventsToDb crates b.block=some out)
    (hsigs : (b.block.transactions.filterMap firstSignature).Nodup) :
    Shows R (s.linked out) (xs.flatMap (rowsOf b)) := by
  obtain ⟨parts,hparts,hout⟩ := transactionsLoop_eq_some.mp h
  rw [hout,List.nil_append,List.flatMap_def]
  apply s.shows_flatten h58 (signed_parts h58 hparts)
  · rwa [flatten_alone]
  · exact shows_parts hshows b htrue hparts

/-- The run lemma: over a chain no row is lost, added or taken for another. -/
theorem shows_chain (h58 : Base58 crates.bs58Encode)
    (hshows : ShowsTruth crates s R truth rowsOf) {chain : List (Dated × List T)}
    (htrue : TrueOf truth chain) {outs : List (List TableChange)}
    (h : List.Forall₂ (fun p out => mapTransferEventsToDb crates p.1.block=some out) chain outs)
    (hsigs : ((transactionsOf chain).filterMap firstSignature).Nodup) :
    Shows R (s.linked outs.flatten) (rowsOfChain rowsOf chain) := by
  have hsigned : List.Forall₂ (SignedBy crates) (chain.map fun p => p.1.block.transactions)
      outs := by
    apply List.forall₂_map_left_iff.mpr
    exact h.imp fun _ _ hout => signed_block h58 hout
  rw [rowsOfChain,List.flatMap_def]
  apply s.shows_flatten h58 hsigned
  · exact hsigs
  · clear hsigned
    induction h with
    | nil => exact .nil
    | @cons p out chain outs hout _ ih =>
      rw [transactionsOf,List.flatMap_cons,List.filterMap_append,List.nodup_append] at hsigs
      refine .cons ?_ (ih (fun q hq => htrue q (List.mem_cons_of_mem p hq)) hsigs.2.1)
      exact shows_block h58 hshows p.1 (htrue p List.mem_cons_self) hout hsigs.1

/-- The map takes every block of the chain, and all that is stored afterwards, in any order,
shows the rows. -/
theorem stored_shows (h58 : Base58 crates.bs58Encode)
    (hshows : ShowsTruth crates s R truth rowsOf)
    {chain : List (Dated × List T)} (htrue : TrueOf truth chain)
    (hmap : ∀ p∈chain,∃ out,mapTransferEventsToDb crates p.1.block=some out)
    (hsigs : ((transactionsOf chain).filterMap firstSignature).Nodup) :
    ∃ outs,List.Forall₂ (fun p out => mapTransferEventsToDb crates p.1.block=some out) chain outs ∧
      ∀ stored,stored.Perm outs.flatten → Shows R (s.linked stored) (rowsOfChain rowsOf chain) := by
  obtain ⟨outs,houts⟩ : ∃ outs,
      List.Forall₂ (fun (p : Dated × List T) out =>
        mapTransferEventsToDb crates p.1.block=some out) chain outs := exists_forall₂ hmap
  refine ⟨outs,houts,?_⟩
  intro stored hstored
  exact (shows_chain h58 hshows htrue houts hsigs).perm (s.linked_perm hstored)

/-- Blocks in order, with no more than one row each, leave the server no choice. -/
theorem heights_increase {key : C → Nat} (hkey : ∀ b x,∀ c∈rowsOf b x,key c=b.height)
    {chain : List (Dated × List T)}
    (hordered : chain.Pairwise fun p q => p.1.height<q.1.height)
    (hone : ∀ p∈chain,(p.2.flatMap (rowsOf p.1)).length≤1) :
    (rowsOfChain rowsOf chain).Pairwise fun c d => key c<key d := by
  have hheight {p : Dated × List T} {c : C} (hc : c∈p.2.flatMap (rowsOf p.1)) :
      key c=p.1.height := by
    obtain ⟨x,_,hc⟩ := List.mem_flatMap.mp hc
    exact hkey p.1 x c hc
  induction hordered with
  | nil => exact .nil
  | @cons p chain hp _ ih =>
    rw [rowsOfChain,List.flatMap_cons,List.pairwise_append]
    refine ⟨?_,ih fun q hq => hone q (List.mem_cons_of_mem p hq),?_⟩
    · have hlen := hone p List.mem_cons_self
      match hrows : p.2.flatMap (rowsOf p.1) with
      | [] => exact .nil
      | [c] => exact List.pairwise_singleton _ c
      | _::_::_ =>
        rw [hrows] at hlen
        simp at hlen
    · intro c hc d hd
      obtain ⟨q,hq,hd⟩ := List.mem_flatMap.mp hd
      rw [hheight hc,hheight hd]
      exact hp q hq

end

section
variable {crates : Crates}

private theorem updatesOf_height (b : Dated) (s : Emission) :
    ∀ u∈b.updatesOf s,u.blockHeight=b.height := by
  intro u hu
  obtain ⟨e,_,he⟩ := List.mem_filterMap.mp hu
  unfold indexUpdateOf at he
  split at he
  · rw [← Option.some_inj.mp he]
  · cases he

/-- The index updates of a chain, oldest first: of each instruction that emits, its first. -/
def chainUpdates (chain : List (Dated × List Emission)) : List Sdk.IndexUpdate :=
  rowsOfChain Dated.updatesOf chain

/-- Where the logs of a chain lack the lines of no program but those known for it, its blocks are
indexed; once their rows are stored, in whatever order, the queries of the SDK answer as over the
list of all index updates that the chain's instructions emitted. Where no two updates share a
block, the current index is the newest of them, and a window lists its updates newest first. -/
theorem index_queries_answered (h58 : Base58 crates.bs58Encode)
    {chain : List (Dated × List Emission)} (htrue : TrueOf (Emits crates) chain)
    (hknown : ∀ p∈chain,∀ s∈p.2,s.Known)
    (hsigs : ((transactionsOf chain).filterMap firstSignature).Nodup) :
    ∃ outs,List.Forall₂ (fun p out => mapTransferEventsToDb crates p.1.block=some out) chain outs ∧
      ∀ stored,stored.Perm outs.flatten → ∀ order,
        (∃ order',Documents.currentIndex order stored=
          (Sdk.currentIndex order' (chainUpdates chain)).map some) ∧
        (∀ fromTime toTime,∃ order',Documents.indexUpdates order stored fromTime toTime=
          (Sdk.indexUpdates order' (chainUpdates chain) fromTime toTime).map some) ∧
        ((chain.Pairwise fun p q => p.1.height<q.1.height) →
          (∀ p∈chain,(p.2.flatMap p.1.updatesOf).length≤1) →
          Documents.currentIndex order stored=(chainUpdates chain).getLast?.map some ∧
          ∀ fromTime t,Documents.indexUpdates order stored fromTime (some (t+1))=
            ((chainUpdates chain).filter fun u =>
              fromTime≤u.ts ∧ u.ts<t+1).reverse.map some) := by
  have hstep : ShowsTruth crates indexSelection ShowsIndex (Emits crates) Dated.updatesOf :=
    fun b _ _ _ _ he h => b.shows_updates he h
  obtain ⟨outs,houts,hstored⟩ :=
    stored_shows h58 hstep htrue
      (fun p hp => (map_isSome_iff_known (htrue p hp)).mpr (hknown p hp)) hsigs
  refine ⟨outs,houts,?_⟩
  intro stored hperm order
  have hshows : Shows ShowsIndex (joined stored) (chainUpdates chain) := hstored stored hperm
  refine ⟨currentIndex_refines hshows order,fun fromTime toTime =>
    indexUpdates_refines hshows order fromTime toTime,?_⟩
  intro hordered hone
  have hheights : (chainUpdates chain).Pairwise fun u v => u.blockHeight<v.blockHeight :=
    heights_increase updatesOf_height hordered hone
  constructor
  · obtain ⟨order',hsame⟩ := currentIndex_refines hshows order
    rw [hsame,Sdk.currentIndex,order'.sort_eq (List.Perm.refl _) hheights,
      List.getLast?_eq_head?_reverse]
    cases (chainUpdates chain).reverse <;> rfl
  · intro fromTime t
    obtain ⟨order',hsame⟩ := indexUpdates_refines hshows order fromTime (some (t+1))
    have hsort := order'.sort_eq (List.Perm.refl _) (hheights.filter fun u => fromTime≤u.ts)
    rw [hsame]
    simp only [Sdk.indexUpdates,hsort,List.filter_reverse,List.filter_filter]
    congr 2
    apply List.filter_congr
    intro u _
    rw [Bool.decide_and,Bool.and_comm]

end

def updatingBlock : Dated where
  block := dataBlock [updateLine]
  time := 1
  height := 1
  dated := rfl
  numbered := rfl
  timeBound := by decide
  heightBound := by decide

def failingBlock : Dated where
  block := ⟨"later",2,some 2,some 5,
    [⟨some ⟨[sampleAddress 8],some (bareMessage otherKeys [1])⟩,
      some {bareMeta [] with err := some []}⟩]⟩
  time := 5
  height := 2
  dated := rfl
  numbered := rfl
  timeBound := by decide
  heightBound := by decide

/-- A block with an index update, and a later one whose only transaction failed. -/
def sampleChain : List (Dated × List Emission) :=
  [(updatingBlock,[dataEmission [sampleUpdate 1050000000000]]),(failingBlock,[⟨[],[]⟩])]

private theorem sampleChain_true : TrueOf (Emits reference) sampleChain := by
  intro p hp
  rcases List.mem_cons.mp hp with rfl|hp
  · exact .cons one_line_emits .nil
  · rw [List.mem_singleton.mp hp]
    exact .cons (.inl ⟨⟨_,rfl,by decide⟩,rfl⟩) .nil

private theorem sampleChain_known : ∀ p∈sampleChain,∀ s∈p.2,s.Known := by
  intro p hp s hs q hq
  have hnone : ∀ p∈sampleChain,∀ s∈p.2,s.unlogged=[] := by decide
  rw [hnone p hp s hs] at hq
  cases hq

theorem index_queries_answered_sample :
    ∃ outs,List.Forall₂ (fun (p : Dated × List Emission) out =>
        mapTransferEventsToDb reference p.1.block=some out) sampleChain outs ∧
      ∀ order,Documents.currentIndex order outs.flatten=some (some ⟨1050000000000,1,1⟩) := by
  obtain ⟨outs,houts,hstored⟩ := index_queries_answered reference_base58 sampleChain_true
    sampleChain_known (by decide +kernel)
  refine ⟨outs,houts,?_⟩
  intro order
  obtain ⟨_,_,hdetermined⟩ := hstored outs.flatten (List.Perm.refl _) order
  rw [(hdetermined (by decide) (by decide)).1]
  rfl

end SolanaM.Substreams
