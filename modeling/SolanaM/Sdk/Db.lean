import SolanaM.Keys
import Mathlib.Data.List.Nodup
import Mathlib.Data.List.Sort

namespace SolanaM.Sdk

/-- An index_update_v2 event with the block of its transaction, times in whole seconds. -/
structure IndexUpdate where
  index : Nat
  ts : Nat
  blockHeight : Nat
  deriving DecidableEq

/-- A balance_updates row with the block of its transaction. -/
structure BalanceUpdate where
  pubkey : Key
  mint : Key
  postBalance : Nat
  ts : Nat
  blockHeight : Nat

/-- The $sort of the server on a descending key: rows that compare equal come in any order. -/
structure DescendingSort {α : Type} (key : α → Nat) where
  sort : List α → List α
  perm : ∀ rows,(sort rows).Perm rows
  sorted : ∀ rows,(sort rows).Pairwise (fun a b => key b≤key a)

namespace DescendingSort

/-- Rows already listed by strictly growing keys leave the server no choice. -/
theorem sort_eq {α : Type} {key : α → Nat} (order : DescendingSort key) {rows history : List α}
    (hp : rows.Perm history) (hh : history.Pairwise (fun a b => key a<key b)) :
    order.sort rows=history.reverse := by
  have hnd : (history.map key).Nodup :=
    (List.pairwise_map.mpr hh).imp (fun h => Nat.ne_of_lt h)
  have hperm : (order.sort rows).Perm history.reverse :=
    ((order.perm rows).trans hp).trans (List.reverse_perm history).symm
  have hdesc : history.reverse.Pairwise (fun a b => key b≤key a) :=
    List.pairwise_reverse.mpr (hh.imp (fun h => Nat.le_of_lt h))
  refine List.Perm.eq_of_pairwise ?_ (order.sorted rows) hdesc hperm
  intro a b ha hb hab hba
  have ha' : a∈history := List.mem_reverse.mp (hperm.subset ha)
  exact List.inj_on_of_nodup_map hnd ha' (List.mem_reverse.mp hb) (Nat.le_antisymm hba hab)

/-- A server that keeps the stored order of rows that compare equal. -/
def stable {α : Type} (key : α → Nat) : DescendingSort key where
  sort rows := rows.insertionSort (fun a b => key b≤key a)
  perm rows := List.perm_insertionSort _ rows
  sorted rows := by
    have htotal : Std.Total (fun a b => key b≤key a) := ⟨fun a b => Nat.le_total (key b) (key a)⟩
    have htrans : IsTrans α (fun a b => key b≤key a) := ⟨fun _ _ _ h k => Nat.le_trans k h⟩
    exact List.pairwise_insertionSort (fun a b => key b≤key a) rows

/-- A server that turns the stored order of rows that compare equal around. -/
def turned {α : Type} (key : α → Nat) : DescendingSort key where
  sort rows := (stable key).sort rows.reverse
  perm rows := ((stable key).perm rows.reverse).trans (List.reverse_perm rows)
  sorted rows := (stable key).sorted rows.reverse

/-- The server may answer with any descending arrangement of the rows. -/
theorem exists_sort {α : Type} {key : α → Nat} {rows l : List α} (hp : l.Perm rows)
    (hl : l.Pairwise (fun a b => key b≤key a)) : ∃ order : DescendingSort key,order.sort rows=l := by
  classical
  refine ⟨⟨fun r => if r=rows then l else (stable key).sort r,?_,?_⟩,by simp⟩
  · intro r
    by_cases hr : r=rows
    · rwa [if_pos hr,hr]
    · rw [if_neg hr]
      exact (stable key).perm r
  · intro r
    by_cases hr : r=rows
    · rwa [if_pos hr]
    · rw [if_neg hr]
      exact (stable key).sorted r

/-- Each row with the greatest key can come first. -/
theorem exists_first {α : Type} {key : α → Nat} {rows : List α} {a : α} (ha : a∈rows)
    (hmax : ∀ b∈rows,key b≤key a) :
    ∃ (order : DescendingSort key) (rest : List α),order.sort rows=a::rest := by
  obtain ⟨s,t,rfl⟩ := List.append_of_mem ha
  have hp : (a::(stable key).sort (s++t)).Perm (s++a::t) :=
    (((stable key).perm (s++t)).cons a).trans List.perm_middle.symm
  have hl : (a::(stable key).sort (s++t)).Pairwise (fun a b => key b≤key a) := by
    refine List.pairwise_cons.mpr ⟨?_,(stable key).sorted _⟩
    intro b hb
    apply hmax
    exact hp.subset (List.mem_cons_of_mem a hb)
  obtain ⟨order,horder⟩ := exists_sort hp hl
  exact ⟨order,_,horder⟩

/-- What comes first has the greatest key. -/
theorem first_max {α : Type} {key : α → Nat} (order : DescendingSort key) {rows rest : List α}
    {a : α} (h : order.sort rows=a::rest) : a∈rows ∧ ∀ b∈rows,key b≤key a := by
  have hp := order.perm rows
  have hs := order.sorted rows
  rw [h] at hp hs
  refine ⟨hp.subset List.mem_cons_self,?_⟩
  intro b hb
  rcases List.mem_cons.mp (hp.symm.subset hb) with hba|hbr
  · rw [hba]
  · exact (List.pairwise_cons.mp hs).1 b hbr

end DescendingSort

/-- result[0] of an empty result has no fields: the query function throws. -/
def currentIndex (order : DescendingSort IndexUpdate.blockHeight) (updates : List IndexUpdate) :
    Option IndexUpdate :=
  ((order.sort updates).take 1)[0]?

/-- The window [fromTime, toTime), newest first; a toTime of 0 is falsy and bounds nothing. -/
def indexUpdates (order : DescendingSort IndexUpdate.blockHeight) (updates : List IndexUpdate)
    (fromTime : Nat) (toTime : Option Nat) : List IndexUpdate :=
  let result := order.sort (updates.filter fun u => fromTime≤u.ts)
  match toTime with
  | some (t+1) => result.filter fun u => u.ts<t+1
  | _ => result

def getBalanceAt (order : DescendingSort BalanceUpdate.blockHeight) (balances : List BalanceUpdate)
    (tokenAccount mint : Key) (ts : Nat) : Nat :=
  let rows := balances.filter fun b => b.pubkey=tokenAccount ∧ b.mint=mint
  match (order.sort (rows.filter fun b => b.ts<ts)).take 1 with
  | [] => 0
  | b::_ => b.postBalance

end SolanaM.Sdk
