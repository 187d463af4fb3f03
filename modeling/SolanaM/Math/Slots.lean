import Mathlib.Data.List.Nodup

namespace SolanaM

/-- A hash map as the list of its entries; a slot keeps its place when its value changes. -/
abbrev Slots (K V : Type) := List (K × V)

namespace Slots

variable {K V : Type} [DecidableEq K]

def insert (slots : Slots K V) (key : K) (value : V) : Slots K V :=
  if key∈slots.map Prod.fst then
    slots.map fun slot => if slot.1=key then (key,value) else slot
  else slots++[(key,value)]

/-- entry(key).and_modify(f): nothing happens at a key without a slot. -/
def andModify (slots : Slots K V) (key : K) (f : V → V) : Slots K V :=
  slots.map fun slot => if slot.1=key then (key,f slot.2) else slot

def get (slots : Slots K V) (key : K) : Option V :=
  (slots.find? fun slot => slot.1=key).map Prod.snd

theorem get_cons (slot : K×V) (slots : Slots K V) (key : K) :
    get (slot::slots) key=if slot.1=key then some slot.2 else slots.get key := by
  unfold get
  rw [List.find?_cons]
  by_cases h : slot.1=key
  · simp [h]
  · simp [h]

theorem get_mapValues (slots : Slots K V) (f : V → V) (key : K) :
    get (slots.map fun slot => (slot.1,f slot.2)) key=(slots.get key).map f := by
  induction slots with
  | nil => rfl
  | cons slot slots ih =>
    rw [List.map_cons,get_cons,get_cons,ih]
    by_cases h : slot.1=key
    · rw [if_pos h,if_pos h,Option.map_some]
    · rw [if_neg h,if_neg h]

theorem get_andModify (slots : Slots K V) (key : K) (f : V → V) (k : K) :
    (slots.andModify key f).get k=if k=key then (slots.get k).map f else slots.get k := by
  induction slots with
  | nil => simp [andModify,get]
  | cons slot slots ih =>
    have hcons : andModify (slot::slots) key f=
        (if slot.1=key then (key,f slot.2) else slot)::andModify slots key f := rfl
    rw [hcons,get_cons,get_cons,ih]
    by_cases hslot : slot.1=key
    · by_cases hk : k=key
      · simp [hslot,hk]
      · have hk' : ¬key=k := fun h => hk h.symm
        simp [hslot,hk,hk']
    · by_cases hk : slot.1=k
      · have hkey : ¬k=key := fun h => hslot (hk.trans h)
        simp [hk,hkey]
      · simp [hslot,hk]

theorem get_append_fresh (slots : Slots K V) (key : K) (value : V) (k : K)
    (h : key∉slots.map Prod.fst) :
    (slots++[(key,value)]).get k=if k=key then some value else slots.get k := by
  induction slots with
  | nil =>
    rw [List.nil_append,get_cons]
    by_cases hk : k=key
    · simp [hk]
    · have hk' : ¬key=k := fun h => hk h.symm
      simp [hk,hk']
  | cons slot slots ih =>
    rw [List.map_cons,List.mem_cons,not_or] at h
    rw [List.cons_append,get_cons,get_cons,ih h.2]
    by_cases hk : k=key
    · have hslot : ¬slot.1=key := fun hs => h.1 hs.symm
      simp [hk,hslot]
    · simp [hk]

theorem get_isSome_of_mem {slots : Slots K V} {key : K} (h : key∈slots.map Prod.fst) :
    ∃ value,slots.get key=some value := by
  induction slots with
  | nil => exact absurd h List.not_mem_nil
  | cons slot slots ih =>
    rw [get_cons]
    by_cases hslot : slot.1=key
    · exact ⟨slot.2,if_pos hslot⟩
    · rw [if_neg hslot]
      rw [List.map_cons,List.mem_cons] at h
      exact ih (h.resolve_left fun hs => hslot hs.symm)

theorem insert_fresh (slots : Slots K V) (key : K) (value : V) (h : key∉slots.map Prod.fst) :
    slots.insert key value=slots++[(key,value)] := by
  simp only [insert,if_neg h]

/-- What is inserted is found, and nothing else changes. -/
theorem get_insert (slots : Slots K V) (key : K) (value : V) (k : K) :
    (slots.insert key value).get k=if k=key then some value else slots.get k := by
  by_cases h : key∈slots.map Prod.fst
  · have hmodify : slots.insert key value=slots.andModify key fun _ => value := if_pos h
    rw [hmodify,get_andModify]
    by_cases hk : k=key
    · obtain ⟨v,hv⟩ := get_isSome_of_mem h
      rw [if_pos hk,if_pos hk,hk,hv,Option.map_some]
    · rw [if_neg hk,if_neg hk]
  · rw [insert_fresh slots key value h,get_append_fresh slots key value k h]

theorem insert_keys_nodup {slots : Slots K V} (key : K) (value : V)
    (hn : (slots.map Prod.fst).Nodup) : ((slots.insert key value).map Prod.fst).Nodup := by
  by_cases h : key∈slots.map Prod.fst
  · have hsame : (slots.insert key value).map Prod.fst=slots.map Prod.fst := by
      simp only [insert,if_pos h,List.map_map]
      apply List.map_congr_left
      intro slot _
      by_cases hk : slot.1=key
      · simp [hk]
      · simp [hk]
    rwa [hsame]
  · rw [insert_fresh slots key value h,List.map_append,List.nodup_append]
    refine ⟨hn,by simp,?_⟩
    intro a ha b hb hab
    have hkey : b=key := by simpa using hb
    exact h (hkey ▸ hab ▸ ha)

theorem andModify_keys (slots : Slots K V) (key : K) (f : V → V) :
    (slots.andModify key f).map Prod.fst=slots.map Prod.fst := by
  simp only [andModify,List.map_map]
  apply List.map_congr_left
  intro slot _
  by_cases hk : slot.1=key
  · simp [hk]
  · simp [hk]

theorem get_of_mem {slots : Slots K V} {key : K} {value : V} (hn : (slots.map Prod.fst).Nodup)
    (h : (key,value)∈slots) : slots.get key=some value := by
  induction slots with
  | nil => exact absurd h List.not_mem_nil
  | cons slot slots ih =>
    rw [List.map_cons,List.nodup_cons] at hn
    rw [get_cons]
    rcases List.mem_cons.mp h with heq|hmem
    · rw [← heq,if_pos rfl]
    · have hne : ¬slot.1=key := fun hs => hn.1 (hs ▸ List.mem_map_of_mem hmem)
      rw [if_neg hne]
      exact ih hn.2 hmem

/-- Inserting entries under new and distinct keys lists them behind the old ones. -/
theorem insertAll_fresh (entries slots : Slots K V)
    (hn : ((slots++entries).map Prod.fst).Nodup) :
    entries.foldl (fun s e => s.insert e.1 e.2) slots=slots++entries := by
  induction entries generalizing slots with
  | nil => simp
  | cons e entries ih =>
    have hsplit : slots++e::entries=(slots++[e])++entries := by simp
    have hfresh : e.1∉slots.map Prod.fst := by
      intro hm
      rw [List.map_append,List.nodup_append] at hn
      exact hn.2.2 e.1 hm e.1 (by simp) rfl
    rw [List.foldl_cons,insert_fresh slots e.1 e.2 hfresh,ih (slots++[e]) (hsplit ▸ hn),hsplit]

/-- Patching with distinct keys gives every slot the patch of its own key. -/
theorem modifyAll {P : Type} (f : P → V → V) (patches : Slots K P) (slots : Slots K V)
    (hn : (patches.map Prod.fst).Nodup) :
    patches.foldl (fun s p => s.andModify p.1 (f p.2)) slots=
      slots.map fun slot =>
        (slot.1,((patches.find? fun p => p.1=slot.1).map fun p => f p.2 slot.2).getD slot.2) := by
  induction patches generalizing slots with
  | nil => simp
  | cons p patches ih =>
    rw [List.map_cons,List.nodup_cons] at hn
    rw [List.foldl_cons,ih _ hn.2,andModify,List.map_map]
    apply List.map_congr_left
    intro slot _
    by_cases hk : slot.1=p.1
    · have hnone : patches.find? (fun q => q.1=p.1)=none := by
        apply List.find?_eq_none.mpr
        intro q hq hqp
        exact hn.1 (List.mem_map.mpr ⟨q,hq,of_decide_eq_true hqp⟩)
      simp [hk,hnone]
    · have hk' : ¬p.1=slot.1 := fun h => hk h.symm
      simp [hk,hk']

end Slots

end SolanaM
