import Mathlib.Data.List.Induction
import Mathlib.Data.List.Nodup
import Mathlib.Order.Lattice

namespace SolanaM.Records

variable {α K β : Type*} [LinearOrder K] (key : α → K) (payload : α → Option β)

/-- A reader that keeps the greatest key seen and the payload that came with it; a record
without payload moves the key alone. -/
def step (st : β×K) (a : α) : β×K :=
  if st.2≤key a then ((payload a).getD st.1,key a) else st

/-- Some record of a greater key stands before this one. -/
def Overtaken (as : List α) (a : α) : Prop := ∃ b,List.Sublist [b,a] as ∧ key a<key b

variable {key payload}

theorem le_step (st : β×K) (a : α) : st.2≤(step key payload st a).2 := by
  unfold step
  split <;> simp_all

theorem key_le_step (st : β×K) (a : α) : key a≤(step key payload st a).2 := by
  unfold step
  split
  · exact le_refl _
  · rename_i h
    exact le_of_not_ge h

variable (key payload) in
/-- The key kept is the greatest of the initial one and those read. -/
theorem fold_key (st : β×K) (as : List α) :
    st.2≤(as.foldl (step key payload) st).2 ∧
      (∀ a∈as,key a≤(as.foldl (step key payload) st).2) ∧
      ((as.foldl (step key payload) st).2=st.2 ∨
        ∃ a∈as,(as.foldl (step key payload) st).2=key a) := by
  induction as using List.reverseRecOn with
  | nil => simp
  | append_singleton as z ih =>
    obtain ⟨h0,hle,hat⟩ := ih
    simp only [List.foldl_append,List.foldl_cons,List.foldl_nil]
    refine ⟨h0.trans (le_step _ z),?_,?_⟩
    · intro a ha
      rcases List.mem_append.mp ha with ha|ha
      · exact (hle a ha).trans (le_step _ z)
      · rw [List.mem_singleton.mp ha]
        exact key_le_step _ z
    · unfold step
      split
      · exact .inr ⟨z,by simp,rfl⟩
      · rcases hat with hat|⟨a,ha,hx⟩
        · exact .inl hat
        · exact .inr ⟨a,List.mem_append_left _ ha,hx⟩

theorem Overtaken.append_iff {as : List α} {a z : α} (ha : a≠z) :
    Overtaken key (as++[z]) a ↔ Overtaken key as a := by
  constructor
  · rintro ⟨b,hs,hlt⟩
    refine ⟨b,?_,hlt⟩
    rcases List.sublist_append_iff.mp hs with ⟨l1,l2,he,h1,h2⟩
    rcases List.sublist_singleton.mp h2 with rfl|rfl
    · rw [he,List.append_nil]
      exact h1
    · have hlast := congrArg List.getLast? he
      rw [List.getLast?_concat] at hlast
      exact absurd (Option.some.inj hlast) ha
  · rintro ⟨b,hs,hlt⟩
    exact ⟨b,hs.trans (List.sublist_append_left as [z]),hlt⟩

theorem Overtaken.last_iff {as : List α} {z : α} (hz : z∉as) :
    Overtaken key (as++[z]) z ↔ ∃ b∈as,key z<key b := by
  constructor
  · rintro ⟨b,hs,hlt⟩
    rcases List.sublist_append_iff.mp hs with ⟨l1,l2,he,h1,h2⟩
    rcases List.sublist_singleton.mp h2 with rfl|rfl
    · rw [List.append_nil] at he
      subst he
      exact absurd (h1.subset (by simp)) hz
    · have hb : [b]=l1 := by simpa using congrArg List.dropLast he
      subst hb
      exact ⟨b,h1.subset (by simp),hlt⟩
  · rintro ⟨b,hb,hlt⟩
    exact ⟨b,List.Sublist.append (List.singleton_sublist.mpr hb) (List.Sublist.refl [z]),hlt⟩

variable (key payload) in
/-- The last record is overtaken exactly where the key kept so far exceeds its own. -/
theorem overtaken_last_iff_lt (st : β×K) {as : List α} {z : α} (hz : z∉as) (hz0 : st.2<key z) :
    Overtaken key (as++[z]) z ↔ key z<(as.foldl (step key payload) st).2 := by
  obtain ⟨_,hle,hat⟩ := fold_key key payload st as
  rw [Overtaken.last_iff hz]
  constructor
  · intro h
    obtain ⟨b,hb,hlt⟩ := h
    exact lt_of_lt_of_le hlt (hle b hb)
  · intro hover
    rcases hat with hat|⟨b,hb,hx⟩
    · exact absurd hover (not_lt_of_ge (hat.le.trans hz0.le))
    · exact ⟨b,hb,hx ▸ hover⟩

variable (key payload) in
/-- The payload kept is that of the greatest record with a payload that was not overtaken. -/
theorem fold_payload (st : β×K) (as : List α) (hd : (as.map key).Nodup)
    (h0 : ∀ a∈as,st.2<key a) :
    (∀ a∈as,∀ b,payload a=some b → ¬Overtaken key as a →
      (∀ a'∈as,payload a'≠none → ¬Overtaken key as a' → key a'≤key a) →
      (as.foldl (step key payload) st).1=b) ∧
    ((∀ a∈as,payload a≠none → Overtaken key as a) →
      (as.foldl (step key payload) st).1=st.1) := by
  induction as using List.reverseRecOn with
  | nil => simp
  | append_singleton as z ih =>
    obtain ⟨hsome,hnone⟩ := ih
      (hd.sublist ((List.sublist_append_left as [z]).map key)) (fun a ha => h0 a (by simp [ha]))
    have hle := (fold_key key payload st as).2.1
    have hfresh : ∀ a∈as,key a≠key z := by
      intro a ha he
      rw [List.map_append,List.nodup_append] at hd
      exact hd.2.2 (key a) (List.mem_map_of_mem ha) (key z) (by simp) he
    have hne : ∀ a∈as,a≠z := fun a ha he => hfresh a ha (congrArg key he)
    have hlast := overtaken_last_iff_lt key payload st (fun h => hne z h rfl) (h0 z (by simp))
    -- the earlier records stand in the longer list as they stood before
    have hkeep : ∀ a∈as,(Overtaken key (as++[z]) a ↔ Overtaken key as a) :=
      fun a ha => Overtaken.append_iff (hne a ha)
    have hearlier : ∀ a∈as,∀ b,payload a=some b → ¬Overtaken key (as++[z]) a →
        (∀ a'∈as++[z],payload a'≠none → ¬Overtaken key (as++[z]) a' → key a'≤key a) →
        (as.foldl (step key payload) st).1=b := by
      intro a ha b hb hna hmax
      refine hsome a ha b hb (fun h => hna ((hkeep a ha).mpr h)) ?_
      intro a' ha' hp hn
      exact hmax a' (by simp [ha']) hp (fun h => hn ((hkeep a' ha').mp h))
    have hinitial : (∀ a∈as++[z],payload a≠none → Overtaken key (as++[z]) a) →
        (as.foldl (step key payload) st).1=st.1 := by
      intro hall
      refine hnone ?_
      intro a ha hp
      exact (hkeep a ha).mp (hall a (by simp [ha]) hp)
    simp only [List.foldl_append,List.foldl_cons,List.foldl_nil]
    by_cases hover : key z<(as.foldl (step key payload) st).2
    · rw [step,if_neg (not_le_of_gt hover)]
      refine ⟨?_,hinitial⟩
      intro a ha b hb hna hmax
      rcases List.mem_append.mp ha with ha|ha
      · exact hearlier a ha b hb hna hmax
      · rw [List.mem_singleton.mp ha] at hna
        exact absurd (hlast.mpr hover) hna
    · have hzn : ¬Overtaken key (as++[z]) z := fun h => hover (hlast.mp h)
      rw [step,if_pos (le_of_not_gt hover)]
      cases hpz : payload z with
      | some b =>
        constructor
        · intro a ha b' hb' hna hmax
          rcases List.mem_append.mp ha with ha|ha
          · have hza := hmax z (by simp) (by simp [hpz]) hzn
            have haz := (hle a ha).trans (le_of_not_gt hover)
            exact absurd (le_antisymm haz hza) (hfresh a ha)
          · rw [List.mem_singleton.mp ha,hpz] at hb'
            exact Option.some.inj hb'
        · intro hall
          exact absurd (hall z (by simp) (by simp [hpz])) hzn
      | none =>
        refine ⟨?_,hinitial⟩
        intro a ha b hb hna hmax
        rcases List.mem_append.mp ha with ha|ha
        · exact hearlier a ha b hb hna hmax
        · rw [List.mem_singleton.mp ha,hpz] at hb
          exact nomatch hb

end SolanaM.Records
