import SolanaM.Sdk.Ties

namespace SolanaM.Sdk

theorem claimLoop_append (balance : Nat → Nat) (last : IndexUpdate) (y : Int)
    (rows rows' : List IndexUpdate) :
    claimLoop balance last y (rows++rows')=(do
      let (u,z) ← claimLoop balance last y rows
      claimLoop balance u z rows') := by
  induction rows generalizing last y with
  | nil => rfl
  | cons u rows ih =>
    rw [List.cons_append,claimLoop,claimLoop]
    split
    · exact ih last y
    · split
      · rfl
      · simp only [bind,Except.bind]
        cases safeInteger u.index with
        | error e => rfl
        | ok n =>
          simp only
          cases safeInteger last.index with
          | error e => rfl
          | ok l =>
            simp only
            cases bnDiv ((y+(balance u.ts : Int))*n) l with
            | error e => rfl
            | ok grown => exact ih u _

/-- Division with a greater quotient keeps two dividends apart. -/
theorem tdiv_lt_tdiv {y z i j : Int} (hy : 0≤y) (hyz : y<z) (hi : 0 < i) (hij : i≤j) :
    (y*j).tdiv i<(z*j).tdiv i := by
  have hyj : 0≤y*j := Int.mul_nonneg hy (by omega)
  have hzj : 0≤z*j := Int.mul_nonneg (by omega) (by omega)
  rw [Int.tdiv_eq_ediv_of_nonneg hyj,Int.tdiv_eq_ediv_of_nonneg hzj]
  have hstep : y*j+1*i≤z*j := by
    have hone : (y+1)*j≤z*j := Int.mul_le_mul_of_nonneg_right (by omega) (by omega)
    have hexpand : (y+1)*j=y*j+j := by rw [Int.add_mul,Int.one_mul]
    omega
  calc (y*j)/i < (y*j)/i+1 := by omega
    _ = (y*j+1*i)/i := (Int.add_mul_ediv_right _ _ hi.ne').symm
    _ ≤ (z*j)/i := Int.ediv_le_ediv hi hstep

theorem tdiv_mul_le {y i j : Int} (hy : 0≤y) (hi : 0 < i) (hj : 0≤j) : (y*j).tdiv i*i≤y*j := by
  rw [Int.tdiv_eq_ediv_of_nonneg (Int.mul_nonneg hy hj)]
  exact Int.ediv_mul_le _ hi.ne'

/-- What an index i pays on a balance j above it, up to an index c, is more than j pays on it. -/
theorem lt_mul_tdiv {i j c : Int} (hi : 0 < i) (hij : i<j) (hjc : j ≤ c) : c<(j*c).tdiv i := by
  rw [Int.tdiv_eq_ediv_of_nonneg (Int.mul_nonneg (by omega) (by omega))]
  apply Int.lt_of_add_one_le
  apply Int.le_ediv_of_mul_le hi
  calc (c+1)*i=c*i+i := by ring
    _ ≤ c*i+c := by omega
    _ = c*(i+1) := by ring
    _ ≤ c*j := Int.mul_le_mul_of_nonneg_left (by omega) (by omega)
    _ = j*c := Int.mul_comm _ _

/-- A yield that starts below the index it is paid at stays below every later index. -/
theorem lt_of_mul_le {y c j w l : Int} (hj : 0<j) (hjc : j ≤ c) (hcl : c≤l) (hwl : w≤l)
    (hbound : y*c≤(c-j)*w) : y<l := by
  have hmul : y*c<l*c := by
    calc y*c ≤ (c-j)*w := hbound
      _ ≤ (c-j)*l := Int.mul_le_mul_of_nonneg_left hwl (by omega)
      _ < c*l := Int.mul_lt_mul_of_pos_right (by omega) (by omega)
      _ = l*c := Int.mul_comm _ _
  exact Int.lt_of_mul_lt_mul_right hmul (by omega)

namespace TiedHistory

variable {h : TiedHistory} (hsafe : ∀ u∈h.updates,u.index<2^53)

include hsafe

/-- A step to a later second: the yield and the balance grow with the index. -/
theorem claimLoop_step {balance : Nat → Nat} {last u : IndexUpdate} (y : Int)
    {rows : List IndexUpdate} (hl : last∈h.updates) (hu : u∈h.updates) (hlt : last.ts<u.ts)
    (hpos : 0<last.index) :
    claimLoop balance last y (u::rows)=
      claimLoop balance u (((y+balance u.ts)*u.index).tdiv last.index-balance u.ts) rows := by
  exact claimLoop_later balance y rows hlt (index_le_of_ts hl hu hlt) hpos (hsafe u hu)

/-- With nothing more to earn, a greater yield stays greater. -/
theorem claimLoop_strict {balance : Nat → Nat} {last : IndexUpdate} {y z : Int}
    {rows : List IndexUpdate} (hl : last∈h.updates) (hr : h.Remaining last.ts rows)
    (hpos : 0<last.index) (hquiet : ∀ u∈rows,u.ts≠last.ts → balance u.ts=0) (hy : 0≤y)
    (hyz : y<z) :
    ∃ u y' z',claimLoop balance last y rows=.ok (u,y') ∧ claimLoop balance last z rows=.ok (u,z') ∧
      u∈h.updates ∧ 0≤y' ∧ y'<z' ∧ y'*last.index≤y*u.index := by
  induction rows generalizing last y z with
  | nil => exact ⟨last,y,z,rfl,rfl,hl,hy,hyz,le_rfl⟩
  | cons u rows ih =>
    by_cases hsame : u.ts=last.ts
    · rw [claimLoop,if_pos hsame,claimLoop,if_pos hsame]
      exact ih hl (hsame ▸ hr.tail) hpos (fun v hv => hquiet v (List.mem_cons_of_mem u hv)) hy hyz
    · obtain ⟨hu,hle⟩ := hr.known u List.mem_cons_self
      have hlt : last.ts<u.ts := by omega
      have hindex := index_le_of_ts hl hu hlt
      have hi : (0 : Int)<last.index := by exact_mod_cast hpos
      have hij : (last.index : Int)≤u.index := by exact_mod_cast hindex
      have hstep (x : Int) : claimLoop balance last x (u::rows)=
          claimLoop balance u ((x*u.index).tdiv last.index) rows := by
        rw [claimLoop_step hsafe x hl hu hlt hpos,hquiet u List.mem_cons_self hsame]
        simp
      have hyu : 0≤y*u.index := Int.mul_nonneg hy (by omega)
      have hnext : 0≤(y*u.index).tdiv last.index := Int.tdiv_nonneg hyu (by omega)
      have hquiet' : ∀ v∈rows,v.ts≠u.ts → balance v.ts=0 := by
        intro v hv _
        have hvt := (hr.tail.known v hv).2
        exact hquiet v (List.mem_cons_of_mem u hv) (by omega)
      obtain ⟨w,y',z',hy',hz',hw,hnonneg,hlt',hbound⟩ :=
        ih hu hr.tail (by omega) hquiet' hnext (tdiv_lt_tdiv hy hyz hi hij)
      refine ⟨w,y',z',(hstep y).trans hy',(hstep z).trans hz',hw,hnonneg,hlt',?_⟩
      have hdown := tdiv_mul_le hy hi (by omega : (0 : Int)≤u.index)
      have hupos : (0 : Int)<u.index := by omega
      have hmul : y'*last.index*u.index≤y*w.index*u.index := by
        calc y'*last.index*u.index = y'*u.index*last.index := by ring
          _ ≤ (y*u.index).tdiv last.index*w.index*last.index :=
            Int.mul_le_mul_of_nonneg_right hbound (by omega)
          _ = (y*u.index).tdiv last.index*last.index*w.index := by ring
          _ ≤ y*u.index*w.index := Int.mul_le_mul_of_nonneg_right hdown (by omega)
          _ = y*w.index*u.index := by ring
      exact Int.le_of_mul_le_mul_right hmul hupos

/-- Without any balance nothing accrues; the update the loop ends at is the same for all. -/
theorem claimLoop_quiet {last : IndexUpdate} {rows : List IndexUpdate} (hl : last∈h.updates)
    (hr : ∀ u∈rows,u∈h.updates ∧ last.ts≤u.ts)
    (hsorted : rows.Pairwise fun u v => u.blockHeight≤v.blockHeight) (hpos : 0<last.index) :
    ∃ w∈last::rows,0<w.index ∧ ∀ balance : Nat → Nat,(∀ u∈rows,balance u.ts=0) →
      claimLoop balance last 0 rows=.ok (w,0) := by
  induction rows generalizing last with
  | nil => exact ⟨last,List.mem_cons_self,hpos,fun _ _ => rfl⟩
  | cons u rows ih =>
    obtain ⟨hu,hle⟩ := hr u List.mem_cons_self
    obtain ⟨hfirst,hrest⟩ := List.pairwise_cons.mp hsorted
    by_cases hsame : u.ts=last.ts
    · obtain ⟨w,hw,hwpos,hloop⟩ := ih hl (fun v hv => hr v (List.mem_cons_of_mem u hv)) hrest hpos
      refine ⟨w,?_,hwpos,?_⟩
      · rcases List.mem_cons.mp hw with hwl|hwr
        · exact hwl ▸ List.mem_cons_self
        · exact List.mem_cons_of_mem last (List.mem_cons_of_mem u hwr)
      · intro balance hquiet
        rw [claimLoop,if_pos hsame]
        exact hloop balance fun v hv => hquiet v (List.mem_cons_of_mem u hv)
    · have hlt : last.ts<u.ts := by omega
      have hindex := index_le_of_ts hl hu hlt
      have hknown : ∀ v∈rows,v∈h.updates ∧ u.ts≤v.ts := by
        intro v hv
        have hv' := (hr v (List.mem_cons_of_mem u hv)).1
        exact ⟨hv',ts_le_of_height hu hv' (hfirst v hv)⟩
      obtain ⟨w,hw,hwpos,hloop⟩ := ih hu hknown hrest (by omega)
      refine ⟨w,List.mem_cons_of_mem last hw,hwpos,?_⟩
      intro balance hquiet
      rw [claimLoop_step hsafe 0 hl hu hlt hpos,hquiet u List.mem_cons_self]
      simpa using hloop balance fun v hv => hquiet v (List.mem_cons_of_mem u hv)

omit hsafe

def ascending (rows : List IndexUpdate) : List IndexUpdate :=
  ((DescendingSort.stable IndexUpdate.blockHeight).sort rows).reverse

theorem ascending_perm (rows : List IndexUpdate) : (ascending rows).Perm rows :=
  (List.reverse_perm _).trans (DescendingSort.perm _ _)

theorem ascending_sorted (rows : List IndexUpdate) :
    (ascending rows).Pairwise fun u v => u.blockHeight≤v.blockHeight :=
  List.pairwise_reverse.mpr (DescendingSort.sorted _ _)

def earlier (h : TiedHistory) (fromTime t : Nat) : List IndexUpdate :=
  ascending ((h.updates.filter fun u => fromTime≤u.ts).filter fun u => u.ts<t)

def later (h : TiedHistory) (t : Nat) : List IndexUpdate :=
  ascending (h.updates.filter fun u => t<u.ts)

theorem mem_earlier {fromTime t : Nat} {u : IndexUpdate} :
    u∈h.earlier fromTime t ↔ u∈h.updates ∧ fromTime≤u.ts ∧ u.ts<t := by
  rw [earlier,(ascending_perm _).mem_iff,List.mem_filter,List.mem_filter,decide_eq_true_eq,
    decide_eq_true_eq,and_assoc]

theorem mem_later {t : Nat} {u : IndexUpdate} : u∈h.later t ↔ u∈h.updates ∧ t<u.ts := by
  simp [later,(ascending_perm _).mem_iff]

theorem filter_filter_eq (rows : List IndexUpdate) {p q r : Nat → Prop} [DecidablePred p]
    [DecidablePred q] [DecidablePred r] (h : ∀ t,q t ∧ p t ↔ r t) :
    ((rows.filter fun u => p u.ts).filter fun u => q u.ts)=rows.filter fun u => r u.ts := by
  rw [List.filter_filter]
  apply List.filter_congr
  intro u _
  rw [← Bool.decide_and]
  exact decide_eq_decide.mpr (h u.ts)

/-- A window falls into what comes before a second, that second and what comes after it. -/
theorem window_perm (rows : List IndexUpdate) {fromTime t : Nat} (hfrom : fromTime≤t) :
    (rows.filter fun u => fromTime≤u.ts).Perm
      ((rows.filter fun u => fromTime≤u.ts).filter (fun u => u.ts<t)++
        ((rows.filter fun u => u.ts=t)++rows.filter fun u => t<u.ts)) := by
  have hsplit := List.filter_append_perm (fun u => decide (u.ts<t))
    (rows.filter fun u => fromTime≤u.ts)
  have hsplit' := List.filter_append_perm (fun u => decide (u.ts=t)) (rows.filter fun u => t≤u.ts)
  simp only [← decide_not] at hsplit hsplit'
  have hrest := filter_filter_eq rows (p := (fromTime≤·)) (q := fun s => ¬s<t) (r := (t≤·))
    fun s => by omega
  have hequal := filter_filter_eq rows (p := (t≤·)) (q := (·=t)) (r := (·=t)) fun s => by omega
  have hafter := filter_filter_eq rows (p := (t≤·)) (q := fun s => ¬s=t) (r := (t<·))
    fun s => by omega
  rw [hequal,hafter] at hsplit'
  rw [hrest] at hsplit
  exact hsplit.symm.trans (hsplit'.symm.append_left _)

/-- The seconds before v, the second that v opens and the seconds after it, in this order. -/
theorem arrangement_sorted {v : IndexUpdate} (hv : h.Opens v) (fromTime : Nat)
    {same : List IndexUpdate} (hsame : ∀ w∈same,w∈h.updates ∧ w.ts=v.ts)
    (hsorted : same.Pairwise fun u v => u.blockHeight≤v.blockHeight) :
    (h.earlier fromTime v.ts++v::(same++h.later v.ts)).Pairwise
      fun u v => u.blockHeight≤v.blockHeight := by
  rw [List.pairwise_append,List.pairwise_cons,List.pairwise_append]
  refine ⟨ascending_sorted _,⟨?_,hsorted,ascending_sorted _,?_⟩,?_⟩
  · intro w hw
    rcases List.mem_append.mp hw with hw|hw
    · exact hv.2 w (hsame w hw).1 (hsame w hw).2
    · obtain ⟨hw',hlt⟩ := mem_later.mp hw
      exact Nat.le_of_lt (height_lt_of_ts hv.1 hw' hlt)
  · intro a ha b hb
    obtain ⟨ha',hat⟩ := hsame a ha
    obtain ⟨hb',hbt⟩ := mem_later.mp hb
    exact Nat.le_of_lt (height_lt_of_ts ha' hb' (hat ▸ hbt))
  · intro a ha b hb
    obtain ⟨ha',_,hat⟩ := mem_earlier.mp ha
    have hb' : b∈h.updates ∧ v.ts≤b.ts := by
      rcases List.mem_cons.mp hb with hbv|hb
      · rw [hbv]
        exact ⟨hv.1,le_rfl⟩
      · rcases List.mem_append.mp hb with hb|hb
        · exact ⟨(hsame b hb).1,Nat.le_of_eq (hsame b hb).2.symm⟩
        · exact ⟨(mem_later.mp hb).1,Nat.le_of_lt (mem_later.mp hb).2⟩
    exact Nat.le_of_lt (height_lt_of_ts ha' hb'.1 (by omega))

theorem exists_arrangement {v : IndexUpdate} (hv : h.Opens v) {fromTime : Nat}
    (hfrom : fromTime≤v.ts) :
    ∃ same,(∀ w∈same,w.ts=v.ts) ∧
      h.Ascending fromTime (h.earlier fromTime v.ts++v::(same++h.later v.ts)) := by
  have hmem : v∈h.updates.filter fun u => u.ts=v.ts := by simp [hv.1]
  obtain ⟨s,t,hst⟩ := List.append_of_mem hmem
  have hperm : (v::ascending (s++t)).Perm (h.updates.filter fun u => u.ts=v.ts) := by
    rw [hst]
    exact ((ascending_perm (s++t)).cons v).trans List.perm_middle.symm
  have hsame : ∀ w∈ascending (s++t),w∈h.updates ∧ w.ts=v.ts := by
    intro w hw
    have hw' := hperm.subset (List.mem_cons_of_mem v hw)
    simpa using hw'
  refine ⟨ascending (s++t),fun w hw => (hsame w hw).2,?_,
    arrangement_sorted hv fromTime hsame (ascending_sorted _)⟩
  apply List.Perm.trans _ (window_perm h.updates hfrom).symm
  apply (ascending_perm _).append
  rw [← List.cons_append]
  exact hperm.append (ascending_perm _)

/-- The earner with half the latest index on record, who loses nothing of a difference in yield. -/
def halfway (latestIndex : Nat) (earner : Earner) : Earner :=
  {earner with lastClaimIndex := (latestIndex+1)/2}

private theorem claimYielded_ne {latestIndex : Nat} {earner : Earner} {y z : Int}
    (hlatest : 2≤latestIndex)
    (hy : 0≤y) (hyz : y<z) (hbound : y<2^53) :
    claimYielded some (halfway latestIndex earner) latestIndex y≠
      claimYielded some (halfway latestIndex earner) latestIndex z := by
  have hd : (0 : Int)<(latestIndex : Int)-((latestIndex+1)/2 : Nat) := by omega
  have hcd : (latestIndex : Int)-((latestIndex+1)/2 : Nat)≤((latestIndex+1)/2 : Nat) := by omega
  have hlt := tdiv_lt_tdiv hy hyz hd hcd
  have hnonneg : 0≤(y*((latestIndex+1)/2 : Nat)).tdiv
      ((latestIndex : Int)-((latestIndex+1)/2 : Nat)) :=
    Int.tdiv_nonneg (Int.mul_nonneg hy (by omega)) (by omega)
  have hupper : (y*((latestIndex+1)/2 : Nat)).tdiv
      ((latestIndex : Int)-((latestIndex+1)/2 : Nat))≤2*y := by
    have hdown := tdiv_mul_le hy hd (by omega : (0 : Int)≤((latestIndex+1)/2 : Nat))
    refine Int.le_of_mul_le_mul_right (hdown.trans ?_) hd
    have hdouble : (((latestIndex+1)/2 : Nat) : Int)≤
        2*((latestIndex : Int)-((latestIndex+1)/2 : Nat)) := by omega
    calc y*((latestIndex+1)/2 : Nat)
        ≤ y*(2*((latestIndex : Int)-((latestIndex+1)/2 : Nat))) :=
          Int.mul_le_mul_of_nonneg_left hdouble hy
      _ = 2*y*((latestIndex : Int)-((latestIndex+1)/2 : Nat)) := by ring
  simp only [claimYielded,halfway,bnDiv_of_pos hd,bind,Except.bind,defined]
  generalize (y*((latestIndex+1)/2 : Nat)).tdiv
    ((latestIndex : Int)-((latestIndex+1)/2 : Nat))=p at hlt hnonneg hupper
  generalize (z*((latestIndex+1)/2 : Nat)).tdiv
    ((latestIndex : Int)-((latestIndex+1)/2 : Nat))=q at hlt
  have hp : p<2^64 := by omega
  rw [if_neg (by omega : ¬q≤0),if_pos hp]
  by_cases hzero : p≤0
  · rw [if_pos hzero]
    split
    · simp
    · simp
  · rw [if_neg hzero]
    split
    · simp only [ne_eq,Except.ok.injEq,Option.some.injEq,ClaimFor.mk.injEq,and_true]
      omega
    · simp

private theorem claimYielded_nothing {feeTokenAccount : Key → Option Key} {earner : Earner}
    {latestIndex : Nat} (hclaim : earner.lastClaimIndex<latestIndex) :
    claimYielded feeTokenAccount earner latestIndex 0=.ok none := by
  have hd : (0 : Int)<(latestIndex : Int)-earner.lastClaimIndex := by omega
  rw [claimYielded,Int.zero_mul,bnDiv_of_pos hd,Int.zero_tdiv]
  rfl

/-- The balance n in one second and none in any other. -/
def only (second n : Nat) : Nat → Nat := fun t => if t=second then n else 0

theorem only_of_ne {second n t : Nat} (hne : t≠second) : only second n t=0 := if_neg hne

include hsafe in
/-- The balance n in the second of an update grows from the index before it to its own. -/
theorem claimLoop_only {last u : IndexUpdate} {rows : List IndexUpdate} (hl : last∈h.updates)
    (hu : u∈h.updates) (hlt : last.ts<u.ts)
    (hpos : 0<last.index) (n : Nat) :
    claimLoop (only u.ts n) last 0 (u::rows)=
      claimLoop (only u.ts n) u (((n : Int)*u.index).tdiv last.index-n) rows := by
  have hn : only u.ts n u.ts=n := if_pos rfl
  rw [claimLoop_step hsafe 0 hl hu hlt hpos,Int.zero_add,hn]

private theorem claimLoop_skip {balance : Nat → Nat} {last : IndexUpdate} {y : Int}
    {same rows : List IndexUpdate} (hsame : ∀ u∈same,u.ts=last.ts) :
    claimLoop balance last y (same++rows)=claimLoop balance last y rows := by
  rw [claimLoop_append,claimLoop_same hsame]
  rfl

theorem Starts.opens {fromTime : Nat} {u : IndexUpdate} (hu : h.Starts fromTime u) :
    h.Opens u := by
  refine ⟨hu.1.1,?_⟩
  intro v hv hts
  exact hu.2 v hv (hts ▸ hu.1.2)

theorem Starts.earlier {fromTime : Nat} {u : IndexUpdate} (hu : h.Starts fromTime u) :
    h.earlier fromTime u.ts=[] := by
  apply List.eq_nil_iff_forall_not_mem.mpr
  intro v hv
  obtain ⟨hv',hfrom,hlt⟩ := mem_earlier.mp hv
  have hheight := height_lt_of_ts hv' hu.1.1 hlt
  exact absurd (hu.2 v hv' hfrom) (Nat.not_le.mpr hheight)

private theorem Starts.of_earlier_nil {fromTime : Nat} {v : IndexUpdate} (hv : h.Opens v)
    (hfrom : fromTime≤v.ts) (hnil : h.earlier fromTime v.ts=[]) : h.Starts fromTime v := by
  refine ⟨⟨hv.1,hfrom⟩,?_⟩
  intro w hw hwt
  have hle : v.ts≤w.ts := by
    apply Nat.le_of_not_lt
    intro hlt
    have hmem : w∈h.earlier fromTime v.ts := mem_earlier.mpr ⟨hw,hwt,hlt⟩
    simp [hnil] at hmem
  rcases Nat.lt_or_eq_of_le hle with hlt|heq
  · exact Nat.le_of_lt (height_lt_of_ts hv.1 hw hlt)
  · exact hv.2 w hw heq.symm

theorem Starts.of_earlier_cons {fromTime t : Nat} {f : IndexUpdate} {bs : List IndexUpdate}
    (hbefore : h.earlier fromTime t=f::bs) : h.Starts fromTime f := by
  have hmem {w : IndexUpdate} : w∈f::bs ↔ w∈h.updates ∧ fromTime≤w.ts ∧ w.ts<t := by
    rw [← hbefore]
    exact mem_earlier
  have hsorted : (f::bs).Pairwise fun u v => u.blockHeight≤v.blockHeight :=
    hbefore ▸ ascending_sorted _
  obtain ⟨hf,hfrom,hft⟩ := hmem.mp List.mem_cons_self
  refine ⟨⟨hf,hfrom⟩,?_⟩
  intro w hw hwt
  by_cases hlt : w.ts<t
  · rcases List.mem_cons.mp (hmem.mpr ⟨hw,hwt,hlt⟩) with hwf|hwb
    · rw [hwf]
    · exact (List.pairwise_cons.mp hsorted).1 w hwb
  · exact Nat.le_of_lt (height_lt_of_ts hf hw (by omega))

section Window

variable {fromTime : Nat} (hstarts : ∀ u,h.Starts fromTime u → u.index≠0)

include hstarts

private theorem index_pos {v : IndexUpdate} (hv : h.Opens v) (hfrom : fromTime≤v.ts) :
    0<v.index := by
  cases hbefore : h.earlier fromTime v.ts with
  | nil => exact Nat.pos_of_ne_zero (hstarts v (.of_earlier_nil hv hfrom hbefore))
  | cons f bs =>
    have hf := hstarts f (.of_earlier_cons hbefore)
    obtain ⟨hfu,_,hft⟩ := mem_earlier.mp (hbefore ▸ List.mem_cons_self : f∈h.earlier fromTime v.ts)
    have hle := index_le_of_ts hfu hv.1 hft
    omega

include hsafe

/-- Without a balance before a second the loop comes to that second with no yield. -/
theorem claimLoop_earlier {t : Nat} {f : IndexUpdate} {bs : List IndexUpdate}
    (hbefore : h.earlier fromTime t=f::bs) :
    ∃ w∈h.updates,w.ts<t ∧ 0<w.index ∧ ∀ balance : Nat → Nat,(∀ s<t,balance s=0) →
      claimLoop balance f 0 bs=.ok (w,0) := by
  have hmem {w : IndexUpdate} : w∈f::bs ↔ w∈h.updates ∧ fromTime≤w.ts ∧ w.ts<t := by
    rw [← hbefore]
    exact mem_earlier
  have hsorted : (f::bs).Pairwise fun u v => u.blockHeight≤v.blockHeight :=
    hbefore ▸ ascending_sorted _
  obtain ⟨hfirst,hrest⟩ := List.pairwise_cons.mp hsorted
  have hf : f∈h.updates := (hmem.mp List.mem_cons_self).1
  have hknown : ∀ x∈bs,x∈h.updates ∧ f.ts≤x.ts := by
    intro x hx
    have hx' := (hmem.mp (List.mem_cons_of_mem f hx)).1
    exact ⟨hx',ts_le_of_height hf hx' (hfirst x hx)⟩
  obtain ⟨w,hw,hpos,hquiet⟩ := claimLoop_quiet hsafe hf hknown hrest
    (Nat.pos_of_ne_zero (hstarts f (.of_earlier_cons hbefore)))
  obtain ⟨hwu,_,hwt⟩ := hmem.mp hw
  refine ⟨w,hwu,hwt,hpos,?_⟩
  intro balance hzero
  exact hquiet balance fun x hx => hzero x.ts (hmem.mp (List.mem_cons_of_mem f hx)).2.2

/-- Without a balance up to the second of an opener the loop comes to it with no yield. -/
theorem claimLoop_reach {v : IndexUpdate} (hv : h.Opens v) (tail : List IndexUpdate) :
    ∃ first steps,h.earlier fromTime v.ts++v::tail=first::steps ∧
      ∀ balance : Nat → Nat,(∀ s≤v.ts,balance s=0) →
        claimLoop balance first 0 steps=claimLoop balance v 0 tail := by
  cases hbefore : h.earlier fromTime v.ts with
  | nil => exact ⟨v,tail,rfl,fun _ _ => rfl⟩
  | cons f bs =>
    obtain ⟨w,hw,hwt,hpos,hquiet⟩ := claimLoop_earlier hsafe hstarts hbefore
    refine ⟨f,bs++v::tail,rfl,?_⟩
    intro balance hzero
    rw [claimLoop_append,hquiet balance fun s hs => hzero s hs.le]
    show claimLoop balance w 0 (v::tail)=_
    rw [claimLoop_step hsafe 0 hw hv.1 hwt hpos,hzero v.ts le_rfl]
    simp

end Window

/-- All runs for an earner like this one come to the same, whatever the balances. -/
def TieFree (h : TiedHistory) (earner : Earner) : Prop :=
  ∀ earner',h.Alike earner earner' → ∀ balance feeTokenAccount global order order',
    h.outcome balance feeTokenAccount global earner' order=
      h.outcome balance feeTokenAccount global earner' order'

theorem Alike.refl (h : TiedHistory) (earner : Earner) : h.Alike earner earner :=
  ⟨rfl,Iff.rfl,fun _ _ => Iff.rfl⟩

theorem TieFree.newest {earner : Earner} (hf : h.TieFree earner) {u u' : IndexUpdate}
    (hu : h.Newest u) (hu' : h.Newest u') : u.index=u'.index := by
  obtain ⟨order,horder⟩ := exists_currentIndex hu
  obtain ⟨order',horder'⟩ := exists_currentIndex hu'
  have hsame := congrArg Prod.fst (hf earner (.refl h earner) (fun _ _ _ => 0) some
    ⟨.ofByte 0,none,none⟩ ⟨order,DescendingSort.stable _⟩ ⟨order',DescendingSort.stable _⟩)
  simpa [outcome,database,horder,horder'] using hsame

/-- A run over a chosen arrangement of its window. -/
theorem exists_outcome {latest : IndexUpdate} (hl : h.Newest latest) (hsafe : latest.index<2^53)
    {earner : Earner} (hclaim : earner.lastClaimIndex<latest.index)
    (hfrom : earner.lastClaimTimestamp<2^53) (balance : Nat → Nat) {rows : List IndexUpdate}
    (hr : h.Ascending earner.lastClaimTimestamp rows) :
    ∃ order,(h.outcome (fun _ _ => balance) some ⟨.ofByte 0,none,none⟩ earner order).2=
      claimOver some earner balance latest.index rows := by
  obtain ⟨order,horder⟩ := exists_currentIndex hl
  obtain ⟨window,hwindow⟩ := exists_indexUpdates hl hr
  refine ⟨⟨order,window⟩,?_⟩
  rw [outcome,buildClaimInstruction_pending horder,safeInteger_of_lt hsafe,safeInteger_of_lt hfrom]
  simp only [bind,Except.bind,if_neg (Nat.not_le.mpr hclaim),database,hwindow]

theorem claimOver_loop {earner : Earner} {balance : Nat → Nat} {latestIndex : Nat}
    {first u : IndexUpdate} {y : Int} {steps : List IndexUpdate}
    (hloop : claimLoop balance first 0 steps=.ok (u,y)) :
    claimOver some earner balance latestIndex (first::steps)=
      claimYielded some earner latestIndex y := by
  rw [claimOver,hloop]
  rfl

private theorem later_remaining {t : Nat} {c : IndexUpdate} {rest : List IndexUpdate}
    (hlater : h.later t=c::rest) : c∈h.updates ∧ t<c.ts ∧ h.Remaining c.ts rest := by
  have hmem {w : IndexUpdate} : w∈c::rest ↔ w∈h.updates ∧ t<w.ts := by
    rw [← hlater]
    exact mem_later
  obtain ⟨hc,hct⟩ := hmem.mp List.mem_cons_self
  refine ⟨hc,hct,Remaining.of_cons (hlater ▸ ascending_sorted _) ?_ ?_⟩
  · intro w hw
    exact (hmem.mp hw).1
  · intro w hw hcw
    exact hmem.mpr ⟨hw,hct.trans hcw⟩

section Necessary

variable {earner : Earner} (hf : h.TieFree earner) {latest : IndexUpdate}
  (hl : h.Newest latest) (hlatest : latest.index<2^53)
  (hclaim : earner.lastClaimIndex<latest.index) (hfrom : earner.lastClaimTimestamp<2^53)

include hf hl in
theorem TieFree.index_le {u : IndexUpdate} (hu : u∈h.updates) : u.index≤latest.index :=
  index_le_newest (fun _ _ => hf.newest) hl hu

include hf hl hlatest in
theorem TieFree.index_lt {u : IndexUpdate} (hu : u∈h.updates) : u.index<2^53 :=
  Nat.lt_of_le_of_lt (hf.index_le hl hu) hlatest

include hf hl hlatest hclaim hfrom

theorem TieFree.claimOver_eq {earner' : Earner} (ha : h.Alike earner earner')
    (balance : Nat → Nat) {rows rows' : List IndexUpdate}
    (hr : h.Ascending earner.lastClaimTimestamp rows)
    (hr' : h.Ascending earner.lastClaimTimestamp rows') :
    claimOver some earner' balance latest.index rows=
      claimOver some earner' balance latest.index rows' := by
  have hclaim' := (ha.claimed latest hl).mpr hclaim
  rw [← ha.window] at hfrom hr hr'
  obtain ⟨order,horder⟩ := exists_outcome hl hlatest hclaim' hfrom balance hr
  obtain ⟨order',horder'⟩ := exists_outcome hl hlatest hclaim' hfrom balance hr'
  rw [← horder,← horder']
  exact congrArg Prod.snd (hf earner' ha _ _ _ order order')

/-- A window that one arrangement starts with the index 0 throws there; with another it does
not. -/
theorem TieFree.starts_ne_zero (hspans : h.Spans earner.lastClaimTimestamp) {u u' : IndexUpdate}
    (hu : h.Starts earner.lastClaimTimestamp u) (hu' : h.Starts earner.lastClaimTimestamp u')
    (hpos : u'.index≠0) : u.index≠0 := by
  intro hzero
  have hsafe' : ∀ w∈h.updates,w.index<2^53 := fun w hw => hf.index_lt hl hlatest hw
  obtain ⟨same,hsame,hr⟩ := exists_arrangement hu.opens hu.1.2
  obtain ⟨same',_,hr'⟩ := exists_arrangement hu'.opens hu'.1.2
  rw [hu.earlier,List.nil_append] at hr
  rw [hu'.earlier,List.nil_append] at hr'
  have hlater : ∃ w∈same++h.later u.ts,w.ts≠u.ts := by
    obtain ⟨a,ha,b,hb,hat,hab⟩ := hspans
    have hua := ts_le_of_height hu.1.1 ha (hu.2 a ha hat)
    exact ⟨b,List.mem_append_right same (mem_later.mpr ⟨hb,by omega⟩),by omega⟩
  have heq := hf.claimOver_eq hl hlatest hclaim hfrom (.refl h earner) (fun _ => 0) hr hr'
  have herror : claimOver some earner (fun _ => 0) latest.index (u::(same++h.later u.ts))=
      .error .bigNumber := by
    rw [claimOver,claimLoop_zero hr.remaining hsafe' hzero hlater]
    rfl
  obtain ⟨w,_,_,hquiet⟩ := claimLoop_quiet hsafe' hu'.1.1 hr'.remaining.known
    hr'.remaining.sorted (Nat.pos_of_ne_zero hpos)
  rw [herror,claimOver_loop (hquiet _ fun _ _ => rfl),claimYielded_nothing hclaim] at heq
  cases heq

variable (hrecord : earner.lastClaimIndex≠0)

include hrecord

/-- Two yields that differ, over two arrangements of the window, are told apart. -/
theorem TieFree.not_lt {balance : Nat → Nat} {first first' last last' : IndexUpdate}
    {steps steps' : List IndexUpdate} {y z : Int}
    (hr : h.Ascending earner.lastClaimTimestamp (first::steps))
    (hr' : h.Ascending earner.lastClaimTimestamp (first'::steps'))
    (hloop : claimLoop balance first 0 steps=.ok (last,y))
    (hloop' : claimLoop balance first' 0 steps'=.ok (last',z)) (hy : 0≤y) (hbound : y<2^53) :
    ¬y<z := by
  intro hyz
  have ha : h.Alike earner (halfway latest.index earner) := by
    refine ⟨rfl,?_,?_⟩
    · show (latest.index+1)/2=0 ↔ _
      omega
    · intro u hu
      rw [hf.newest hu hl]
      show (latest.index+1)/2<latest.index ↔ _
      omega
  have heq := hf.claimOver_eq hl hlatest hclaim hfrom ha balance hr hr'
  rw [claimOver_loop hloop,claimOver_loop hloop'] at heq
  exact claimYielded_ne (by omega) hy hyz hbound heq

variable (hstarts : ∀ u,h.Starts earner.lastClaimTimestamp u → u.index≠0)

include hstarts

/-- The lower index earns more over the next second. -/
theorem TieFree.not_lt_of_later {u u' v : IndexUpdate} (hu : h.Opens u) (hu' : h.Opens u')
    (hv : v∈h.updates) (hut : earner.lastClaimTimestamp≤u.ts) (hts : u.ts=u'.ts)
    (hlt : u.ts<v.ts) : ¬u.index<u'.index := by
  intro hij
  have hsafe' : ∀ w∈h.updates,w.index<2^53 := fun w hw => hf.index_lt hl hlatest hw
  have hpos := index_pos hstarts hu hut
  obtain ⟨same,hsame,hr⟩ := exists_arrangement hu hut
  obtain ⟨same',hsame',hr'⟩ := exists_arrangement hu' (hts ▸ hut)
  rw [← hts] at hsame'
  cases hlater : h.later u.ts with
  | nil => exact absurd (mem_later.mpr ⟨hv,hlt⟩) (by simp [hlater])
  | cons c rest =>
    obtain ⟨hc,hct,hrest⟩ := later_remaining hlater
    rw [hlater] at hr
    rw [← hts,hlater,hts] at hr'
    -- u'.index is held in the second of c, and nothing in any other
    have hquiet : ∀ s≤u.ts,only c.ts u'.index s=0 := fun s hs => only_of_ne (by omega)
    have hquiet' : ∀ w∈rest,w.ts≠c.ts → only c.ts u'.index w.ts=0 :=
      fun _ _ hne => only_of_ne hne
    have hpaid {x : IndexUpdate} {same : List IndexUpdate} (hx : h.Opens x) (hxu : x.ts=u.ts)
        (hxpos : 0<x.index) (hsame : ∀ w∈same,w.ts=x.ts) :
        ∃ first steps,h.earlier earner.lastClaimTimestamp x.ts++x::(same++c::rest)=
          first::steps ∧ claimLoop (only c.ts u'.index) first 0 steps=
            claimLoop (only c.ts u'.index) c (((u'.index : Int)*c.index).tdiv x.index-u'.index)
              rest := by
      obtain ⟨first,steps,hrows,hreach⟩ := claimLoop_reach hsafe' hstarts hx (same++c::rest)
      refine ⟨first,steps,hrows,?_⟩
      rw [hreach _ (hxu ▸ hquiet),claimLoop_skip hsame,
        claimLoop_only hsafe' hx.1 hc (hxu ▸ hct) hxpos]
    obtain ⟨first,steps,hrows,hloop⟩ := hpaid hu rfl hpos hsame
    obtain ⟨first',steps',hrows',hloop'⟩ := hpaid hu' hts.symm (by omega) (hts ▸ hsame')
    rw [hrows] at hr
    rw [hrows'] at hr'
    have hjc := index_le_of_ts hu'.1 hc (hts ▸ hct)
    have hj : (0 : Int)<u'.index := by omega
    rw [Int.mul_tdiv_cancel_left _ hj.ne'] at hloop'
    have hmore : (c.index : Int)<((u'.index : Int)*c.index).tdiv u.index :=
      lt_mul_tdiv (by omega) (by omega) (by omega)
    obtain ⟨w,y,z,hy,hz,hw,hnonneg,hyz,hbound⟩ := claimLoop_strict hsafe' hc hrest (by omega)
      hquiet' (by omega : (0 : Int) ≤ c.index-u'.index)
      (by omega : (c.index : Int)-u'.index<((u'.index : Int)*c.index).tdiv u.index-u'.index)
    have hwl := hf.index_le hl hw
    have hcl := hf.index_le hl hc
    have hyl : y<latest.index := lt_of_mul_le hj (by omega) (by omega) (by omega) hbound
    exact hf.not_lt hl hlatest hclaim hfrom hrecord hr' hr (hloop'.trans hy) (hloop.trans hz) hnonneg
      (by omega) hyz

/-- The lower index of the last second earns less. -/
theorem TieFree.not_lt_of_earlier {u v v' : IndexUpdate} (hu : u∈h.updates)
    (hut : earner.lastClaimTimestamp≤u.ts) (hlt : u.ts<v.ts) (hv : h.Opens v) (hv' : h.Opens v')
    (hts : v.ts=v'.ts) (hlast : ∀ w∈h.updates,w.ts≤v.ts) : ¬v.index<v'.index := by
  intro hij
  have hsafe' : ∀ w∈h.updates,w.index<2^53 := fun w hw => hf.index_lt hl hlatest hw
  have hnone : h.later v.ts=[] := by
    apply List.eq_nil_iff_forall_not_mem.mpr
    intro w hw
    obtain ⟨hw',hwt⟩ := mem_later.mp hw
    have := hlast w hw'
    omega
  obtain ⟨same,hsame,hr⟩ := exists_arrangement hv (hut.trans hlt.le)
  obtain ⟨same',hsame',hr'⟩ := exists_arrangement hv' (hut.trans (hts ▸ hlt.le))
  rw [hnone,List.append_nil] at hr
  rw [← hts,hnone,List.append_nil] at hr'
  have humem : u∈h.earlier earner.lastClaimTimestamp v.ts := mem_earlier.mpr ⟨hu,hut,hlt⟩
  cases hbefore : h.earlier earner.lastClaimTimestamp v.ts with
  | nil => simp [hbefore] at humem
  | cons f bs =>
    rw [hbefore,List.cons_append] at hr hr'
    obtain ⟨w,hw,hwt,hwpos,hquiet⟩ := claimLoop_earlier hsafe' hstarts hbefore
    -- w.index is held in the last second, and nothing in any other
    have hp : (0 : Int)<w.index := by omega
    have hpaid {x : IndexUpdate} {rest : List IndexUpdate} (hx : x∈h.updates) (hxv : x.ts=v.ts)
        (hrest : ∀ r∈rest,r.ts=x.ts) :
        claimLoop (only v.ts w.index) f 0 (bs++x::rest)=.ok (x,(x.index : Int)-w.index) := by
      rw [claimLoop_append,hquiet _ fun s hs => only_of_ne hs.ne]
      show claimLoop (only v.ts w.index) w 0 (x::rest)=_
      rw [← hxv,claimLoop_only hsafe' hw hx (hxv ▸ hwt) hwpos,Int.mul_tdiv_cancel_left _ hp.ne',
        claimLoop_same hrest]
    have hwv := index_le_of_ts hw hv.1 hwt
    have hvl := hf.index_le hl hv.1
    exact hf.not_lt hl hlatest hclaim hfrom hrecord hr hr' (hpaid hv.1 rfl hsame)
      (hpaid hv'.1 hts.symm hsame') (by omega) (by omega) (by omega)

end Necessary

private theorem TieFree.settledFrom {earner : Earner} (hf : h.TieFree earner)
    (hwalks : h.Walks earner)
    (hspans : h.Spans earner.lastClaimTimestamp) : h.SettledFrom earner := by
  obtain ⟨⟨latest,hl,hsafe,hclaim⟩,hfrom⟩ := hwalks
  by_cases hall : ∀ u,h.Starts earner.lastClaimTimestamp u → u.index=0
  · exact .inl hall
  · push Not at hall
    obtain ⟨u₀,hu₀,hpos⟩ := hall
    have hstarts : ∀ u,h.Starts earner.lastClaimTimestamp u → u.index≠0 :=
      fun u hu => hf.starts_ne_zero hl hsafe hclaim hfrom hspans hu hu₀ hpos
    refine .inr ⟨hstarts,?_⟩
    by_cases hrecord : earner.lastClaimIndex=0
    · exact .inl hrecord
    · right
      intro v v' hv hv' hvt hts
      by_cases hlast : ∀ w∈h.updates,w.ts≤v.ts
      · obtain ⟨a,ha,b,hb,hat,hab⟩ := hspans
        have hav : a.ts<v.ts := hab.trans_le (hlast b hb)
        have hle := hf.not_lt_of_earlier hl hsafe hclaim hfrom hrecord hstarts ha hat hav hv hv' hts
          hlast
        have hge := hf.not_lt_of_earlier hl hsafe hclaim hfrom hrecord hstarts ha hat (hts ▸ hav)
          hv' hv hts.symm (hts ▸ hlast)
        omega
      · push Not at hlast
        obtain ⟨w,hw,hvw⟩ := hlast
        have hle := hf.not_lt_of_later hl hsafe hclaim hfrom hrecord hstarts hv hv' hw hvt hts hvw
        have hge := hf.not_lt_of_later hl hsafe hclaim hfrom hrecord hstarts hv' hv hw (hts ▸ hvt)
          hts.symm (hts ▸ hvw)
        omega

/-- What makes an earner's claims tie-proof is the same for every earner alike. -/
theorem TieProof.alike {earner earner' : Earner} (hp : h.TieProof earner)
    (ha : h.Alike earner earner') : h.TieProof earner' := by
  refine ⟨hp.1,?_⟩
  intro hwalks hspans
  obtain ⟨⟨u,hu,hsafe,hclaim⟩,hfrom⟩ := hwalks
  have hsettled := hp.2 ⟨⟨u,hu,hsafe,(ha.claimed u hu).mp hclaim⟩,ha.window ▸ hfrom⟩
    (ha.window ▸ hspans)
  unfold SettledFrom at hsettled ⊢
  rwa [ha.window,ha.zero]

end TiedHistory

/-- For one history and one earner, and all who have the same window to claim, claims are the same
however the server breaks ties exactly when the updates of the newest block carry one index and the
first blocks of the seconds in the window are settled. -/
theorem tie_breaks_agree_iff (h : TiedHistory) (earner : Earner) :
    (∀ earner',h.Alike earner earner' → ∀ balance feeTokenAccount global order order',
      h.outcome balance feeTokenAccount global earner' order=
        h.outcome balance feeTokenAccount global earner' order') ↔ h.TieProof earner := by
  constructor
  · intro hf
    refine ⟨fun u u' hu hu' => TiedHistory.TieFree.newest hf hu hu',?_⟩
    intro hwalks hspans
    exact TiedHistory.TieFree.settledFrom hf hwalks hspans
  · intro hp earner' ha balance feeTokenAccount global order order'
    exact TiedHistory.outcome_agree (hp.alike ha) balance feeTokenAccount global order order'

/-- Two updates in block 2, another in block 3. -/
def tiedUpdates : TiedHistory where
  updates := [⟨1100000,2,2⟩,⟨1200000,2,2⟩,⟨1300000,3,3⟩]
  grows := by decide
  sameTime := by decide
  dated := by decide

/-- An earner who last claimed in block 2 gets one claim or another. -/
theorem tied_updates_differ :
    tiedUpdates.outcome (fun _ _ _ => 1000000) some ⟨.ofByte 9,none,none⟩
        ⟨.ofByte 1,1100000,2,.ofByte 2,.ofByte 3,none⟩
        ⟨DescendingSort.stable _,DescendingSort.turned _⟩=
      (some 1300000,.ok (some ⟨999999,.ofByte 2,.ofByte 3,.ofByte 1⟩)) ∧
    tiedUpdates.outcome (fun _ _ _ => 1000000) some ⟨.ofByte 9,none,none⟩
        ⟨.ofByte 1,1100000,2,.ofByte 2,.ofByte 3,none⟩
        ⟨DescendingSort.stable _,DescendingSort.stable _⟩=
      (some 1300000,.ok (some ⟨458331,.ofByte 2,.ofByte 3,.ofByte 1⟩)) := by
  decide

end SolanaM.Sdk
