import SolanaM.Substreams.Structure

namespace SolanaM.Substreams

namespace Forest

/-- The top-level instructions. -/
def roots : Forest → List StructuredInstruction
  | nil => []
  | cons ix _ rest => ix::rest.roots

/-- x is one of the inner_instructions of p. -/
inductive Inner : Forest → StructuredInstruction → StructuredInstruction → Prop
  | here {p x inner rest} (hx : x∈inner.roots) : Inner (cons p inner rest) p x
  | inside {ix p x inner rest} (h : Inner inner p x) : Inner (cons ix inner rest) p x
  | later {ix p x inner rest} (h : Inner rest p x) : Inner (cons ix inner rest) p x

/-- x lies inside the top-level instruction r, at any depth. -/
inductive Under : Forest → StructuredInstruction → StructuredInstruction → Prop
  | here {r x inner rest} (hx : x∈inner.flattened) : Under (cons r inner rest) r x
  | later {ix r x inner rest} (h : Under rest r x) : Under (cons ix inner rest) r x

/-- The parent is in the result, which keeps it alive. -/
def parentInstruction (forest : Forest) (ix : StructuredInstruction) :
    Option StructuredInstruction :=
  ix.parentInstruction.bind fun parent => forest.flattened.find? fun p => p.ref==parent

def topLoop (forest : Forest) : Nat → StructuredInstruction → StructuredInstruction
  | 0,top => top
  | turns+1,top =>
    match forest.parentInstruction top with
    | some parent => topLoop forest turns parent
    | none => top

/-- The loop takes no more turns than there are instructions. -/
def topInstruction (forest : Forest) (ix : StructuredInstruction) :
    Option StructuredInstruction :=
  (forest.parentInstruction ix).map (topLoop forest forest.flattened.length)

/-- The links up and down agree, and top_instruction follows them to the top level. -/
structure Linked (forest : Forest) : Prop where
  parents : ∀ x∈forest.flattened,∀ p∈forest.flattened,
    forest.parentInstruction x=some p ↔ forest.Inner p x
  tops : ∀ x∈forest.flattened,forest.topInstruction x=none ↔ x∈forest.roots
  nested : ∀ r x,forest.Under r x → forest.topInstruction x=some r

/-- The top-level instructions have the parent, and every other one its own. -/
def HasParent (parent : Option Nat) : Forest → Prop
  | nil => True
  | cons ix inner rest =>
    ix.parentInstruction=parent ∧ inner.HasParent (some ix.ref) ∧ rest.HasParent parent

theorem flattened_append (a b : Forest) :
    (a.append b).flattened=a.flattened++b.flattened := by
  induction a with
  | nil => rfl
  | cons ix inner rest _ ih => simp [append,flattened,ih]

theorem hasParent_append {parent : Option Nat} {a b : Forest} (ha : a.HasParent parent)
    (hb : b.HasParent parent) : (a.append b).HasParent parent := by
  induction a with
  | nil => exact hb
  | cons ix inner rest _ ih => exact ⟨ha.1,ha.2.1,ih ha.2.2⟩

theorem mem_of_roots {forest : Forest} {x : StructuredInstruction} (h : x∈forest.roots) :
    x∈forest.flattened := by
  induction forest with
  | nil => exact h
  | cons ix inner rest _ ih =>
    rcases List.mem_cons.mp h with rfl|h
    · simp [flattened]
    · simp [flattened,ih h]

theorem Inner.mem {forest : Forest} {p x : StructuredInstruction} (h : forest.Inner p x) :
    p∈forest.flattened ∧ x∈forest.flattened := by
  induction h with
  | here hx => simp [flattened,mem_of_roots hx]
  | inside _ ih => simp [flattened,ih.1,ih.2]
  | later _ ih => simp [flattened,ih.1,ih.2]

theorem root_or_inner {forest : Forest} {x : StructuredInstruction} (h : x∈forest.flattened) :
    x∈forest.roots ∨ ∃ p,forest.Inner p x := by
  induction forest with
  | nil => exact .inl h
  | cons ix inner rest ihi ih =>
    rw [flattened,List.mem_cons,List.mem_append] at h
    rcases h with rfl|h|h
    · exact .inl (List.mem_cons_self)
    · rcases ihi h with hroot|⟨p,hp⟩
      · exact .inr ⟨ix,.here hroot⟩
      · exact .inr ⟨p,.inside hp⟩
    · rcases ih h with hroot|⟨p,hp⟩
      · exact .inl (List.mem_cons_of_mem _ hroot)
      · exact .inr ⟨p,.later hp⟩

theorem Under.root {forest : Forest} {r x : StructuredInstruction} (h : forest.Under r x) :
    r∈forest.roots := by
  induction h with
  | here _ => exact List.mem_cons_self
  | later _ ih => exact List.mem_cons_of_mem _ ih

/-- One step up stays inside the top-level instruction. -/
theorem Under.parent {forest : Forest} {r x : StructuredInstruction} (h : forest.Under r x) :
    ∃ p,forest.Inner p x ∧ (p=r ∨ forest.Under r p) := by
  induction h with
  | @here r x inner rest hx =>
    rcases root_or_inner hx with hroot|⟨p,hp⟩
    · exact ⟨r,.here hroot,.inl rfl⟩
    · exact ⟨p,.inside hp,.inr (.here hp.mem.1)⟩
  | later _ ih =>
    obtain ⟨p,hp,hin⟩ := ih
    exact ⟨p,.later hp,hin.imp_right .later⟩

theorem HasParent.root {parent : Option Nat} {forest : Forest} (h : forest.HasParent parent)
    {x : StructuredInstruction} (hx : x∈forest.roots) : x.parentInstruction=parent := by
  induction forest with
  | nil => simp [roots] at hx
  | cons ix inner rest _ ih =>
    rcases List.mem_cons.mp hx with rfl|hx
    · exact h.1
    · exact ih h.2.2 hx

theorem HasParent.inner {parent : Option Nat} {forest : Forest} (h : forest.HasParent parent)
    {p x : StructuredInstruction} (hx : forest.Inner p x) : x.parentInstruction=some p.ref := by
  induction hx generalizing parent with
  | here hx => exact h.2.1.root hx
  | inside _ ih => exact ih h.2.1
  | later _ ih => exact ih h.2.2

/-- An instruction starts before those inside it. -/
theorem Inner.ref_lt {forest : Forest} {p x : StructuredInstruction} (h : forest.Inner p x)
    (hsorted : (forest.flattened.map StructuredInstruction.ref).Pairwise (·<·)) :
    p.ref<x.ref := by
  induction h with
  | here hx =>
    rw [flattened,List.map_cons,List.pairwise_cons] at hsorted
    exact hsorted.1 _ (List.mem_map_of_mem (List.mem_append_left _ (mem_of_roots hx)))
  | inside _ ih =>
    rw [flattened,List.map_cons,List.map_append,List.pairwise_cons,List.pairwise_append] at hsorted
    exact ih hsorted.2.1
  | later _ ih =>
    rw [flattened,List.map_cons,List.map_append,List.pairwise_cons,List.pairwise_append] at hsorted
    exact ih hsorted.2.2.1

private theorem find_ref {ixs : List StructuredInstruction}
    (hsorted : (ixs.map StructuredInstruction.ref).Pairwise (·<·)) {p : StructuredInstruction}
    (hp : p∈ixs) : ixs.find? (fun q => q.ref==p.ref)=some p := by
  induction ixs with
  | nil => simp at hp
  | cons ix rest ih =>
    rw [List.map_cons,List.pairwise_cons] at hsorted
    rcases List.mem_cons.mp hp with rfl|hp
    · simp
    · have hlt := hsorted.1 p.ref (List.mem_map_of_mem hp)
      have hne : (ix.ref==p.ref)=false := by simpa using hlt.ne
      rw [List.find?_cons,hne]
      exact ih hsorted.2 hp

section
variable {forest : Forest} {n : Nat} (hparents : forest.HasParent none)
  (hrefs : forest.flattened.map StructuredInstruction.ref=List.range n)

include hrefs

theorem sorted_of_range :
    (forest.flattened.map StructuredInstruction.ref).Pairwise (·<·) := by
  rw [hrefs]
  exact List.pairwise_lt_range

private theorem ref_lt_length {x : StructuredInstruction} (hx : x∈forest.flattened) :
    x.ref<forest.flattened.length := by
  have hmem : x.ref∈forest.flattened.map StructuredInstruction.ref := List.mem_map_of_mem hx
  have hlen := congrArg List.length hrefs
  rw [List.length_map,List.length_range] at hlen
  rw [hrefs,List.mem_range] at hmem
  omega

include hparents

theorem parentInstruction_inner {p x : StructuredInstruction} (h : forest.Inner p x) :
    forest.parentInstruction x=some p := by
  rw [parentInstruction,hparents.inner h,Option.bind_some]
  exact find_ref (sorted_of_range hrefs) h.mem.1

omit hrefs in
theorem parentInstruction_root {x : StructuredInstruction} (h : x∈forest.roots) :
    forest.parentInstruction x=none := by
  rw [parentInstruction,hparents.root h,Option.bind_none]

omit hrefs in
theorem topLoop_root {r : StructuredInstruction} (h : r∈forest.roots) (turns : Nat) :
    topLoop forest turns r=r := by
  cases turns with
  | zero => rfl
  | succ turns => rw [topLoop,parentInstruction_root hparents h]

/-- Climbing lowers the number of the instruction, so that the turns are enough. -/
theorem topLoop_under {r : StructuredInstruction} (turns : Nat) :
    ∀ x,forest.Under r x → x.ref≤turns → topLoop forest turns x=r := by
  induction turns with
  | zero =>
    intro x hx hle
    obtain ⟨p,hp,_⟩ := hx.parent
    have hlt := hp.ref_lt (sorted_of_range hrefs)
    omega
  | succ turns ih =>
    intro x hx hle
    obtain ⟨p,hp,hin⟩ := hx.parent
    have hlt := hp.ref_lt (sorted_of_range hrefs)
    rw [topLoop,parentInstruction_inner hparents hrefs hp]
    rcases hin with rfl|hin
    · exact topLoop_root hparents hx.root turns
    · exact ih p hin (by omega)

/-- With every parent recorded the links agree. -/
theorem linked_of_hasParent : forest.Linked where
  parents := by
    intro x hx p hp
    refine ⟨?_,parentInstruction_inner hparents hrefs⟩
    intro hparent
    rcases root_or_inner hx with hroot|⟨q,hq⟩
    · rw [parentInstruction_root hparents hroot] at hparent
      cases hparent
    · rw [parentInstruction_inner hparents hrefs hq] at hparent
      exact Option.some_inj.mp hparent ▸ hq
  tops := by
    intro x hx
    constructor
    · intro htop
      rcases root_or_inner hx with hroot|⟨q,hq⟩
      · exact hroot
      · rw [topInstruction,parentInstruction_inner hparents hrefs hq] at htop
        cases htop
    · intro hroot
      rw [topInstruction,parentInstruction_root hparents hroot]
      rfl
  nested := by
    intro r x hx
    obtain ⟨p,hp,hin⟩ := hx.parent
    rw [topInstruction,parentInstruction_inner hparents hrefs hp,Option.map_some]
    rcases hin with rfl|hin
    · rw [topLoop_root hparents hx.root]
    · rw [topLoop_under hparents hrefs _ p hin (ref_lt_length hrefs hp.mem.1).le]

end

end Forest

/-- The instructions of a running state in the order they started. -/
def Structuring.order (s : Structuring) : List StructuredInstruction :=
  s.structuredInstructions.flattened++
    s.instructionStack.reverse.flatMap fun p => p.1::p.2.flattened

/-- Of the instructions closed so far each knows its parent, those still open do not yet, and k
have started. -/
structure Threaded (k : Nat) (s : Structuring) : Prop where
  closed : s.structuredInstructions.HasParent none
  opened : ∀ p∈s.instructionStack,p.1.parentInstruction=none ∧ p.2.HasParent (some p.1.ref)
  refs : s.order.map StructuredInstruction.ref=List.range k

section
variable {recordParent : Bool} {s s' : Structuring} {popped : StructuredInstruction}
  {inner : Forest} {below : List (StructuredInstruction × Forest)} {k : Nat}

/-- What popping the last open instruction does to the forest. -/
theorem popInstruction_last (hs : s.instructionStack=[(popped,inner)])
    (h : popInstruction recordParent s=some s') :
    ∃ own,s'.instructionStack=[] ∧ s'.structuredInstructions=
      s.structuredInstructions.append (.cons {popped with logs := own} inner .nil) := by
  simp only [popInstruction,hs,bind,Option.bind_eq_some_iff] at h
  obtain ⟨⟨own,logStack,logs⟩,_,h⟩ := h
  rw [← Option.some_inj.mp h]
  exact ⟨own,rfl,Forest.push_eq_append _ _ _⟩

theorem popInstruction_inner {parent : StructuredInstruction} {siblings : Forest}
    {rest : List (StructuredInstruction × Forest)}
    (hs : s.instructionStack=(popped,inner)::(parent,siblings)::rest)
    (h : popInstruction recordParent s=some s') :
    ∃ own,s'.structuredInstructions=s.structuredInstructions ∧
      s'.instructionStack=(parent,siblings.append (.cons {popped with
        logs := own
        parentInstruction := if recordParent then some parent.ref else popped.parentInstruction}
          inner .nil))::rest := by
  simp only [popInstruction,hs,bind,Option.bind_eq_some_iff] at h
  obtain ⟨⟨own,logStack,logs⟩,_,h⟩ := h
  rw [← Option.some_inj.mp h]
  exact ⟨own,rfl,by rw [Forest.push_eq_append]⟩

theorem Threaded.pop_last (hs : s.instructionStack=[(popped,inner)]) (ht : Threaded k s)
    (h : popInstruction recordParent s=some s') : Threaded k s' := by
  obtain ⟨own,hstack,hclosed⟩ := popInstruction_last hs h
  obtain ⟨hnone,hinner⟩ := ht.opened (popped,inner) (by simp [hs])
  refine ⟨?_,by simp [hstack],?_⟩
  · rw [hclosed]
    exact Forest.hasParent_append ht.closed ⟨hnone,hinner,trivial⟩
  · rw [← ht.refs,Structuring.order,Structuring.order,hs,hstack,hclosed,Forest.flattened_append]
    simp [Forest.flattened]

/-- The first loop records the parent of what it pops. -/
theorem Threaded.pop (ht : Threaded k s) (h : popInstruction true s=some s') : Threaded k s' := by
  cases hs : s.instructionStack with
  | nil =>
    have hsame : s=s' := by simpa [popInstruction,hs] using h
    exact hsame ▸ ht
  | cons top below =>
    obtain ⟨popped,inner⟩ := top
    cases below with
    | nil => exact ht.pop_last hs h
    | cons next rest =>
      obtain ⟨parent,siblings⟩ := next
      obtain ⟨own,hclosed,hstack⟩ := popInstruction_inner hs h
      obtain ⟨_,hinner⟩ := ht.opened (popped,inner) (by simp [hs])
      obtain ⟨hnone,hsiblings⟩ := ht.opened (parent,siblings) (by simp [hs])
      refine ⟨hclosed ▸ ht.closed,?_,?_⟩
      · intro p hp
        rw [hstack] at hp
        rcases List.mem_cons.mp hp with rfl|hp
        · exact ⟨hnone,Forest.hasParent_append hsiblings ⟨by simp,hinner,trivial⟩⟩
        · exact ht.opened p (by simp [hs,hp])
      · rw [← ht.refs,Structuring.order,Structuring.order,hs,hstack,hclosed]
        simp [Forest.flattened,Forest.flattened_append]

theorem Threaded.popWhile {height : Option Nat} (turns : Nat) :
    ∀ {s s' : Structuring},Threaded k s → popWhile true height turns s=some s' →
      Threaded k s' := by
  induction turns with
  | zero => exact fun ht h => Option.some_inj.mp h ▸ ht
  | succ turns ih =>
    intro s s' ht h
    rw [Substreams.popWhile] at h
    split at h
    · exact Option.some_inj.mp h ▸ ht
    · split at h
      · obtain ⟨m,hm,hrest⟩ := Option.bind_eq_some_iff.mp h
        exact ih (ht.pop hm) hrest
      · exact Option.some_inj.mp h ▸ ht

private theorem newStructured_fresh {accounts : List Bytes} {ref : Nat} {ix : WrappedInstruction}
    {node : StructuredInstruction} (h : newStructured accounts ref ix=some node) :
    node.ref=ref ∧ node.parentInstruction=none ∧ node.instruction=ix := by
  simp only [newStructured,bind,Option.bind_eq_some_iff] at h
  obtain ⟨_,_,_,_,h⟩ := h
  rw [← Option.some_inj.mp h]
  exact ⟨rfl,rfl,rfl⟩

/-- What a step of the structuring loop does to the instructions. -/
theorem structureStep_eq_some {accounts : List Bytes} {ref : Nat} {ix : WrappedInstruction}
    (h : structureStep accounts s ref ix=some s') :
    ∃ node m,newStructured accounts ref ix=some node ∧
      popWhile true ix.stackHeight s.instructionStack.length s=some m ∧
      s'.structuredInstructions=m.structuredInstructions ∧
      s'.instructionStack=(node,.nil)::m.instructionStack := by
  simp only [structureStep,bind,Option.bind_eq_some_iff] at h
  obtain ⟨node,hnode,m,hm,⟨logStack,logs⟩,_,h⟩ := h
  rw [newStructured_height hnode] at hm
  rw [← Option.some_inj.mp h]
  exact ⟨node,m,hnode,hm,rfl,rfl⟩

theorem Threaded.step {accounts : List Bytes} {ix : WrappedInstruction} (ht : Threaded k s)
    (h : structureStep accounts s k ix=some s') : Threaded (k+1) s' := by
  obtain ⟨node,m,hnode,hm,hclosed,hstack⟩ := structureStep_eq_some h
  obtain ⟨href,hparent,_⟩ := newStructured_fresh hnode
  have htm := ht.popWhile _ hm
  refine ⟨hclosed ▸ htm.closed,?_,?_⟩
  · intro p hp
    rw [hstack] at hp
    rcases List.mem_cons.mp hp with rfl|hp
    · exact ⟨hparent,trivial⟩
    · exact htm.opened p hp
  · rw [List.range_succ,← htm.refs,Structuring.order,Structuring.order,hclosed,hstack]
    simp [Forest.flattened,href]

/-- What steps keep of the instructions structured so far holds at the end of the loop. -/
theorem structureLoop_invariant {accounts : List Bytes}
    {I : List WrappedInstruction → Structuring → Prop}
    (hstep : ∀ done ix s s',I done s → structureStep accounts s done.length ix=some s' →
      I (done++[ix]) s') (rest : List WrappedInstruction) :
    ∀ {done : List WrappedInstruction} {s s' : Structuring},I done s →
      structureLoop accounts done.length rest s=some s' → I (done++rest) s' := by
  induction rest with
  | nil =>
    intro done s s' hI h
    rw [List.append_nil]
    exact Option.some_inj.mp h ▸ hI
  | cons ix rest ih =>
    intro done s s' hI h
    obtain ⟨m,hm,hrest⟩ := Option.bind_eq_some_iff.mp h
    have hlen : done.length+1=(done++[ix]).length := by simp
    rw [hlen] at hrest
    have hall := ih (hstep done ix s m hI hm) hrest
    rwa [List.append_assoc] at hall

/-- The heights of the open instructions, the innermost first. -/
def openHeights (s : Structuring) : List (Option Nat) :=
  s.instructionStack.map fun p => p.1.stackHeight

private theorem popInstruction_heights (hs : s.instructionStack=(popped,inner)::below)
    (h : popInstruction recordParent s=some s') : openHeights s'=below.map fun p => p.1.stackHeight := by
  cases below with
  | nil =>
    obtain ⟨_,hstack,_⟩ := popInstruction_last hs h
    rw [openHeights,hstack]
  | cons next rest =>
    obtain ⟨parent,siblings⟩ := next
    obtain ⟨_,_,hstack⟩ := popInstruction_inner hs h
    rw [openHeights,hstack]
    rfl

/-- Popping takes the open instructions at least as high as the height, and stops at a lower one. -/
theorem popWhile_heights {height : Option Nat} (turns : Nat) :
    ∀ {s s' : Structuring},s.instructionStack.length≤turns →
      popWhile recordParent height turns s=some s' →
      ∃ popped,openHeights s=popped++openHeights s' ∧ (∀ h∈popped,heightGe h height=true) ∧
        ∀ top∈(openHeights s').head?,heightGe top height=false := by
  induction turns with
  | zero =>
    intro s s' hturns h
    have hempty : s.instructionStack=[] := List.eq_nil_of_length_eq_zero (by omega)
    refine ⟨[],by rw [Option.some_inj.mp h]; rfl,by simp,?_⟩
    rw [← Option.some_inj.mp h]
    simp [openHeights,hempty]
  | succ turns ih =>
    intro s s' hturns h
    rw [popWhile] at h
    cases hs : s.instructionStack with
    | nil =>
      have hsame : s=s' := by simpa [hs] using h
      refine ⟨[],by rw [hsame]; rfl,by simp,?_⟩
      rw [← hsame]
      simp [openHeights,hs]
    | cons top below =>
      by_cases hge : heightGe top.1.stackHeight height=true
      · simp only [hs,hge,if_true] at h
        obtain ⟨m,hm,hrest⟩ := Option.bind_eq_some_iff.mp h
        have hheights := popInstruction_heights hs hm
        have hlen : m.instructionStack.length≤turns := by
          have hlen := congrArg List.length hheights
          rw [openHeights,List.length_map,List.length_map] at hlen
          rw [hs,List.length_cons] at hturns
          omega
        obtain ⟨popped,hsplit,hpopped,hstop⟩ := ih hlen hrest
        refine ⟨top.1.stackHeight::popped,?_,?_,hstop⟩
        · rw [List.cons_append,← hsplit,hheights,openHeights,hs]
          rfl
        · intro h hh
          rcases List.mem_cons.mp hh with rfl|hh
          · exact hge
          · exact hpopped h hh
      · simp only [hs,hge] at h
        have hsame : s=s' := by simpa using h
        refine ⟨[],by rw [hsame]; rfl,by simp,?_⟩
        rw [← hsame]
        simpa [openHeights,hs] using hge

private theorem heightGe_trans {a b c : Option Nat} (hab : heightGe a b=true)
    (hbc : heightGe b c=true) :
    heightGe a c=true := by
  cases c with
  | none => cases a <;> rfl
  | some z =>
    cases b with
    | none => simp [heightGe] at hbc
    | some y =>
      cases a with
      | none => simp [heightGe] at hab
      | some x =>
        simp only [heightGe,decide_eq_true_eq] at hab hbc ⊢
        omega

/-- The lowest open instruction is as low as any that has started. -/
def LowestOpen (done : List WrappedInstruction) (s : Structuring) : Prop :=
  ∀ height,(∀ h∈openHeights s,heightGe h height=true) ↔
    ∀ ix∈done,heightGe ix.stackHeight height=true

/-- A step leaves only the new instruction open exactly if none before was lower. -/
theorem LowestOpen.step {accounts : List Bytes} {ref : Nat} {done : List WrappedInstruction}
    {ix : WrappedInstruction} (hl : LowestOpen done s)
    (h : structureStep accounts s ref ix=some s') :
    LowestOpen (done++[ix]) s' ∧ (s'.instructionStack.length≤1 ↔
      ∀ earlier∈done,heightGe earlier.stackHeight ix.stackHeight=true) := by
  obtain ⟨node,m,hnode,hm,_,hstack⟩ := structureStep_eq_some h
  obtain ⟨popped,hsplit,hpopped,hstop⟩ := popWhile_heights _ le_rfl hm
  have hopen : openHeights s'=ix.stackHeight::openHeights m := by
    rw [openHeights,hstack,List.map_cons,newStructured_height hnode]
    rfl
  constructor
  · intro height
    simp only [hopen,List.forall_mem_append,List.forall_mem_cons,← hl height,hsplit]
    constructor
    · rintro ⟨hix,hkept⟩
      exact ⟨⟨fun x hx => heightGe_trans (hpopped x hx) hix,hkept⟩,hix,by simp⟩
    · rintro ⟨⟨_,hkept⟩,hix,_⟩
      exact ⟨hix,hkept⟩
  · rw [← hl ix.stackHeight,hsplit]
    have hlen : s'.instructionStack.length=(openHeights m).length+1 := by
      have hlen := congrArg List.length hopen
      rwa [openHeights,List.length_map,List.length_cons] at hlen
    rw [hlen]
    constructor
    · intro hle
      have hnil : openHeights m=[] := List.eq_nil_of_length_eq_zero (by omega)
      rw [hnil,List.append_nil]
      exact hpopped
    · intro hall
      cases hm' : openHeights m with
      | nil => simp
      | cons top rest =>
        have hlow := hstop top (by simp [hm'])
        rw [hall top (by simp [hm'])] at hlow
        cases hlow

/-- No instruction before the last one is lower than it. -/
def LastLowest (ixs : List WrappedInstruction) : Prop :=
  ∀ last∈ixs.getLast?,∀ ix∈ixs,heightGe ix.stackHeight last.stackHeight=true

instance (ixs : List WrappedInstruction) : Decidable (LastLowest ixs) :=
  inferInstanceAs (Decidable (∀ last∈ixs.getLast?,∀ ix∈ixs,
    heightGe ix.stackHeight last.stackHeight=true))

private theorem heightGe_refl (h : Option Nat) : heightGe h h=true := by
  cases h <;> simp [heightGe]

/-- At the end of the loop the instructions are threaded, and at most one is open exactly if the
last one is the lowest. -/
theorem structureLoop_end {accounts : List Bytes} {ixs : List WrappedInstruction}
    {logs : List Log} {s : Structuring}
    (h : structureLoop accounts 0 ixs ⟨.nil,[],⟨[],false⟩,logs⟩=some s) :
    Threaded ixs.length s ∧ (s.instructionStack.length≤1 ↔ LastLowest ixs) := by
  let I (done : List WrappedInstruction) (s : Structuring) : Prop :=
    Threaded done.length s ∧ LowestOpen done s ∧
      (s.instructionStack.length≤1 ↔ LastLowest done)
  have hstart : I [] ⟨.nil,[],⟨[],false⟩,logs⟩ :=
    ⟨⟨trivial,by simp,rfl⟩,by simp [LowestOpen,openHeights],by simp [LastLowest]⟩
  have hstep : ∀ done ix s s',I done s → structureStep accounts s done.length ix=some s' →
      I (done++[ix]) s' := by
    rintro done ix s s' ⟨ht,hl,_⟩ hs
    obtain ⟨hlowest,hone⟩ := hl.step hs
    refine ⟨?_,hlowest,hone.trans ?_⟩
    · rw [List.length_append]
      exact ht.step hs
    · simp [LastLowest,heightGe_refl,or_imp,forall_and]
  exact (structureLoop_invariant hstep ixs hstart h).imp_right And.right

/-- Some instruction is inside another and knows no parent, or will be once all are closed. -/
def Orphaned (s : Structuring) : Prop :=
  (∃ p x,s.structuredInstructions.Inner p x ∧ x.parentInstruction=none) ∨
    ∃ p∈s.instructionStack,∃ x∈p.2.flattened,x.parentInstruction=none

private theorem inner_append {a b : Forest} {p x : StructuredInstruction} (h : a.Inner p x) :
    (a.append b).Inner p x := by
  induction a with
  | nil => cases h
  | cons ix inner rest _ ih =>
    cases h with
    | here hx => exact .here hx
    | inside h => exact .inside h
    | later h => exact .later (ih h)

private theorem inner_append_right (a : Forest) {b : Forest} {p x : StructuredInstruction}
    (h : b.Inner p x) : (a.append b).Inner p x := by
  induction a with
  | nil => exact h
  | cons ix inner rest _ ih => exact .later ih

private theorem inner_of_flattened {inner rest : Forest} {p x : StructuredInstruction}
    (h : x∈inner.flattened) : ∃ q,(Forest.cons p inner rest).Inner q x := by
  rcases Forest.root_or_inner h with hroot|⟨q,hq⟩
  · exact ⟨p,.here hroot⟩
  · exact ⟨q,.inside hq⟩

theorem Orphaned.pop (ho : Orphaned s) (h : popInstruction false s=some s') : Orphaned s' := by
  cases hs : s.instructionStack with
  | nil =>
    have hsame : s=s' := by simpa [popInstruction,hs] using h
    exact hsame ▸ ho
  | cons top below =>
    obtain ⟨popped,inner⟩ := top
    cases below with
    | nil =>
      obtain ⟨own,_,hclosed⟩ := popInstruction_last hs h
      rw [Orphaned,hclosed]
      rcases ho with ⟨p,x,hx,hnone⟩|⟨p,hp,x,hx,hnone⟩
      · exact .inl ⟨p,x,inner_append hx,hnone⟩
      · rw [hs,List.mem_singleton] at hp
        rw [hp] at hx
        obtain ⟨q,hq⟩ := inner_of_flattened hx
        exact .inl ⟨q,x,inner_append_right _ hq,hnone⟩
    | cons next rest =>
      obtain ⟨parent,siblings⟩ := next
      obtain ⟨own,hclosed,hstack⟩ := popInstruction_inner hs h
      rw [Orphaned,hclosed,hstack]
      rcases ho with hinner|⟨p,hp,x,hx,hnone⟩
      · exact .inl hinner
      · right
        rw [hs] at hp
        rcases List.mem_cons.mp hp with rfl|hp
        · refine ⟨_,List.mem_cons_self,x,?_,hnone⟩
          simp [Forest.flattened_append,Forest.flattened,hx]
        · rcases List.mem_cons.mp hp with rfl|hp
          · refine ⟨_,List.mem_cons_self,x,?_,hnone⟩
            simp [Forest.flattened_append,hx]
          · exact ⟨p,List.mem_cons_of_mem _ hp,x,hx,hnone⟩

theorem Orphaned.popAll (turns : Nat) :
    ∀ {s s' : Structuring},Orphaned s → Substreams.popAll turns s=some s' → Orphaned s' := by
  induction turns with
  | zero => exact fun ho h => Option.some_inj.mp h ▸ ho
  | succ turns ih =>
    intro s s' ho h
    obtain ⟨m,hm,hrest⟩ := Option.bind_eq_some_iff.mp h
    exact ih (ho.pop hm) hrest

private theorem popAll_closed (turns : Nat) :
    ∀ {s s' : Structuring},s.instructionStack.length≤turns → popAll turns s=some s' →
      s'.instructionStack=[] := by
  induction turns with
  | zero =>
    intro s s' hturns h
    rw [← Option.some_inj.mp h]
    exact List.eq_nil_of_length_eq_zero (by omega)
  | succ turns ih =>
    intro s s' hturns h
    obtain ⟨m,hm,hrest⟩ := Option.bind_eq_some_iff.mp h
    refine ih ?_ hrest
    cases hs : s.instructionStack with
    | nil =>
      have hsame : s=m := by simpa [popInstruction,hs] using hm
      simp [← hsame,hs]
    | cons top below =>
      rw [popInstruction_length hs hm]
      rw [hs,List.length_cons] at hturns
      omega

/-- The last loop leaves the links whole if at most one instruction is open, and otherwise gives
the innermost one no parent. -/
theorem popAll_links {k : Nat} (ht : Threaded k s)
    (h : popAll s.instructionStack.length s=some s') :
    s'.structuredInstructions.Linked ↔ s.instructionStack.length≤1 := by
  have hclosed := popAll_closed _ le_rfl h
  have hwhole (ht' : Threaded k s') : s'.structuredInstructions.Linked := by
    refine Forest.linked_of_hasParent (n := k) ht'.closed ?_
    have hrefs := ht'.refs
    rwa [Structuring.order,hclosed,List.reverse_nil,List.flatMap_nil,List.append_nil] at hrefs
  rcases hs : s.instructionStack with _|⟨⟨popped,inner⟩,below⟩
  · rw [hs] at h
    have hsame : s=s' := Option.some_inj.mp h
    exact iff_of_true (hwhole (hsame ▸ ht)) (by simp)
  · rw [hs,List.length_cons] at h
    obtain ⟨m,hm,hrest⟩ := Option.bind_eq_some_iff.mp h
    rcases below with _|⟨⟨parent,siblings⟩,rest⟩
    · have hsame : m=s' := Option.some_inj.mp hrest
      exact iff_of_true (hwhole (hsame ▸ ht.pop_last hs hm)) (by simp)
    · refine iff_of_false ?_ (by simp)
      intro hlinked
      obtain ⟨own,_,hstack⟩ := popInstruction_inner hs hm
      have hnone := (ht.opened (popped,inner) (by simp [hs])).1
      have horphan : Orphaned m := by
        refine .inr ⟨_,by rw [hstack]; exact List.mem_cons_self,
          {popped with logs := own},?_,hnone⟩
        simp [Forest.flattened_append,Forest.flattened]
      rcases horphan.popAll _ hrest with ⟨p,x,hx,hxnone⟩|⟨p,hp,_⟩
      · have hparent := (hlinked.parents x hx.mem.2 p hx.mem.1).mpr hx
        rw [Forest.parentInstruction,hxnone] at hparent
        cases hparent
      · rw [hclosed] at hp
        cases hp

end

/-- The links of the result agree exactly if no instruction of the sequence is lower than the last
one, so that the loop at the end has a single instruction to pop. -/
theorem links_agree_iff (flattenedInstructions : List WrappedInstruction) (logs : List Log)
    (accounts : List Bytes) (forest : Forest)
    (h : structureFlattenedInstructionsWithLogs flattenedInstructions logs accounts=some forest) :
    forest.Linked ↔ LastLowest flattenedInstructions := by
  simp only [structureFlattenedInstructionsWithLogs,bind,Option.bind_eq_some_iff] at h
  obtain ⟨s,hs,t,ht,hforest⟩ := h
  obtain ⟨hthreaded,hone⟩ := structureLoop_end hs
  rw [← Option.some_inj.mp hforest,← hone]
  exact popAll_links hthreaded ht

section Sample

def outerCall : WrappedInstruction := .compiled ⟨0,[],[]⟩

def innerCall : WrappedInstruction := .inner ⟨0,[],[],some 2⟩

def callLogs (more : List Log) : List Log :=
  [.invoke "outer",.invoke "inner",.success "inner",.success "outer"]++more

/-- A third instruction, at the top level, follows the nested one. -/
theorem links_agree_followed :
    ∃ forest,structureFlattenedInstructionsWithLogs [outerCall,innerCall,outerCall]
        (callLogs [.invoke "last",.success "last"]) [tokenProgramId.bytes]=some forest ∧
      forest.Linked := by
  obtain ⟨forest,hforest⟩ := Option.isSome_iff_exists.mp (show
    (structureFlattenedInstructionsWithLogs [outerCall,innerCall,outerCall]
      (callLogs [.invoke "last",.success "last"]) [tokenProgramId.bytes]).isSome=true by
        decide +kernel)
  exact ⟨forest,hforest,(links_agree_iff _ _ _ forest hforest).mpr (by decide)⟩

def outerNode : StructuredInstruction :=
  ⟨0,outerCall,[],tokenProgramId.bytes,none,some [.invoke "outer",.success "outer"]⟩

def innerNode : StructuredInstruction :=
  ⟨1,innerCall,[],tokenProgramId.bytes,none,some [.invoke "inner",.success "inner"]⟩

/-- The nested instruction is the last of the transaction: it is one of the inner instructions of
the first, and neither its parent nor its top-level instruction is known. -/
theorem last_nested_unlinked :
    ∃ forest,structureFlattenedInstructionsWithLogs [outerCall,innerCall] (callLogs [])
        [tokenProgramId.bytes]=some forest ∧
      forest.Inner outerNode innerNode ∧ forest.parentInstruction innerNode=none ∧
      forest.topInstruction innerNode=none ∧ ¬forest.Linked := by
  have hforest : structureFlattenedInstructionsWithLogs [outerCall,innerCall] (callLogs [])
      [tokenProgramId.bytes]=some (.cons outerNode (.cons innerNode .nil .nil) .nil) := by
    decide +kernel
  have hinner : (Forest.cons outerNode (.cons innerNode .nil .nil) .nil).Inner outerNode
      innerNode := .here List.mem_cons_self
  refine ⟨_,hforest,hinner,rfl,rfl,?_⟩
  intro hlinked
  have hparent := (hlinked.parents innerNode hinner.mem.2 outerNode hinner.mem.1).mpr hinner
  cases hparent

end Sample

end SolanaM.Substreams
