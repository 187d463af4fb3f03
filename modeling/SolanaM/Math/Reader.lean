import SolanaM.Framework.Fallible

namespace SolanaM

/-- A parser of a value at the front of its input, with what it leaves of the input. -/
abbrev Reader (ε σ α : Type) := List σ → Except ε (α×List σ)

namespace Reader

variable {ε σ α β : Type}

/-- The reader accepts the encodings of its values and nothing else, whatever follows them. -/
def Reads (r : Reader ε σ α) (write : α → List σ) : Prop :=
  ∀ input a rest,r input=.ok (a,rest) ↔ input=write a++rest

/-- The reader's only error. -/
def Fails (r : Reader ε σ α) (e : ε) : Prop := ∀ input e',r input=.error e' → e'=e

/-- One symbol. -/
def splitFirst (e : ε) : Reader ε σ σ
  | [] => .error e
  | s::rest => .ok (s,rest)

/-- A block of n symbols. -/
def block (e : ε) (n : Nat) (decode : List σ → Option α) : Reader ε σ α := fun input =>
  if n ≤ input.length then
    match decode (input.take n) with
    | some a => .ok (a,input.drop n)
    | none => .error e
  else .error e

/-- A value behind the symbol present, or the symbol absent alone. -/
def optional [DecidableEq σ] (e : ε) (absent present : σ) (r : Reader ε σ α) :
    Reader ε σ (Option α)
  | [] => .error e
  | s::rest =>
    if s=absent then .ok (none,rest)
    else if s=present then do
      let (a,rest) ← r rest
      .ok (some a,rest)
    else .error e

def pair (r : Reader ε σ α) (r' : Reader ε σ β) : Reader ε σ (α×β) := fun input => do
  let (a,rest) ← r input
  let (b,rest) ← r' rest
  .ok ((a,b),rest)

def writeOptional (absent present : σ) (write : α → List σ) : Option α → List σ
  | none => [absent]
  | some a => present::write a

section Laws

variable {r : Reader ε σ α} {write : α → List σ} {e : ε}

/-- What follows a reader runs on what the reader leaves. -/
theorem Reads.bind (h : Reads r write) {f : α×List σ → Except ε β} {input : List σ} {b : β} :
    (r input >>= f)=.ok b ↔ ∃ a rest,input=write a++rest ∧ f (a,rest)=.ok b := by
  rw [bind_eq_ok]
  constructor
  · intro hb
    obtain ⟨⟨a,rest⟩,hr,hf⟩ := hb
    exact ⟨a,rest,(h input a rest).mp hr,hf⟩
  · intro hb
    obtain ⟨a,rest,hr,hf⟩ := hb
    exact ⟨(a,rest),(h input a rest).mpr hr,hf⟩

theorem splitFirst_reads : Reads (splitFirst e) fun s : σ => [s] := by
  intro input s rest
  cases input with
  | nil => exact ⟨nofun,nofun⟩
  | cons s' rest' => simp [splitFirst]

theorem block_reads {n : Nat} {decode : List σ → Option α}
    (h : ∀ part a,part.length=n ∧ decode part=some a ↔ part=write a) :
    Reads (block e n decode) write := by
  intro input a rest
  constructor
  · intro hr
    unfold block at hr
    split at hr
    · rename_i hle
      split at hr
      · rename_i a' ha
        cases hr
        rw [← (h _ _).mp ⟨List.length_take_of_le hle,ha⟩,List.take_append_drop]
      · exact nomatch hr
    · exact nomatch hr
  · intro hr
    obtain ⟨hlen,hdecode⟩ := (h _ a).mpr rfl
    rw [hr,block,List.length_append,if_pos (by omega),List.take_left' hlen,List.drop_left' hlen,
      hdecode]

theorem optional_reads [DecidableEq σ] {absent present : σ} (hne : absent≠present)
    (h : Reads r write) :
    Reads (optional e absent present r) (writeOptional absent present write) := by
  intro input a rest
  cases input with
  | nil => cases a <;> exact ⟨nofun,nofun⟩
  | cons s tail =>
    rw [optional]
    by_cases habsent : s=absent
    · cases a with
      | none => simp [habsent,writeOptional]
      | some a => simp [habsent,writeOptional,hne]
    · by_cases hpresent : s=present
      · rw [if_neg habsent,if_pos hpresent,h.bind]
        cases a with
        | none => simp [writeOptional,habsent]
        | some a => simp [writeOptional,hpresent]
      · cases a <;> simp [habsent,hpresent,writeOptional]

theorem pair_reads {r' : Reader ε σ β} {write' : β → List σ} (h : Reads r write)
    (h' : Reads r' write') : Reads (pair r r') fun p => write p.1++write' p.2 := by
  intro input p rest
  simp only [pair,h.bind,h'.bind,Except.ok.injEq,Prod.mk.injEq]
  constructor
  · intro hp
    obtain ⟨a,_,rfl,b,_,rfl,rfl,rfl⟩ := hp
    exact (List.append_assoc _ _ _).symm
  · intro hp
    exact ⟨p.1,_,hp.trans (List.append_assoc _ _ _),p.2,rest,rfl,rfl,rfl⟩

theorem Fails.bind {input : List σ} {f : α×List σ → Except ε β} {e' : ε} (h : Fails r e)
    (hb : (r input >>= f)=.error e') (hf : ∀ p,f p=.error e' → e'=e) : e'=e := by
  cases hr : r input with
  | error e'' =>
    rw [hr] at hb
    cases hb
    exact h input e' hr
  | ok p =>
    rw [hr] at hb
    exact hf p hb

theorem splitFirst_fails : Fails (splitFirst e : Reader ε σ σ) e := by
  intro input e' h
  cases input with
  | nil => exact (Except.error.inj h).symm
  | cons s rest => exact nomatch h

theorem block_fails {n : Nat} {decode : List σ → Option α} : Fails (block e n decode) e := by
  intro input e' h
  unfold block at h
  split at h
  · split at h
    · exact nomatch h
    · exact (Except.error.inj h).symm
  · exact (Except.error.inj h).symm

theorem optional_fails [DecidableEq σ] {absent present : σ} (h : Fails r e) :
    Fails (optional e absent present r) e := by
  intro input e' hr
  cases input with
  | nil => exact (Except.error.inj hr).symm
  | cons s rest =>
    rw [optional] at hr
    split at hr
    · exact nomatch hr
    · split at hr
      · exact h.bind hr nofun
      · exact (Except.error.inj hr).symm

theorem pair_fails {r' : Reader ε σ β} (h : Fails r e) (h' : Fails r' e) : Fails (pair r r') e := by
  intro input e' hr
  refine h.bind hr ?_
  intro p hp
  exact h'.bind hp nofun

end Laws

end Reader

end SolanaM
