import Mathlib.Data.List.Lex
import Mathlib.Order.Nat

namespace SolanaM.Utf8

/-- A sequence that still needs bytes, the next of them between lower and upper. -/
structure Pending where
  codePoint : Nat
  needed : Nat
  lower : Nat
  upper : Nat

/-- U+FFFD -/
def replacement : Nat := 65533

/-- A byte where a sequence may start: a character of its own, a lead byte, or an invalid one.
The bounds keep overlong forms, surrogates and what lies beyond U+10FFFF out. -/
def start (b : Nat) : List Nat × Option Pending :=
  if b<128 then ([b],none)
  else if 194≤b ∧ b<224 then ([],some ⟨b%32,1,128,191⟩)
  else if 224≤b ∧ b<240 then
    ([],some ⟨b%16,2,if b=224 then 160 else 128,if b=237 then 159 else 191⟩)
  else if 240≤b ∧ b<245 then
    ([],some ⟨b%8,3,if b=240 then 144 else 128,if b=244 then 143 else 191⟩)
  else ([replacement],none)

/-- A byte that a sequence cannot take ends it with a replacement and is read as a start. -/
def feed : Option Pending → Nat → List Nat × Option Pending
  | none,b => start b
  | some p,b =>
    if p.lower≤b ∧ b≤p.upper then
      let codePoint := p.codePoint*64+b%64
      if p.needed=1 then ([codePoint],none) else ([],some ⟨codePoint,p.needed-1,128,191⟩)
    else (replacement::(start b).1,(start b).2)

def decode : Option Pending → List Nat → List Nat
  | none,[] => []
  | some _,[] => [replacement]
  | p,b::bytes => (feed p b).1++decode (feed p b).2 bytes

/-- Code points beyond the basic plane become surrogate pairs. -/
def utf16 (codePoint : Nat) : List Nat :=
  if codePoint<65536 then [codePoint]
  else [55296+(codePoint-65536)/1024,56320+(codePoint-65536)%1024]

/-- The string that bytes decode to, as the code units it is compared by. -/
def codeUnits (bytes : List Nat) : List Nat := (decode none bytes).flatMap utf16

/-- ASCII bytes stand for themselves. -/
theorem codeUnits_ascii {bytes : List Nat} (h : ∀ b∈bytes,b<128) : codeUnits bytes=bytes := by
  induction bytes with
  | nil => rfl
  | cons b bytes ih =>
    have hb := h b List.mem_cons_self
    have hrest := ih fun c hc => h c (List.mem_cons_of_mem b hc)
    rw [codeUnits,decode,feed,start,if_pos hb,List.flatMap_append]
    show utf16 b++[]++codeUnits bytes=b::bytes
    rw [hrest,utf16,if_pos (by omega)]
    rfl

-- the lead byte of three, cut short by another lead byte and by the end
example : codeUnits [226,130,195,169,240,159,152,128,226,130]=[65533,233,55357,56832,65533] := by
  decide

end SolanaM.Utf8
