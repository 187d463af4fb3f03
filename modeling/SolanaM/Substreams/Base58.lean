import SolanaM.Substreams.Reference
import Mathlib.Data.Nat.Digits.Defs
import Mathlib.Data.Nat.Digits.Lemmas

namespace SolanaM.Substreams

/-- What keys rely on in the bs58 crate: different bytes have different texts, none of which
contains a dash. -/
structure Base58 (encode : Bytes → String) : Prop where
  injective : Function.Injective encode
  dashless : ∀ bytes,'-'∉(encode bytes).toList

theorem valueOf_eq (base : Nat) (digits : List Nat) :
    valueOf base digits=Nat.ofDigits base digits.reverse := by
  rw [valueOf,Nat.ofDigits_eq_foldr,List.foldr_reverse]
  congr 1
  funext n d
  exact Nat.add_comm (base*n) d

theorem digitsOf_eq {base : Nat} (hbase : 1<base) {fuel n : Nat} (h : n<base^fuel) :
    digitsOf base fuel n=(Nat.digits base n).reverse := by
  induction fuel generalizing n with
  | zero =>
    have hn : n=0 := by simpa using h
    simp [hn,digitsOf]
  | succ fuel ih =>
    cases n with
    | zero => simp [digitsOf]
    | succ n =>
      have hdiv : (n+1)/base<base^fuel := by
        apply Nat.div_lt_of_lt_mul
        rwa [Nat.mul_comm,← Nat.pow_succ]
      rw [digitsOf,ih hdiv,Nat.digits_def' hbase (Nat.succ_pos n),List.reverse_cons]

theorem valueOf_lt {base : Nat} (hbase : 1<base) {digits : List Nat} (h : ∀ d∈digits,d<base) :
    valueOf base digits<base^digits.length := by
  rw [valueOf_eq,← List.length_reverse]
  exact Nat.ofDigits_lt_base_pow_length hbase (fun d hd => h d (List.mem_reverse.mp hd))

theorem valueOf_zeros (base z : Nat) (digits : List Nat) :
    valueOf base (List.replicate z 0++digits)=valueOf base digits := by
  induction z with
  | zero => rfl
  | succ z ih =>
    rw [List.replicate_succ,List.cons_append,← ih]
    simp [valueOf]

/-- Digits without leading zeros are those of their number. -/
theorem digitsOf_valueOf {base : Nat} (hbase : 1<base) {digits : List Nat}
    (h : ∀ d∈digits,d<base) (hhead : ∀ d∈digits.head?,d≠0) {fuel : Nat}
    (hfuel : valueOf base digits<base^fuel) :
    digitsOf base fuel (valueOf base digits)=digits := by
  rw [digitsOf_eq hbase hfuel,valueOf_eq,Nat.digits_ofDigits base hbase,List.reverse_reverse]
  · intro d hd
    exact h d (List.mem_reverse.mp hd)
  · intro hne
    apply hhead
    rw [List.getLast_reverse]
    exact List.head_mem_head? _

/-- A text or a list of bytes is a run of its zero digit and what follows. -/
theorem split_zeros {A : Type} [DecidableEq A] (zero : A) (l : List A) :
    l=List.replicate (l.takeWhile (·=zero)).length zero++l.dropWhile (·=zero) ∧
      ∀ a∈(l.dropWhile (·=zero)).head?,a≠zero := by
  induction l with
  | nil => simp
  | cons a l ih =>
    by_cases ha : a=zero
    · simp only [ha,decide_true,List.takeWhile_cons_of_pos,List.dropWhile_cons_of_pos,
        List.length_cons,List.replicate_succ,List.cons_append]
      exact ⟨congrArg (List.cons zero) ih.1,ih.2⟩
    · simp [ha]

private theorem takeWhile_zeros {A : Type} [DecidableEq A] (zero : A) (z : Nat) {l : List A}
    (h : ∀ a∈l.head?,a≠zero) :
    ((List.replicate z zero++l).takeWhile (·=zero)).length=z := by
  induction z with
  | zero =>
    cases l with
    | nil => rfl
    | cons a l =>
      have ha : a≠zero := h a rfl
      simp [ha]
  | succ z ih => simpa [List.replicate_succ] using ih

def b58Char (d : Nat) : Char := b58Alphabet.getD d '1'

private theorem b58Char_mem (d : Nat) : b58Char d∈b58Alphabet := by
  rw [b58Char,List.getD_eq_getElem?_getD]
  cases h : b58Alphabet[d]? with
  | none => decide
  | some c => exact List.mem_of_getElem? h

theorem idxOf_b58Char {d : Nat} (h : d<58) : b58Alphabet.idxOf (b58Char d)=d := by
  have hall : ∀ d : Fin 58,b58Alphabet.idxOf (b58Char d.val)=d.val := by decide +kernel
  exact hall ⟨d,h⟩

/-- The number the bytes stand for, in the digits the text is made of. -/
def b58Digits (bytes : Bytes) : List Nat :=
  digitsOf 58 (2*bytes.length) (valueOf 256 (bytes.map Fin.val))

theorem bytes_lt (bytes : Bytes) : ∀ d∈bytes.map Fin.val,d<256 := by
  intro d hd
  obtain ⟨byte,_,hbyte⟩ := List.mem_map.mp hd
  exact hbyte ▸ byte.isLt

theorem b58Digits_eq (bytes : Bytes) :
    b58Digits bytes=(Nat.digits 58 (valueOf 256 (bytes.map Fin.val))).reverse := by
  apply digitsOf_eq (by decide)
  calc valueOf 256 (bytes.map Fin.val)
      < 256^bytes.length := by simpa using valueOf_lt (by decide) (bytes_lt bytes)
    _ ≤ (58^2)^bytes.length := Nat.pow_le_pow_left (by decide) _
    _ = 58^(2*bytes.length) := (Nat.pow_mul 58 2 bytes.length).symm

private theorem b58Digits_lt {bytes : Bytes} {d : Nat} (hd : d∈b58Digits bytes) : d<58 := by
  rw [b58Digits_eq,List.mem_reverse] at hd
  exact Nat.digits_lt_base (by decide) hd

private theorem b58Digits_head (bytes : Bytes) : ∀ d∈(b58Digits bytes).head?,d≠0 := by
  intro d hd
  rw [b58Digits_eq,List.head?_reverse] at hd
  obtain ⟨hne,hlast⟩ := List.mem_getLast?_eq_getLast hd
  rw [hlast]
  exact Nat.getLast_digit_ne_zero 58 (Nat.digits_ne_nil_iff_ne_zero.mp hne)

/-- The zeros in front and the digits of a text, read off it again. -/
theorem b58Text_read {z : Nat} {digits : List Nat} (hlt : ∀ d∈digits,d<58)
    (hhead : ∀ d∈digits.head?,d≠0) :
    ((List.replicate z '1'++digits.map b58Char).takeWhile (·= '1')).length=z ∧
      (List.replicate z '1'++digits.map b58Char).map b58Alphabet.idxOf=
        List.replicate z 0++digits := by
  constructor
  · apply takeWhile_zeros
    intro c hc hone
    rw [List.head?_map,Option.mem_def,Option.map_eq_some_iff] at hc
    obtain ⟨d,hd,hdc⟩ := hc
    have hidx := idxOf_b58Char (hlt d (List.mem_of_mem_head? hd))
    rw [hdc,hone] at hidx
    exact hhead d hd hidx.symm
  · rw [List.map_append,List.map_replicate,List.map_map]
    have hsame : digits.map (b58Alphabet.idxOf∘b58Char)=digits.map id :=
      List.map_congr_left fun d hd => idxOf_b58Char (hlt d hd)
    rw [hsame,List.map_id]
    rfl

theorem toByte_val (byte : Byte) : toByte byte.val=byte := Fin.ofNat_val_eq_self byte

/-- Bytes without a leading zero are the digits of their number. -/
theorem bytes_read {bytes : Bytes} (hhead : ∀ byte∈bytes.head?,byte≠0) {fuel : Nat}
    (hfuel : valueOf 256 (bytes.map Fin.val)<256^fuel) :
    (digitsOf 256 fuel (valueOf 256 (bytes.map Fin.val))).map toByte=bytes := by
  have hnonzero : ∀ d∈(bytes.map Fin.val).head?,d≠0 := by
    intro d hd hzero
    rw [List.head?_map,Option.mem_def,Option.map_eq_some_iff] at hd
    obtain ⟨byte,hbyte,hval⟩ := hd
    exact hhead byte hbyte (Fin.ext (hval.trans hzero))
  rw [digitsOf_valueOf (by decide) (bytes_lt bytes) hnonzero hfuel,List.map_map]
  have hback : bytes.map (toByte∘Fin.val)=bytes.map id :=
    List.map_congr_left fun byte _ => toByte_val byte
  rw [hback,List.map_id]

theorem b58Encode_toList (bytes : Bytes) :
    (b58Encode bytes).toList=List.replicate (bytes.takeWhile (·=0)).length '1'++
      (b58Digits bytes).map b58Char :=
  String.toList_ofList

theorem b58Encode_mem (bytes : Bytes) : ∀ c∈(b58Encode bytes).toList,c∈b58Alphabet := by
  intro c hc
  rw [b58Encode_toList] at hc
  rcases List.mem_append.mp hc with hc|hc
  · rw [(List.mem_replicate.mp hc).2]
    decide
  · obtain ⟨d,_,hd⟩ := List.mem_map.mp hc
    exact hd ▸ b58Char_mem d

/-- Decoding a text gives back the bytes. -/
theorem b58Decode_b58Encode (bytes : Bytes) : b58Decode (b58Encode bytes)=some bytes := by
  obtain ⟨hsplit,hhead⟩ := split_zeros (0 : Byte) bytes
  have hlt : ∀ d∈b58Digits bytes,d<58 := fun d hd => b58Digits_lt hd
  have hall : (b58Encode bytes).toList.all b58Alphabet.contains=true := by
    apply List.all_eq_true.mpr
    intro c hc
    exact List.contains_iff_mem.mpr (b58Encode_mem bytes c hc)
  have hbound : ∀ d∈(b58Encode bytes).toList.map b58Alphabet.idxOf,d<58 := by
    intro d hd
    obtain ⟨c,hc,hcd⟩ := List.mem_map.mp hd
    exact hcd ▸ List.idxOf_lt_length_iff.mpr (b58Encode_mem bytes c hc)
  obtain ⟨hzeros,hidx⟩ :=
    b58Text_read (z:=(bytes.takeWhile (·=0)).length) hlt (b58Digits_head bytes)
  have hcs := b58Encode_toList bytes
  generalize (bytes.takeWhile (·=0)).length=z at hsplit hzeros hidx hcs
  generalize bytes.dropWhile (·=0)=rest at hsplit hhead
  have hvalue : valueOf 256 (bytes.map Fin.val)=valueOf 256 (rest.map Fin.val) := by
    conv => lhs; rw [hsplit]
    rw [List.map_append,List.map_replicate]
    exact valueOf_zeros 256 z _
  have hread : valueOf 58 ((b58Encode bytes).toList.map b58Alphabet.idxOf)=
      valueOf 256 (rest.map Fin.val) := by
    rw [hcs,hidx,valueOf_zeros,b58Digits_eq,valueOf_eq,List.reverse_reverse,Nat.ofDigits_digits,
      hvalue]
  have hfuel : valueOf 256 (rest.map Fin.val)<256^(b58Encode bytes).toList.length := by
    have hless := valueOf_lt (by decide) hbound
    rw [hread,List.length_map] at hless
    exact Nat.lt_of_lt_of_le hless (Nat.pow_le_pow_left (by decide) _)
  simp only [b58Decode]
  rw [if_pos hall,hread,bytes_read hhead hfuel,hcs,hzeros,← hsplit]

private theorem b58Encode_dashless (bytes : Bytes) : '-'∉(b58Encode bytes).toList := by
  intro h
  exact absurd (b58Encode_mem bytes '-' h) (by decide)

theorem reference_base58 : Base58 reference.bs58Encode where
  injective := by
    intro a b hab
    have ha := b58Decode_b58Encode a
    have hb := b58Decode_b58Encode b
    rw [show b58Encode a=b58Encode b from hab,hb] at ha
    exact (Option.some_inj.mp ha).symm
  dashless := b58Encode_dashless

end SolanaM.Substreams
