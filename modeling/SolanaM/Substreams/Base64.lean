import SolanaM.Substreams.Base58

namespace SolanaM.Substreams

/-- What event lines rely on in the base64 crate: a text is read back, has four characters for
each started group of three bytes, and none outside the alphabet but the pad. -/
structure Base64 (encode : Bytes → String) (decode : String → Option Bytes) : Prop where
  decode_encode : ∀ bytes,decode (encode bytes)=some bytes
  length : ∀ bytes,(encode bytes).toList.length=4*((bytes.length+2)/3)
  alphabet : ∀ bytes,∀ c∈(encode bytes).toList,c∈b64Alphabet ∨ c= '='

/-- Three bytes in four sextets, a shorter last group in as many as its bits need. -/
def sextets : List Nat → List Nat
  | [] => []
  | [a] => [a/4,a%4*16]
  | [a,b] => [a/4,a%4*16+b/16,b%16*4]
  | a::b::c::rest => a/4::(a%4*16+b/16)::(b%16*4+c/64)::c%64::sextets rest

/-- The pads that fill the last group. -/
def pads (length : Nat) : List Char := List.replicate ((3-length%3)%3) '='

theorem sextets_lt {bytes : List Nat} (h : ∀ b∈bytes,b<256) : ∀ n∈sextets bytes,n<64 := by
  induction bytes using sextets.induct with
  | case1 => simp [sextets]
  | case2 a =>
    have ha := h a (by simp)
    simp only [sextets,List.mem_cons,List.not_mem_nil,or_false]
    omega
  | case3 a b =>
    have ha := h a (by simp)
    have hb := h b (by simp)
    simp only [sextets,List.mem_cons,List.not_mem_nil,or_false]
    omega
  | case4 a b c rest ih =>
    have ha := h a (by simp)
    have hb := h b (by simp)
    have hc := h c (by simp)
    have hrest := ih (fun d hd => h d (by simp [hd]))
    intro n hn
    simp only [sextets,List.mem_cons] at hn
    rcases hn with rfl|rfl|rfl|rfl|hn
    · omega
    · omega
    · omega
    · omega
    · exact hrest n hn

/-- A byte is put together again from the two sextets it was divided between. -/
theorem first_octet (a : Nat) {b : Nat} (hb : b<256) : a/4*4+(a%4*16+b/16)/16=a := by omega

theorem second_octet (a : Nat) {b c : Nat} (hb : b<256) (hc : c<256) :
    (a%4*16+b/16)%16*16+(b%16*4+c/64)/4=b := by omega

theorem third_octet (b : Nat) {c : Nat} (hc : c<256) : (b%16*4+c/64)%4*64+c%64=c := by omega

theorem b64EncodeChars_eq (bytes : List Nat) :
    b64EncodeChars bytes=(sextets bytes).map b64Char++pads bytes.length := by
  induction bytes using sextets.induct with
  | case1 => rfl
  | case2 a => rfl
  | case3 a b => rfl
  | case4 a b c rest ih =>
    have hlen : (rest.length+3)%3=rest.length%3 := Nat.add_mod_right _ _
    simp [b64EncodeChars,sextets,ih,pads,hlen]

theorem b64Char_mem (n : Nat) : b64Char n∈b64Alphabet := by
  rw [b64Char,List.getD_eq_getElem?_getD]
  cases h : b64Alphabet[n]? with
  | none => decide
  | some c => exact List.mem_of_getElem? h

theorem idxOf_b64Char {n : Nat} (h : n<64) : b64Alphabet.idxOf (b64Char n)=n := by
  have hall : ∀ n : Fin 64,b64Alphabet.idxOf (b64Char n.val)=n.val := by decide +kernel
  exact hall ⟨n,h⟩

theorem b64EncodeChars_mem {bytes : List Nat} {c : Char} (h : c∈b64EncodeChars bytes) :
    c∈b64Alphabet ∨ c= '=' := by
  rw [b64EncodeChars_eq,List.mem_append,List.mem_map] at h
  rcases h with ⟨n,_,rfl⟩|h
  · exact .inl (b64Char_mem n)
  · exact .inr (List.eq_of_mem_replicate h)

theorem length_b64EncodeChars (bytes : List Nat) :
    (b64EncodeChars bytes).length=4*((bytes.length+2)/3) := by
  induction bytes using sextets.induct with
  | case1 => simp [b64EncodeChars]
  | case2 a => simp [b64EncodeChars]
  | case3 a b => simp [b64EncodeChars]
  | case4 a b c rest ih =>
    simp only [b64EncodeChars,List.length_cons,ih]
    omega

/-- Whole groups in front keep their own characters. -/
theorem b64EncodeChars_append {xs : List Nat} (h : xs.length%3=0) (ys : List Nat) :
    b64EncodeChars (xs++ys)=b64EncodeChars xs++b64EncodeChars ys := by
  induction xs using sextets.induct with
  | case1 => rfl
  | case2 a => simp at h
  | case3 a b => simp at h
  | case4 a b c rest ih =>
    have hrest : rest.length%3=0 := by
      simp only [List.length_cons] at h
      omega
    simp [b64EncodeChars,ih hrest]

/-- A group is read as three bytes unless it ends in a pad. -/
theorem b64DecodeChars_group {a b c d : Char} (hd : d≠ '=') (rest : List Char) :
    b64DecodeChars (a::b::c::d::rest)=
      if b64Alphabet.idxOf a<64 ∧ b64Alphabet.idxOf b<64 ∧ b64Alphabet.idxOf c<64 ∧
          b64Alphabet.idxOf d<64 then
        (b64DecodeChars rest).map fun bytes =>
          toByte (b64Alphabet.idxOf a*4+b64Alphabet.idxOf b/16)::
          toByte (b64Alphabet.idxOf b%16*16+b64Alphabet.idxOf c/4)::
          toByte (b64Alphabet.idxOf c%4*64+b64Alphabet.idxOf d)::bytes
      else none := by
  rw [b64DecodeChars]
  · intro _ h _
    exact hd h
  · intro h _
    exact hd h

theorem b64Char_ne_pad (n : Nat) : b64Char n≠ '=' := by
  intro h
  have hmem := h ▸ b64Char_mem n
  revert hmem
  decide

/-- The decoder reads any text the encoder writes. -/
theorem b64DecodeChars_encode {bytes : List Nat} (h : ∀ b∈bytes,b<256) :
    b64DecodeChars (b64EncodeChars bytes)=some (bytes.map toByte) := by
  induction bytes using sextets.induct with
  | case1 => rfl
  | case2 a =>
    have ha := h a (by simp)
    have h1 : a/4<64 := by omega
    have h2 : a%4*16<64 := by omega
    simp only [b64EncodeChars,b64DecodeChars,idxOf_b64Char h1,idxOf_b64Char h2]
    rw [if_pos (by omega)]
    have ha' : a/4*4+a%4*16/16=a := by omega
    rw [ha']
    rfl
  | case3 a b =>
    have ha := h a (by simp)
    have hb := h b (by simp)
    have h1 : a/4<64 := by omega
    have h2 : a%4*16+b/16<64 := by omega
    have h3 : b%16*4<64 := by omega
    rw [b64EncodeChars,b64DecodeChars]
    · simp only [idxOf_b64Char h1,idxOf_b64Char h2,idxOf_b64Char h3]
      rw [if_pos (by omega)]
      have hb' : (a%4*16+b/16)%16*16+b%16*4/4=b := by omega
      rw [first_octet a hb,hb']
      rfl
    · exact b64Char_ne_pad _
  | case4 a b c rest ih =>
    have ha := h a (by simp)
    have hb := h b (by simp)
    have hc := h c (by simp)
    have h1 : a/4<64 := by omega
    have h2 : a%4*16+b/16<64 := by omega
    have h3 : b%16*4+c/64<64 := by omega
    have h4 : c%64<64 := by omega
    rw [b64EncodeChars,b64DecodeChars_group (b64Char_ne_pad _),idxOf_b64Char h1,
      idxOf_b64Char h2,idxOf_b64Char h3,idxOf_b64Char h4,if_pos ⟨h1,h2,h3,h4⟩,
      ih (fun d hd => h d (by simp [hd]))]
    rw [first_octet a hb,second_octet a hb hc,third_octet b hc]
    rfl

/-- The bytes of whole groups of sextets and of a shorter last one; bits left over are dropped. -/
def octets : List Nat → Bytes
  | a::b::c::d::rest =>
    toByte (a*4+b/16)::toByte (b%16*16+c/4)::toByte (c%4*64+d)::octets rest
  | [a,b,c] => [toByte (a*4+b/16),toByte (b%16*16+c/4)]
  | [a,b] => [toByte (a*4+b/16)]
  | _ => []

theorem octets_sextets {bytes : List Nat} (h : ∀ b∈bytes,b<256) :
    octets (sextets bytes)=bytes.map toByte := by
  induction bytes using sextets.induct with
  | case1 => rfl
  | case2 a =>
    have ha' : a/4*4+a%4*16/16=a := by omega
    simp only [sextets,octets,ha',List.map_cons,List.map_nil]
  | case3 a b =>
    have hb := h b (by simp)
    have hb' : (a%4*16+b/16)%16*16+b%16*4/4=b := by omega
    simp only [sextets,octets,first_octet a hb,hb',List.map_cons,List.map_nil]
  | case4 a b c rest ih =>
    have hb := h b (by simp)
    have hc := h c (by simp)
    rw [sextets,octets,first_octet a hb,second_octet a hb hc,third_octet b hc,
      ih (fun d hd => h d (by simp [hd]))]
    rfl

theorem reference_base64 : Base64 reference.base64Encode reference.base64Decode where
  decode_encode bytes := by
    show b64DecodeChars (String.ofList (b64EncodeChars _)).toList=some bytes
    rw [String.toList_ofList]
    rw [b64DecodeChars_encode (bytes_lt bytes),List.map_map]
    exact congrArg some (List.map_id'' toByte_val bytes)
  length bytes := by
    show (String.ofList (b64EncodeChars _)).toList.length=_
    rw [String.toList_ofList,length_b64EncodeChars,List.length_map]
  alphabet bytes c hc := by
    rw [show (reference.base64Encode bytes).toList=b64EncodeChars (bytes.map Fin.val) from
      String.toList_ofList] at hc
    exact b64EncodeChars_mem hc

end SolanaM.Substreams
