import SolanaM.Substreams.Base64
import SolanaM.Substreams.PrimaryKeys
import SolanaM.Earn.Effects
import Mathlib

namespace SolanaM.Substreams

/-- On the producers' side, what emit! writes for an event. -/
structure IndexUpdate where
  index : UInt64
  ts : UInt64
  supply : UInt64
  maxYield : UInt64

/-- from and to are the sender and the recipient. -/
structure BridgeEvent where
  amount : Int64
  tokenSupply : UInt64
  sender : Vector Byte 32
  recipient : Vector Byte 32
  wormholeChainId : UInt16

/-- borsh of an unsigned integer: little endian, in as many bytes as its type has. -/
def leBytes (width n : Nat) : Bytes := LittleEndian.write 256 width n

def IndexUpdate.fields (e : IndexUpdate) : List Bytes :=
  [leBytes 8 e.index.toNat,leBytes 8 e.ts.toNat,leBytes 8 e.supply.toNat,
    leBytes 8 e.maxYield.toNat]

/-- The i64 in two's complement, the f64 by their bits. -/
def v2Fields (e : Earn.IndexUpdateV2 Float) : List Bytes :=
  [leBytes 8 e.index,leBytes 8 (e.ts%2^64).toNat,leBytes 8 e.supply,
    leBytes 8 e.currentMultiplier.toBits.toNat,leBytes 8 e.newMultiplier.toBits.toNat]

def BridgeEvent.fields (e : BridgeEvent) : List Bytes :=
  [leBytes 8 e.amount.toUInt64.toNat,leBytes 8 e.tokenSupply.toNat,e.sender.toList,
    e.recipient.toList,leBytes 2 e.wormholeChainId.toNat]

/-- The line the runtime logs for an event. -/
def eventLine (crates : Crates) (name : String) (fields : List Bytes) : String :=
  "Program data: "++crates.base64Encode (crates.discriminator name++fields.flatten)

def eventNames : List String := ["IndexUpdate","IndexUpdateV2","BridgeEvent"]

/-- The bytes behind the discriminator of each event. -/
def eventSizes : List (String×Nat) := [("IndexUpdate",32),("IndexUpdateV2",40),("BridgeEvent",82)]

/-- What the event macro derives: eight bytes for a name, not the same for two of the names. -/
structure Discriminators (discriminator : String → Bytes) : Prop where
  length : ∀ name∈eventNames,(discriminator name).length=discriminatorSize
  nodup : (eventNames.map discriminator).Nodup

/-- An event of propagate_index: machine integers, a time that is not negative, and two
multipliers of which its guard found the new one greater. -/
structure Emittable (e : Earn.IndexUpdateV2 Float) : Prop where
  index : e.index<2^64
  ts_nonneg : 0≤e.ts
  ts_lt : e.ts<2^63
  supply : e.supply<2^64
  grows : e.currentMultiplier<e.newMultiplier

section
variable {D M : Type} [LinearOrder M] [DecidableEq D] {P : Earn.Program D M}

/-- Whatever the handler emits is such a value: it compared the multipliers that it reports. -/
theorem emittable_of_handler {s s' : Earn.Chain D M} {ctx : Earn.PropagateIndex} {newIndex : Nat}
    {root : D} {ts : Int} {events : List (Earn.IndexUpdateV2 M)}
    (h : Earn.PropagateIndex.handler P s ctx newIndex root ts=.ok (s',events))
    {bits : M → Float} (hbits : ∀ a b,a<b → bits a<bits b) (hindex : newIndex<2^64)
    (hts : 0≤ts ∧ ts<2^63) (hsupply : ∀ key m,s.mints key=some m → m.supply<2^64) :
    ∀ e∈events,Emittable
      ⟨e.index,e.ts,e.supply,bits e.currentMultiplier,bits e.newMultiplier⟩ := by
  obtain ⟨g,m,c,_,_,hm,_,hout⟩ := Earn.PropagateIndex.handler_eq_ok h
  rcases hout with ⟨_,_,rfl⟩|⟨_,_,rfl⟩|⟨hlt,_,rfl⟩
  · simp
  · simp
  · intro e he
    rw [List.mem_singleton.mp he]
    exact ⟨hindex,hts.1,hts.2,hsupply g.mMint m hm,hbits _ _ hlt⟩

end

@[simp] theorem length_leBytes (width n : Nat) : (leBytes width n).length=width :=
  LittleEndian.length_write width n

theorem fromLeBytes_leBytes {width n : Nat} (h : n<256^width) :
    fromLeBytes (leBytes width n)=n := by
  rw [fromLeBytes_eq]
  exact LittleEndian.read_write_of_lt h

theorem fromLeBytes_u64 (n : UInt64) : fromLeBytes (leBytes 8 n.toNat)=n.toNat :=
  fromLeBytes_leBytes n.toNat_lt

private theorem toI64_toUInt64 (x : Int64) : toI64 x.toUInt64.toNat=x.toInt := by
  show toI64 x.toBitVec.toNat=x.toBitVec.toInt
  have hlt := x.toBitVec.isLt
  rw [toI64,BitVec.toInt_eq_toNat_cond]
  by_cases hx : x.toBitVec.toNat<2^63
  · rw [if_pos hx,if_pos (by omega)]
  · rw [if_neg hx,if_neg (by omega)]
    rfl

/-- Fields of the widths that are asked for come back one by one. -/
theorem tryFromSlice_flatten (fields : List Bytes) :
    tryFromSlice (fields.map List.length) fields.flatten=some fields := by
  induction fields with
  | nil => rfl
  | cons field fields ih =>
    rw [List.map_cons,List.flatten_cons,tryFromSlice,List.drop_left,List.take_left,ih,if_neg]
    · rfl
    · simp

/-- The body is exactly as long as its fields together. -/
theorem length_of_tryFromSlice {widths : List Nat} {buffer : Bytes} {fields : List Bytes}
    (h : tryFromSlice widths buffer=some fields) : buffer.length=widths.sum := by
  induction widths generalizing buffer fields with
  | nil =>
    cases buffer with
    | nil => rfl
    | cons b bs => simp [tryFromSlice] at h
  | cons width widths ih =>
    rw [tryFromSlice] at h
    by_cases hlt : buffer.length<width
    · simp [hlt] at h
    · rw [if_neg hlt,Option.map_eq_some_iff] at h
      obtain ⟨rest,hrest,_⟩ := h
      have hdrop := ih hrest
      rw [List.length_drop] at hdrop
      rw [List.sum_cons]
      omega

section NaN

open Float.Model

/-- An exponent of ones and a fraction are what unpacking takes for a NaN. -/
theorem unpack_of_isNan {x : Float} (h : isNan x.toBits.toNat=true) :
    x.toModel.unpack=.notANumber := by
  have hbits : x.toBits.toNat=x.toBits.toBitVec.toNat := rfl
  rw [isNan,Bool.and_eq_true,beq_iff_eq,bne_iff_ne,hbits] at h
  show UnpackedFloat.unpack Format.binary64 x.toBits.toBitVec=.notANumber
  generalize x.toBits.toBitVec=b at h ⊢
  have hexponent : @UnpackedFloat.unpackExponent Format.binary64 b=-1#_ := by
    apply BitVec.eq_of_toNat_eq
    simpa [UnpackedFloat.unpackExponent,Nat.shiftRight_eq_div_pow] using h.1
  have hmantissa : @UnpackedFloat.unpackMantissa Format.binary64 b≠0#_ := by
    intro hz
    have hzero := congrArg BitVec.toNat hz
    exact h.2 (by simpa [UnpackedFloat.unpackMantissa] using hzero)
  rw [UnpackedFloat.unpack,if_pos hexponent,if_neg hmantissa]

/-- Two floats of which one is less than the other are numbers. -/
theorem isNan_of_lt {x y : Float} (h : x<y) :
    isNan x.toBits.toNat=false ∧ isNan y.toBits.toNat=false := by
  have hcompare : x.toModel.unpack.compare y.toModel.unpack=some .lt :=
    eq_of_beq (of_decide_eq_true h : x.toModel<y.toModel)
  constructor
  · rw [← Bool.not_eq_true]
    intro hx
    rw [unpack_of_isNan hx] at hcompare
    cases hcompare
  · rw [← Bool.not_eq_true]
    intro hy
    rw [unpack_of_isNan hy] at hcompare
    cases hu : x.toModel.unpack <;> rw [hu] at hcompare <;> cases hcompare

end NaN

private theorem parseIndexUpdate_fields (e : IndexUpdate) : parseIndexUpdate e.fields.flatten=
    some (.indexUpdate e.index.toNat e.ts.toNat e.supply.toNat e.maxYield.toNat) := by
  have hfields := tryFromSlice_flatten e.fields
  simp only [IndexUpdate.fields,List.map_cons,List.map_nil,length_leBytes] at hfields
  simp only [parseIndexUpdate,IndexUpdate.fields,hfields,fromLeBytes_u64]

private theorem parseIndexUpdateV2_fields {e : Earn.IndexUpdateV2 Float} (he : Emittable e) :
    parseIndexUpdateV2 (v2Fields e).flatten=
      some (.indexUpdateV2 e.index e.ts.toNat e.supply e.currentMultiplier.toBits.toNat
        e.newMultiplier.toBits.toNat) := by
  have hfields := tryFromSlice_flatten (v2Fields e)
  simp only [v2Fields,List.map_cons,List.map_nil,length_leBytes] at hfields
  have hindex : fromLeBytes (leBytes 8 e.index)=e.index := fromLeBytes_leBytes he.index
  have hsupply : fromLeBytes (leBytes 8 e.supply)=e.supply := fromLeBytes_leBytes he.supply
  have hts : fromLeBytes (leBytes 8 (e.ts%2^64).toNat)=e.ts.toNat := by
    have hlt := he.ts_lt
    rw [Int.emod_eq_of_lt he.ts_nonneg (by omega)]
    exact fromLeBytes_leBytes (by omega)
  obtain ⟨hcurrent,hnew⟩ := isNan_of_lt he.grows
  simp only [parseIndexUpdateV2,v2Fields,hfields,fromLeBytes_u64,hindex,hsupply,hts,hcurrent,
    hnew,Bool.or_false,Bool.false_eq_true,if_false]

private theorem parseBridgeEvent_fields (e : BridgeEvent) : parseBridgeEvent e.fields.flatten=
    some (.bridgeEvent e.amount.toInt e.tokenSupply.toNat e.sender.toList e.recipient.toList
      (wormholeIdToChain e.wormholeChainId.toNat)) := by
  have hfields := tryFromSlice_flatten e.fields
  simp only [BridgeEvent.fields,List.map_cons,List.map_nil,length_leBytes,
    Vector.length_toList] at hfields
  have hchain : fromLeBytes (leBytes 2 e.wormholeChainId.toNat)=e.wormholeChainId.toNat :=
    fromLeBytes_leBytes e.wormholeChainId.toNat_lt
  simp only [parseBridgeEvent,BridgeEvent.fields,hfields,fromLeBytes_u64,toI64_toUInt64,hchain]

private theorem length_of_parseIndexUpdate {buffer : Bytes} {u : Update}
    (h : parseIndexUpdate buffer=some u) : buffer.length=32 := by
  unfold parseIndexUpdate at h
  split at h
  · next hfields => exact length_of_tryFromSlice hfields
  · cases h

private theorem length_of_parseIndexUpdateV2 {buffer : Bytes} {u : Update}
    (h : parseIndexUpdateV2 buffer=some u) : buffer.length=40 := by
  unfold parseIndexUpdateV2 at h
  split at h
  · next hfields => exact length_of_tryFromSlice hfields
  · cases h

private theorem length_of_parseBridgeEvent {buffer : Bytes} {u : Update}
    (h : parseBridgeEvent buffer=some u) : buffer.length=82 := by
  unfold parseBridgeEvent at h
  split at h
  · next hfields => exact length_of_tryFromSlice hfields
  · cases h

def knownChains : List Nat := [1,2,10002,23,10003,21,24,10005,30,10004]

/-- Any other id is shown as its number; no name of the table starts like that. -/
theorem wormholeIdToChain_unknown {id : Nat} (h : id∉knownChains) :
    wormholeIdToChain id="Unknown("++toString id++")" := by
  unfold wormholeIdToChain
  split
  all_goals first | rfl | exact absurd (by decide) h

theorem head?_unknown (id : Nat) :
    ("Unknown("++toString id++")").toList.head?=some 'U' := by
  rw [String.toList_append,String.toList_append]
  rfl

theorem wormholeIdToChain_known {id : Nat} (h : id∈knownChains) :
    (wormholeIdToChain id).toList.head?≠some 'U' := by
  have hall : ∀ id∈knownChains,(wormholeIdToChain id).toList.head?≠some 'U' := by decide
  exact hall id h

theorem wormholeIdToChain_injective : Function.Injective wormholeIdToChain := by
  intro a b h
  by_cases ha : a∈knownChains
  · by_cases hb : b∈knownChains
    · have hall : ∀ a∈knownChains,∀ b∈knownChains,
          wormholeIdToChain a=wormholeIdToChain b → a=b := by decide
      exact hall a ha b hb h
    · rw [wormholeIdToChain_unknown hb] at h
      exact absurd (h ▸ head?_unknown b) (wormholeIdToChain_known ha)
  · rw [wormholeIdToChain_unknown ha] at h
    by_cases hb : b∈knownChains
    · exact absurd (h ▸ head?_unknown a) (wormholeIdToChain_known hb)
    · rw [wormholeIdToChain_unknown hb] at h
      have hlist := congrArg String.toList h
      simp only [String.toList_append,List.append_cancel_left_eq,List.append_cancel_right_eq]
        at hlist
      exact toString_inj (String.toList_inj.mp hlist)

/-- The group is the rest of a line that starts with the literal. -/
theorem captureAfter_literal {c : Char} {literal text : List Char} (hne : text≠[])
    (hline : '\n'∉text) : captureAfter (c::literal) (c::literal++text)=some text := by
  have hgroup : text.takeWhile (·≠ '\n')=text := by
    rw [List.takeWhile_eq_self_iff]
    intro d hd
    have hd' : d≠ '\n' := fun h => hline (h ▸ hd)
    simpa using hd'
  have hdrop : (c::(literal++text)).drop (c::literal).length=text := List.drop_left
  rw [List.cons_append,captureAfter,hdrop]
  simp only [hgroup]
  rw [if_pos ⟨by simp,hne⟩]

section
variable {crates : Crates}

/-- The data of the line that carries it. -/
theorem dataLogData_line (hb : Base64 crates.base64Encode crates.base64Decode) {bytes : Bytes}
    (hne : bytes≠[]) :
    dataLogData crates ("Program data: "++crates.base64Encode bytes)=some bytes := by
  have hpos : 0<bytes.length := List.length_pos_iff.mpr hne
  have htext : (crates.base64Encode bytes).toList≠[] := by
    rw [← List.length_pos_iff,hb.length]
    omega
  have hline : '\n'∉(crates.base64Encode bytes).toList := by
    intro h
    rcases hb.alphabet bytes _ h with h|h
    · exact absurd h (by decide)
    · exact absurd h (by decide)
  have hcapture : captureAfter "Program data: ".toList
      ("Program data: ".toList++(crates.base64Encode bytes).toList)=
        some (crates.base64Encode bytes).toList := captureAfter_literal htext hline
  rw [dataLogData,String.toList_append,hcapture,Option.bind_some,String.ofList_toList,
    hb.decode_encode]

theorem Log.new_data (text : String) :
    Log.new ("Program data: "++text)=.data ("Program data: "++text) := by
  have hlog : "Program log: ".toList.isPrefixOf ("Program data: "++text).toList=false := by
    rw [String.toList_append]
    rfl
  have hdata : "Program data: ".toList.isPrefixOf ("Program data: "++text).toList=true := by
    rw [String.toList_append]
    rfl
  simp only [Log.new,hlog,hdata,Bool.false_eq_true,if_false,if_true]

/-- Of the three names the discriminator in front of the body decides. -/
theorem parseLogForEvents_line (hb : Base64 crates.base64Encode crates.base64Decode)
    (hd : Discriminators crates.discriminator) {name : String} (hname : name∈eventNames)
    (fields : List Bytes) :
    parseLogForEvents crates (eventLine crates name fields)=
      if name="IndexUpdate" then parseIndexUpdate fields.flatten
      else if name="IndexUpdateV2" then parseIndexUpdateV2 fields.flatten
      else parseBridgeEvent fields.flatten := by
  have hlen := hd.length name hname
  have hne : crates.discriminator name++fields.flatten≠[] := by
    intro h
    rw [(List.append_eq_nil_iff.mp h).1] at hlen
    cases hlen
  have hsame : ∀ other∈eventNames,
      crates.discriminator other=crates.discriminator name ↔ name=other := by
    intro other hother
    exact ⟨fun h => List.inj_on_of_nodup_map hd.nodup hname hother h.symm,fun h => h ▸ rfl⟩
  have htake : (crates.discriminator name++fields.flatten).take discriminatorSize=
      crates.discriminator name := List.take_left' hlen
  have hdrop : (crates.discriminator name++fields.flatten).drop discriminatorSize=
      fields.flatten := List.drop_left' hlen
  have hsize : ¬(crates.discriminator name++fields.flatten).length<discriminatorSize := by
    rw [List.length_append]
    omega
  rw [parseLogForEvents,eventLine,dataLogData_line hb hne]
  simp only [if_neg hsize,htake,hdrop,hsame "IndexUpdate" (by decide),
    hsame "IndexUpdateV2" (by decide),hsame "BridgeEvent" (by decide)]
  simp only [eventNames,List.mem_cons,List.not_mem_nil,or_false] at hname
  rcases hname with rfl|rfl|rfl <;> rfl

/-- Data that decodes is one of the three discriminators and a body of that event's size. -/
theorem parseLogForEvents_some {log : String} {u : Update}
    (h : parseLogForEvents crates log=some u) :
    ∃ data,dataLogData crates log=some data ∧
      ∃ name size body,(name,size)∈eventSizes ∧ data=crates.discriminator name++body ∧
        body.length=size := by
  rw [parseLogForEvents] at h
  cases hdata : dataLogData crates log with
  | none => simp [hdata] at h
  | some data =>
    simp only [hdata] at h
    have hsplit : data=data.take discriminatorSize++data.drop discriminatorSize :=
      (List.take_append_drop _ _).symm
    refine ⟨data,rfl,?_⟩
    split_ifs at h with _ hv1 hv2 hbridge
    · exact ⟨"IndexUpdate",32,data.drop discriminatorSize,by decide,hv1 ▸ hsplit,
        length_of_parseIndexUpdate h⟩
    · exact ⟨"IndexUpdateV2",40,data.drop discriminatorSize,by decide,hv2 ▸ hsplit,
        length_of_parseIndexUpdateV2 h⟩
    · exact ⟨"BridgeEvent",82,data.drop discriminatorSize,by decide,hbridge ▸ hsplit,
        length_of_parseBridgeEvent h⟩

/-- What the indexer makes of a line. -/
def Decodes (crates : Crates) (line : String) (u : Update) : Prop :=
  Log.new line=.data line ∧ parseLogForEvents crates line=some u

/-- The writers and the reader of the three events agree on every byte: each value an event can
have comes back field by field, and nothing else of another size or name is taken for one. -/
theorem events_decoded (hb : Base64 crates.base64Encode crates.base64Decode)
    (hd : Discriminators crates.discriminator) :
    (∀ e : Earn.IndexUpdateV2 Float,Emittable e →
      Decodes crates (eventLine crates "IndexUpdateV2" (v2Fields e))
        (.indexUpdateV2 e.index e.ts.toNat e.supply e.currentMultiplier.toBits.toNat
          e.newMultiplier.toBits.toNat)) ∧
    (∀ e : IndexUpdate,Decodes crates (eventLine crates "IndexUpdate" e.fields)
      (.indexUpdate e.index.toNat e.ts.toNat e.supply.toNat e.maxYield.toNat)) ∧
    (∀ e : BridgeEvent,Decodes crates (eventLine crates "BridgeEvent" e.fields)
      (.bridgeEvent e.amount.toInt e.tokenSupply.toNat e.sender.toList e.recipient.toList
        (wormholeIdToChain e.wormholeChainId.toNat))) ∧
    Function.Injective wormholeIdToChain ∧
    ∀ log u,parseLogForEvents crates log=some u →
      ∃ data,dataLogData crates log=some data ∧
        ∃ name size body,(name,size)∈eventSizes ∧ data=crates.discriminator name++body ∧
          body.length=size := by
  refine ⟨?_,?_,?_,wormholeIdToChain_injective,fun _ _ h => parseLogForEvents_some h⟩
  · intro e he
    refine ⟨Log.new_data _,?_⟩
    rw [parseLogForEvents_line hb hd (by decide)]
    exact parseIndexUpdateV2_fields he
  · intro e
    refine ⟨Log.new_data _,?_⟩
    rw [parseLogForEvents_line hb hd (by decide)]
    exact parseIndexUpdate_fields e
  · intro e
    refine ⟨Log.new_data _,?_⟩
    rw [parseLogForEvents_line hb hd (by decide)]
    exact parseBridgeEvent_fields e

end

private theorem reference_discriminators : Discriminators reference.discriminator where
  length := by decide
  nodup := by decide

def sampleV2 : Earn.IndexUpdateV2 Float := ⟨1500000000000,1743014303,1799999,1.0,1.5⟩

private theorem sampleV2_emittable : Emittable sampleV2 where
  index := by decide
  ts_nonneg := by decide
  ts_lt := by decide
  supply := by decide
  grows := by decide +kernel

/-- A bridge out of Ethereum: the amount is negative. -/
def sampleBridge : BridgeEvent :=
  ⟨-1000000,1799999,Vector.replicate 32 7,Vector.replicate 32 9,2⟩

theorem events_decoded_reference :
    Decodes reference (eventLine reference "IndexUpdateV2" (v2Fields sampleV2))
        (.indexUpdateV2 1500000000000 1743014303 1799999 (1023*2^52) (1023*2^52+2^51)) ∧
      Decodes reference (eventLine reference "BridgeEvent" sampleBridge.fields)
        (.bridgeEvent (-1000000) 1799999 (List.replicate 32 7) (List.replicate 32 9)
          "Ethereum") := by
  obtain ⟨hv2,_,hbridge,_⟩ := events_decoded reference_base64 reference_discriminators
  have hcurrent : (1.0 : Float).toBits.toNat=1023*2^52 := by decide +kernel
  have hnew : (1.5 : Float).toBits.toNat=1023*2^52+2^51 := by decide +kernel
  have hfirst := hv2 sampleV2 sampleV2_emittable
  simp only [sampleV2] at hfirst
  rw [hcurrent,hnew] at hfirst
  exact ⟨hfirst,hbridge sampleBridge⟩

end SolanaM.Substreams
