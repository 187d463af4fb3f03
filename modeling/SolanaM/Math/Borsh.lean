import SolanaM.Math.LittleEndian
import Mathlib.Data.List.Basic

namespace SolanaM.Borsh

abbrev Octet := Fin 256

local instance octetNeZero : NeZero 256 := ⟨by decide⟩

/-- What stands where in an encoding. A structure is a chain of named fields closed by unit,
and the variants of an enumeration carry nothing. -/
inductive Layout
  | uint (width : Nat)
  | bytes (size : Nat)
  | option (layout : Layout)
  | vec (layout : Layout)
  | enum (variants : List String)
  | unit
  | field (name : String) (layout rest : Layout)
  deriving DecidableEq

/-- What a decoder without static types hands out; a variant is an object of one empty field. -/
inductive Value
  | uint (n : Nat)
  | bytes (bs : List Octet)
  | null
  | array (vs : List Value)
  | object (fields : List (String×Value))

/-- The encodings of a value under a layout. A sequence is counted by four bytes. -/
inductive Encodes : Layout → Value → List Octet → Prop
  | uint {width n : Nat} (h : n<256^width) :
      Encodes (.uint width) (.uint n) (LittleEndian.write 256 width n)
  | bytes (bs : List Octet) : Encodes (.bytes bs.length) (.bytes bs) bs
  | absent (layout : Layout) : Encodes (.option layout) .null [0]
  | present {layout : Layout} {v : Value} {bs : List Octet} (h : Encodes layout v bs) :
      Encodes (.option layout) v (1::bs)
  | vec {layout : Layout} (items : List (Value×List Octet))
      (h : ∀ item∈items,Encodes layout item.1 item.2) (hl : items.length<256^4) :
      Encodes (.vec layout) (.array (items.map (·.1)))
        (LittleEndian.write 256 4 items.length++items.flatMap (·.2))
  | enum {variants : List String} {name : String} (tag : Octet)
      (h : variants[tag.val]? = some name) :
      Encodes (.enum variants) (.object [(name,.object [])]) [tag]
  | unit : Encodes .unit (.object []) []
  | field (name : String) {layout rest : Layout} {v : Value} {fields : List (String×Value)}
      {bs cs : List Octet} (h : Encodes layout v bs) (hr : Encodes rest (.object fields) cs) :
      Encodes (.field name layout rest) (.object ((name,v)::fields)) (bs++cs)

/-- What is read, and the bytes after it. -/
abbrev Reader (α : Type) := List Octet → Option (α×List Octet)

def readUint (width : Nat) : Reader Nat := fun bs =>
  if width≤bs.length then some (LittleEndian.read (bs.take width),bs.drop width) else none

def readMany {α : Type} (item : Reader α) : Nat → Reader (List α)
  | 0,bs => some ([],bs)
  | n+1,bs => do
      let (v,bs) ← item bs
      let (vs,bs) ← readMany item n bs
      some (v::vs,bs)

def prepend (name : String) (v : Value) : Value → Option Value
  | .object fields => some (.object ((name,v)::fields))
  | _ => none

def Layout.decode : Layout → Reader Value
  | .uint width,bs => do
      let (n,bs) ← readUint width bs
      some (.uint n,bs)
  | .bytes size,bs => if size≤bs.length then some (.bytes (bs.take size),bs.drop size) else none
  | .option layout,bs => do
      let (tag,bs) ← readUint 1 bs
      if tag=0 then some (.null,bs) else if tag=1 then layout.decode bs else none
  | .vec layout,bs => do
      let (n,bs) ← readUint 4 bs
      let (vs,bs) ← readMany layout.decode n bs
      some (.array vs,bs)
  | .enum variants,bs => do
      let (tag,bs) ← readUint 1 bs
      let name ← variants[tag]?
      some (.object [(name,.object [])],bs)
  | .unit,bs => some (.object [],bs)
  | .field name layout rest,bs => do
      let (v,bs) ← layout.decode bs
      let (fields,bs) ← rest.decode bs
      let object ← prepend name v fields
      some (object,bs)

theorem readUint_write {width n : Nat} (h : n<256^width) (bs : List Octet) :
    readUint width (LittleEndian.write 256 width n++bs)=some (n,bs) := by
  have hl := LittleEndian.length_write (B := 256) width n
  rw [readUint,if_pos (by simp)]
  rw [List.take_left' hl,List.drop_left' hl,LittleEndian.read_write_of_lt h]

theorem readUint_one (tag : Octet) (bs : List Octet) :
    readUint 1 (tag::bs)=some (tag.val,bs) := by
  simp [readUint,LittleEndian.read]

theorem readMany_flatMap {α : Type} {item : Reader α} (items : List (α×List Octet))
    (h : ∀ i∈items,∀ bs,item (i.2++bs)=some (i.1,bs)) (bs : List Octet) :
    readMany item items.length (items.flatMap (·.2)++bs)=some (items.map (·.1),bs) := by
  induction items with
  | nil => rfl
  | cons i items ih =>
    have hi := h i List.mem_cons_self
    have hrest := ih fun j hj => h j (List.mem_cons_of_mem i hj)
    simp [readMany,hi,hrest]

/-- The decoder reads back every encoding and stops where it ends. -/
theorem Encodes.decode {layout : Layout} {v : Value} {bs : List Octet} (h : Encodes layout v bs)
    (after : List Octet) : layout.decode (bs++after)=some (v,after) := by
  induction h generalizing after with
  | uint h => simp [Layout.decode,readUint_write h]
  | bytes bs => simp [Layout.decode]
  | absent layout => simp [Layout.decode,readUint_one]
  | present h ih => simp [Layout.decode,readUint_one,ih]
  | vec items h hl ih =>
    rw [Layout.decode,List.append_assoc,readUint_write hl]
    simp [readMany_flatMap items ih]
  | enum tag h => simp [Layout.decode,readUint_one,h]
  | unit => rfl
  | field name h hr ih ihr => simp [Layout.decode,ih,ihr,prepend]

end SolanaM.Borsh
