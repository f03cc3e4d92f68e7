import NamiDB.Storage.UniqueIndexScan

/-! The values a statement works on: rows of bindings, and how a value becomes a stored property. -/
namespace NamiDB.Query
open Storage

/-- The properties of a node or a relationship are always storable, so they are kept in their stored form. -/
structure NodeValue where
  id : NodeId
  labels : List String
  properties : Properties

structure RelValue where
  edgeType : String
  src : NodeId
  dst : NodeId
  properties : Properties

inductive RuntimeValue where
  | null
  | bool (b : Bool)
  | integer (n : Int)
  | float (bits : BitVec 64)
  | string (s : String)
  | list (xs : List RuntimeValue)
  | map (entries : List (String × RuntimeValue))
  | node (n : NodeValue)
  | rel (r : RelValue)
  | date (days : Int)
  | dateTime (micros : Int)
  | bytes (b : List UInt8)
  | vector (xs : List (BitVec 32))
  | vector8 (codes : List Int) (scale : BitVec 32)
  | path (xs : List RuntimeValue)

namespace RuntimeValue

def typeName : RuntimeValue → String
  | .null => "NULL"
  | .bool _ => "BOOLEAN"
  | .integer _ => "INTEGER"
  | .float _ => "FLOAT"
  | .string _ => "STRING"
  | .list _ => "LIST"
  | .map _ => "MAP"
  | .node _ => "NODE"
  | .rel _ => "RELATIONSHIP"
  | .date _ => "DATE"
  | .dateTime _ => "DATETIME"
  | .bytes _ => "BYTES"
  | .vector _ => "VECTOR"
  | .vector8 _ _ => "VECTOR"
  | .path _ => "PATH"

def asBool : RuntimeValue → Option Bool
  | .bool b => some b
  | _ => none

mutual
def ofCore : Value → RuntimeValue
  | .null => .null
  | .bool b => .bool b
  | .i64 n => .integer n
  | .f64 f => .float f
  | .str s => .string s
  | .bytes b => .bytes b
  | .vec v => .vector v
  | .vecI8 codes scale => .vector8 codes scale
  | .date d => .date d
  | .dateTime m => .dateTime m
  | .list xs => .list (ofCoreList xs)
  | .map entries => .map (ofCoreMap entries)

def ofCoreList : List Value → List RuntimeValue
  | [] => []
  | x::xs => ofCore x::ofCoreList xs

def ofCoreMap : List (String × Value) → List (String × RuntimeValue)
  | [] => []
  | (k,x)::xs => (k,ofCore x)::ofCoreMap xs
end

mutual
/-- The error is the name of the type that cannot be stored. -/
def toCore : RuntimeValue → Except String Value
  | .null => .ok .null
  | .bool b => .ok (.bool b)
  | .integer n => .ok (.i64 n)
  | .float f => .ok (.f64 f)
  | .string s => .ok (.str s)
  | .bytes b => .ok (.bytes b)
  | .vector v => .ok (.vec v)
  | .vector8 codes scale => .ok (.vecI8 codes scale)
  | .date d => .ok (.date d)
  | .dateTime m => .ok (.dateTime m)
  | .list xs => (toCoreList xs).map .list
  | .map entries => (toCoreMap entries).map .map
  | .node _ => .error "NODE"
  | .rel _ => .error "RELATIONSHIP"
  | .path _ => .error "PATH"

def toCoreList : List RuntimeValue → Except String (List Value)
  | [] => .ok []
  | x::xs => do
    let y ← toCore x
    let ys ← toCoreList xs
    pure (y::ys)

def toCoreMap : List (String × RuntimeValue) → Except String (List (String × Value))
  | [] => .ok []
  | (k,x)::xs => do
    let y ← toCore x
    let ys ← toCoreMap xs
    pure ((k,y)::ys)
end

end RuntimeValue

abbrev Row := String → Option RuntimeValue

namespace Row

def new : Row := fun _ => none

def set (self : Row) (name : String) (value : RuntimeValue) : Row :=
  fun n => if n=name then some value else self n

def extend (self other : Row) : Row := fun n => (other n).or (self n)

def carryOver (self original last : Row) : Row :=
  fun n => if (original n).isSome then (last n).or (self n) else self n

def synchronizeNodeBindings (self : Row) (updated : NodeValue) : Row := fun n =>
  match self n with
  | some (.node node) => if node.id=updated.id then some (.node updated) else some (.node node)
  | other => other

def synchronizeRelBindings (self : Row) (updated : RelValue) : Row := fun n =>
  match self n with
  | some (.rel rel) =>
    if rel.edgeType=updated.edgeType ∧ rel.src=updated.src ∧ rel.dst=updated.dst then some (.rel updated)
    else some (.rel rel)
  | other => other

end Row

def isFinite (fraction : Nat) {w : Nat} (bits : BitVec w) : Bool :=
  decide (2*bits.toNat%2^w<2^w-2^(fraction+1))

/-- `n / 2 ^ k`, rounded to nearest, ties to even. -/
def roundShift (n k : Nat) : Nat :=
  let q := n/2^k
  let r := n%2^k
  if 2^k<2*r ∨ 2^k=2*r ∧ q%2=1 then q+1 else q

/-- A finite `f64 as f32`. The exponent and the fraction are rounded as one number, so that a carry moves to the
next binade or to infinity. -/
def f64AsF32 (bits : BitVec 64) : BitVec 32 :=
  let sign := bits.toNat/2^63
  let exponent := bits.toNat/2^52%2^11
  let fraction := bits.toNat%2^52
  let magnitude :=
    if 896<exponent then min (roundShift ((exponent-896)*2^52+fraction) 29) 0x7f800000
    else if exponent=0 then 0
    else roundShift (2^52+fraction) (30+(896-exponent))
  BitVec.ofNat 32 (sign*2^31+magnitude)

def i64AsF32 (n : Int) : BitVec 32 :=
  let sign := if n<0 then 1 else 0
  let log := n.natAbs.log2
  let magnitude :=
    if n=0 then 0
    else (log+126)*2^23+(if log≤23 then n.natAbs*2^(23-log) else roundShift n.natAbs (log-23))
  BitVec.ofNat 32 (sign*2^31+magnitude)

example : f64AsF32 0x3ff0000000000000=0x3f800000 ∧ f64AsF32 0xc00921fb54442d18=0xc0490fdb := by decide

example : i64AsF32 1=0x3f800000 ∧ i64AsF32 (-16777217)=0xcb800000 := by decide

def isNumericCore : Value → Bool
  | .i64 _ | .f64 _ => true
  | _ => false

def isBinaryPropertyValue : Value → Bool
  | .vec _ | .vecI8 _ _ | .bytes _ => true
  | .list xs => !xs.isEmpty&&xs.all isNumericCore
  | _ => false

mutual
/-- A value after it was written as JSON and read back: a float that is not finite is written as null. A vector
inside a list or a map that has such a component cannot be read back at all; it is null here. -/
def jsonValue : Value → Value
  | .f64 f => if isFinite 52 f then .f64 f else .null
  | .vec xs => if xs.all (isFinite 23) then .vec xs else .null
  | .vecI8 codes scale => if isFinite 23 scale then .vecI8 codes scale else .null
  | .list xs => .list (jsonList xs)
  | .map entries => .map (jsonMap entries)
  | .null => .null
  | .bool b => .bool b
  | .i64 n => .i64 n
  | .str s => .str s
  | .bytes b => .bytes b
  | .date d => .date d
  | .dateTime m => .dateTime m

def jsonList : List Value → List Value
  | [] => []
  | x::xs => jsonValue x::jsonList xs

def jsonMap : List (String × Value) → List (String × Value)
  | [] => []
  | (k,x)::xs => (k,jsonValue x)::jsonMap xs
end

def jsonProperties (props : Properties) : Properties :=
  props.entries.foldl (fun out e => out.insert e.1 (jsonValue e.2)) ∅

/-- The properties as `decode` finds them in an encoded node record: a record with a binary value is kept as it
is, any other one goes through JSON. -/
def storedProperties (props : Properties) : Properties :=
  if props.entries.any fun e => isBinaryPropertyValue e.2 then props else jsonProperties props

end NamiDB.Query
