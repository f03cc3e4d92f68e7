import Mathlib.Algebra.Order.Ring.Int
import Mathlib.Data.List.Basic

/-! PackStream values and their decoder. A length never leaves the range of `usize`, since each one is read from
at most four bytes. -/
namespace NamiDB.Bolt

/-- A float is its bit pattern. A map is ordered by its keys. -/
inductive Value where
  | null
  | bool (b : Bool)
  | int (n : Int)
  | float (bits : BitVec 64)
  | string (s : String)
  | bytes (b : List UInt8)
  | list (items : List Value)
  | map (entries : List (String × Value))
  | struct (tag : UInt8) (fields : List Value)

def Value.typeName : Value → String
  | .null => "Null"
  | .bool _ => "Bool"
  | .int _ => "Int"
  | .float _ => "Float"
  | .string _ => "String"
  | .bytes _ => "Bytes"
  | .list _ => "List"
  | .map _ => "Map"
  | .struct _ _ => "Struct"

abbrev ValueMap := List (String × Value)

def ValueMap.insert (key : String) (value : Value) : ValueMap → ValueMap
  | [] => [(key,value)]
  | (k,v)::rest =>
    if key<k then (key,value)::(k,v)::rest
    else if key=k then (key,value)::rest
    else (k,v)::ValueMap.insert key value rest

inductive ErrorKind where
  | unexpectedEof | timedOut | other
  deriving DecidableEq

/-- An I/O error keeps its kind and the text it is displayed with. -/
inductive BoltError where
  | io (kind : ErrorKind) (text : String)
  | unexpectedEof (what : String)
  | invalidMarker (byte : UInt8) (expected : String)
  | invalidUtf8 (text : String)
  | tooLarge (what : String) (len max : Nat)
  | decodedTooLarge (what : String) (estimated max wireBytes : Nat)
  | memoryBudgetExhausted (what : String) (requested available capacity : Nat)
  | nestingTooDeep (max : Nat)
  | malformedStruct (structName detail : String)
  | handshake (text : String)
  | protocol (text : String)

def hexDigit (n : Nat) : Char := "0123456789ABCDEF".toList.getD n '0'

def hexByte (b : UInt8) : String := String.ofList [hexDigit (b.toNat/16),hexDigit (b.toNat%16)]

def BoltError.display : BoltError → String
  | .io _ text => "io: " ++ text
  | .unexpectedEof what => "unexpected end of input while decoding " ++ what
  | .invalidMarker byte expected => "invalid marker byte 0x" ++ hexByte byte ++ " for " ++ expected
  | .invalidUtf8 text => "invalid utf-8 in string: " ++ text
  | .tooLarge what len max =>
    "value too large: " ++ what ++ " length " ++ toString len ++ " exceeds maximum " ++ toString max
  | .decodedTooLarge _ estimated max wireBytes =>
    "message too large to decode: estimated decoded memory " ++ toString estimated ++
      " bytes exceeds the per-message limit " ++ toString max ++ " bytes (message body " ++
      toString wireBytes ++ " wire bytes; limit = 2 MiB + 8 x body bytes; split the " ++
      "batch or send fewer rows per message)"
  | .memoryBudgetExhausted what requested available capacity =>
    "temporary memory pressure: " ++ what ++ " needs " ++ toString requested ++ " bytes, but only " ++
      toString available ++ " of " ++ toString capacity ++ " bytes are available"
  | .nestingTooDeep max => "value nesting too deep: exceeds maximum depth " ++ toString max
  | .malformedStruct structName detail => "malformed struct " ++ structName ++ ": " ++ detail
  | .handshake text => "handshake failed: " ++ text
  | .protocol text => "protocol error: " ++ text

def maxNestingDepth : Nat := 128

def decodeHeapBaseBytes : Nat := 2*1024*1024

def decodeHeapBytesPerWireByte : Nat := 8

def mapEntryHeapBytes : Nat := 128

/-- `size_of::<Value>()`. -/
def valueSlotBytes : Nat := 32

structure DecodeBudget where
  maxLen : Nat
  max : Nat
  wireBytes : Nat

def DecodeBudget.forMessage (wireBytes maxLen : Nat) : DecodeBudget :=
  { maxLen
    max := decodeHeapBaseBytes+min wireBytes maxLen*decodeHeapBytesPerWireByte
    wireBytes := min wireBytes maxLen }

structure DecodeState where
  buf : List UInt8
  used : Nat

abbrev DecodeM := StateT DecodeState (Except BoltError)

def charge (budget : DecodeBudget) (what : String) (bytes : Nat) : DecodeM Unit := fun s =>
  if s.used+bytes>budget.max then
    .error (.decodedTooLarge what (s.used+bytes) budget.max budget.wireBytes)
  else .ok ((),{ s with used := s.used+bytes })

def takeBytes (n : Nat) (what : String) : DecodeM (List UInt8) := fun s =>
  if s.buf.length<n then .error (.unexpectedEof what)
  else .ok (s.buf.take n,{ s with buf := s.buf.drop n })

def readU8 (what : String) : DecodeM UInt8 := fun s =>
  match s.buf with
  | [] => .error (.unexpectedEof what)
  | b::rest => .ok (b,{ s with buf := rest })

def bigEndian (bytes : List UInt8) : Nat := bytes.foldl (fun n b => n*256+b.toNat) 0

def readUnsigned (n : Nat) (what : String) : DecodeM Nat := do
  let bytes ← takeBytes n what
  pure (bigEndian bytes)

/-- A number of `n` bytes in two's complement. -/
def readSigned (n : Nat) (what : String) : DecodeM Int := do
  let v ← readUnsigned n what
  pure (if v<2^(8*n-1) then v else v-2^(8*n))

def boundCheck (budget : DecodeBudget) (what : String) (len : Nat) : DecodeM Unit := fun s =>
  if len>budget.maxLen then .error (.tooLarge what len budget.maxLen) else .ok ((),s)

def requireMinimumWire (required : Nat) (what : String) : DecodeM Unit := fun s =>
  if required>s.buf.length then .error (.unexpectedEof what) else .ok ((),s)

def decodeStringBody (budget : DecodeBudget) (len : Nat) : DecodeM Value := do
  boundCheck budget "String" len
  requireMinimumWire len "String"
  charge budget "decoded String heap" len
  let bytes ← takeBytes len "String"
  match String.fromUTF8? ⟨bytes.toArray⟩ with
  | some s => pure (.string s)
  | none => throw (.invalidUtf8 "invalid utf-8 sequence")

def decodeBytesBody (budget : DecodeBudget) (len : Nat) : DecodeM Value := do
  boundCheck budget "Bytes" len
  requireMinimumWire len "Bytes"
  charge budget "decoded Bytes heap" len
  let bytes ← takeBytes len "Bytes"
  pure (.bytes bytes)

def decodeMany (value : DecodeM Value) : Nat → DecodeM (List Value)
  | 0 => pure []
  | n+1 => do
    let v ← value
    let vs ← decodeMany value n
    pure (v::vs)

def decodePairs (value : DecodeM Value) : Nat → ValueMap → DecodeM ValueMap
  | 0, out => pure out
  | n+1, out => do
    match ← value with
    | .string key =>
      let v ← value
      decodePairs value n (out.insert key v)
    | other => throw (.malformedStruct "Map" ("key must be String, got " ++ other.typeName))

def decodeListBody (budget : DecodeBudget) (value : DecodeM Value) (len : Nat) : DecodeM Value := do
  boundCheck budget "List" len
  requireMinimumWire len "List items"
  charge budget "decoded List heap" (len*valueSlotBytes)
  let items ← decodeMany value len
  pure (.list items)

def decodeMapBody (budget : DecodeBudget) (value : DecodeM Value) (len : Nat) : DecodeM Value := do
  boundCheck budget "Map" len
  requireMinimumWire (len*2) "Map entries"
  charge budget "decoded Map heap" (len*mapEntryHeapBytes)
  let entries ← decodePairs value len []
  pure (.map entries)

def decodeStructBody (budget : DecodeBudget) (value : DecodeM Value) (fields : Nat) :
    DecodeM Value := do
  let tag ← readU8 "Struct tag"
  boundCheck budget "Struct" fields
  requireMinimumWire fields "Struct fields"
  charge budget "decoded Struct heap" (fields*valueSlotBytes)
  let out ← decodeMany value fields
  pure (.struct tag out)

/-- The marker says what follows; `value` decodes one level deeper. -/
def decodeMarked (budget : DecodeBudget) (value : DecodeM Value) (marker : UInt8) : DecodeM Value :=
  let m := marker.toNat
  if m=0xC0 then pure .null
  else if m=0xC2 then pure (.bool false)
  else if m=0xC3 then pure (.bool true)
  else if m=0xC1 then do
    let bits ← readUnsigned 8 "Float"
    pure (.float (BitVec.ofNat 64 bits))
  else if m=0xC8 then return .int (← readSigned 1 "Int8")
  else if m=0xC9 then return .int (← readSigned 2 "Int16")
  else if m=0xCA then return .int (← readSigned 4 "Int32")
  else if m=0xCB then return .int (← readSigned 8 "Int64")
  else if 0xF0 ≤ m then pure (.int (m-256))
  else if m≤0x7F then pure (.int m)
  else if m≤0x8F then decodeStringBody budget (m-0x80)
  else if m=0xD0 then do decodeStringBody budget (← readUnsigned 1 "String8 length")
  else if m=0xD1 then do decodeStringBody budget (← readUnsigned 2 "String16 length")
  else if m=0xD2 then do decodeStringBody budget (← readUnsigned 4 "String32 length")
  else if m=0xCC then do decodeBytesBody budget (← readUnsigned 1 "Bytes8 length")
  else if m=0xCD then do decodeBytesBody budget (← readUnsigned 2 "Bytes16 length")
  else if m=0xCE then do decodeBytesBody budget (← readUnsigned 4 "Bytes32 length")
  else if m≤0x9F then decodeListBody budget value (m-0x90)
  else if m=0xD4 then do decodeListBody budget value (← readUnsigned 1 "List8 length")
  else if m=0xD5 then do decodeListBody budget value (← readUnsigned 2 "List16 length")
  else if m=0xD6 then do decodeListBody budget value (← readUnsigned 4 "List32 length")
  else if m≤0xAF then decodeMapBody budget value (m-0xA0)
  else if m=0xD8 then do decodeMapBody budget value (← readUnsigned 1 "Map8 length")
  else if m=0xD9 then do decodeMapBody budget value (← readUnsigned 2 "Map16 length")
  else if m=0xDA then do decodeMapBody budget value (← readUnsigned 4 "Map32 length")
  else if m≤0xBF then decodeStructBody budget value (m-0xB0)
  else if m=0xDC then do decodeStructBody budget value (← readUnsigned 1 "Struct8 size")
  else if m=0xDD then do decodeStructBody budget value (← readUnsigned 2 "Struct16 size")
  else throw (.invalidMarker marker "any PackStream value")

/-- `levels` counts down what is left of the nesting depth. -/
def decodeInner (budget : DecodeBudget) : Nat → DecodeM Value
  | 0 => throw (.nestingTooDeep maxNestingDepth)
  | levels+1 => do
    let marker ← readU8 "marker"
    decodeMarked budget (decodeInner budget levels) marker

def decodeWithLimit (buf : List UInt8) (maxLen : Nat) : Except BoltError (Value × List UInt8) := do
  let (v,s) ← decodeInner (.forMessage buf.length maxLen) (maxNestingDepth+1) ⟨buf,0⟩
  pure (v,s.buf)

end NamiDB.Bolt
