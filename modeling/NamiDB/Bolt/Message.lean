import NamiDB.Bolt.Codec

/-! Request and response messages, and the version handshake. -/
namespace NamiDB.Bolt

def tagHello : UInt8 := 0x01
def tagGoodbye : UInt8 := 0x02
def tagReset : UInt8 := 0x0F
def tagRun : UInt8 := 0x10
def tagBegin : UInt8 := 0x11
def tagCommit : UInt8 := 0x12
def tagRollback : UInt8 := 0x13
def tagDiscard : UInt8 := 0x2F
def tagPull : UInt8 := 0x3F
def tagRoute : UInt8 := 0x66
def tagLogon : UInt8 := 0x6A
def tagLogoff : UInt8 := 0x6B
def tagTelemetry : UInt8 := 0x54

inductive Request where
  | hello (extra : ValueMap)
  | logon (extra : ValueMap)
  | logoff
  | goodbye
  | reset
  | run (cypher : String) (params extra : ValueMap)
  | pull (extra : ValueMap)
  | discard (extra : ValueMap)
  | begin (extra : ValueMap)
  | commit
  | rollback
  | route (routing : ValueMap) (bookmarks : List Value) (extra : Value)
  | telemetry (extra : ValueMap)
  | unknown (tag : UInt8) (fields : List Value)

def takeMapField (structName : String) (fields : List Value) (idx : Nat) : Except BoltError ValueMap :=
  match fields[idx]? with
  | some (.map m) => .ok m
  | some other => .error (.malformedStruct structName
      ("field " ++ toString idx ++ " must be Map, got " ++ other.typeName))
  | none => .error (.malformedStruct structName ("missing field at index " ++ toString idx))

def takeStringField (structName : String) (fields : List Value) (idx : Nat) : Except BoltError String :=
  match fields[idx]? with
  | some (.string s) => .ok s
  | some other => .error (.malformedStruct structName
      ("field " ++ toString idx ++ " must be String, got " ++ other.typeName))
  | none => .error (.malformedStruct structName ("missing field at index " ++ toString idx))

def takeRunExtra (fields : List Value) : Except BoltError ValueMap :=
  match (fields[2]? : Option Value) with
  | some (.map m) => .ok m
  | some other => .error (.malformedStruct "RUN" ("field 2 must be Map, got " ++ other.typeName))
  | none => .ok []

def takeBookmarks (fields : List Value) : Except BoltError (List Value) :=
  match (fields[1]? : Option Value) with
  | some (.list items) => .ok items
  | some .null | none => .ok []
  | some other => .error (.malformedStruct "ROUTE" ("field 1 must be List, got " ++ other.typeName))

def Request.ofStruct (tag : UInt8) (fields : List Value) : Except BoltError Request :=
  if tag=tagHello then .hello <$> takeMapField "HELLO" fields 0
  else if tag=tagLogon then .logon <$> takeMapField "LOGON" fields 0
  else if tag=tagLogoff then .ok .logoff
  else if tag=tagGoodbye then .ok .goodbye
  else if tag=tagReset then .ok .reset
  else if tag=tagRun then do
    let cypher ← takeStringField "RUN" fields 0
    let params ← takeMapField "RUN" fields 1
    let extra ← takeRunExtra fields
    pure (.run cypher params extra)
  else if tag=tagPull then .pull <$> takeMapField "PULL" fields 0
  else if tag=tagDiscard then .discard <$> takeMapField "DISCARD" fields 0
  else if tag=tagBegin then .begin <$> takeMapField "BEGIN" fields 0
  else if tag=tagCommit then .ok .commit
  else if tag=tagRollback then .ok .rollback
  else if tag=tagRoute then do
    let routing ← takeMapField "ROUTE" fields 0
    let bookmarks ← takeBookmarks fields
    pure (.route routing bookmarks (fields[2]?.getD .null))
  else if tag=tagTelemetry then .telemetry <$> takeMapField "TELEMETRY" fields 0
  else .ok (.unknown tag fields)

def Request.fromValue : Value → Except BoltError Request
  | .struct tag fields => Request.ofStruct tag fields
  | other => .error (.protocol ("expected Struct message, got " ++ other.typeName))

def Request.decode (body : List UInt8) (maxLen : Nat) : Except BoltError Request := do
  let (value,rest) ← decodeWithLimit body maxLen
  if rest.isEmpty then Request.fromValue value
  else .error (.protocol
    ("trailing bytes after message struct: " ++ toString rest.length ++ " bytes"))

def rawRequestTag : List UInt8 → Option UInt8
  | marker::rest =>
    if 0xB0 ≤ marker.toNat ∧ marker.toNat≤0xBF then rest.head?
    else if marker.toNat=0xDC then rest[1]?
    else if marker.toNat=0xDD then rest[2]?
    else none
  | [] => none

/-- Small requests that give something back are let through under memory pressure. -/
def isPressureReliefFrame (body : List UInt8) : Bool :=
  match rawRequestTag body with
  | some tag => [tagPull,tagDiscard,tagCommit,tagRollback,tagReset,tagGoodbye,tagLogoff].contains tag
  | none => false

def controlFrameMaxBytes : Nat := 4*1024

def requiresDecodeAdmission (body : List UInt8) : Bool :=
  body.length>controlFrameMaxBytes || !isPressureReliefFrame body

section

variable {P : Value → Prop} {fields : List Value} {budget : DecodeBudget} {value : DecodeM Value}
  {s s' : DecodeState} {extra : ValueMap} {tag : UInt8}

theorem except_bind_ok {x : Except ε α} {f : α → Except ε β} {b : β} (h : x >>= f = .ok b) :
    ∃ a, x = .ok a ∧ f a = .ok b := by
  cases x with
  | error e => cases h
  | ok a => exact ⟨a,rfl,h⟩

def Returns (m : DecodeM Value) (P : Value → Prop) : Prop := ∀ s v s', m s = .ok (v,s') → P v

theorem Returns.pure {v : Value} (h : P v) : Returns (pure v) P := by
  intro s v' s' hv
  cases hv
  exact h

theorem Returns.bind (h : ∀ a, Returns (f a) P) : Returns (m >>= f) P := by
  intro s v s' hv
  obtain ⟨⟨a,s1⟩,-,hf⟩ := except_bind_ok hv
  exact h a s1 v s' hf

theorem Returns.throw {e : BoltError} : Returns (throw e) P := by
  intro s v s' hv
  cases hv

theorem Returns.ite [Decidable c] (hm : c → Returns m P) (hn : ¬ c → Returns n P) :
    Returns (if c then m else n) P := by
  split
  · exact hm ‹_›
  · exact hn ‹_›

def Value.isStruct : Value → Bool
  | .struct _ _ => true
  | _ => false

theorem returns_stringBody (budget : DecodeBudget) (len : Nat) :
    Returns (decodeStringBody budget len) (·.isStruct=false) := by
  refine .bind fun _ => .bind fun _ => .bind fun _ => .bind fun bytes => ?_
  split
  · exact .pure rfl
  · exact .throw

theorem returns_bytesBody (budget : DecodeBudget) (len : Nat) :
    Returns (decodeBytesBody budget len) (·.isStruct=false) :=
  .bind fun _ => .bind fun _ => .bind fun _ => .bind fun _ => .pure rfl

theorem returns_listBody (budget : DecodeBudget) (value : DecodeM Value) (len : Nat) :
    Returns (decodeListBody budget value len) (·.isStruct=false) :=
  .bind fun _ => .bind fun _ => .bind fun _ => .bind fun _ => .pure rfl

theorem returns_mapBody (budget : DecodeBudget) (value : DecodeM Value) (len : Nat) :
    Returns (decodeMapBody budget value len) (·.isStruct=false) :=
  .bind fun _ => .bind fun _ => .bind fun _ => .bind fun _ => .pure rfl

theorem decodeStructBody_tag (h : decodeStructBody budget value n s = .ok (.struct tag fields,s')) :
    s.buf.head?=some tag := by
  obtain ⟨⟨b,s1⟩,hb,h⟩ := except_bind_ok h
  have hstruct : Returns (do
      boundCheck budget "Struct" n
      requireMinimumWire n "Struct fields"
      charge budget "decoded Struct heap" (n*valueSlotBytes)
      let out ← decodeMany value n
      pure (.struct b out)) (fun v => ∃ out, v = .struct b out) :=
    .bind fun _ => .bind fun _ => .bind fun _ => .bind fun out => .pure ⟨out,rfl⟩
  obtain ⟨out,hout⟩ := hstruct s1 _ s' h
  cases hbuf : s.buf with
  | nil => simp [readU8,hbuf] at hb
  | cons x rest =>
    simp only [readU8,hbuf,Except.ok.injEq,Prod.mk.injEq] at hb
    cases hout
    rw [← hb.1]
    rfl

theorem returns_marked (hm : ¬ (0xB0 ≤ marker.toNat ∧ marker.toNat≤0xBF)) (h1 : marker.toNat≠0xDC)
    (h2 : marker.toNat≠0xDD) : Returns (decodeMarked budget value marker) (·.isStruct=false) := by
  unfold decodeMarked
  iterate 3 refine .ite (fun _ => .pure rfl) fun _ => ?_
  iterate 5 refine .ite (fun _ => .bind fun _ => .pure rfl) fun _ => ?_
  iterate 2 refine .ite (fun _ => .pure rfl) fun _ => ?_
  refine .ite (fun _ => returns_stringBody _ _) fun _ => ?_
  iterate 3 refine .ite (fun _ => .bind fun _ => returns_stringBody _ _) fun _ => ?_
  iterate 3 refine .ite (fun _ => .bind fun _ => returns_bytesBody _ _) fun _ => ?_
  refine .ite (fun _ => returns_listBody _ _ _) fun _ => ?_
  iterate 3 refine .ite (fun _ => .bind fun _ => returns_listBody _ _ _) fun _ => ?_
  refine .ite (fun _ => returns_mapBody _ _ _) fun hmap => ?_
  iterate 3 refine .ite (fun _ => .bind fun _ => returns_mapBody _ _ _) fun _ => ?_
  refine .ite (fun h => absurd ⟨by omega,h⟩ hm) fun _ => ?_
  exact .ite (fun h => absurd h h1) fun _ => .ite (fun h => absurd h h2) fun _ => .throw

theorem readUnsigned_buf (h : readUnsigned n what s = .ok (v,s')) : n ≤ s.buf.length ∧ s'.buf=s.buf.drop n := by
  obtain ⟨⟨bytes,s1⟩,hb,⟨⟩⟩ := except_bind_ok h
  simp only [takeBytes] at hb
  split at hb
  · cases hb
  · cases hb
    exact ⟨by omega,rfl⟩

theorem decodeMarked_tag (h : decodeMarked budget value marker s = .ok (.struct tag fields,s')) :
    rawRequestTag (marker::s.buf)=some tag := by
  by_cases hm : 0xB0 ≤ marker.toNat ∧ marker.toNat≤0xBF
  · have heq : decodeMarked budget value marker=decodeStructBody budget value (marker.toNat-0xB0) := by
      unfold decodeMarked
      repeat rw [if_neg (by omega)]
      rw [if_pos (by omega)]
    rw [heq] at h
    simpa [rawRequestTag,hm] using decodeStructBody_tag h
  · have hsized : ∀ k what, decodeMarked budget value marker =
        (readUnsigned k what >>= decodeStructBody budget value) → s.buf[k]?=some tag := by
      intro k what heq
      rw [heq] at h
      obtain ⟨⟨n,s1⟩,hn,h⟩ := except_bind_ok h
      have htag := decodeStructBody_tag h
      rwa [(readUnsigned_buf hn).2,List.head?_drop] at htag
    by_cases h1 : marker.toNat=0xDC
    · simpa [rawRequestTag,h1] using hsized 1 "Struct8 size" (by simp [decodeMarked,h1])
    · by_cases h2 : marker.toNat=0xDD
      · simpa [rawRequestTag,h2] using hsized 2 "Struct16 size" (by simp [decodeMarked,h2])
      · exact absurd (returns_marked hm h1 h2 s _ s' h) (by simp [Value.isStruct])

def NotPull (x : Except BoltError Request) : Prop := ∀ extra, x ≠ .ok (.pull extra)

theorem NotPull.ok (h : ∀ extra, r ≠ .pull extra) : NotPull (.ok r) := by
  intro extra he
  cases he
  exact h extra rfl

theorem NotPull.map (h : ∀ a extra, f a ≠ .pull extra) : NotPull (f <$> x) := by
  cases x with
  | error e => exact fun _ he => nomatch he
  | ok a => exact .ok (h a)

theorem NotPull.bind (h : ∀ a, NotPull (f a)) : NotPull (x >>= f) := by
  cases x with
  | error e => exact fun _ he => nomatch he
  | ok a => exact h a

theorem NotPull.ite [Decidable c] (hx : c → NotPull x) (hy : NotPull y) : NotPull (if c then x else y) := by
  split
  · exact hx ‹_›
  · exact hy

theorem notPull_ofStruct (h : tag≠tagPull) : NotPull (Request.ofStruct tag fields) := by
  iterate 2 refine .ite (fun _ => .map nofun) ?_
  iterate 3 refine .ite (fun _ => .ok nofun) ?_
  refine .ite (fun _ => .bind fun _ => .bind fun _ => .bind fun _ => .ok nofun) ?_
  refine .ite (fun he => absurd he h) ?_
  iterate 2 refine .ite (fun _ => .map nofun) ?_
  iterate 2 refine .ite (fun _ => .ok nofun) ?_
  refine .ite (fun _ => .bind fun _ => .bind fun _ => .ok nofun) ?_
  exact .ite (fun _ => .map nofun) (.ok nofun)

theorem Request.ofStruct_pull (h : Request.ofStruct tag fields = .ok (.pull extra)) : tag=tagPull := by
  by_contra hne
  exact notPull_ofStruct hne extra h

theorem Request.decode_pull (h : Request.decode body maxLen = .ok (.pull extra)) :
    rawRequestTag body=some tagPull := by
  obtain ⟨⟨value,rest⟩,hv,h⟩ := except_bind_ok h
  obtain ⟨⟨v,s⟩,hd,⟨⟩⟩ := except_bind_ok hv
  dsimp only at h
  split at h
  · cases value with
    | struct tag fields =>
      rw [← Request.ofStruct_pull h]
      obtain ⟨⟨marker,s1⟩,hmark,hd⟩ := except_bind_ok hd
      cases body with
      | nil => simp [readU8] at hmark
      | cons b bytes =>
        obtain ⟨rfl,rfl⟩ := hmark
        exact decodeMarked_tag hd
    | _ => cases h
  · cases h

theorem Request.decode_goodbye (maxLen : Nat) : Request.decode [0xB0,tagGoodbye] maxLen = .ok .goodbye := rfl

end

inductive Response where
  | success (metadata : ValueMap)
  | record (values : List Value)
  | ignored
  | failure (metadata : ValueMap)

def Response.successEmpty : Response := .success []

def mapOf (entries : List (String × Value)) : ValueMap :=
  entries.foldl (fun m e => m.insert e.1 e.2) []

def gqlStatusForCode (code : String) : String :=
  match code with
  | "Neo.ClientError.Statement.SyntaxError" => "42001"
  | "Neo.ClientError.Statement.SemanticError" => "42000"
  | "Neo.ClientError.Statement.NotSupported" => "0A000"
  | "Neo.ClientError.Statement.ArgumentError" => "22000"
  | "Neo.ClientError.Schema.ConstraintValidationFailed" => "23000"
  | "Neo.ClientError.Transaction.TransactionTimedOut" => "57014"
  | "Neo.ClientError.Statement.ResourceLimitExceeded" => "54000"
  | "Neo.TransientError.General.DatabaseUnavailable" => "53000"
  | "Neo.TransientError.Transaction.LockClientStopped" => "53000"
  | "Neo.ClientError.Security.Unauthorized" => "28000"
  | "Neo.ClientError.Security.Forbidden" => "42501"
  | "Neo.ClientError.Request.Invalid" => "08000"
  | _ => "50N42"

def Response.failureOf (code message : String) : Response :=
  .failure (mapOf [("code",.string code),("message",.string message)])

/-- From 5.7 on a failure carries the GQL fields too. -/
def Response.failureWithGql (code message : String) : Response :=
  .failure (mapOf
    [("neo4j_code",.string code),("code",.string code),("message",.string message),
      ("gql_status",.string (gqlStatusForCode code)),("description",.string ("error: " ++ message)),
      ("diagnostic_record",.map (mapOf
        [("OPERATION",.string ""),("OPERATION_CODE",.string "0"),("CURRENT_SCHEMA",.string "/")]))])

structure Version where
  major : Nat
  minor : Nat
  deriving DecidableEq

def Version.display (v : Version) : String := toString v.major ++ "." ++ toString v.minor

def supportedVersions : List Version := [⟨5,7⟩,⟨5,4⟩,⟨5,0⟩,⟨4,4⟩]

/-- Any minor from `minor - range` to `minor`. -/
structure Offer where
  range : Nat
  minor : Nat
  major : Nat

def Offer.covers (self : Offer) (version : Version) : Bool :=
  self.major=version.major&&decide (self.minor-self.range≤version.minor) &&
    decide (version.minor ≤ self.minor)

def magic : List UInt8 := [0x60,0x60,0xB0,0x17]

def Offer.parse (bytes : List UInt8) : Offer :=
  ⟨(bytes.getD 1 0).toNat,(bytes.getD 2 0).toNat,(bytes.getD 3 0).toNat⟩

def parseOffers (bytes : Vector UInt8 20) : Except BoltError (List Offer) :=
  let buf := bytes.toList
  if buf.take 4≠magic then
    .error (.handshake ("expected magic 0x6060B017, got 0x" ++
      String.join ((buf.take 4).map hexByte)))
  else .ok ([4,8,12,16].map fun i => Offer.parse ((buf.drop i).take 4))

def negotiate (offers : List Offer) : Option Version :=
  supportedVersions.find? fun v => offers.any fun o => o.covers v

end NamiDB.Bolt
