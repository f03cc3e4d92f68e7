import NamiDB.Query.Session

/-! The checks a write makes before it stages a node: uniqueness over one property or a tuple, not-null, and the
dimension of embeddings. -/
namespace NamiDB.Storage

def Schema.label (self : Schema) (name : String) : Option LabelDef :=
  self.labels.find? fun d => d.name=name

def LabelDef.isUnique (self : LabelDef) (key : String) : Bool :=
  self.properties.any fun p => p.name=key&&p.unique

def LabelDef.isRequired (self : LabelDef) (key : String) : Bool :=
  self.properties.any fun p => p.name=key && !p.nullable

def Value.isNull : Value → Bool
  | .null => true
  | _ => false

end NamiDB.Storage

namespace NamiDB.Query
open Storage Lib

/-- What the executor takes from the expression language, and the texts of values in messages. `nodeId` reads an
explicit `_id`, and `parameter` is the value of an expression that is a parameter. -/
structure Language (Expr : Type) where
  evaluate : Expr → Row → Except ExecError RuntimeValue
  text : Expr → String
  nodeId : RuntimeValue → Except ExecError NodeId
  nodeIdText : NodeId → String
  debug : Value → String
  debugBinding : Option RuntimeValue → String
  parameter : Expr → Option RuntimeValue
  isDirectPropertyOf : Expr → String → Bool
  chunkRows : Nat

variable {Expr : Type} (L : Language Expr)

/-- A node, other than `exclude`, that holds the same value for every property. A tuple without a scalar key is
looked up by a scan. -/
def findCompositeConflict (label : String) (props : List (String × Value)) (exclude : Option NodeId) :
    ExecM (Option NodeId) := do
  let answer ← ask (.uniqueProbe label props exclude)
  match ← orFail answer with
  | .conflict id => pure (some id)
  | .noConflict => pure none
  | .unindexable =>
    let snap ← ask .readOverlay
    let graph ← orFail snap
    pure ((graph.nodes.scanHolders label props).find? fun id => some id≠exclude)

def rejectConflicts (exclude : Option NodeId) (message : String → List (String × Value) → String)
    (checks : List (String × List (String × Value))) : ExecM Unit :=
  checks.forM fun check => do
    let conflict ← findCompositeConflict check.1 check.2 exclude
    if conflict.isSome then throw (.constraint (message check.1 check.2))

def uniqueChecks (schema : Schema) (labels : List String) (props : Properties) :
    List (String × List (String × Value)) :=
  labels.flatMap fun label => ((schema.label label).elim [] (·.properties)).filterMap fun prop =>
    if prop.unique then (props.lookup prop.name).map fun v => (label,[(prop.name,v)]) else none

def enforceUniqueOnCreate (labels : List String) (props : Properties) (exclude : Option NodeId) : ExecM Unit := do
  let w ← ask .session
  rejectConflicts exclude (fun label check =>
    let desc := ", ".intercalate (check.map fun p => s!"{label}.{p.1} = {L.debug p.2}")
    s!"{desc} already exists (unique constraint)") (uniqueChecks w.schema labels props)

def enforceUniqueOnSet (labels : List String) (key : String) (value : Value) (selfId : NodeId) : ExecM Unit := do
  let w ← ask .session
  let uniqueLabels := labels.filter fun l => (w.schema.label l).any fun d => d.isUnique key
  rejectConflicts (some selfId) (fun label check =>
    let desc := ", ".intercalate (check.map fun p => s!"{label}.{p.1} = {L.debug p.2}")
    s!"{desc} already held by another node (unique constraint)") (uniqueLabels.map fun l => (l,[(key,value)]))

def completeTuple (properties : List String) (props : Properties) : Option (List (String × Value)) :=
  properties.mapM fun p => (props.lookup p).bind fun v => if v.isNull then none else some (p,v)

/-- The composite constraints of the labels that a change of the given properties concerns. -/
def compositeChecks (schema : Schema) (labels : List String) (props : Properties)
    (changed : Option (List String)) : List (String × List (String × Value)) :=
  schema.constraints.filterMap fun c =>
    if c.properties.length<2 ∨ c.label∉labels ∨
        changed.any (fun keys => c.properties.all fun p => p∉keys) then none
    else (completeTuple c.properties props).map fun tuple => (c.label,tuple)

def enforceCompositeUnique (labels : List String) (props : Properties) (exclude : Option NodeId)
    (changed : Option (List String)) : ExecM Unit := do
  let w ← ask .session
  rejectConflicts exclude (fun label tuple =>
    let desc := ", ".intercalate (tuple.map fun p => s!"{p.1} = {L.debug p.2}")
    s!"({desc}) already exists (composite unique constraint on {label})")
    (compositeChecks w.schema labels props changed)

/-- The first required property of the labels that is null or missing. -/
def notNullViolation (schema : Schema) (labels : List String) (props : Properties) : Option String :=
  labels.findSome? fun label => ((schema.label label).elim [] (·.properties)).findSome? fun prop =>
    if prop.nullable then none
    else match props.lookup prop.name with
      | some v => if v.isNull then
          some s!"{label}.{prop.name} is declared NOT NULL but was set to null (not-null constraint)"
        else none
      | none => some s!"{label}.{prop.name} is declared NOT NULL but is missing (not-null constraint)"

def enforceNotnullOnCreate (labels : List String) (props : Properties) : ExecM Unit := do
  let w ← ask .session
  match notNullViolation w.schema labels props with
  | some message => throw (.constraint message)
  | none => pure ()

def notNullLabel (schema : Schema) (labels : List String) (key : String) : Option String :=
  labels.find? fun label => (schema.label label).any fun d => d.isRequired key

def vectorValueLen : Value → Option Nat
  | .vec xs => some xs.length
  | .vecI8 codes _ => some codes.length
  | .list xs => if xs.all isNumericCore then some xs.length else none
  | _ => none

def numericListToF32 (items : List Value) : Option (List (BitVec 32)) :=
  items.mapM fun
    | .f64 f => some (f64AsF32 f)
    | .i64 n => some (i64AsF32 n)
    | _ => none

def hasNonFinite : Value → Bool
  | .vec floats => floats.any fun f => !isFinite 23 f
  | .list items => items.any fun
    | .f64 f => !isFinite 52 f
    | _ => false
  | _ => false

/-- A numeric list becomes a dense vector. -/
def coerced : Value → Value
  | .list items => match numericListToF32 items with
    | some floats => .vec floats
    | none => .list items
  | v => v

def enforceVectorDim (labels : List String) (changed : Option (List String)) (props : Properties)
    (desc : VectorIndexDescriptor) : Except ExecError Properties :=
  if desc.label∉labels ∨ changed.any (fun keys => desc.property∉keys) then .ok props
  else match props.lookup desc.property with
    | none => .ok props
    | some v =>
      if v.isNull then .ok props
      else match vectorValueLen v with
        | none => .error (.constraint
            s!"{desc.label}.{desc.property} must be a numeric vector for index `{desc.name}` (dimension constraint)")
        | some len =>
          if len≠desc.dim then .error (.constraint
            (s!"{desc.label}.{desc.property} embedding has dim {len} but vector index `{desc.name}` declares " ++
              s!"{desc.dim} (dimension constraint)"))
          else if hasNonFinite v then .error (.constraint
            (s!"{desc.label}.{desc.property} embedding contains a non-finite component (NaN or infinity) for " ++
              s!"vector index `{desc.name}`"))
          else .ok (props.insert desc.property (coerced v))

def enforceVectorDims (labels : List String) (props : Properties) (changed : Option (List String)) :
    ExecM Properties := do
  ask (.enter (.enforceVectorDims labels props changed))
  let w ← ask .session
  orFail (w.vectorIndexes.foldlM (enforceVectorDim labels changed) props)

end NamiDB.Query
