import NamiDB.Cypher.Ast
import NamiDB.Cypher.Equality

/-! Evaluation of an expression on a row. Which rows give the same value is decided by the variables
that the evaluator may look up. -/
namespace NamiDB.Cypher
open Query Storage

abbrev EvalError := String

abbrev Params := String → Option RuntimeValue

/-- The operations on values that are taken as they are: arithmetic and comparison on values that are not
NULL, the library of scalar functions, the text form of an id, and the order that sorts (with `true`
downwards). -/
structure Scalars where
  negate : RuntimeValue → RuntimeValue
  operate : BinaryOp → RuntimeValue → RuntimeValue → Except EvalError RuntimeValue
  function : String → List RuntimeValue → Except EvalError RuntimeValue
  ids : IdText
  parseNodeId : String → Option NodeId
  orderForSort : Bool → RuntimeValue → RuntimeValue → Ordering

def Scalars.nodeIdText (L : Scalars) (id : NodeId) : String := String.ofList (L.ids.text id)

def Scalars.bare : Scalars where
  negate v := v
  operate _ _ _ := .ok .null
  function name _ := .error name
  ids := ⟨Nat.toDigits 10,fun _ _ h => Lib.digits_inj h,
    fun id => ⟨Lib.not_mem_digits rfl id,Lib.not_mem_digits rfl id⟩⟩
  parseNodeId _ := none
  orderForSort _ _ _ := .eq

def Literal.toRuntime : Literal → RuntimeValue
  | .integer n => .integer n
  | .float bits => .float bits
  | .string s => .string s
  | .boolean b => .bool b
  | .null => .null

def isNullValue : RuntimeValue → Bool
  | .null => true
  | _ => false

def mapInsert (k : String) (v : RuntimeValue) : List (String × RuntimeValue) → List (String × RuntimeValue)
  | [] => [(k,v)]
  | (k',v')::rest =>
    if k<k' then (k,v)::(k',v')::rest
    else if k=k' then (k,v)::rest
    else (k',v')::mapInsert k v rest

namespace Scalars
variable (L : Scalars)

def propertyAccess (target : RuntimeValue) (key : String) : RuntimeValue :=
  match target with
  | .node n =>
    if key = "_id" then .string (L.nodeIdText n.id)
    else ((n.properties.lookup key).map RuntimeValue.ofCore).getD .null
  | .rel r =>
    if key = "_id" then .string (L.nodeIdText r.src ++ ":" ++ L.nodeIdText r.dst)
    else ((r.properties.lookup key).map RuntimeValue.ofCore).getD .null
  | .map m => (m.lookup key).getD .null
  | _ => .null

def indexInto (target index : RuntimeValue) : RuntimeValue :=
  match target, index with
  | .list items, .integer i =>
    let at' := if i<0 then items.length+i else i
    if at'<0 then .null else (items[at'.toNat]?).getD .null
  | .map m, .string k => (m.lookup k).getD .null
  | _, _ => .null

def rangeBound (len : Nat) (bound : Option RuntimeValue) (default : Nat) : Nat :=
  match bound with
  | some (.integer n) => if n<0 then (len+n).toNat else min n.toNat len
  | _ => default

def rangeInto (target : RuntimeValue) (lo hi : Option RuntimeValue) : RuntimeValue :=
  match target with
  | .list items =>
    let first := rangeBound items.length lo 0
    let last := rangeBound items.length hi items.length
    .list ((items.take last).drop first)
  | _ => .null

def evalUnary (op : UnaryOp) (v : RuntimeValue) : RuntimeValue :=
  match op with
  | .neg => if isNullValue v then .null else L.negate v
  | .not => match v.asBool with
    | some b => .bool !b
    | none => .null

def evalBinary (op : BinaryOp) (a b : RuntimeValue) : Except EvalError RuntimeValue :=
  match op, a.asBool, b.asBool with
  | .and, some false, _ | .and, _, some false => .ok (.bool false)
  | .and, some true, some true => .ok (.bool true)
  | .and, _, _ => .ok .null
  | .or, some true, _ | .or, _, some true => .ok (.bool true)
  | .or, some false, some false => .ok (.bool false)
  | .or, _, _ => .ok .null
  | .xor, some x, some y => .ok (.bool (x != y))
  | .xor, _, _ => .ok .null
  | op, _, _ =>
    if isNullValue a||isNullValue b then .ok .null
    else match op with
      | .eq => .ok (.bool (isEqual a b))
      | .ne => .ok (.bool !(isEqual a b))
      | op => L.operate op a b

def evalIn (item list : RuntimeValue) : RuntimeValue :=
  match isNullValue item, list with
  | false, .list items =>
    if items.any fun v => !isNullValue v&&isEqual item v then .bool true
    else if items.any isNullValue then .null
    else .bool false
  | _, _ => .null

def evalStringTest (op : StringOp) (target pattern : RuntimeValue) : RuntimeValue :=
  match target, pattern with
  | .string s, .string p =>
    .bool (match op with
      | .startsWith => p.toList.isPrefixOf s.toList
      | .endsWith => p.toList.isSuffixOf s.toList
      | .contains => s.toList.tails.any p.toList.isPrefixOf)
  | _, _ => .null

/-- `__label_eq`, the test for a label that lowering writes. -/
def labelEq : List RuntimeValue → Except EvalError RuntimeValue
  | [.node n,.string label] => .ok (.bool (n.labels.contains label))
  | [.null,.string _] => .ok .null
  | [_,.string _] => .ok (.bool false)
  | _ => .error "__label_eq expects (node, string)"

def callScalarFunction (name : String) (args : List RuntimeValue) : Except EvalError RuntimeValue :=
  if name = "__label_eq" then labelEq args
  else if name = "__path" then .ok (if args.any isNullValue then .null else .path args)
  else L.function name args

def caseMatches (scrutinee : Option RuntimeValue) (v : RuntimeValue) : Bool :=
  match scrutinee with
  | some s => isEqual s v
  | none => v.asBool.getD false

def elements (what : String) : RuntimeValue → Except EvalError (Option (List RuntimeValue))
  | .list items => .ok (some items)
  | .null => .ok none
  | other => .error (what ++ " requires a list, got " ++ other.typeName)

def quantify (kind : QuantifierKind) (test : RuntimeValue → Except EvalError RuntimeValue) :
    Nat → Bool → List RuntimeValue → Except EvalError RuntimeValue
  | trueCount, anyNull, [] =>
    match kind with
    | .all | .none => .ok (if anyNull then .null else .bool true)
    | .any => .ok (if anyNull then .null else .bool false)
    | .single => .ok (.bool (trueCount==1))
  | trueCount, anyNull, item::rest => do
    let v ← test item
    match v.asBool, kind with
    | some true, .any => .ok (.bool true)
    | some true, .none => .ok (.bool false)
    | some true, .single =>
      if trueCount≥1 then .ok (.bool false) else quantify kind test (trueCount+1) anyNull rest
    | some true, .all => quantify kind test (trueCount+1) anyNull rest
    | some false, .all => .ok (.bool false)
    | some false, _ => quantify kind test trueCount anyNull rest
    | none, _ => quantify kind test trueCount true rest

def comprehend (keep : RuntimeValue → Except EvalError Bool)
    (project : RuntimeValue → Except EvalError RuntimeValue) :
    List RuntimeValue → Except EvalError (List RuntimeValue)
  | [] => .ok []
  | item::rest => do
    if ← keep item then
      let v ← project item
      let vs ← comprehend keep project rest
      pure (v::vs)
    else comprehend keep project rest

end Scalars

section
variable (L : Scalars) (params : Params)

mutual
def evaluate : Expression → Row → Except EvalError RuntimeValue
  | .literal l, _ => .ok l.toRuntime
  | .var name, row => match row name with
    | some v => .ok v
    | none => .error ("binding `" ++ name ++ "` not bound")
  | .parameter name, _ => match params name with
    | some v => .ok v
    | none => .error ("parameter `$" ++ name ++ "` not provided")
  | .property target key, row => do
    let t ← evaluate target row
    pure (L.propertyAccess t key)
  | .index target index, row => do
    let t ← evaluate target row
    let i ← evaluate index row
    pure (Scalars.indexInto t i)
  | .range target lo hi, row => do
    let t ← evaluate target row
    let a ← evaluateOption lo row
    let b ← evaluateOption hi row
    pure (Scalars.rangeInto t a b)
  | .unary op expr, row => do
    let v ← evaluate expr row
    pure (L.evalUnary op v)
  | .binary op left right, row => do
    let a ← evaluate left row
    let b ← evaluate right row
    L.evalBinary op a b
  | .isIn item list, row => do
    let v ← evaluate item row
    let vs ← evaluate list row
    pure (Scalars.evalIn v vs)
  | .stringTest op target pattern, row => do
    let t ← evaluate target row
    let p ← evaluate pattern row
    pure (Scalars.evalStringTest op t p)
  | .isNull expr negated, row => do
    let v ← evaluate expr row
    pure (.bool (isNullValue v != negated))
  | .functionCall name args _, row => do
    let vs ← evaluateAll args row
    L.callScalarFunction (name.map Char.toLower) vs
  | .case scrutinee branches otherwise, row => do
    let s ← evaluateOption scrutinee row
    match ← evaluateBranches s branches row with
    | some v => pure v
    | none =>
      let v ← evaluateOption otherwise row
      pure (v.getD .null)
  | .list items, row => do
    let vs ← evaluateAll items row
    pure (.list vs)
  | .map entries, row => do
    let vs ← evaluateEntries entries [] row
    pure (.map vs)
  | .listComprehension var list predicate projection, row => do
    let vs ← evaluate list row
    match ← Scalars.elements "list comprehension" vs with
    | none => pure .null
    | some items =>
      let out ← Scalars.comprehend
        (fun item => do
          let v ← evaluateOption predicate (row.set var item)
          pure (match v with
            | some v => v.asBool==some true
            | none => true))
        (fun item => do
          let v ← evaluateOption projection (row.set var item)
          pure (v.getD item))
        items
      pure (.list out)
  | .quantifier kind var list predicate, row => do
    let vs ← evaluate list row
    match ← Scalars.elements "list quantifier" vs with
    | none => pure .null
    | some items =>
      Scalars.quantify kind (fun item => evaluate predicate (row.set var item)) 0 false items
  | .reduce accumulator init var list expression, row => do
    let vs ← evaluate list row
    match ← Scalars.elements "reduce()" vs with
    | none => pure .null
    | some items =>
      let first ← evaluate init row
      items.foldlM
        (fun acc item => evaluate expression ((row.set accumulator acc).set var item)) first
  | .existsPattern _, _ | .existsSubquery _, _ =>
    .error "EXISTS pattern predicates require storage access"
  | .patternComprehension _ _ _ _, _ =>
    .error "pattern comprehension evaluation requires storage access"
  | .star, _ => .error "`*` is only valid inside `count(*)`"

def evaluateAll : List Expression → Row → Except EvalError (List RuntimeValue)
  | [], _ => .ok []
  | e::es, row => do
    let v ← evaluate e row
    let vs ← evaluateAll es row
    pure (v::vs)

def evaluateOption : Option Expression → Row → Except EvalError (Option RuntimeValue)
  | none, _ => .ok none
  | some e, row => do
    let v ← evaluate e row
    pure (some v)

def evaluateEntries : List (String × Expression) → List (String × RuntimeValue) → Row →
    Except EvalError (List (String × RuntimeValue))
  | [], out, _ => .ok out
  | (k,e)::rest, out, row => do
    let v ← evaluate e row
    evaluateEntries rest (mapInsert k v out) row

def evaluateBranches (scrutinee : Option RuntimeValue) : List (Expression × Expression) → Row →
    Except EvalError (Option RuntimeValue)
  | [], _ => .ok none
  | (test,value)::rest, row => do
    let v ← evaluate test row
    if Scalars.caseMatches scrutinee v then
      let out ← evaluate value row
      pure (some out)
    else evaluateBranches scrutinee rest row
end

end

section

mutual
def reads : Expression → List String
  | .literal _ | .parameter _ | .star => []
  | .var name => [name]
  | .property target _ => reads target
  | .index target index => reads target++reads index
  | .range target lo hi => reads target++readsOption lo++readsOption hi
  | .unary _ expr => reads expr
  | .binary _ left right => reads left++reads right
  | .isIn item list => reads item++reads list
  | .stringTest _ target pattern => reads target++reads pattern
  | .isNull expr _ => reads expr
  | .functionCall _ args _ => readsAll args
  | .case scrutinee branches otherwise =>
    readsOption scrutinee++readsBranches branches++readsOption otherwise
  | .list items => readsAll items
  | .map entries => readsEntries entries
  | .listComprehension var list predicate projection =>
    reads list++(readsOption predicate++readsOption projection).filter (·≠var)
  | .quantifier _ var list predicate => reads list++(reads predicate).filter (·≠var)
  | .reduce accumulator init var list expression =>
    reads list++reads init++(reads expression).filter fun x => x≠accumulator ∧ x≠var
  | .existsPattern _ | .existsSubquery _ | .patternComprehension _ _ _ _ => []

def readsAll : List Expression → List String
  | [] => []
  | e::es => reads e++readsAll es

def readsOption : Option Expression → List String
  | none => []
  | some e => reads e

def readsEntries : List (String × Expression) → List String
  | [] => []
  | (_,e)::rest => reads e++readsEntries rest

def readsBranches : List (Expression × Expression) → List String
  | [] => []
  | (test,value)::rest => reads test++reads value++readsBranches rest
end

def Agree (names : List String) (r r' : Row) : Prop := ∀ x ∈ names, r x=r' x

variable {names names' : List String} {r r' : Row}

theorem Agree.mono (h : Agree names r r') (hsub : ∀ x ∈ names', x∈names) : Agree names' r r' :=
  fun x hx => h x (hsub x hx)

theorem Agree.symm (h : Agree names r r') : Agree names r' r := fun x hx => (h x hx).symm

theorem Agree.trans (h : Agree names r r') (h' : Agree names r' r'') : Agree names r r'' :=
  fun x hx => (h x hx).trans (h' x hx)

theorem agree_append : Agree (names++names') r r' ↔ Agree names r r' ∧ Agree names' r r' := List.forall_mem_append

theorem Agree.set (x : String) (v : RuntimeValue) (h : Agree (names.filter (·≠x)) r r') :
    Agree names (r.set x v) (r'.set x v) := by
  intro y hy
  by_cases hyx : y=x
  · simp [Row.set,hyx]
  · simpa [Row.set,hyx] using h y (List.mem_filter.mpr ⟨hy,by simpa using hyx⟩)

variable (L : Scalars) (params : Params)

mutual
theorem evaluate_congr (e : Expression) {r r' : Row} (h : Agree (reads e) r r') :
    evaluate L params e r=evaluate L params e r' := by
  cases e with
  | literal _ | parameter _ | existsPattern _ | existsSubquery _ | patternComprehension _ _ _ _ | star => rfl
  | var name => simp only [evaluate,h name (by simp [reads])]
  | property e _ | unary _ e | isNull e _ => simp only [evaluate,evaluate_congr e h]
  | index a b | binary _ a b | isIn a b | stringTest _ a b =>
    obtain ⟨h1,h2⟩ := agree_append.mp h
    simp only [evaluate,evaluate_congr a h1,evaluate_congr b h2]
  | range target lo hi =>
    obtain ⟨h12,h3⟩ := agree_append.mp h
    obtain ⟨h1,h2⟩ := agree_append.mp h12
    simp only [evaluate,evaluate_congr target h1,evaluateOption_congr lo h2,evaluateOption_congr hi h3]
  | functionCall name args distinct => simp only [evaluate,evaluateAll_congr args h]
  | case scrutinee branches otherwise =>
    obtain ⟨h12,h3⟩ := agree_append.mp h
    obtain ⟨h1,h2⟩ := agree_append.mp h12
    have hb := fun s => evaluateBranches_congr s branches h2
    simp only [evaluate,evaluateOption_congr scrutinee h1,hb,evaluateOption_congr otherwise h3]
  | list items => simp only [evaluate,evaluateAll_congr items h]
  | map entries => simp only [evaluate,evaluateEntries_congr entries [] h]
  | listComprehension var list predicate projection =>
    obtain ⟨h1,h2⟩ := agree_append.mp h
    have hitem := fun item => agree_append.mp (h2.set var item)
    have hp := fun item => evaluateOption_congr predicate (hitem item).1
    have hq := fun item => evaluateOption_congr projection (hitem item).2
    simp only [evaluate,evaluate_congr list h1,hp,hq]
  | quantifier kind var list predicate =>
    obtain ⟨h1,h2⟩ := agree_append.mp h
    have hp := fun item => evaluate_congr predicate (h2.set var item)
    simp only [evaluate,evaluate_congr list h1,hp]
  | reduce accumulator init var list expression =>
    obtain ⟨h12,h3⟩ := agree_append.mp h
    obtain ⟨h1,h2⟩ := agree_append.mp h12
    have hbody : ∀ acc item, Agree (reads expression) ((r.set accumulator acc).set var item)
        ((r'.set accumulator acc).set var item) := by
      intro acc item
      refine .set var item (.set accumulator acc (h3.mono fun x hx => ?_))
      simp only [List.mem_filter,decide_eq_true_eq] at hx ⊢
      exact ⟨hx.1.1,hx.2,hx.1.2⟩
    have hp := fun acc item => evaluate_congr expression (hbody acc item)
    simp only [evaluate,evaluate_congr list h1,evaluate_congr init h2,hp]

theorem evaluateAll_congr (es : List Expression) {r r' : Row} (h : Agree (readsAll es) r r') :
    evaluateAll L params es r=evaluateAll L params es r' := by
  cases es with
  | nil => rfl
  | cons e rest =>
    obtain ⟨h1,h2⟩ := agree_append.mp h
    simp only [evaluateAll,evaluate_congr e h1,evaluateAll_congr rest h2]

theorem evaluateOption_congr (e : Option Expression) {r r' : Row} (h : Agree (readsOption e) r r') :
    evaluateOption L params e r=evaluateOption L params e r' := by
  cases e with
  | none => rfl
  | some e => simp only [evaluateOption,evaluate_congr e h]

theorem evaluateEntries_congr (entries : List (String × Expression))
    (out : List (String × RuntimeValue)) {r r' : Row} (h : Agree (readsEntries entries) r r') :
    evaluateEntries L params entries out r=evaluateEntries L params entries out r' := by
  match entries with
  | [] => rfl
  | (k,e)::rest =>
    obtain ⟨h1,h2⟩ := agree_append.mp h
    have hrest := fun out => evaluateEntries_congr rest out h2
    simp only [evaluateEntries,evaluate_congr e h1,hrest]

theorem evaluateBranches_congr (scrutinee : Option RuntimeValue)
    (branches : List (Expression × Expression)) {r r' : Row} (h : Agree (readsBranches branches) r r') :
    evaluateBranches L params scrutinee branches r=evaluateBranches L params scrutinee branches r' := by
  match branches with
  | [] => rfl
  | (test,value)::rest =>
    obtain ⟨h12,h3⟩ := agree_append.mp h
    obtain ⟨h1,h2⟩ := agree_append.mp h12
    simp only [evaluateBranches,evaluate_congr test h1,evaluate_congr value h2,
      evaluateBranches_congr scrutinee rest h3]
end

end
end NamiDB.Cypher
