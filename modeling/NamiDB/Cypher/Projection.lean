import NamiDB.Cypher.Walker

/-! RETURN and WITH without aggregates. The rows are sorted before they are projected, by keys in which the names
of the columns are replaced by their expressions, or after duplicates are removed, by the names. -/
namespace NamiDB.Cypher
open Query Storage Lib List Except

inductive LowerErrorKind where
  | bindingNotFound | doubleBinding | unsupportedFeature | invalidPattern | invalidUnion
  deriving DecidableEq

structure LowerError where
  kind : LowerErrorKind
  message : String

/-- `clauseRels` are the relationships the MATCH clause bound so far, with their types. -/
structure LowerCtx where
  bindings : List String := []
  anonCounter : Nat := 0
  clauseRels : Option (List (String × List String)) := none

abbrev LowerM := Except LowerError

/-- What the name of a column stands for; of columns with one name it is the last. -/
def aliasMap (columns : List ProjectionItem) (name : String) : Option Expression :=
  (columns.reverse.find? fun c => c.binding=name).map ProjectionItem.expression

mutual
/-- Expressions of other kinds are left as they are. -/
def substituteAliases (defs : String → Option Expression) (keep : List String) : Expression → Expression
  | .var name => if keep.contains name then .var name else (defs name).getD (.var name)
  | .property target key => .property (substituteAliases defs keep target) key
  | .unary op expr => .unary op (substituteAliases defs keep expr)
  | .binary op left right => .binary op (substituteAliases defs keep left) (substituteAliases defs keep right)
  | .isNull expr negated => .isNull (substituteAliases defs keep expr) negated
  | .isIn item list => .isIn (substituteAliases defs keep item) (substituteAliases defs keep list)
  | .functionCall name args distinct => .functionCall name (substituteAll defs keep args) distinct
  | e => e

def substituteAll (defs : String → Option Expression) (keep : List String) : List Expression → List Expression
  | [] => []
  | e::es => substituteAliases defs keep e::substituteAll defs keep es
end

mutual
/-- The names are read only where the substitution comes to. -/
def onlyReplaced (names : List String) : Expression → Bool
  | .var _ => true
  | .property target _ => onlyReplaced names target
  | .unary _ expr => onlyReplaced names expr
  | .binary _ left right => onlyReplaced names left&&onlyReplaced names right
  | .isNull expr _ => onlyReplaced names expr
  | .isIn item list => onlyReplaced names item&&onlyReplaced names list
  | .functionCall _ args _ => onlyReplacedAll names args
  | e => (reads e).all fun x => !names.contains x

def onlyReplacedAll (names : List String) : List Expression → Bool
  | [] => true
  | e::es => onlyReplaced names e&&onlyReplacedAll names es
end

section

variable {L : Scalars} {params : Params} {defs : String → Option Expression} {names : List String}

/-- The row before the projection, and the row with the columns over it. `names` are the columns that hold
something else than the variable of their name. -/
structure Overlaid (L : Scalars) (params : Params) (defs : String → Option Expression) (names : List String)
    (r r' : Query.Row) : Prop where
  column : ∀ name e, defs name=some e → evaluate L params e r=evaluate L params (.var name) r'
  free : ∀ name, defs name=none → r name=r' name
  same : ∀ name, name∉names → r name=r' name

variable {r r' : Query.Row}

theorem Overlaid.agree (hover : Overlaid L params defs names r r')
    (h : ((reads e).all fun x => !names.contains x)=true) : Agree (reads e) r r' := by
  intro x hx
  refine hover.same x ?_
  simpa using all_eq_true.mp h x hx

mutual
theorem evaluate_substitute (hover : Overlaid L params defs names r r') (e : Expression)
    (h : onlyReplaced names e=true) : evaluate L params (substituteAliases defs [] e) r=evaluate L params e r' := by
  match e with
  | .var name =>
    simp only [substituteAliases,contains_nil,Bool.false_eq_true,if_false]
    cases hd : defs name with
    | none =>
      rw [Option.getD_none,evaluate,evaluate,hover.free name hd]
    | some e => exact hover.column name e hd
  | .property e _ | .unary _ e | .isNull e _ =>
    simp only [substituteAliases,evaluate,evaluate_substitute hover e h]
  | .binary _ a b | .isIn a b =>
    obtain ⟨hl,hr⟩ := Bool.and_eq_true_iff.mp h
    simp only [substituteAliases,evaluate,evaluate_substitute hover a hl,evaluate_substitute hover b hr]
  | .functionCall name args distinct =>
    simp only [substituteAliases,evaluate,evaluateAll_substitute hover args h]
  | .literal _ | .parameter _ | .existsPattern _ | .existsSubquery _ | .patternComprehension _ _ _ _ | .star => rfl
  | .index _ _ | .range _ _ _ | .stringTest _ _ _ | .case _ _ _ | .list _ | .map _ | .listComprehension _ _ _ _
  | .quantifier _ _ _ _ | .reduce _ _ _ _ _ => exact evaluate_congr L params _ (hover.agree h)

theorem evaluateAll_substitute (hover : Overlaid L params defs names r r') (es : List Expression)
    (h : onlyReplacedAll names es=true) :
    evaluateAll L params (substituteAll defs [] es) r=evaluateAll L params es r' := by
  match es with
  | [] => rfl
  | e::es =>
    obtain ⟨he,hes⟩ := Bool.and_eq_true_iff.mp h
    simp only [substituteAll,evaluateAll,evaluate_substitute hover e he,evaluateAll_substitute hover es hes]
end

mutual
theorem substituteAliases_keep {keep : List String} (hkeep : ∀ name, (defs name).isSome=true → name∈keep)
    (e : Expression) : substituteAliases defs keep e=e := by
  match e with
  | .var name =>
    rw [substituteAliases]
    split
    · rfl
    · rename_i hfree
      cases hd : defs name with
      | none => rfl
      | some e => exact absurd (hkeep name (by rw [hd]; rfl)) (by simpa using hfree)
  | .property e _ | .unary _ e | .isNull e _ => rw [substituteAliases,substituteAliases_keep hkeep e]
  | .binary _ a b | .isIn a b =>
    rw [substituteAliases,substituteAliases_keep hkeep a,substituteAliases_keep hkeep b]
  | .functionCall name args distinct => rw [substituteAliases,substituteAll_keep hkeep args]
  | .literal _ | .parameter _ | .index _ _ | .range _ _ _ | .stringTest _ _ _ | .case _ _ _ | .list _ | .map _
  | .listComprehension _ _ _ _ | .quantifier _ _ _ _ | .reduce _ _ _ _ _ | .existsPattern _ | .existsSubquery _
  | .patternComprehension _ _ _ _ | .star => rfl

theorem substituteAll_keep {keep : List String} (hkeep : ∀ name, (defs name).isSome=true → name∈keep)
    (es : List Expression) : substituteAll defs keep es=es := by
  match es with
  | [] => rfl
  | e::es => rw [substituteAll,substituteAliases_keep hkeep e,substituteAll_keep hkeep es]
end

end

structure AstProjectionItem where
  expression : Expression
  binding : Option String

/-- `*` stands for the bindings that have a name of their own. -/
def expandStarItem (ctx : LowerCtx) (item : AstProjectionItem) : LowerM (List AstProjectionItem) :=
  match item.expression with
  | .star =>
    let visible := ctx.bindings.filter fun name => !("__anon".toList.isPrefixOf name.toList)
    if item.binding.isSome then .error ⟨.invalidPattern, "`*` projection cannot carry an alias"⟩
    else if visible.isEmpty then
      .error ⟨.invalidPattern, "`*` projection requires at least one named binding in scope"⟩
    else .ok (visible.map fun name => ⟨.var name,some name⟩)
  | _ => .ok [item]

/-- `text` is how an expression is displayed. -/
def canonicalAlias (text : Expression → String) : Expression → String
  | .var name => name
  | e => text e

def projectionItems (text : Expression → String) (items : List AstProjectionItem) (ctx : LowerCtx) :
    LowerM (List ProjectionItem) := do
  let items ← gather (expandStarItem ctx) items
  pure (items.map fun item => ⟨item.expression,item.binding.getD (canonicalAlias text item.expression)⟩)

def rowCountOf : Option Expression → LowerM (Option RowCount)
  | none => .ok none
  | some (.literal (.integer n)) =>
    if 0≤n then .ok (some (.const n.toNat))
    else .error ⟨.invalidPattern, "SKIP / LIMIT must be a non-negative integer literal or a $parameter"⟩
  | some (.parameter name) => .ok (some (.param name))
  | some _ => .error ⟨.invalidPattern, "SKIP / LIMIT must be a non-negative integer literal or a $parameter"⟩

def rowCounts (skip limit : Option Expression) : LowerM (RowCount × RowCount) := do
  let skip ← rowCountOf skip
  let limit ← rowCountOf limit
  pure (skip.getD (.const 0),limit.getD (.const noLimit))

def isWindowed (skip limit : RowCount) : Bool := skip ≠ .const 0||limit ≠ .const noLimit

def substituteKeys (columns : List ProjectionItem) (keep : List String) (keys : List OrderKey) : List OrderKey :=
  keys.map fun key => ⟨substituteAliases (aliasMap columns) keep key.expression,key.descending⟩

def sortBelow (columns : List ProjectionItem) (keys : List OrderKey) (skip limit : RowCount) (input : LogicalPlan) :
    LogicalPlan :=
  if !keys.isEmpty||isWindowed skip limit then .topN input (substituteKeys columns [] keys) skip limit else input

/-- Only when rows are cut off does the removal of duplicates come before the sort. -/
def projectionPlan (columns : List ProjectionItem) (distinct : Bool) (keys : List OrderKey) (skip limit : RowCount)
    (input : LogicalPlan) : LogicalPlan :=
  if distinct&&isWindowed skip limit then
    .topN (.project input columns distinct true) (substituteKeys columns (columns.map ProjectionItem.binding) keys)
      skip limit
  else .project (sortBelow columns keys skip limit input) columns distinct true

/-- `lower_projection` without aggregates and without a WHERE. The items have no pattern comprehension, and what
the checks of the bindings refuse is not looked at. -/
def lowerProjection (text : Expression → String) (items : List AstProjectionItem) (distinct : Bool)
    (keys : List OrderKey) (skip limit : Option Expression) (input : LogicalPlan) (ctx : LowerCtx) :
    LowerM (LogicalPlan × LowerCtx) := do
  let columns ← projectionItems text items ctx
  let (skip,limit) ← rowCounts skip limit
  pure (projectionPlan columns distinct keys skip limit input,
    { ctx with bindings := columns.map ProjectionItem.binding })

section

variable (L : Scalars) (params : Params)

structure Shown where
  row : Row
  out : Row

/-- The columns come before the bindings of the input. -/
def Shown.env (s : Shown) : Query.Row := fun name => (s.out.get name).or (s.row.get name)

def showRows (columns : List ProjectionItem) (rows : List Row) : Except EvalError (List Shown) :=
  gather (fun row => do
    let s ← (projectRow L params columns true row).map fun out => ⟨row,out⟩
    pure [s]) rows

def sortValues (keys : List OrderKey) (s : Shown) : Except EvalError (List RuntimeValue) :=
  evaluateAll L params (keys.map OrderKey.expression) s.env

/-- The first row of each kind. -/
abbrev firstShown (shown : List Shown) : List Shown := firsts (fun s => rowFingerprint L s.out) [] shown

/-- What a clause says: project, remove duplicates, sort, skip and limit. -/
def clauseRows (columns : List ProjectionItem) (distinct : Bool) (keys : List OrderKey) (skip limit : RowCount)
    (rows : List Row) : Except EvalError (List Row) := do
  let skip ← resolveRowCount params "SKIP" skip
  let limit ← resolveRowCount params "LIMIT" limit
  let shown ← showRows L params columns rows
  let shown := if distinct then firstShown L shown else shown
  let keyed ← gather (fun s => do
    let b ← (sortValues L params keys s).map fun values => (values,s)
    pure [b]) shown
  pure (rowWindow skip limit ((keyed.mergeSort fun a b => compareKeys L keys a.1 b.1 != .gt).map fun a => a.2.out))

end

section

variable {L : Scalars} {params : Params} {columns : List ProjectionItem} {row out : Row} {name : String}

theorem aliasMap_cons (c : ProjectionItem) (columns : List ProjectionItem) (name : String) :
    aliasMap (c::columns) name = (aliasMap columns name).or (if c.binding=name then some c.expression else none) := by
  rw [aliasMap,aliasMap,reverse_cons,find?_append]
  cases columns.reverse.find? fun c => decide (c.binding=name) with
  | some c' => rfl
  | none =>
    by_cases h : c.binding=name
    · simp
    · simp

theorem get_foldlM_set {new : Row} (h : columns.foldlM (fun new item => do
      let v ← evalRow L params item.expression row
      pure (new.set item.binding v)) new = .ok out) (name : String) :
    (∀ e, aliasMap columns name=some e → ∃ v, evaluate L params e row.get = .ok v ∧ out.get name=some v) ∧
      (aliasMap columns name=none → out.get name=new.get name) := by
  induction columns generalizing new with
  | nil =>
    cases h
    exact ⟨nofun,fun _ => rfl⟩
  | cons c columns ih =>
    obtain ⟨new',hnew,h⟩ := bind_eq_ok.mp h
    obtain ⟨v,hv,⟨⟩⟩ := bind_eq_ok.mp hnew
    obtain ⟨hsome,hnone⟩ := ih h
    rw [aliasMap_cons]
    cases hlater : aliasMap columns name with
    | some e =>
      obtain ⟨w,hw,hout⟩ := hsome e hlater
      refine ⟨fun e' he' => ?_,nofun⟩
      cases he'
      exact ⟨w,hw,hout⟩
    | none =>
      have hout := hnone hlater
      by_cases hname : c.binding=name
      · rw [if_pos hname,Option.none_or]
        refine ⟨fun e' he' => ?_,nofun⟩
        cases he'
        refine ⟨v,hv,?_⟩
        rw [hout,Row.get_set,if_pos hname.symm]
      · rw [if_neg hname,Option.none_or]
        refine ⟨nofun,fun _ => ?_⟩
        rw [hout,Row.get_set,if_neg (Ne.symm hname)]

def isOwnName (c : ProjectionItem) : Bool :=
  match c.expression with
  | .var name => name=c.binding
  | _ => false

def renamed (columns : List ProjectionItem) : List String :=
  (columns.filter fun c => !isOwnName c).map ProjectionItem.binding

theorem overlaid_env (h : projectRow L params columns true row = .ok out) :
    Overlaid L params (aliasMap columns) (renamed columns) row.get (Shown.env ⟨row,out⟩) := by
  have hget := get_foldlM_set h
  have hfree : ∀ name, aliasMap columns name=none → row.get name=Shown.env ⟨row,out⟩ name := by
    intro name hnone
    rw [Shown.env,(hget name).2 hnone,if_pos rfl]
    rfl
  refine ⟨fun name e he => ?_,hfree,fun name hname => ?_⟩
  · obtain ⟨v,hv,hout⟩ := (hget name).1 e he
    rw [hv,evaluate,Shown.env,hout]
    rfl
  · cases hmap : aliasMap columns name with
    | none => exact hfree name hmap
    | some e =>
      obtain ⟨v,hv,hout⟩ := (hget name).1 e hmap
      obtain ⟨c,hfind,rfl⟩ := Option.map_eq_some_iff.mp hmap
      have hmem := mem_reverse.mp (mem_of_find?_eq_some hfind)
      have hbinding : c.binding=name := by simpa using find?_some hfind
      have hown : isOwnName c=true := by
        by_contra hown
        exact hname (mem_map.mpr ⟨c,mem_filter.mpr ⟨hmem,by simpa using hown⟩,hbinding⟩)
      unfold isOwnName at hown
      split at hown
      · rename_i x hx
        have hx' : x=name := by simpa [hbinding] using hown
        rw [hx,hx',evaluate] at hv
        rw [Shown.env,hout]
        cases hr : row.get name with
        | none => rw [hr] at hv; cases hv
        | some w =>
          rw [hr] at hv
          cases hv
          rfl
      · cases hown

theorem env_column (h : projectRow L params columns true row = .ok out)
    (hname : name∈columns.map ProjectionItem.binding) : Shown.env ⟨row,out⟩ name=out.get name := by
  have hsome : (aliasMap columns name).isSome=true := by
    obtain ⟨c,hc,rfl⟩ := mem_map.mp hname
    rw [aliasMap,Option.isSome_map,find?_isSome]
    exact ⟨c,mem_reverse.mpr hc,by simp⟩
  obtain ⟨e,he⟩ := Option.isSome_iff_exists.mp hsome
  obtain ⟨v,-,hout⟩ := (get_foldlM_set h name).1 e he
  rw [Shown.env,hout]
  rfl

theorem mem_of_aliasMap (h : (aliasMap columns name).isSome=true) : name∈columns.map ProjectionItem.binding := by
  rw [aliasMap,Option.isSome_map,find?_isSome] at h
  obtain ⟨c,hc,hname⟩ := h
  exact mem_map.mpr ⟨c,mem_reverse.mp hc,by simpa using hname⟩

end

end NamiDB.Cypher
