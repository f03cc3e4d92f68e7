import NamiDB.Cypher.Projection

/-! Predicate pushdown. Conjuncts move towards the leaves, and a comparison of a property with a literal moves into
the scan. -/
namespace NamiDB.Cypher
open Query Storage

def literalToStatScalar : Literal → Option StatScalar
  | .integer n => some (.int64 n)
  | .float bits => some (.float64 bits)
  | .string s => some (.utf8 s)
  | .boolean b => some (.bool b)
  | .null => none

/-- A sign is folded into its number, if the result is a number. -/
def scalarBoundOf : Expression → Option StatScalar
  | .unary .neg (.literal (.integer n)) => if n = -2^63 then none else some (.int64 (-n))
  | .unary .neg (.literal (.float bits)) => some (.float64 (bits ^^^ (1#64 <<< 63)))
  | .literal l => literalToStatScalar l
  | _ => none

def literalList : Expression → Option (List StatScalar)
  | .list items => items.mapM fun
    | .literal l => literalToStatScalar l
    | _ => none
  | _ => none

def propertyColumnForAlias (name : String) : Expression → Option String
  | .property (.var x) key => if x=name then some key else none
  | _ => none

def flipBinary : BinaryOp → Option BinaryOp
  | .eq => some .eq
  | .lt => some .gt
  | .le => some .ge
  | .gt => some .lt
  | .ge => some .le
  | _ => none

def predicateForBinary (op : BinaryOp) (column : String) (value : StatScalar) (literalOnRight : Bool) :
    Option ScanPredicate :=
  match if literalOnRight then some op else flipBinary op with
  | some .eq => some (.eq column value)
  | some .lt => some (.lt column value)
  | some .le => some (.ltEq column value)
  | some .gt => some (.gt column value)
  | some .ge => some (.gtEq column value)
  | _ => none

def tryBinaryToPredicate (op : BinaryOp) (left right : Expression) (name : String) : Option ScanPredicate :=
  match propertyColumnForAlias name left, scalarBoundOf right with
  | some column, some value => predicateForBinary op column value true
  | _, _ =>
    match propertyColumnForAlias name right, scalarBoundOf left with
    | some column, some value => predicateForBinary op column value false
    | _, _ => none

def tryIntoScanPredicate (name : String) : Expression → Option ScanPredicate
  | .binary op left right => tryBinaryToPredicate op left right name
  | .isNull inner negated =>
    (propertyColumnForAlias name inner).map fun column => if negated then .isNotNull column else .isNull column
  | .isIn item list => do
    let column ← propertyColumnForAlias name item
    let values ← literalList list
    pure (.isIn column values)
  | _ => none

/-- The terms that can be rewritten, rewritten, and the others. -/
def separate {β : Type} (f : Expression → Option β) (pending : List Expression) : List β × List Expression :=
  (pending.filterMap f,pending.filter fun term => (f term).isNone)

def classifyPendingForScan (pending : List Expression) (name : String) : List ScanPredicate × List Expression :=
  separate (tryIntoScanPredicate name) pending

def partitionByAliasDisjoint (pending : List Expression) (introduced : List String) :
    List Expression × List Expression :=
  pending.partition fun term => (expressionAliases term).all fun x => !introduced.contains x

def partitionByAliasSubset (pending : List Expression) (preserved : List String) :
    List Expression × List Expression :=
  pending.partition fun term => (expressionAliases term).all preserved.contains

def splitBySide (pending : List Expression) (left right : List String) :
    List Expression × List Expression × List Expression :=
  let hits (names : List String) (term : Expression) : Bool := (expressionAliases term).any names.contains
  (pending.filter fun term => hits left term && !hits right term,
    pending.filter fun term => !hits left term&&hits right term,
    pending.filter fun term => hits left term==hits right term)

def isSubstitutableProjection : Expression → Bool
  | .var _ => true
  | .property target _ => isSubstitutableProjection target
  | _ => false

def identityProjectionAliases (items : List ProjectionItem) : List String :=
  (items.filter isOwnName).map ProjectionItem.binding

def isPathConstructor : Expression → Bool
  | .functionCall name _ _ => name = "__path"
  | _ => false

/-- A term below a projection that renames: its names stand for what they are bound to there, and none of them is
bound anew. -/
def partitionSubstitutable (pending : List Expression) (items : List ProjectionItem) (distinct : Bool) :
    List Expression × List Expression :=
  if distinct then ([],pending)
  else
    let substitutions := aliasMap (items.filter fun c => isSubstitutableProjection c.expression && !isOwnName c)
    separate (fun term =>
      if (expressionAliases term).all fun x =>
        (identityProjectionAliases items).contains x||(substitutions x).isSome then
        let rewritten := substituteAliases substitutions [] term
        if (expressionAliases rewritten).any (renamed items).contains then none else some rewritten
      else none) pending

def identityGroupAliases (groupBy : List (Expression × String)) : List String :=
  identityProjectionAliases (groupBy.map fun g => ⟨g.1,g.2⟩)

def pushdownAt : LogicalPlan → List Expression → LogicalPlan
  | .nodeScan label binding predicates projection, pending =>
    let (pushed,residual) := classifyPendingForScan pending binding
    applyFilters (.nodeScan label binding (predicates++pushed) projection) residual
  | .filter input predicate, pending => pushdownAt input (pending++splitAndTerms predicate)
  | .nodeById input label binding id, pending =>
    let (pushable,stay) := partitionByAliasDisjoint pending [binding]
    applyFilters (.nodeById (pushdownAt input pushable) label binding id) stay
  | .nodeByPropertyValue input label binding property value multi, pending =>
    let (pushable,stay) := partitionByAliasDisjoint pending [binding]
    applyFilters (.nodeByPropertyValue (pushdownAt input pushable) label binding property value multi) stay
  | .nodeByPropertyTuple input label binding properties values, pending =>
    let (pushable,stay) := partitionByAliasDisjoint pending [binding]
    applyFilters (.nodeByPropertyTuple (pushdownAt input pushable) label binding properties values) stay
  | .expand input hop, pending =>
    let (pushable,stay) := partitionByAliasDisjoint pending
      (hop.targetAlias::hop.relAlias.toList++hop.pathBinding.toList)
    applyFilters (.expand (pushdownAt input pushable) hop) stay
  | .crossProduct left right, pending =>
    let (toLeft,toRight,keepTop) := splitBySide pending (producedAliases left) (producedAliases right)
    applyFilters (.crossProduct (pushdownAt left toLeft) (pushdownAt right toRight)) keepTop
  | .hashJoin build probe on residual, pending =>
    let (toBuild,toProbe,keepTop) := splitBySide pending (producedAliases build) (producedAliases probe)
    applyFilters (.hashJoin (pushdownAt build toBuild) (pushdownAt probe toProbe) on residual) keepTop
  | .hashSemiJoin outer inner on negated residual, pending =>
    let (toOuter,keepTop) := partitionByAliasSubset pending (producedAliases outer)
    applyFilters (.hashSemiJoin (pushdownAt outer toOuter) inner on negated residual) keepTop
  | .project input items distinct discardInputBindings, pending =>
    let (pushable,stay) := partitionByAliasSubset pending (identityProjectionAliases items)
    let (pathFree,stay) :=
      if items.all (fun c => isPathConstructor c.expression) && !discardInputBindings && !distinct then
        partitionByAliasDisjoint stay (items.map ProjectionItem.binding)
      else ([],stay)
    let (substituted,stay) := partitionSubstitutable stay items distinct
    applyFilters (.project (pushdownAt input (pushable++pathFree++substituted)) items distinct
      discardInputBindings) stay
  | .aggregate input groupBy aggregations, pending =>
    let (pushable,stay) := pending.partition fun term => (expressionAliases term).all fun x =>
      (identityGroupAliases groupBy).contains x && !(aggregations.map Prod.fst).contains x
    applyFilters (.aggregate (pushdownAt input pushable) groupBy aggregations) stay
  | .union left right all, pending =>
    let (pushable,stay) := pending.partition fun term => (expressionAliases term).all fun x =>
      (producedAliases left).contains x&&(producedAliases right).contains x
    applyFilters (.union (pushdownAt left pushable) (pushdownAt right pushable) all) stay
  | .unwind input list binding, pending =>
    let (pushable,stay) := partitionByAliasDisjoint pending [binding]
    applyFilters (.unwind (pushdownAt input pushable) list binding) stay
  | .semiApply input subplan negated, pending => .semiApply (pushdownAt input pending) subplan negated
  | .apply input subplan optional, pending =>
    applyFilters (.apply (pushdownAt input []) (pushdownAt subplan []) optional) pending
  | .patternList input subplan projection binding, pending =>
    let (pushable,stay) := partitionByAliasDisjoint pending [binding]
    applyFilters (.patternList (pushdownAt input pushable) subplan projection binding) stay
  | .topN input keys skip limit, pending => applyFilters (.topN (pushdownAt input []) keys skip limit) pending
  | .distinct input, pending => applyFilters (.distinct (pushdownAt input [])) pending
  | .discardResult input, pending => applyFilters (.discardResult (pushdownAt input [])) pending
  | .create input elements, pending => applyFilters (.create (pushdownAt input []) elements) pending
  | .foreach input var list body, pending => applyFilters (.foreach (pushdownAt input []) var list body) pending
  | .merge input pattern onMatchSets onCreateSets, pending =>
    applyFilters (.merge (pushdownAt input []) pattern onMatchSets onCreateSets) pending
  | .set input items, pending => applyFilters (.set (pushdownAt input []) items) pending
  | .remove input items, pending => applyFilters (.remove (pushdownAt input []) items) pending
  | .delete input targets detach, pending => applyFilters (.delete (pushdownAt input []) targets detach) pending
  | leaf, pending => applyFilters leaf pending

def predicatePushdown (plan : LogicalPlan) : LogicalPlan := pushdownAt plan []

end NamiDB.Cypher
