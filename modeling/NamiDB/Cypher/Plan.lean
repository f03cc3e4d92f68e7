import NamiDB.Cypher.Evaluate

/-! The operators a query is lowered to. -/
namespace NamiDB.Cypher
open Query

inductive ShortestMode where
  | none | first | all
  deriving DecidableEq

/-- The part of an `Expand` beside its input. `uniqueRels` are the relationship bindings of the same
clause whose relationships this hop must not use again. -/
structure Expand where
  source : String
  edgeType : Option (List String)
  direction : RelationshipDirection
  relAlias : Option String
  targetAlias : String
  targetLabels : List String
  length : Option RelationshipLength
  optional : Bool
  backReference : Bool
  shortest : ShortestMode
  pathBinding : Option String
  uniqueRels : List String

structure ProjectionItem where
  expression : Expression
  binding : String

inductive AggregateExpr where
  | count (arg : Option Expression) (distinct : Bool)
  | sum (arg : Expression) (distinct : Bool)
  | avg (arg : Expression) (distinct : Bool)
  | min (arg : Expression)
  | max (arg : Expression)
  | collect (arg : Expression) (distinct : Bool)
  | stdev (arg : Expression) (distinct population : Bool)
  | percentile (arg percentile : Expression) (continuous : Bool)

structure OrderKey where
  expression : Expression
  descending : Bool

inductive RowCount where
  | const (n : Nat)
  | param (name : String)
  deriving DecidableEq

inductive StatScalar where
  | bool (b : Bool)
  | int64 (n : Int)
  | float64 (bits : BitVec 64)
  | utf8 (s : String)

inductive ScanPredicate where
  | eq (column : String) (value : StatScalar)
  | lt (column : String) (value : StatScalar)
  | ltEq (column : String) (value : StatScalar)
  | gt (column : String) (value : StatScalar)
  | gtEq (column : String) (value : StatScalar)
  | isNull (column : String)
  | isNotNull (column : String)
  | isIn (column : String) (values : List StatScalar)

structure JoinKey where
  buildSide : Expression
  probeSide : Expression

structure NodeBinding where
  binding : String
  label : Option String
  predicates : List ScanPredicate

structure EdgeConstraint where
  fromIdx : Nat
  toIdx : Nat
  edgeTypes : List String
  direction : RelationshipDirection

/-- `ordering` is the order in which the variables are bound, and `distinctEdges` are the pairs of relationships
that must differ. -/
structure MultiwayJoin where
  vars : List NodeBinding
  edges : List EdgeConstraint
  ordering : List Nat
  distinctEdges : List (Nat × Nat)

/-- A vector search drives its own reads; of it only what it binds is kept. -/
inductive LogicalPlan where
  | empty
  | argument (bindings : List String)
  | nodeScan (label : Option String) (binding : String) (predicates : List ScanPredicate)
      (projection : Option (List String))
  | nodeById (input : LogicalPlan) (label : Option String) (binding : String) (id : Expression)
  | nodeByPropertyValue (input : LogicalPlan) (label binding property : String) (value : Expression)
      (multi : Bool)
  | nodeByPropertyTuple (input : LogicalPlan) (label binding : String) (properties : List String)
      (values : List Expression)
  | expand (input : LogicalPlan) (hop : Expand)
  | filter (input : LogicalPlan) (predicate : Expression)
  | project (input : LogicalPlan) (items : List ProjectionItem) (distinct discardInputBindings : Bool)
  | discardResult (input : LogicalPlan)
  | aggregate (input : LogicalPlan) (groupBy : List (Expression × String))
      (aggregations : List (String × AggregateExpr))
  | topN (input : LogicalPlan) (keys : List OrderKey) (skip limit : RowCount)
  | distinct (input : LogicalPlan)
  | union (left right : LogicalPlan) (all : Bool)
  | unwind (input : LogicalPlan) (list : Expression) (binding : String)
  | crossProduct (left right : LogicalPlan)
  | hashJoin (build probe : LogicalPlan) (on : List JoinKey) (residual : Option Expression)
  | hashSemiJoin (outer inner : LogicalPlan) (on : List JoinKey) (negated : Bool)
      (residual : Option Expression)
  | semiApply (input subplan : LogicalPlan) (negated : Bool)
  | apply (input subplan : LogicalPlan) (optional : Option (List String))
  | patternList (input subplan : LogicalPlan) (projection : Expression) (binding : String)
  | create (input : LogicalPlan) (elements : List (CreateElement Expression))
  | merge (input : LogicalPlan) (pattern : List (CreateElement Expression))
      (onMatchSets onCreateSets : List (SetOp Expression))
  | set (input : LogicalPlan) (items : List (SetOp Expression))
  | remove (input : LogicalPlan) (items : List RemoveOp)
  | delete (input : LogicalPlan) (targets : List Expression) (detach : Bool)
  | foreach (input : LogicalPlan) (var : String) (list : Expression) (body : LogicalPlan)
  | multiwayJoin (join : MultiwayJoin)
  | edgeTypeCount (edgeTypes : List String) (output : String)
  | vectorSearch (binding scoreBinding : String)
  | callProcedure (qualifier : Option String) (name : String) (args : List Expression)
      (yieldItems : List (String × String))

end NamiDB.Cypher
