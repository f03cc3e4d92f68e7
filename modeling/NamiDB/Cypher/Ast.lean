import NamiDB.Query.Write

/-! Patterns and expressions as the parser builds them. Spans are left out, and an identifier is its
name. -/
namespace NamiDB.Cypher
open Query

inductive Literal where
  | integer (n : Int)
  | float (bits : BitVec 64)
  | string (s : String)
  | boolean (b : Bool)
  | null

inductive UnaryOp where
  | neg | not
  deriving DecidableEq

inductive BinaryOp where
  | add | sub | mul | div | mod | pow | and | or | xor | eq | ne | lt | gt | le | ge | regexMatch
  deriving DecidableEq

inductive StringOp where
  | startsWith | endsWith | contains
  deriving DecidableEq

inductive QuantifierKind where
  | all | any | none | single
  deriving DecidableEq

inductive ShortestPathMode where
  | first | all
  deriving DecidableEq

def openBound : Nat := 2^32-1

def unboundedVarLengthCap : Nat := 64

/-- `*min..max`. A bound may come from a parameter, and then its number is a placeholder. -/
structure RelationshipLength where
  min : Nat
  max : Nat
  minParam : Option String := none
  maxParam : Option String := none

/-- What `parse_label_list` returns: labels joined by `:`, or by `|` when there are at least two. -/
structure LabelList where
  labels : List String
  disjunction : Bool
  separated : disjunction=true → 2≤labels.length

mutual
inductive Expression where
  | literal (l : Literal)
  | var (name : String)
  | parameter (name : String)
  | property (target : Expression) (key : String)
  | index (target index : Expression)
  | range (target : Expression) (lo hi : Option Expression)
  | unary (op : UnaryOp) (expr : Expression)
  | binary (op : BinaryOp) (left right : Expression)
  | isIn (item list : Expression)
  | stringTest (op : StringOp) (target pattern : Expression)
  | isNull (expr : Expression) (negated : Bool)
  | functionCall (name : String) (args : List Expression) (distinct : Bool)
  | case (scrutinee : Option Expression) (branches : List (Expression × Expression))
      (otherwise : Option Expression)
  | existsPattern (pattern : PatternElement)
  | existsSubquery (block : MatchClause)
  | list (items : List Expression)
  | map (entries : List (String × Expression))
  | listComprehension (var : String) (list : Expression) (predicate projection : Option Expression)
  | patternComprehension (binding : Option String) (pattern : PatternElement)
      (predicate : Option Expression) (projection : Expression)
  | quantifier (kind : QuantifierKind) (var : String) (list predicate : Expression)
  | reduce (accumulator : String) (init : Expression) (var : String) (list expression : Expression)
  | star

/-- The properties slot of a pattern: an inline map, or a parameter that holds one. -/
inductive PatternProperties where
  | literal (entries : List (String × Expression))
  | parameter (name : String)

structure NodePattern where
  binding : Option String
  labels : LabelList
  properties : Option PatternProperties

/-- No types stand for every type, and no length for a single relationship. -/
structure RelationshipPattern where
  direction : RelationshipDirection
  binding : Option String
  types : List String
  length : Option RelationshipLength
  properties : Option PatternProperties

structure PatternElement where
  head : NodePattern
  chain : List (RelationshipPattern × NodePattern)

structure PatternPart where
  binding : Option String
  element : PatternElement
  shortestPath : Option ShortestPathMode

structure MatchClause where
  optional : Bool
  patterns : List PatternPart
  condition : Option Expression
end

end NamiDB.Cypher
