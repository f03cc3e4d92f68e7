import NamiDB.Cypher.Plan

/-! The names an expression mentions and the names a plan binds, as the rewrites of the optimiser see
them, and conjunctions as lists of their terms. -/
namespace NamiDB.Cypher
open Query List

mutual
/-- More names than evaluation reads: also those that are bound inside the expression. -/
def expressionAliases : Expression → List String
  | .literal _ | .parameter _ | .star => []
  | .var name => [name]
  | .property target _ => expressionAliases target
  | .index target index => expressionAliases target++expressionAliases index
  | .range target lo hi => expressionAliases target++optionAliases lo++optionAliases hi
  | .unary _ expr => expressionAliases expr
  | .binary _ left right => expressionAliases left++expressionAliases right
  | .isIn item list => expressionAliases item++expressionAliases list
  | .stringTest _ target pattern => expressionAliases target++expressionAliases pattern
  | .isNull expr _ => expressionAliases expr
  | .functionCall _ args _ => listAliases args
  | .case scrutinee branches otherwise =>
    optionAliases scrutinee++branchAliases branches++optionAliases otherwise
  | .existsPattern pattern => patternAliases pattern
  | .existsSubquery block => matchAliases block
  | .list items => listAliases items
  | .map entries => entryAliases entries
  | .listComprehension var list predicate projection =>
    expressionAliases list++optionAliases predicate++optionAliases projection++[var]
  | .patternComprehension binding pattern predicate projection =>
    binding.toList++patternAliases pattern++optionAliases predicate++expressionAliases projection
  | .quantifier _ var list predicate => expressionAliases list++expressionAliases predicate++[var]
  | .reduce accumulator init var list expression =>
    expressionAliases init++expressionAliases list++expressionAliases expression++[accumulator,var]

def listAliases : List Expression → List String
  | [] => []
  | e::es => expressionAliases e++listAliases es

def optionAliases : Option Expression → List String
  | none => []
  | some e => expressionAliases e

def entryAliases : List (String × Expression) → List String
  | [] => []
  | (_,e)::rest => expressionAliases e++entryAliases rest

def branchAliases : List (Expression × Expression) → List String
  | [] => []
  | (test,value)::rest => expressionAliases test++expressionAliases value++branchAliases rest

def propertiesAliases : Option PatternProperties → List String
  | none => []
  | some (.literal entries) => entryAliases entries
  | some (.parameter _) => []

def nodeAliases : NodePattern → List String
  | ⟨binding,_,properties⟩ => binding.toList++propertiesAliases properties

def relationshipAliases : RelationshipPattern → List String
  | ⟨_,binding,_,_,properties⟩ => binding.toList++propertiesAliases properties

def chainAliases : List (RelationshipPattern × NodePattern) → List String
  | [] => []
  | (rel,node)::rest => relationshipAliases rel++nodeAliases node++chainAliases rest

def patternAliases : PatternElement → List String
  | ⟨head,chain⟩ => nodeAliases head++chainAliases chain

def partAliases : List PatternPart → List String
  | [] => []
  | ⟨_,element,_⟩::rest => patternAliases element++partAliases rest

def matchAliases : MatchClause → List String
  | ⟨_,patterns,condition⟩ => partAliases patterns++optionAliases condition
end

mutual
/-- The bindings that an expression is taken to read: also those that are bound inside of it. -/
def referencedVariables : Expression → List String
  | .var name => [name]
  | .property target _ => referencedVariables target
  | .index target index => referencedVariables target++referencedVariables index
  | .range target lo hi => referencedVariables target++referencedOption lo++referencedOption hi
  | .unary _ expr => referencedVariables expr
  | .binary _ left right => referencedVariables left++referencedVariables right
  | .isIn item list => referencedVariables item++referencedVariables list
  | .stringTest _ target pattern => referencedVariables target++referencedVariables pattern
  | .isNull expr _ => referencedVariables expr
  | .functionCall _ args _ => referencedAll args
  | .case scrutinee branches otherwise =>
    referencedOption scrutinee++referencedBranches branches++referencedOption otherwise
  | .list items => referencedAll items
  | .map entries => referencedEntries entries
  | .reduce _ init _ list expression =>
    referencedVariables init++referencedVariables list++referencedVariables expression
  | .quantifier _ _ list predicate => referencedVariables list++referencedVariables predicate
  | .listComprehension _ list predicate projection =>
    referencedVariables list++(referencedOption predicate++referencedOption projection)
  | .existsPattern _ | .existsSubquery _ | .patternComprehension _ _ _ _ | .literal _ | .parameter _ | .star => []

def referencedAll : List Expression → List String
  | [] => []
  | e::es => referencedVariables e++referencedAll es

def referencedOption : Option Expression → List String
  | none => []
  | some e => referencedVariables e

def referencedEntries : List (String × Expression) → List String
  | [] => []
  | (_,e)::rest => referencedVariables e++referencedEntries rest

def referencedBranches : List (Expression × Expression) → List String
  | [] => []
  | (test,value)::rest => referencedVariables test++referencedVariables value++referencedBranches rest
end

/-- What is read is among the names of either list. -/
def Within (read names names' : List String) : Prop := ∀ x∈read, x∈names ∧ x∈names'

theorem Within.append (h : Within a c c') (h' : Within b d d') : Within (a++b) (c++d) (c'++d') := by
  intro x hx
  rcases mem_append.mp hx with hx | hx
  · exact ⟨mem_append_left _ (h x hx).1,mem_append_left _ (h x hx).2⟩
  · exact ⟨mem_append_right _ (h' x hx).1,mem_append_right _ (h' x hx).2⟩

theorem Within.nil : Within [] c c' := by simp [Within]

mutual
theorem reads_within (e : Expression) : Within (reads e) (referencedVariables e) (expressionAliases e) := by
  cases e with
  | literal _ | parameter _ | existsPattern _ | existsSubquery _ | patternComprehension _ _ _ _ | star => exact .nil
  | var name => exact fun _ hx => ⟨hx,hx⟩
  | property e _ | unary _ e | isNull e _ => exact reads_within e
  | index a b | binary _ a b | isIn a b | stringTest _ a b => exact (reads_within a).append (reads_within b)
  | range target lo hi => exact ((reads_within target).append (readsOption_within lo)).append (readsOption_within hi)
  | functionCall _ es _ | list es => exact readsAll_within es
  | case scrutinee branches otherwise =>
    exact ((readsOption_within scrutinee).append (readsBranches_within branches)).append (readsOption_within otherwise)
  | map entries => exact readsEntries_within entries
  | listComprehension var list predicate projection =>
    have hlist := reads_within list
    have hbody := (readsOption_within predicate).append (readsOption_within projection)
    intro x hx
    rcases mem_append.mp hx with hx | hx
    · simp [referencedVariables,expressionAliases,hlist x hx]
    · obtain ⟨h,h'⟩ := hbody x (mem_filter.mp hx).1
      simp only [referencedVariables,expressionAliases,mem_append] at h h' ⊢
      tauto
  | quantifier kind var list predicate =>
    have hlist := reads_within list
    have hbody := reads_within predicate
    intro x hx
    rcases mem_append.mp hx with hx | hx
    · simp [referencedVariables,expressionAliases,hlist x hx]
    · simp [referencedVariables,expressionAliases,hbody x (mem_filter.mp hx).1]
  | reduce accumulator init var list expression =>
    have hlist := reads_within list
    have hinit := reads_within init
    have hbody := reads_within expression
    intro x hx
    rcases mem_append.mp hx with hx | hx
    · rcases mem_append.mp hx with hx | hx
      · simp [referencedVariables,expressionAliases,hlist x hx]
      · simp [referencedVariables,expressionAliases,hinit x hx]
    · simp [referencedVariables,expressionAliases,hbody x (mem_filter.mp hx).1]

theorem readsAll_within (es : List Expression) : Within (readsAll es) (referencedAll es) (listAliases es) := by
  cases es with
  | nil => exact .nil
  | cons e rest => exact (reads_within e).append (readsAll_within rest)

theorem readsOption_within (e : Option Expression) :
    Within (readsOption e) (referencedOption e) (optionAliases e) := by
  cases e with
  | none => exact .nil
  | some e => exact reads_within e

theorem readsEntries_within (entries : List (String × Expression)) :
    Within (readsEntries entries) (referencedEntries entries) (entryAliases entries) := by
  match entries with
  | [] => exact .nil
  | (k,e)::rest => exact (reads_within e).append (readsEntries_within rest)

theorem readsBranches_within (branches : List (Expression × Expression)) :
    Within (readsBranches branches) (referencedBranches branches) (branchAliases branches) := by
  match branches with
  | [] => exact .nil
  | (test,value)::rest => exact ((reads_within test).append (reads_within value)).append (readsBranches_within rest)
end

def CreateElement.alias? : CreateElement Expression → Option String
  | .node binding _ _ _ => some binding
  | .rel binding _ _ _ _ _ _ => binding

def producedAliases : LogicalPlan → List String
  | .empty | .discardResult _ => []
  | .edgeTypeCount _ output => [output]
  | .vectorSearch binding scoreBinding => [binding,scoreBinding]
  | .callProcedure _ _ _ yieldItems => yieldItems.map Prod.snd
  | .argument bindings => bindings
  | .nodeScan _ binding _ _ => [binding]
  | .nodeById input _ binding _ | .nodeByPropertyValue input _ binding _ _ _
  | .nodeByPropertyTuple input _ binding _ _ => producedAliases input++[binding]
  | .expand input hop =>
    producedAliases input++hop.targetAlias::(hop.relAlias.toList++hop.pathBinding.toList)
  | .filter input _ | .topN input _ _ _ | .distinct input | .semiApply input _ _ => producedAliases input
  | .apply input subplan _ => producedAliases input++producedAliases subplan
  | .project input items _ discardInputBindings =>
    (if discardInputBindings then [] else producedAliases input)++items.map ProjectionItem.binding
  | .aggregate _ groupBy aggregations => groupBy.map Prod.snd++aggregations.map Prod.fst
  -- A parent sees only what both sides declare.
  | .union left right _ => (producedAliases left).filter (producedAliases right).contains
  | .crossProduct left right => producedAliases left++producedAliases right
  | .hashJoin build probe _ _ => producedAliases build++producedAliases probe
  | .hashSemiJoin outer _ _ _ _ => producedAliases outer
  | .unwind input _ binding | .patternList input _ _ binding => producedAliases input++[binding]
  | .create input elements | .merge input elements _ _ =>
    producedAliases input++elements.filterMap CreateElement.alias?
  | .set input _ | .remove input _ | .delete input _ _ | .foreach input _ _ _ => producedAliases input
  | .multiwayJoin join => join.vars.map NodeBinding.binding

section

variable {e : Expression} {terms : List Expression}

def splitAndTerms : Expression → List Expression
  | .binary .and left right => splitAndTerms left++splitAndTerms right
  | e => [e]

def andChain : List Expression → Option Expression
  | [] => none
  | first::rest => some (rest.foldl (fun acc next => .binary .and acc next) first)

def applyFilters (plan : LogicalPlan) (terms : List Expression) : LogicalPlan :=
  match andChain terms with
  | some predicate => .filter plan predicate
  | none => plan

variable (L : Scalars) (params : Params)

def Evaluates (e : Expression) (row : Query.Row) : Prop := ∃ v, evaluate L params e row = .ok v

def Holds (e : Expression) (row : Query.Row) : Prop :=
  ∃ v, evaluate L params e row = .ok v ∧ v.asBool=some true

variable {L params} {row : Query.Row}

theorem evaluates_and : Evaluates L params (.binary .and a b) row ↔
    Evaluates L params a row ∧ Evaluates L params b row := by
  simp only [Evaluates,evaluate]
  cases ha : evaluate L params a row with
  | error e => simp [bind,Except.bind]
  | ok va =>
    cases hb : evaluate L params b row with
    | error e => simp [bind,Except.bind]
    | ok vb =>
      have hand : ∃ v, L.evalBinary .and va vb = .ok v := by
        unfold Scalars.evalBinary
        split <;> first | exact ⟨_,rfl⟩ | contradiction
      simpa [bind,Except.bind] using hand

theorem evalBinary_and_true (h : L.evalBinary .and va vb = .ok v) :
    v.asBool=some true ↔ va.asBool=some true ∧ vb.asBool=some true := by
  unfold Scalars.evalBinary at h
  split at h <;> first | contradiction | (cases h; simp_all [RuntimeValue.asBool])

theorem holds_and : Holds L params (.binary .and a b) row ↔ Holds L params a row ∧ Holds L params b row := by
  simp only [Holds,evaluate]
  cases ha : evaluate L params a row with
  | error e => simp [bind,Except.bind]
  | ok va =>
    cases hb : evaluate L params b row with
    | error e => simp [bind,Except.bind]
    | ok vb =>
      cases hv : L.evalBinary .and va vb with
      | error e =>
        have : Evaluates L params (.binary .and a b) row := evaluates_and.mpr ⟨⟨va,ha⟩,vb,hb⟩
        simp [Evaluates,evaluate,ha,hb,hv,bind,Except.bind] at this
      | ok v =>
        simpa [bind,Except.bind,hv] using evalBinary_and_true hv

theorem evaluates_split : Evaluates L params e row ↔ ∀ t ∈ splitAndTerms e, Evaluates L params t row := by
  fun_induction splitAndTerms e with
  | case1 left right hl hr => rw [evaluates_and,hl,hr,forall_mem_append]
  | case2 e => simp

theorem holds_split : Holds L params e row ↔ ∀ t ∈ splitAndTerms e, Holds L params t row := by
  fun_induction splitAndTerms e with
  | case1 left right hl hr => rw [holds_and,hl,hr,forall_mem_append]
  | case2 e => simp

variable (first : Expression)

theorem evaluates_foldl (rest : List Expression) :
    Evaluates L params (rest.foldl (fun acc next => .binary .and acc next) first) row ↔
      ∀ t ∈ first :: rest, Evaluates L params t row := by
  induction rest generalizing first with
  | nil => simp
  | cons t rest ih =>
    rw [foldl_cons,ih]
    simp [evaluates_and,and_assoc]

theorem holds_foldl (rest : List Expression) :
    Holds L params (rest.foldl (fun acc next => .binary .and acc next) first) row ↔
      ∀ t ∈ first :: rest, Holds L params t row := by
  induction rest generalizing first with
  | nil => simp
  | cons t rest ih =>
    rw [foldl_cons,ih]
    simp [holds_and,and_assoc]

theorem evaluates_andChain (h : andChain terms=some e) :
    Evaluates L params e row ↔ ∀ t ∈ terms, Evaluates L params t row := by
  cases terms with
  | nil => cases h
  | cons first rest =>
    cases h
    exact evaluates_foldl first rest

theorem holds_andChain (h : andChain terms=some e) : Holds L params e row ↔ ∀ t ∈ terms, Holds L params t row := by
  cases terms with
  | nil => cases h
  | cons first rest =>
    cases h
    exact holds_foldl first rest

end
end NamiDB.Cypher
