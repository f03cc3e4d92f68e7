import NamiDB.Cypher.Operators

/-! A filter over a cross product becomes a hash join. The filter compares with `=`, the join with the
fingerprints of the keys. -/
namespace NamiDB.Cypher
open Query Storage Lib List Prod

def onSide (names : List String) (e : Expression) : Bool :=
  !(expressionAliases e).isEmpty&&(expressionAliases e).all names.contains

inductive ConjunctClass where
  | leftEqRight (lhs rhs : Expression)
  | rightEqLeft (lhs rhs : Expression)
  | residual

def classifyConjunct (term : Expression) (left right : List String) : ConjunctClass :=
  match term with
  | .binary .eq lhs rhs =>
    if onSide left lhs&&onSide right rhs then .leftEqRight lhs rhs
    else if onSide right lhs&&onSide left rhs then .rightEqLeft lhs rhs
    else .residual
  | _ => .residual

/-- The keys, with the expression of the left side first, and the terms that stay a filter. -/
def joinTerms (left right : List String) : List Expression → List (Expression × Expression) × List Expression
  | [] => ([],[])
  | term::terms =>
    let (keys,residual) := joinTerms left right terms
    match classifyConjunct term left right with
    | .leftEqRight lhs rhs => ((lhs,rhs)::keys,residual)
    | .rightEqLeft lhs rhs => ((rhs,lhs)::keys,residual)
    | .residual => (keys,term::residual)

/-- `smaller left right` says that the estimate of the left side is not above that of the right side. -/
def tryConvertAtRoot (smaller : LogicalPlan → LogicalPlan → Bool) : LogicalPlan → LogicalPlan
  | .filter (.crossProduct left right) predicate =>
    let (keys,residual) := joinTerms (producedAliases left) (producedAliases right) (splitAndTerms predicate)
    if keys.isEmpty then .filter (.crossProduct left right) predicate
    else if smaller left right then
      .hashJoin left right (keys.map fun key => ⟨key.1,key.2⟩) (andChain residual)
    else .hashJoin right left (keys.map fun key => ⟨key.2,key.1⟩) (andChain residual)
  | plan => plan

-- Plans that run once for each row of their input are not visited.
def convertCrossToHash (smaller : LogicalPlan → LogicalPlan → Bool) (plan : LogicalPlan) : LogicalPlan :=
  tryConvertAtRoot smaller (match plan with
    | .empty => .empty
    | .argument bindings => .argument bindings
    | .nodeScan label binding predicates projection => .nodeScan label binding predicates projection
    | .multiwayJoin join => .multiwayJoin join
    | .edgeTypeCount edgeTypes output => .edgeTypeCount edgeTypes output
    | .vectorSearch binding scoreBinding => .vectorSearch binding scoreBinding
    | .callProcedure qualifier name args yieldItems => .callProcedure qualifier name args yieldItems
    | .nodeById input label binding id => .nodeById (convertCrossToHash smaller input) label binding id
    | .nodeByPropertyValue input label binding property value multi =>
      .nodeByPropertyValue (convertCrossToHash smaller input) label binding property value multi
    | .nodeByPropertyTuple input label binding properties values =>
      .nodeByPropertyTuple (convertCrossToHash smaller input) label binding properties values
    | .expand input hop => .expand (convertCrossToHash smaller input) hop
    | .filter input predicate => .filter (convertCrossToHash smaller input) predicate
    | .project input items distinct discardInputBindings =>
      .project (convertCrossToHash smaller input) items distinct discardInputBindings
    | .discardResult input => .discardResult (convertCrossToHash smaller input)
    | .aggregate input groupBy aggregations => .aggregate (convertCrossToHash smaller input) groupBy aggregations
    | .topN input keys skip limit => .topN (convertCrossToHash smaller input) keys skip limit
    | .distinct input => .distinct (convertCrossToHash smaller input)
    | .union left right all => .union (convertCrossToHash smaller left) (convertCrossToHash smaller right) all
    | .unwind input list binding => .unwind (convertCrossToHash smaller input) list binding
    | .crossProduct left right =>
      .crossProduct (convertCrossToHash smaller left) (convertCrossToHash smaller right)
    | .semiApply input subplan negated => .semiApply (convertCrossToHash smaller input) subplan negated
    | .apply input subplan optional => .apply (convertCrossToHash smaller input) subplan optional
    | .patternList input subplan projection binding =>
      .patternList (convertCrossToHash smaller input) subplan projection binding
    | .hashJoin build probe on residual =>
      .hashJoin (convertCrossToHash smaller build) (convertCrossToHash smaller probe) on residual
    | .hashSemiJoin outer inner on negated residual =>
      .hashSemiJoin (convertCrossToHash smaller outer) (convertCrossToHash smaller inner) on negated residual
    | .create input elements => .create (convertCrossToHash smaller input) elements
    | .merge input pattern onMatchSets onCreateSets =>
      .merge (convertCrossToHash smaller input) pattern onMatchSets onCreateSets
    | .set input items => .set (convertCrossToHash smaller input) items
    | .remove input items => .remove (convertCrossToHash smaller input) items
    | .delete input targets detach => .delete (convertCrossToHash smaller input) targets detach
    | .foreach input var list body => .foreach (convertCrossToHash smaller input) var list body)

section

variable (L : Scalars) (params : Params)
variable {buildSides probeSides : List Expression} {b : Row}

/-- Every key has a value on both rows, none of them NULL, and the values are related. -/
def KeysBy (rel : RuntimeValue → RuntimeValue → Bool) (keys : List (Expression × Expression)) (l r : Row) : Prop :=
  ∀ key ∈ keys, ∃ v w, evalRow L params key.1 l = .ok v ∧ evalRow L params key.2 r = .ok w ∧
    isNullValue v=false ∧ isNullValue w=false ∧ rel v w=true

/-- Values that `=` and the fingerprints do not tell apart alike: a number as an integer and as a float, a
NaN, vectors, paths, and lists and maps over anything of which one of the two sees more than the other. -/
def clashes : RuntimeValue → RuntimeValue → Bool
  | .integer n, .float f => floatEq 52 (i64AsF64 n) f
  | .float f, .integer n => floatEq 52 (i64AsF64 n) f
  | .float a, .float b => isNan 52 a&&decide (a=b)
  | .list a, .list b => valuesEq a b != sameKeys a b
  | .map a, .map b => entriesEq a b != sameEntries a b
  | .vector a, .vector b => decide (a=b)
  | .vector8 a s, .vector8 b t => decide (a.map codeByte=b.map codeByte)&&decide (s=t)
  | .path a, .path b => sameKeys a b
  | _, _ => false

theorem isNan_of_isZero (h : isZero a=true) : isNan 52 a=false := by
  simp only [isZero,isNan,decide_eq_true_eq,decide_eq_false_iff_not] at h ⊢
  omega

theorem clashes_eq (hv : isNullValue v=false) : clashes v w=(isEqual v w != sameKey v w) := by
  cases v <;> cases w <;> first | (simp [clashes,isEqual,sameKey]; done) | skip
  case null.null => cases hv
  case float.float a b =>
    simp only [clashes,isEqual,sameKey,floatEq]
    by_cases hab : a=b
    · subst hab
      cases isNan 52 a <;> simp
    · cases ha : isZero a <;> cases hb : isZero b <;> simp [hab]
      simp [isNan_of_isZero ha,isNan_of_isZero hb]

variable {L params} {keys : List (Expression × Expression)} {l r : Row}

theorem keysBy_cons :
    KeysBy L params rel (key::keys) l r ↔
      (∃ v w, evalRow L params key.1 l = .ok v ∧ evalRow L params key.2 r = .ok w ∧
        isNullValue v=false ∧ isNullValue w=false ∧ rel v w=true) ∧ KeysBy L params rel keys l r :=
  forall_mem_cons

theorem keysBy_iff : (KeysBy L params isEqual keys l r ↔ KeysBy L params sameKey keys l r) ↔
    (KeysBy L params isEqual keys l r ∨ KeysBy L params sameKey keys l r →
      KeysBy L params (fun v w => !clashes v w) keys l r) := by
  have both : KeysBy L params isEqual keys l r → KeysBy L params sameKey keys l r →
      KeysBy L params (fun v w => !clashes v w) keys l r := by
    intro heq hsame key hkey
    obtain ⟨v,w,hv,hw,hnv,hnw,he⟩ := heq key hkey
    obtain ⟨v',w',hv',hw',-,-,hs⟩ := hsame key hkey
    cases hv.symm.trans hv'
    cases hw.symm.trans hw'
    exact ⟨v,w,hv,hw,hnv,hnw,by simp [clashes_eq hnv,he,hs]⟩
  have same (hno : KeysBy L params (fun v w => !clashes v w) keys l r) :
      KeysBy L params isEqual keys l r ↔ KeysBy L params sameKey keys l r := by
    refine forall₂_congr fun key hkey => ?_
    obtain ⟨v,w,hv,hw,hnv,hnw,hc⟩ := hno key hkey
    have he : isEqual v w=sameKey v w := by simpa [clashes_eq hnv] using hc
    simp [hv,hw,hnw,he]
  constructor
  · rintro h (heq | hsame)
    · exact both heq (h.mp heq)
    · exact both (h.mpr hsame) hsame
  · intro h
    exact ⟨fun heq => (same (h (.inl heq))).mp heq,fun hsame => (same (h (.inr hsame))).mpr hsame⟩

theorem keyOf_cons :
    keyOf L params (e::es) row=some k ↔ ∃ v k', evalRow L params e row = .ok v ∧ isNullValue v=false ∧
      keyOf L params es row=some k' ∧ k=fingerprint L.ids v::k' := by
  simp only [keyOf,joinKey]
  cases hv : evalRow L params e row with
  | error err => simp [bind,Except.bind]
  | ok v =>
    cases hn : isNullValue v with
    | true => simp [bind,Except.bind,pure,Except.pure,hn]
    | false =>
      cases hk : joinKey L params es row with
      | error err => simp [bind,Except.bind,hn]
      | ok key =>
        cases key with
        | none => simp [bind,Except.bind,pure,Except.pure,hn]
        | some k' => simp [bind,Except.bind,pure,Except.pure,hn,eq_comm (a := k)]

theorem matched_iff_exists : matched L params buildSides probeSides b p=true ↔
      ∃ k, keyOf L params buildSides b=some k ∧ keyOf L params probeSides p=some k := by
  simp [matched,Option.any_eq_true,and_comm]

theorem matched_iff : matched L params (keys.map Prod.fst) (keys.map Prod.snd) l r=true ↔
    KeysBy L params sameKey keys l r := by
  rw [matched_iff_exists]
  induction keys with
  | nil => simp [keyOf,joinKey,KeysBy]
  | cons key keys ih =>
    rw [keysBy_cons,← ih]
    simp only [map_cons,keyOf_cons]
    constructor
    · rintro ⟨_,⟨v,k,hv,hnv,hk,rfl⟩,w,k',hw,hnw,hk',heq⟩
      obtain ⟨hfp,rfl⟩ := cons.inj heq
      exact ⟨⟨v,w,hv,hw,hnv,hnw,fingerprint_eq_iff.mp hfp⟩,k,hk,hk'⟩
    · rintro ⟨⟨v,w,hv,hw,hnv,hnw,hs⟩,k,hk,hk'⟩
      exact ⟨_,⟨v,k,hv,hnv,hk,rfl⟩,w,k,hw,hnw,hk',by rw [fingerprint_eq_iff.mpr hs]⟩

theorem matched_comm : matched L params buildSides probeSides b p=matched L params probeSides buildSides p b := by
  rw [Bool.eq_iff_iff,matched_iff_exists,matched_iff_exists]
  exact exists_congr fun k => and_comm

end

section

variable {L : Scalars} {params : Params} {row : Query.Row}
variable {a b term lhs rhs : Expression}

theorem holds_eq : Holds L params (.binary .eq a b) row ↔
    ∃ v w, evaluate L params a row = .ok v ∧ evaluate L params b row = .ok w ∧
      isNullValue v=false ∧ isNullValue w=false ∧ isEqual v w=true := by
  simp only [Holds,evaluate]
  cases evaluate L params a row with
  | error e => simp [bind,Except.bind]
  | ok v =>
    cases evaluate L params b row with
    | error e => simp [bind,Except.bind]
    | ok w =>
      have heq : L.evalBinary .eq v w =
          if isNullValue v||isNullValue w then .ok .null else .ok (.bool (isEqual v w)) := rfl
      cases hv : isNullValue v <;> cases hw : isNullValue w <;>
        simp [bind,Except.bind,heq,hv,hw,RuntimeValue.asBool]

theorem holds_eq_comm : Holds L params (.binary .eq a b) row ↔ Holds L params (.binary .eq b a) row := by
  rw [holds_eq,holds_eq]
  constructor <;>
  · rintro ⟨v,w,hv,hw,hnv,hnw,he⟩
    exact ⟨w,v,hw,hv,hnw,hnv,by rw [isEqual_comm,he]⟩

variable {left right : List String} {terms : List Expression}

theorem classifyConjunct_spec (h : classifyConjunct term left right=c) : match c with
    | .leftEqRight lhs rhs => term = .binary .eq lhs rhs ∧ onSide left lhs=true ∧ onSide right rhs=true
    | .rightEqLeft lhs rhs => term = .binary .eq lhs rhs ∧ onSide right lhs=true ∧ onSide left rhs=true
    | .residual => True := by
  subst h
  unfold classifyConjunct
  grind

theorem onSide_subset (h : onSide names e=true) : expressionAliases e ⊆ names := by
  intro x hx
  simp only [onSide,Bool.and_eq_true,all_eq_true,contains_iff_mem] at h
  exact h.2 x hx

theorem joinTerms_sides : ∀ key ∈ (joinTerms left right terms).1,
    expressionAliases key.1 ⊆ left ∧ expressionAliases key.2 ⊆ right := by
  induction terms with
  | nil => exact fun key hkey => nomatch hkey
  | cons term terms ih =>
    simp only [joinTerms]
    cases hc : classifyConjunct term left right with
    | leftEqRight lhs rhs =>
      obtain ⟨-,hl,hr⟩ := classifyConjunct_spec hc
      exact forall_mem_cons.mpr ⟨⟨onSide_subset hl,onSide_subset hr⟩,ih⟩
    | rightEqLeft lhs rhs =>
      obtain ⟨-,hl,hr⟩ := classifyConjunct_spec hc
      exact forall_mem_cons.mpr ⟨⟨onSide_subset hr,onSide_subset hl⟩,ih⟩
    | residual => exact ih

theorem joinTerms_residual : (joinTerms left right terms).2 ⊆ terms := by
  induction terms with
  | nil => exact List.Subset.refl _
  | cons term terms ih =>
    simp only [joinTerms]
    cases classifyConjunct term left right with
    | leftEqRight _ _ | rightEqLeft _ _ => exact subset_cons_of_subset _ ih
    | residual => exact cons_subset_cons _ ih

theorem holds_joinTerms (left right : List String) : (∀ t ∈ terms, Holds L params t row) ↔
    (∀ key ∈ (joinTerms left right terms).1, Holds L params (.binary .eq key.1 key.2) row) ∧
      ∀ t ∈ (joinTerms left right terms).2, Holds L params t row := by
  induction terms with
  | nil => simp [joinTerms]
  | cons term terms ih =>
    rw [forall_mem_cons,ih]
    simp only [joinTerms]
    cases hc : classifyConjunct term left right with
    | leftEqRight lhs rhs =>
      obtain ⟨rfl,-,-⟩ := classifyConjunct_spec hc
      simp only [forall_mem_cons,and_assoc]
    | rightEqLeft lhs rhs =>
      obtain ⟨rfl,-,-⟩ := classifyConjunct_spec hc
      simp only [forall_mem_cons,and_assoc,holds_eq_comm (a := lhs)]
    | residual =>
      simp only [forall_mem_cons]
      exact and_left_comm

end

section

/-- Rows that two plans produce under one outer row: a name that both bind comes from that row, and what a
plan is said to produce is not bound by the other one alone. -/
structure Joinable (left right : List String) (l r : Row) : Prop where
  shared : ∀ x v w, l.get x=some v → r.get x=some w → v=w
  left : ∀ x ∈ left, l.get x=none → r.get x=none
  right : ∀ x ∈ right, r.get x=none → l.get x=none

variable {L : Scalars} {params : Params} {left right : List String} {l r : Row}

section
variable (h : Joinable left right l r)
include h

theorem Joinable.agree_left : Agree left (l.extend r).get l.get := by
  intro x hx
  rw [Row.get_extend]
  cases hl : l.get x with
  | none => simp [h.left x hx hl]
  | some v =>
    cases hr : r.get x with
    | none => rfl
    | some w => simp [h.shared x v w hl hr]

theorem Joinable.agree_right : Agree right (l.extend r).get r.get := by
  intro x hx
  rw [Row.get_extend]
  cases hr : r.get x with
  | none => simp [h.right x hx hr]
  | some w => rfl

theorem Joinable.extend_comm : r.extend l=l.extend r := by
  refine Row.ext_get fun x => ?_
  rw [Row.get_extend,Row.get_extend]
  cases hl : l.get x with
  | none => simp
  | some v =>
    cases hr : r.get x with
    | none => rfl
    | some w => simp [h.shared x v w hl hr]

theorem Joinable.holds_keys {keys : List (Expression × Expression)}
    (hsides : ∀ key ∈ keys, expressionAliases key.1 ⊆ left ∧ expressionAliases key.2 ⊆ right) :
    (∀ key ∈ keys, Holds L params (.binary .eq key.1 key.2) (l.extend r).get) ↔ KeysBy L params isEqual keys l r := by
  refine forall₂_congr fun key hkey => ?_
  obtain ⟨hl,hr⟩ := hsides key hkey
  rw [holds_eq,evaluate_congr L params key.1 (h.agree_left.mono fun x hx => hl (reads_within _ x hx).2),
    evaluate_congr L params key.2 (h.agree_right.mono fun x hx => hr (reads_within _ x hx).2)]

end

end

section

variable {L : Scalars} {params : Params} {keys : List (Expression × Expression)} {terms : List Expression}
  {residual : Option Expression}

theorem all_keeps_andChain :
    (andChain terms).all (fun e => keeps L params e row)=true ↔ ∀ t ∈ terms, Holds L params t row.get := by
  cases he : andChain terms with
  | none =>
    cases terms with
    | nil => simp
    | cons t ts => cases he
  | some e => rw [Option.all_some,keeps_iff,holds_andChain he]

/-- Nothing that the filter and the join see differently stands in the rows. The key of a side is computed
on each of its rows, also when there is no row to join it with. -/
structure NoClash (L : Scalars) (params : Params) (keys : List (Expression × Expression)) (terms : List Expression)
    (lrows rrows : List Row) : Prop where
  left : Keyed L params (keys.map Prod.fst) lrows
  right : Keyed L params (keys.map Prod.snd) rrows
  pairs : ∀ l ∈ lrows, ∀ r ∈ rrows, (∀ t ∈ terms, Holds L params t (l.extend r).get) →
    KeysBy L params isEqual keys l r ∨ KeysBy L params sameKey keys l r →
      KeysBy L params (fun v w => !clashes v w) keys l r

theorem hashJoin_sides (pick : Bool) (hcomm : ∀ l ∈ lrows, ∀ r ∈ rrows, r.extend l=l.extend r) :
    (∃ out', hashJoin L params (keys.map fun key => if pick then ⟨key.1,key.2⟩ else ⟨key.2,key.1⟩) residual
        (if pick then lrows else rrows) (if pick then rrows else lrows) = .ok out' ∧ out'.Perm out) ↔
      Keyed L params (keys.map Prod.fst) lrows ∧ Keyed L params (keys.map Prod.snd) rrows ∧
      (∀ l ∈ lrows, ∀ r ∈ rrows, matched L params (keys.map Prod.fst) (keys.map Prod.snd) l r=true →
        ∀ e ∈ residual, Evaluates L params e (l.extend r).get) ∧
      (((lrows ×ˢ rrows).filter fun a => matched L params (keys.map Prod.fst) (keys.map Prod.snd) a.1 a.2 &&
        residual.all fun e => keeps L params e (a.1.extend a.2)).map fun a => a.1.extend a.2).Perm out := by
  cases pick with
  | true =>
    have hperm := picks_perm_lookup (fun l r : Row => l.extend r)
      (fun l r => matched L params (keys.map fst) (keys.map snd) l r)
      (fun row => residual.all fun e => keeps L params e row) lrows rrows
    simp only [if_true,hashJoin_eq_ok,List.map_map]
    constructor
    · rintro ⟨_,⟨hl,hr,heval,rfl⟩,hout⟩
      exact ⟨hl,hr,fun l hl r hr => heval r hr l hl,hperm.trans hout⟩
    · rintro ⟨hl,hr,heval,hout⟩
      exact ⟨_,⟨hl,hr,fun r hr l hl => heval l hl r hr,rfl⟩,hperm.symm.trans hout⟩
  | false =>
    have hrows : (lrows.flatMap fun l => ((rrows.filter fun r =>
          matched L params (keys.map snd) (keys.map fst) r l).map fun r => r.extend l).filter fun row =>
            residual.all fun e => keeps L params e row) =
        ((lrows ×ˢ rrows).filter fun a => matched L params (keys.map fst) (keys.map snd) a.1 a.2 &&
          residual.all fun e => keeps L params e (a.1.extend a.2)).map fun a => a.1.extend a.2 := by
      rw [picks_eq_lookup (fun l r : Row => l.extend r)
        (fun l r => matched L params (keys.map fst) (keys.map snd) l r)
        (fun row => residual.all fun e => keeps L params e row)]
      refine flatMap_congr fun l hl => ?_
      simp only [matched_comm (b := l)]
      rw [map_congr_left fun r hr => hcomm l hl r (mem_filter.mp hr).1]
    simp only [Bool.false_eq_true,if_false,hashJoin_eq_ok,List.map_map,Function.comp_def]
    rw [hrows]
    constructor
    · rintro ⟨_,⟨hr,hl,heval,rfl⟩,hout⟩
      exact ⟨hl,hr,fun l hl r hr hm => hcomm l hl r hr ▸ heval l hl r hr (matched_comm.trans hm),hout⟩
    · rintro ⟨hl,hr,heval,hout⟩
      refine ⟨_,⟨hr,hl,fun l hl r hr hm => ?_,rfl⟩,hout⟩
      rw [hcomm l hl r hr]
      exact heval l hl r hr (matched_comm.trans hm)

theorem crossProduct_eq (lrows rrows : List Row) :
    crossProduct lrows rrows=(lrows ×ˢ rrows).map fun a => a.1.extend a.2 := by
  simp [crossProduct,SProd.sprod,product,map_flatMap,Function.comp_def]

theorem Joinable.decides_iff {left right : List String} {l r : Row} (h : Joinable left right l r)
    (predicate : Expression) : let split := joinTerms left right (splitAndTerms predicate)
    ((matched L params (split.1.map fst) (split.1.map snd) l r &&
        (andChain split.2).all fun e => keeps L params e (l.extend r))=keeps L params predicate (l.extend r)) ↔
      ((∀ t ∈ split.2, Holds L params t (l.extend r).get) →
        KeysBy L params isEqual split.1 l r ∨ KeysBy L params sameKey split.1 l r →
          KeysBy L params (fun v w => !clashes v w) split.1 l r) := by
  intro split
  have hfilter : keeps L params predicate (l.extend r)=true ↔
      KeysBy L params isEqual split.1 l r ∧ ∀ t ∈ split.2, Holds L params t (l.extend r).get := by
    rw [keeps_iff,holds_split,holds_joinTerms left right,h.holds_keys joinTerms_sides]
  rw [Bool.eq_iff_iff,Bool.and_eq_true,matched_iff,all_keeps_andChain,hfilter,and_congr_left_iff,
    ← keysBy_iff]
  exact imp_congr_right fun _ => iff_comm

theorem convertCrossToHash_filter {smaller : LogicalPlan → LogicalPlan → Bool} {left right build probe : LogicalPlan}
    {predicate : Expression} {on : List JoinKey}
    (h : convertCrossToHash smaller (.filter (.crossProduct left right) predicate) =
      .hashJoin build probe on residual) : let left' := convertCrossToHash smaller left
    let right' := convertCrossToHash smaller right
    let split := joinTerms (producedAliases left') (producedAliases right') (splitAndTerms predicate)
    residual=andChain split.2 ∧ ∃ pick : Bool, build=(if pick then left' else right') ∧
      probe=(if pick then right' else left') ∧
      on=split.1.map fun key => if pick then ⟨key.1,key.2⟩ else ⟨key.2,key.1⟩ := by
  simp only [convertCrossToHash,tryConvertAtRoot] at h
  split_ifs at h with hkeys hpick
  · cases h
    exact ⟨rfl,true,rfl,rfl,rfl⟩
  · cases h
    exact ⟨rfl,false,rfl,rfl,rfl⟩

/-- The join returns the rows that the filter returns, however the values of its keys are mixed, exactly when
nothing clashes in the rows of the two sides. -/
theorem hashJoin_perm_iff (smaller : LogicalPlan → LogicalPlan → Bool) (left right build probe : LogicalPlan)
    (predicate : Expression) (on : List JoinKey) (residual : Option Expression)
    (hconvert : convertCrossToHash smaller (.filter (.crossProduct left right) predicate) =
      .hashJoin build probe on residual)
    (rows : LogicalPlan → List Row) (out : List Row)
    (hrows : ∀ l ∈ rows (convertCrossToHash smaller left), ∀ r ∈ rows (convertCrossToHash smaller right),
      Joinable (producedAliases (convertCrossToHash smaller left))
        (producedAliases (convertCrossToHash smaller right)) l r)
    (hfilter : filterRows L params predicate (crossProduct (rows (convertCrossToHash smaller left))
      (rows (convertCrossToHash smaller right))) = .ok out) :
    let split := joinTerms (producedAliases (convertCrossToHash smaller left))
      (producedAliases (convertCrossToHash smaller right)) (splitAndTerms predicate)
    (∃ out', hashJoin L params on residual (rows build) (rows probe) = .ok out' ∧ out'.Perm out) ↔
      NoClash L params split.1 split.2 (rows (convertCrossToHash smaller left))
        (rows (convertCrossToHash smaller right)) := by
  intro split
  obtain ⟨rfl,pick,rfl,rfl,rfl⟩ := convertCrossToHash_filter hconvert
  obtain ⟨heval,rfl⟩ := filterRows_eq_ok.mp hfilter
  generalize hlrows : rows (convertCrossToHash smaller left)=lrows at *
  generalize hrrows : rows (convertCrossToHash smaller right)=rrows at *
  have hbuild : rows (if pick then convertCrossToHash smaller left else convertCrossToHash smaller right) =
      if pick then lrows else rrows := by
    rw [apply_ite rows,hlrows,hrrows]
  have hprobe : rows (if pick then convertCrossToHash smaller right else convertCrossToHash smaller left) =
      if pick then rrows else lrows := by
    rw [apply_ite rows,hlrows,hrrows]
  have hresidual : ∀ l ∈ lrows, ∀ r ∈ rrows, ∀ e ∈ andChain split.2, Evaluates L params e (l.extend r).get := by
    intro l hl r hr e he
    have hpair : l.extend r∈crossProduct lrows rrows :=
      mem_flatMap.mpr ⟨l,hl,mem_map_of_mem hr⟩
    exact (evaluates_andChain he).mpr fun t ht => evaluates_split.mp (heval _ hpair) t (joinTerms_residual ht)
  rw [hbuild,hprobe,hashJoin_sides pick fun l hl r hr => (hrows l hl r hr).extend_comm,crossProduct_eq,filter_map]
  have hpicks := picks_perm_iff (s := lrows ×ˢ rrows) (c := fun a : Row × Row => a.1.extend a.2)
    (f := keeps L params predicate) (g := fun a =>
      matched L params (split.1.map fst) (split.1.map snd) a.1 a.2 &&
        (andChain split.2).all fun e => keeps L params e (a.1.extend a.2))
  have hdecide : (∀ a ∈ lrows ×ˢ rrows,(matched L params (split.1.map fst) (split.1.map snd) a.1 a.2 &&
        (andChain split.2).all fun e => keeps L params e (a.1.extend a.2)) =
          keeps L params predicate (a.1.extend a.2)) ↔ _ :=
    forall₂_congr fun a ha => (hrows a.1 (mem_product.mp ha).1 a.2 (mem_product.mp ha).2).decides_iff predicate
  constructor
  · rintro ⟨hl,hr,-,hperm⟩
    exact ⟨hl,hr,fun l hl r hr => hdecide.mp (hpicks.mp hperm) (l,r) (mem_product.mpr ⟨hl,hr⟩)⟩
  · rintro ⟨hl,hr,hpairs⟩
    refine ⟨hl,hr,fun l hl r hr _ => hresidual l hl r hr,hpicks.mpr (hdecide.mpr fun a ha => ?_)⟩
    exact hpairs a.1 (mem_product.mp ha).1 a.2 (mem_product.mp ha).2

/-- `MATCH (a), (b) WHERE a.n = b.n`. -/
def scanOf (name : String) : LogicalPlan := .nodeScan none name [] none

def sameN : Expression := .binary .eq (.property (.var "a") "n") (.property (.var "b") "n")

def nodeRow (name : String) (n : Value) : Row :=
  Row.new.set name (.node ⟨0,[],(∅ : Properties).insert "n" n⟩)

theorem joinable_nodeRow (h : x≠y) (m n : Value) : Joinable [x] [y] (nodeRow x m) (nodeRow y n) := by
  constructor
  · intro z v w hv hw
    by_cases hz : z=x
    · simp [nodeRow,hz,h] at hw
    · simp [nodeRow,hz] at hv
  · simp [nodeRow]
  · simp [nodeRow]

def leftValues : List Value := [.i64 1,.i64 2,.str "x"]

def rightValues : List Value := [.i64 2,.str "x"]

theorem hashJoin_perm_mixed : ∃ out', hashJoin Scalars.bare (fun _ => none)
    [⟨.property (.var "a") "n", .property (.var "b") "n"⟩] none (leftValues.map (nodeRow "a"))
      (rightValues.map (nodeRow "b")) = .ok out' ∧
    out'.Perm [(nodeRow "a" (.i64 2)).extend (nodeRow "b" (.i64 2)),
      (nodeRow "a" (.str "x")).extend (nodeRow "b" (.str "x"))] := by
  have hclash : ∀ m ∈ leftValues, ∀ n ∈ rightValues, isNullValue (.ofCore m)=false ∧
      isNullValue (.ofCore n)=false ∧ (!clashes (.ofCore m) (.ofCore n))=true := by decide
  refine (hashJoin_perm_iff (fun _ _ => true) (scanOf "a") (scanOf "b") (scanOf "a") (scanOf "b") sameN
    [⟨.property (.var "a") "n",.property (.var "b") "n"⟩] none rfl (fun plan => match plan with
      | .nodeScan _ "a" _ _ => leftValues.map (nodeRow "a")
      | _ => rightValues.map (nodeRow "b")) _ ?_ rfl).mpr ⟨?_,?_,?_⟩
  · intro l hl r hr
    obtain ⟨m,-,rfl⟩ := mem_map.mp hl
    obtain ⟨n,-,rfl⟩ := mem_map.mp hr
    exact joinable_nodeRow (by decide) m n
  · exact forall_mem_cons.mpr ⟨⟨_,rfl⟩,forall_mem_cons.mpr ⟨⟨_,rfl⟩,forall_mem_singleton.mpr ⟨_,rfl⟩⟩⟩
  · exact forall_mem_cons.mpr ⟨⟨_,rfl⟩,forall_mem_singleton.mpr ⟨_,rfl⟩⟩
  · intro l hl r hr _ _
    obtain ⟨m,hm,rfl⟩ := mem_map.mp hl
    obtain ⟨n,hn,rfl⟩ := mem_map.mp hr
    rintro key (_ | ⟨_,⟨⟩⟩)
    exact ⟨.ofCore m,.ofCore n,rfl,rfl,hclash m hm n hn⟩

/-- The number 1 as an integer and as a float is the same for the filter and not for the join; for the
vector [1.0] it is the other way round. -/
theorem hashJoin_misses_float :
    convertCrossToHash (fun _ _ => true) (.filter (.crossProduct (scanOf "a") (scanOf "b")) sameN) =
      .hashJoin (scanOf "a") (scanOf "b") [⟨.property (.var "a") "n", .property (.var "b") "n"⟩] none ∧
    filterRows Scalars.bare (fun _ => none) sameN
      (crossProduct [nodeRow "a" (.i64 1)] [nodeRow "b" (.f64 0x3ff0000000000000)]) =
        .ok [(nodeRow "a" (.i64 1)).extend (nodeRow "b" (.f64 0x3ff0000000000000))] ∧
    hashJoin Scalars.bare (fun _ => none) [⟨.property (.var "a") "n", .property (.var "b") "n"⟩] none
      [nodeRow "a" (.i64 1)] [nodeRow "b" (.f64 0x3ff0000000000000)] = .ok [] ∧
    filterRows Scalars.bare (fun _ => none) sameN
      (crossProduct [nodeRow "a" (.vec [0x3f800000])] [nodeRow "b" (.vec [0x3f800000])]) = .ok [] ∧
    hashJoin Scalars.bare (fun _ => none) [⟨.property (.var "a") "n", .property (.var "b") "n"⟩] none
      [nodeRow "a" (.vec [0x3f800000])] [nodeRow "b" (.vec [0x3f800000])] =
        .ok [(nodeRow "a" (.vec [0x3f800000])).extend (nodeRow "b" (.vec [0x3f800000]))] :=
  ⟨rfl,rfl,rfl,rfl,rfl⟩

end
end NamiDB.Cypher
