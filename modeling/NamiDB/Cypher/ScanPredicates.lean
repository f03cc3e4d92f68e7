import NamiDB.Cypher.EqualityKeys
import NamiDB.Cypher.Pagination

/-! The conjuncts that move into a scan: what the storage layer makes of a stored value and of the statistics of a
row group, beside what the filter makes of the conjunct. -/
namespace NamiDB.Cypher
open Query Storage List

/-- A scalar of the statistics: one that a literal can be too, or of a type that literals do not have. A `Float32`
is widened. -/
inductive ColumnScalar where
  | literal (s : StatScalar)
  | int32 (n : Int)
  | float32 (bits : BitVec 64)
  | largeUtf8 (s : String)
  | binary (b : Bytes)
  | date32 (d : Int)
  | timestampMicrosUtc (t : Int)

def scalarCmp : ColumnScalar → ColumnScalar → Option Ordering
  | .literal (.bool x), .literal (.bool y) => some (compare x y)
  | .literal (.int64 x), .literal (.int64 y) | .int32 x, .int32 y | .date32 x, .date32 y
  | .timestampMicrosUtc x, .timestampMicrosUtc y => some (compare x y)
  | .literal (.float64 x), .literal (.float64 y) | .float32 x, .float32 y => some (floatCmp x y)
  | .literal (.int64 x), .literal (.float64 y) | .literal (.int64 x), .float32 y | .int32 x, .literal (.float64 y)
  | .int32 x, .float32 y => some (floatCmp (i64AsF64 x) y)
  | .literal (.float64 x), .literal (.int64 y) | .float32 x, .literal (.int64 y) | .literal (.float64 x), .int32 y
  | .float32 x, .int32 y => some (floatCmp x (i64AsF64 y))
  | .literal (.utf8 x), .literal (.utf8 y) | .largeUtf8 x, .largeUtf8 y => some (compare x y)
  | .binary x, .binary y => some (compare (x.map UInt8.toNat) (y.map UInt8.toNat))
  | _, _ => none

structure PropertyColumnStats where
  name : String
  nullCount : Nat
  min : Option ColumnScalar
  max : Option ColumnScalar

inductive RowGroupVerdict where
  | absent
  | maybePresent
  deriving DecidableEq

/-- A bound that fails `keep` against the literal proves that nothing matches. -/
def judge (bound : Option ColumnScalar) (value : StatScalar) (keep : Ordering → Bool) : RowGroupVerdict :=
  match bound with
  | some b => match scalarCmp b (.literal value) with
    | some o => if keep o then .maybePresent else .absent
    | none => .maybePresent
  | none => .maybePresent

/-- The loop over the members of a list after the first one. -/
def inValueRange (min max : StatScalar) : List StatScalar → Option (StatScalar × StatScalar)
  | [] => some (min,max)
  | v::rest => do
    let low ← scalarCmp (.literal v) (.literal min)
    let high ← scalarCmp (.literal v) (.literal max)
    inValueRange (if low = .lt then v else min) (if high = .gt then v else max) rest

def evalRowGroup (predicate : ScanPredicate) (stats : PropertyColumnStats) : RowGroupVerdict :=
  if predicate.column≠stats.name then .maybePresent
  else match predicate with
    | .eq _ value => match stats.min, stats.max with
      | some lo, some hi => match scalarCmp lo (.literal value), scalarCmp (.literal value) hi with
        | some o, some o' => if o≠.gt ∧ o'≠.gt then .maybePresent else .absent
        | _, _ => .maybePresent
      | _, _ => .maybePresent
    | .lt _ value => judge stats.min value (· == .lt)
    | .ltEq _ value => judge stats.min value (· != .gt)
    | .gt _ value => judge stats.max value (· == .gt)
    | .gtEq _ value => judge stats.max value (· != .lt)
    | .isNull _ => if 0<stats.nullCount ∨ stats.min.isNone ∧ stats.max.isNone then .maybePresent else .absent
    | .isNotNull _ => .maybePresent
    | .isIn _ [] => .absent
    | .isIn _ (first::rest) => match inValueRange first first rest with
      | some (lo,hi) =>
        if judge stats.max lo (· != .lt) = .absent then .absent else judge stats.min hi (· != .gt)
      | none => .maybePresent

def StatScalar.toRuntime : StatScalar → RuntimeValue
  | .bool b => .bool b
  | .int64 n => .integer n
  | .float64 bits => .float bits
  | .utf8 s => .string s

/-- A number and a literal that have no order, and that the storage layer takes for equal. -/
def nanPair : Value → StatScalar → Bool
  | .f64 a, .float64 b => isNan 52 a||isNan 52 b
  | .i64 n, .float64 b => isNan 52 (i64AsF64 n)||isNan 52 b
  | .f64 a, .int64 n => isNan 52 a||isNan 52 (i64AsF64 n)
  | _, _ => false

/-- The value is accepted because of a NaN. -/
def ScanPredicate.acceptsNan (v : Value) : ScanPredicate → Bool
  | .eq _ s | .ltEq _ s | .gtEq _ s => nanPair v s
  | .isIn _ values => values.any (nanPair v)
  | _ => false

/-- A predicate over any comparison with the literals. -/
def ScanPredicate.holds (cmp : StatScalar → Option Ordering) (null : Bool) : ScanPredicate → Bool
  | .eq _ s => cmp s=some .eq
  | .lt _ s => cmp s=some .lt
  | .ltEq _ s => cmp s=some .lt ∨ cmp s=some .eq
  | .gt _ s => cmp s=some .gt
  | .gtEq _ s => cmp s=some .gt ∨ cmp s=some .eq
  | .isNull _ => null
  | .isNotNull _ => !null
  | .isIn _ values => values.any fun s => cmp s=some .eq

def ScanPredicate.accepts (v : RuntimeValue) (p : ScanPredicate) : Bool :=
  p.holds (fun s => compareValues v s.toRuntime) (isNullValue v)

open ScanPredicate (accepts holds acceptsNan)

theorem evalAgainstValue_some (p : ScanPredicate) (v : Value) :
    evalAgainstValue p (some v)=p.holds (valueCmp v) (isNullValue (.ofCore v)) := by
  cases p <;> cases v <;> simp [evalAgainstValue,holds,RuntimeValue.ofCore,isNullValue,valueCmp]

theorem valueCmp_spec (v : Value) (s : StatScalar) :
    nanPair v s=true ∧ valueCmp v s=some .eq ∧ compareValues (.ofCore v) s.toRuntime=none ∨
      nanPair v s=false ∧ valueCmp v s=compareValues (.ofCore v) s.toRuntime := by
  cases v <;> cases s <;> simp [valueCmp,nanPair,RuntimeValue.ofCore,StatScalar.toRuntime,compareValues,floatCmp,
    floatPartialCmp]
  all_goals grind

theorem floatKey_eq_iff (a b : BitVec 64) : floatKey a=floatKey b ↔ a=b ∨ isZero a=true ∧ isZero b=true := by
  rw [← BitVec.toNat_inj]
  simp only [floatKey,isZero,decide_eq_true_eq]
  split_ifs <;> omega

theorem floatEq_iff (a b : BitVec 64) : floatEq 52 a b=true ↔ floatPartialCmp a b=some .eq := by
  unfold floatEq floatPartialCmp
  cases isNan 52 a <;> cases isNan 52 b <;> simp [floatKey_eq_iff]

theorem floatPartialCmp_eq_comm (a b : BitVec 64) : floatPartialCmp a b=some .eq ↔ floatPartialCmp b a=some .eq := by
  rw [floatPartialCmp_swap a b]
  simp

theorem isEqual_iff (v : RuntimeValue) (s : StatScalar) :
    (isEqual v s.toRuntime=true ↔ compareValues v s.toRuntime=some .eq) ∧
      (isEqual s.toRuntime v=true ↔ compareValues v s.toRuntime=some .eq) := by
  cases v <;> cases s <;> simp [isEqual,StatScalar.toRuntime,compareValues,floatEq_iff,floatPartialCmp_eq_comm]
  all_goals exact eq_comm

section
variable {L : Scalars} {params : Params} {name column : String} {row : String → Option RuntimeValue}
  {n : NodeValue} {p : ScanPredicate} {s : StatScalar} {v : RuntimeValue} {values : List StatScalar}
  {op : BinaryOp}

/-- The library of the filter. No predicate is made of a number without an opposite. -/
def Scalars.filtering (L : Scalars) : Scalars where
  __ := L.comparing
  negate
    | .integer n => .integer (-n)
    | .float bits => .float (bits^^^(1#64 <<< 63))
    | _ => .null

theorem evaluate_column (hrow : row name=some (.node n)) (h : propertyColumnForAlias name e=some column) :
    evaluate L.filtering params e row = .ok (L.propertyAccess (.node n) column) := by
  unfold propertyColumnForAlias at h
  split at h
  · split_ifs at h with hx
    cases h
    simp only [evaluate,hx,hrow]
    rfl
  · cases h

theorem evaluate_bound (h : scalarBoundOf e=some s) : evaluate L.filtering params e row = .ok s.toRuntime := by
  unfold scalarBoundOf at h
  split at h
  · split_ifs at h
    cases h
    rfl
  · cases h
    rfl
  · rename_i l
    cases l <;> cases h <;> rfl
  · cases h

@[simp] theorem isNullValue_toRuntime (s : StatScalar) : isNullValue s.toRuntime=false := by cases s <;> rfl

theorem compareValues_null (h : isNullValue v=true) (w : RuntimeValue) : compareValues v w=none := by
  cases v <;> first | rfl | cases h

theorem evalBinary_order (h : orderTest op=some test) (a b : RuntimeValue) :
    L.filtering.evalBinary op a b=if isNullValue a||isNullValue b then .ok .null else .ok (orderCmp a b test) := by
  cases op <;> cases h <;> rfl

theorem evalBinary_iff (h : predicateForBinary op column s right=some p) :
    p.column=column ∧ (L.filtering.evalBinary op (if right then v else s.toRuntime) (if right then s.toRuntime else v) =
      .ok (.bool true) ↔ p.accepts v=true) := by
  have hswap := compareValues_swap v s.toRuntime
  obtain ⟨heq,heq'⟩ := isEqual_iff v s
  unfold accepts
  cases op <;> cases right <;> cases h <;> refine ⟨rfl,?_⟩ <;> cases hn : isNullValue v
  case eq.true.refl.false | eq.false.refl.false | eq.true.refl.true | eq.false.refl.true =>
    change (if _ then _ else _) = _ ↔ _
    simp [hn,holds,heq,heq',compareValues_null]
  all_goals
    rw [evalBinary_order rfl]
    simp [hn,orderCmp,holds,hswap,compareValues_null]
  all_goals cases compareValues v s.toRuntime with
    | none => simp
    | some o => cases o <;> simp

theorem evaluate_literals (h : literalList (.list items)=some values) :
    evaluateAll L.filtering params items row = .ok (values.map StatScalar.toRuntime) := by
  induction items generalizing values with
  | nil => cases h; rfl
  | cons item items ih =>
    simp only [literalList,mapM_cons,Option.bind_eq_bind,Option.bind_eq_some_iff] at h
    obtain ⟨s,hs,rest,hrest,⟨⟩⟩ := h
    have hitem : evaluate L.filtering params item row = .ok s.toRuntime := by
      split at hs
      · exact evaluate_bound hs
      · cases hs
    simp only [evaluateAll,hitem,ih hrest]
    rfl

theorem evalIn_iff : Scalars.evalIn v (.list (values.map StatScalar.toRuntime)) = .bool true ↔
    (ScanPredicate.isIn column values).accepts v=true := by
  unfold Scalars.evalIn
  cases hn : isNullValue v
  · simp [accepts,holds,(isEqual_iff v _).1]
  · simp [accepts,holds,compareValues_null hn]

theorem evaluate_iff (hrow : row name=some (.node n)) (h : tryIntoScanPredicate name e=some p) :
    evaluate L.filtering params e row = .ok (.bool true) ↔ p.accepts (L.propertyAccess (.node n) p.column)=true := by
  unfold tryIntoScanPredicate at h
  split at h
  · unfold tryBinaryToPredicate at h
    split at h <;> [skip; split at h]
    case h_2 => cases h
    all_goals
      rename_i column s hcolumn hs
      obtain ⟨rfl,hiff⟩ := evalBinary_iff (L := L) (v := L.propertyAccess (.node n) column) h
      simp only [evaluate,evaluate_column hrow hcolumn,evaluate_bound hs]
      exact hiff
  · obtain ⟨column,hcolumn,rfl⟩ := Option.map_eq_some_iff.mp h
    simp only [evaluate,evaluate_column hrow hcolumn]
    split <;> simp_all [accepts,holds,ScanPredicate.column,bind,Except.bind,pure,Except.pure]
  · rename_i list
    obtain ⟨column,hcolumn,h⟩ := Option.bind_eq_some_iff.mp h
    obtain ⟨values,hvalues,⟨⟩⟩ := Option.bind_eq_some_iff.mp h
    cases list with
    | list items =>
      simp only [evaluate,evaluate_column hrow hcolumn,evaluate_literals hvalues]
      exact (Except.ok.injEq _ _).to_iff.trans evalIn_iff
    | _ => cases hvalues
  · cases h

end

section

def ColumnScalar.value : ColumnScalar → Value
  | .literal (.bool b) => .bool b
  | .literal (.int64 n) | .int32 n => .i64 n
  | .literal (.float64 bits) | .float32 bits => .f64 bits
  | .literal (.utf8 s) | .largeUtf8 s => .str s
  | .binary b => .bytes b
  | .date32 d => .date d
  | .timestampMicrosUtc t => .dateTime t

def isNanValue : Value → Bool
  | .f64 f => isNan 52 f
  | _ => false

/-- The order of the values of a column, in which a NaN has no place. What no literal is compared with is left open. -/
def NotAbove : Value → Value → Prop
  | .bool a, .bool b => a≤b
  | .i64 a, .i64 b => IsI64 a ∧ IsI64 b ∧ a≤b
  | .f64 a, .f64 b => isNan 52 a=true ∨ isNan 52 b=true ∨ floatKey a≤floatKey b
  | .i64 _, .f64 _ | .f64 _, .i64 _ => False
  | .str a, .str b => a≤b
  | _, _ => True

/-- The statistics of a chunk whose rows hold `group` in the column. -/
structure Describes (stats : PropertyColumnStats) (group : List (Option Value)) : Prop where
  number : ∀ b, b∈stats.min ∨ b∈stats.max → isNanValue b.value=false
  lower : ∀ b ∈ stats.min, ∀ v, some v∈group → NotAbove b.value v
  upper : ∀ b ∈ stats.max, ∀ v, some v∈group → NotAbove v b.value
  nulls : stats.min.isSome ∨ stats.max.isSome → stats.nullCount=0 → none∉group ∧ some .null∉group
  words : ∀ n, some (.i64 n)∈group → IsI64 n

/-- The integers of a list are words, and if it has floats too the floats of these integers are exact. -/
def ScanPredicate.Exact : ScanPredicate → Prop
  | .isIn _ values => (∀ n, .int64 n∈values → IsI64 n) ∧
    ((∀ n, .int64 n∈values → n.natAbs<2^53) ∨ ∀ bits, .float64 bits∉values)
  | _ => True

variable {b : ColumnScalar} {s : StatScalar} {o o' : Ordering} {a v : Value} {keep : Ordering → Bool}
  {stats : PropertyColumnStats} {group : List (Option Value)} {p : ScanPredicate}

theorem floatCmp_swap (x y : BitVec 64) : floatCmp y x=(floatCmp x y).swap := by
  unfold floatCmp
  rw [Bool.or_comm]
  split_ifs
  · rfl
  · exact Std.OrientedCmp.eq_swap

theorem scalarCmp_swap (h : scalarCmp (.literal s) b=some o) : scalarCmp b (.literal s)=some o.swap := by
  cases b with
  | literal t =>
    cases t <;> cases s <;> cases h
    all_goals first | exact congrArg some (floatCmp_swap _ _) | exact congrArg some Std.OrientedCmp.eq_swap
  | _ => cases s <;> cases h <;> exact congrArg some (floatCmp_swap _ _)

theorem valueCmp_of_scalarCmp (h : scalarCmp b (.literal s)=some o) : valueCmp b.value s=some o := by
  cases b with
  | literal t => cases t <;> cases s <;> cases h <;> rfl
  | _ => cases s <;> cases h <;> rfl

theorem compare_mono [LinearOrder α] (h : x≤y) (z : α) :
    compare x z = .lt ∨ compare y z = .gt ∨ compare x z=compare y z := by
  obtain hx | hx := lt_or_ge x z
  · exact .inl (compare_lt_iff_lt.mpr hx)
  obtain hy | hy := lt_or_ge z y
  · exact .inr (.inl (compare_gt_iff_gt.mpr hy))
  · exact .inr (.inr (by rw [le_antisymm h (hy.trans hx)]))

theorem floatCmp_mono (h : floatKey x≤floatKey y) (hx : (isNan 52 x||isNan 52 z)=false)
    (hy : (isNan 52 y||isNan 52 z)=false) : floatCmp x z = .lt ∨ floatCmp y z = .gt ∨ floatCmp x z=floatCmp y z := by
  rw [floatCmp,floatCmp,hx,hy]
  exact compare_mono h _

theorem NotAbove.cmp (h : NotAbove a v) (ha : valueCmp a s=some o) (hv : valueCmp v s=some o') (hna : nanPair a s=false)
    (hnv : nanPair v s=false) : o = .lt ∨ o' = .gt ∨ o=o' := by
  cases s <;> cases a <;> cases ha <;> cases v <;> cases hv
  case bool.bool.refl.bool.refl | utf8.str.refl.str.refl => exact compare_mono h _
  case int64.i64.refl.i64.refl => exact compare_mono h.2.2 _
  case int64.i64.refl.f64.refl | int64.f64.refl.i64.refl | float64.i64.refl.f64.refl | float64.f64.refl.i64.refl =>
    cases h
  case float64.i64.refl.i64.refl => exact floatCmp_mono (floatKey_mono h.1 h.2.1 h.2.2) hna hnv
  all_goals exact floatCmp_mono (by simp_all [nanPair,NotAbove]) hna hnv

theorem nanPair_of_bound (h : NotAbove a v ∨ NotAbove v a) (ha : isNanValue a=false) (hn : nanPair a s=true)
    (hv : valueCmp v s=some o) : nanPair v s=true := by
  cases s <;> cases a <;> simp [isNanValue] at hn ha
  all_goals cases v <;> cases hv <;> simp_all [nanPair,NotAbove]
  grind [not_isNan_i64AsF64]

theorem cmp_bounds (hd : Describes stats group) (hmem : some v∈group) (hn : nanPair v s=false)
    (hv : valueCmp v s=some o') : ∀ b o, scalarCmp b (.literal s)=some o →
      (b∈stats.min → o = .lt ∨ o' = .gt ∨ o=o') ∧ (b∈stats.max → o' = .lt ∨ o = .gt ∨ o'=o) := by
  intro b o ho
  have hcmp := valueCmp_of_scalarCmp ho
  have hnan : ∀ a, NotAbove a v ∨ NotAbove v a → isNanValue a=false → nanPair a s=false := fun a h ha => by
    by_contra hna
    simp [nanPair_of_bound h ha (by simpa using hna) hv] at hn
  constructor <;> intro hb
  · have h := hd.lower b hb v hmem
    exact h.cmp hcmp hv (hnan _ (.inl h) (hd.number b (.inl hb))) hn
  · have h := hd.upper b hb v hmem
    exact h.cmp hv hcmp hn (hnan _ (.inr h) (hd.number b (.inr hb)))

theorem judge_absent (h : judge bound s keep = .absent) :
    ∃ b ∈ bound, ∃ o, scalarCmp b (.literal s)=some o ∧ keep o=false := by
  unfold judge at h
  grind

theorem inValueRange_mem {min max lo hi : StatScalar} (h : inValueRange min max rest=some (lo,hi)) :
    lo∈min::rest ∧ hi∈max::rest := by
  induction rest generalizing min max with
  | nil => cases h; simp
  | cons v rest ih =>
    obtain ⟨_,-,h⟩ := Option.bind_eq_some_iff.mp h
    obtain ⟨_,-,h⟩ := Option.bind_eq_some_iff.mp h
    grind

/-- Where the members compare as their ranks do, the ends are around all of them. -/
theorem inValueRange_ends [LinearOrder α] {rank : StatScalar → α} {l : List StatScalar}
    (hcmp : ∀ a ∈ l, ∀ b ∈ l, scalarCmp (.literal a) (.literal b)=some (compare (rank a) (rank b)))
    {min max lo hi : StatScalar} (hmin : min∈l) (hmax : max∈l) (hrest : ∀ s ∈ rest, s∈l)
    (h : inValueRange min max rest=some (lo,hi)) :
    (∀ s ∈ min::rest, rank lo≤rank s) ∧ ∀ s ∈ max::rest, rank s≤rank hi := by
  induction rest generalizing min max with
  | nil =>
    cases h
    simp
  | cons v rest ih =>
    obtain ⟨hv,hrest⟩ := forall_mem_cons.mp hrest
    rw [inValueRange,hcmp v hv min hmin,hcmp v hv max hmax] at h
    have hlow : (if compare (rank v) (rank min) = .lt then v else min)∈l := by split_ifs <;> assumption
    have hhigh : (if compare (rank v) (rank max) = .gt then v else max)∈l := by split_ifs <;> assumption
    obtain ⟨hlo,hhi⟩ := ih hlow hhigh hrest h
    rw [forall_mem_cons] at hlo hhi
    simp only [forall_mem_cons]
    refine ⟨⟨?_,?_,hlo.2⟩,?_,?_,hhi.2⟩
    · refine hlo.1.trans ?_
      split_ifs with hlt
      · exact (compare_lt_iff_lt.mp hlt).le
      · exact le_rfl
    · refine hlo.1.trans ?_
      split_ifs with hlt
      · exact le_rfl
      · exact not_lt.mp (mt compare_lt_iff_lt.mpr hlt)
    · refine le_trans ?_ hhi.1
      split_ifs with hgt
      · exact (compare_gt_iff_gt.mp hgt).le
      · exact le_rfl
    · refine le_trans ?_ hhi.1
      split_ifs with hgt
      · exact le_rfl
      · exact not_lt.mp (mt compare_gt_iff_gt.mpr hgt)

/-- The value compares with the members as `place` does with their `key`, which keeps the order of their ranks. -/
theorem between_ends [LinearOrder α] [LinearOrder β] (rank : StatScalar → α) (key : StatScalar → β) (place : β)
    {first lo hi : StatScalar} (hrange : inValueRange first first rest=some (lo,hi))
    (hcmp : ∀ a ∈ first::rest, ∀ b ∈ first::rest,
      scalarCmp (.literal a) (.literal b)=some (compare (rank a) (rank b)))
    (hkey : ∀ a ∈ first::rest, ∀ b ∈ first::rest, rank a≤rank b → key a≤key b)
    (hv : ∀ s ∈ first::rest, valueCmp v s=some (compare place (key s)))
    (hmem : s∈first::rest) (heq : valueCmp v s=some .eq) :
    (valueCmp v lo=some .gt ∨ valueCmp v lo=some .eq) ∧ (valueCmp v hi=some .lt ∨ valueCmp v hi=some .eq) := by
  obtain ⟨hlo,hhi⟩ := inValueRange_mem hrange
  obtain ⟨hlow,hhigh⟩ := inValueRange_ends hcmp (.head _) (.head _) (fun s h => .tail _ h) hrange
  rw [hv s hmem,Option.some.injEq,compare_eq_iff_eq] at heq
  have hle := hkey lo hlo s hmem (hlow s hmem)
  have hge := hkey s hmem hi hhi (hhigh s hmem)
  rw [← heq] at hle hge
  rw [hv lo hlo,hv hi hhi]
  simp only [Option.some.injEq,compare_gt_iff_gt,compare_lt_iff_lt,compare_eq_iff_eq]
  exact ⟨hle.lt_or_eq.imp_right .symm,hge.lt_or_eq⟩

inductive ScalarKind where
  | truth | number | text
  deriving DecidableEq

def StatScalar.kind : StatScalar → ScalarKind
  | .bool _ => .truth
  | .int64 _ | .float64 _ => .number
  | .utf8 _ => .text

def StatScalar.truth : StatScalar → Bool
  | .bool b => b
  | _ => false

def StatScalar.text : StatScalar → String
  | .utf8 t => t
  | _ => ""

def StatScalar.word : StatScalar → Int
  | .int64 n => n
  | _ => 0

def StatScalar.floatBits : StatScalar → BitVec 64
  | .int64 n => i64AsF64 n
  | .float64 bits => bits
  | _ => 0

theorem kind_inValueRange {min max : StatScalar} (h : inValueRange min max rest=some ends) :
    ∀ s ∈ rest, s.kind=min.kind := by
  induction rest generalizing min max with
  | nil => simp
  | cons v rest ih =>
    obtain ⟨low,hlow,h⟩ := Option.bind_eq_some_iff.mp h
    obtain ⟨high,-,h⟩ := Option.bind_eq_some_iff.mp h
    have hv : v.kind=min.kind := by cases v <;> cases min <;> first | rfl | cases hlow
    refine forall_mem_cons.mpr ⟨hv,fun s hs => ?_⟩
    have hkind := ih h s hs
    split_ifs at hkind
    · exact hkind.trans hv
    · exact hkind

theorem floatCmp_eq (hx : isNan 52 x=false) (hy : isNan 52 y=false) :
    floatCmp x y=compare (floatKey x) (floatKey y) := by
  simp [floatCmp,hx,hy]

/-- A number beside numbers, of which the integers are exact as floats. -/
theorem cmp_exact {l : List StatScalar} (hwords : ∀ n, .int64 n∈l → IsI64 n) (hsmall : ∀ n, .int64 n∈l → n.natAbs<2^53)
    (hv : ∀ n, v = .i64 n → IsI64 n) (hnumber : ∀ s ∈ l, s.kind = .number) (hn : ∀ s ∈ l, nanPair v s=false)
    (hplace : v = .i64 n ∧ place=i64AsF64 n ∨ v = .f64 place) :
    (∀ a ∈ l, ∀ b ∈ l, scalarCmp (.literal a) (.literal b) =
      some (compare (floatKey a.floatBits) (floatKey b.floatBits))) ∧
      ∀ s ∈ l, valueCmp v s=some (compare (floatKey place) (floatKey s.floatBits)) := by
  have hnan : ∀ s ∈ l, isNan 52 s.floatBits=false := by
    intro s hs
    have hpair := hn s hs
    cases s with
    | int64 n => exact not_isNan_i64AsF64 (hwords n hs)
    | float64 bits => rcases hplace with ⟨rfl,rfl⟩ | rfl <;> simp_all [nanPair,StatScalar.floatBits]
    | _ => cases hnumber _ hs
  constructor
  · intro a ha b hb
    have hcmp := floatCmp_eq (hnan a ha) (hnan b hb)
    cases a <;> cases b
    case int64.int64 m n => exact congrArg some (compare_floatKey (hwords m ha) (hwords n hb) (hsmall n hb)).symm
    case int64.float64 | float64.int64 | float64.float64 => exact congrArg some hcmp
    all_goals first | (cases hnumber _ ha; done) | cases hnumber _ hb
  · intro s hs
    have hpair := hn s hs
    rcases hplace with ⟨rfl,rfl⟩ | rfl
    · have hcmp := floatCmp_eq (not_isNan_i64AsF64 (hv n rfl)) (hnan s hs)
      cases s with
      | int64 m => exact congrArg some (compare_floatKey (hv n rfl) (hwords m hs) (hsmall m hs)).symm
      | float64 bits => exact congrArg some hcmp
      | _ => cases hnumber _ hs
    · have hplace : isNan 52 place=false := by
        cases s with
        | int64 m | float64 bits => exact (Bool.or_eq_false_iff.mp hpair).1
        | _ => cases hnumber _ hs
      have hcmp := floatCmp_eq hplace (hnan s hs)
      cases s with
      | int64 m | float64 bits => exact congrArg some hcmp
      | _ => cases hnumber _ hs

/-- A value that is equal to a member of a list lies between the ends of the list. -/
theorem ends_around {first lo hi : StatScalar} (hexact : (ScanPredicate.isIn column (first::rest)).Exact)
    (hv : ∀ n, v = .i64 n → IsI64 n) (hn : ∀ s ∈ first::rest, nanPair v s=false)
    (hrange : inValueRange first first rest=some (lo,hi)) (hmem : s∈first::rest) (heq : valueCmp v s=some .eq) :
    (valueCmp v lo=some .gt ∨ valueCmp v lo=some .eq) ∧ (valueCmp v hi=some .lt ∨ valueCmp v hi=some .eq) := by
  obtain ⟨hwords,hmixed⟩ := hexact
  have hkind : ∀ s' ∈ first::rest, s'.kind=s.kind := by
    have hfirst : ∀ s' ∈ first::rest, s'.kind=first.kind := forall_mem_cons.mpr ⟨rfl,kind_inValueRange hrange⟩
    exact fun s' hs' => (hfirst s' hs').trans (hfirst s hmem).symm
  have hnumber : ∀ place n, v = .i64 n ∧ place=i64AsF64 n ∨ v = .f64 place →
      (valueCmp v lo=some .gt ∨ valueCmp v lo=some .eq) ∧ (valueCmp v hi=some .lt ∨ valueCmp v hi=some .eq) := by
    intro place n hplace
    have hs : s.kind = .number := by
      rcases hplace with ⟨rfl,-⟩ | rfl <;> cases s <;> first | rfl | cases heq
    rw [hs] at hkind
    rcases hmixed with hsmall | hints
    · obtain ⟨hcmp,hvalue⟩ := cmp_exact hwords hsmall hv hkind hn hplace
      exact between_ends _ _ _ hrange hcmp (fun _ _ _ _ h => h) hvalue hmem heq
    -- Without floats the members are compared as integers, whatever the value is.
    have hint : ∀ s ∈ first::rest, ∃ n, s = .int64 n ∧ IsI64 n := by
      intro s hs
      cases s with
      | int64 n => exact ⟨n,rfl,hwords n hs⟩
      | float64 bits => exact absurd hs (hints bits)
      | _ => cases hkind _ hs
    have hcmp : ∀ a ∈ first::rest, ∀ b ∈ first::rest,
        scalarCmp (.literal a) (.literal b)=some (compare a.word b.word) := by
      intro a ha b hb
      obtain ⟨m,rfl,-⟩ := hint a ha
      obtain ⟨n,rfl,-⟩ := hint b hb
      rfl
    rcases hplace with ⟨rfl,-⟩ | rfl
    · refine between_ends _ StatScalar.word n hrange hcmp (fun _ _ _ _ h => h) (fun s hs => ?_) hmem heq
      obtain ⟨m,rfl,-⟩ := hint s hs
      rfl
    · refine between_ends _ (fun s => floatKey s.floatBits) (floatKey place) hrange hcmp ?_ ?_ hmem heq
      · intro a ha b hb hab
        obtain ⟨m,rfl,hm⟩ := hint a ha
        obtain ⟨n,rfl,hn⟩ := hint b hb
        exact floatKey_mono hm hn hab
      · intro s hs
        have hpair := hn s hs
        obtain ⟨m,rfl,hm⟩ := hint s hs
        simp only [nanPair,Bool.or_eq_false_iff] at hpair
        exact congrArg some (floatCmp_eq hpair.1 hpair.2)
  cases v with
  | i64 n => exact hnumber (i64AsF64 n) n (.inl ⟨rfl,rfl⟩)
  | f64 x => exact hnumber x 0 (.inr rfl)
  | bool b =>
    have hs : s.kind = .truth := by cases s <;> first | rfl | cases heq
    rw [hs] at hkind
    refine between_ends StatScalar.truth StatScalar.truth b hrange ?_ (fun _ _ _ _ h => h) ?_ hmem heq
    · intro a ha b hb
      cases a <;> cases b <;> first | rfl | (cases hkind _ ha; done) | cases hkind _ hb
    · intro a ha
      cases a <;> first | rfl | cases hkind _ ha
  | str t =>
    have hs : s.kind = .text := by cases s <;> first | rfl | cases heq
    rw [hs] at hkind
    refine between_ends StatScalar.text StatScalar.text t hrange ?_ (fun _ _ _ _ h => h) ?_ hmem heq
    · intro a ha b hb
      cases a <;> cases b <;> first | rfl | (cases hkind _ ha; done) | cases hkind _ hb
    · intro a ha
      cases a <;> first | rfl | cases hkind _ ha
  | _ => cases s <;> cases heq

theorem no_nulls (hd : Describes stats group)
    (h : (if 0<stats.nullCount ∨ stats.min.isNone ∧ stats.max.isNone then RowGroupVerdict.maybePresent else .absent) =
      .absent) : none∉group ∧ some .null∉group := by
  split_ifs at h with hnulls
  exact hd.nulls (by cases hmin : stats.min <;> cases hmax : stats.max <;> simp_all) (by omega)

theorem rejects_of_absent (hd : Describes stats group) (hexact : p.Exact) (h : evalRowGroup p stats = .absent)
    (hmem : some v∈group) (hn : p.acceptsNan v=false) : evalAgainstValue p (some v)=false := by
  by_contra hv
  rw [Bool.not_eq_false,evalAgainstValue_some] at hv
  have hspec := valueCmp_spec v
  have hbounds := fun s o' hn hv => @cmp_bounds s o' v stats group hd hmem hn hv
  unfold evalRowGroup at h
  split at h
  · cases h
  cases p <;> simp only [holds,acceptsNan,decide_eq_true_eq] at hv hn h
  case isNotNull => cases h
  case isNull =>
    cases v <;> cases hv
    exact (no_nulls hd h).2 hmem
  case eq _ s _ =>
    grind [→ scalarCmp_swap,Ordering.swap]
  case isIn _ values _ =>
    cases values with
    | nil => cases hv
    | cons first rest =>
      dsimp only at h
      split at h
      · rename_i lo hi hrange
        have hn : ∀ s ∈ first::rest, nanPair v s=false := by simpa using hn
        obtain ⟨s,hs,heq⟩ : ∃ s ∈ first::rest, valueCmp v s=some .eq := by simpa using hv
        obtain ⟨hlo,hhi⟩ := inValueRange_mem hrange
        obtain ⟨hge,hle⟩ := ends_around hexact (by rintro n rfl; exact hd.words n hmem) hn hrange hs heq
        split_ifs at h with hmax
        · obtain ⟨b,hb,o,ho,hkeep⟩ := judge_absent hmax
          grind
        · obtain ⟨b,hb,o,ho,hkeep⟩ := judge_absent h
          grind
      · cases h
  all_goals
    obtain ⟨b,hb,o,ho,hkeep⟩ := judge_absent h
    grind

theorem accepts_of_acceptsNan (h : p.acceptsNan v=true) : evalAgainstValue p (some v)=true := by
  have hspec := valueCmp_spec v
  rw [evalAgainstValue_some]
  cases p <;> simp only [acceptsNan,holds,decide_eq_true_eq,any_eq_true] at h ⊢
  all_goals grind

end

/-- A NaN makes no difference where the list has a member that the filter takes for equal. -/
def ScanPredicate.NanSafe (v : Value) (p : ScanPredicate) : Prop :=
  p.acceptsNan v=false ∨ match p with
    | .isIn _ values => ∃ s ∈ values, isEqual (.ofCore v) s.toRuntime=true
    | _ => False

theorem nanSafe_iff (p : ScanPredicate) (v : Value) :
    (evalAgainstValue p (some v)=true ↔ p.accepts (.ofCore v)=true) ↔ p.NanSafe v := by
  have hspec := valueCmp_spec v
  rw [evalAgainstValue_some]
  cases p <;> simp [ScanPredicate.NanSafe,accepts,holds,acceptsNan,(isEqual_iff _ _).1]
  all_goals grind

/-- For a column that is stored the row check agrees with the filter exactly where no NaN is all that it accepts a value
for; and a group that is judged absent by an exact predicate holds an accepted value only for a NaN. -/
theorem scanPredicate_iff (L : Scalars) (params : Params) {name : String} {row : String → Option RuntimeValue}
    {n : NodeValue} {e : Expression} {p : ScanPredicate} (hrow : row name = some (.node n))
    (h : tryIntoScanPredicate name e = some p) :
    (p.column ≠ "_id" → ((evalAgainstValue p (n.properties.lookup p.column) = true ↔
        evaluate L.filtering params e row = .ok (.bool true)) ↔
      ∀ v ∈ n.properties.lookup p.column, p.NanSafe v)) ∧
    (p.Exact → ∀ stats group, Describes stats group → evalRowGroup p stats = .absent →
      ((∀ v ∈ group, evalAgainstValue p v = false) ↔ ∀ v, some v ∈ group → p.acceptsNan v = false)) := by
  rw [evaluate_iff hrow h]
  refine ⟨fun hid => ?_,fun hexact stats group hd ha => ⟨fun h v hm => ?_,fun h v hm => ?_⟩⟩
  · simp only [Scalars.propertyAccess,hid]
    cases n.properties.lookup p.column with
    | none => cases p <;> simp [evalAgainstValue,accepts,holds,isNullValue,compareValues]
    | some v => simpa using nanSafe_iff p v
  · by_contra hn
    exact absurd (accepts_of_acceptsNan (by simpa using hn)) (by simp [h _ hm])
  · cases v with
    | none =>
      cases p with
      | isNull column =>
        unfold evalRowGroup at ha
        split at ha
        · cases ha
        · exact absurd hm (no_nulls hd ha).1
      | _ => rfl
    | some v => exact rejects_of_absent hd hexact ha hm (h v hm)

/-- A record that also holds bytes is kept in binary form, and a NaN in it as it is. -/
def aged (age : Value) : NodeValue :=
  ⟨1,[],storedProperties (((∅ : Properties).insert "photo" (.bytes [])).insert "age" age)⟩

def agedRow (age : Value) (name : String) : Option RuntimeValue := if name = "a" then some (.node (aged age)) else none

def ageIs (op : BinaryOp) (n : Int) : Expression := .binary op (.property (.var "a") "age") (.literal (.integer n))

def sevenValue : Value := .f64 0x401c000000000000

def notANumber : Value := .f64 0x7ff8000000000000

def statsOf (s : StatScalar) : PropertyColumnStats := ⟨"age",0,some (.literal s),some (.literal s)⟩

theorem describes_sevens : Describes (statsOf (.float64 0x401c000000000000)) [some sevenValue,some notANumber] where
  number := by rintro b (hb | hb) <;> cases hb <;> decide
  lower := by
    rintro b ⟨⟩ v (_ | ⟨_,_ | ⟨_,⟨⟩⟩⟩)
    exacts [.inr (.inr le_rfl),.inr (.inl (by decide))]
  upper := by
    rintro b ⟨⟩ v (_ | ⟨_,_ | ⟨_,⟨⟩⟩⟩)
    exacts [.inr (.inr le_rfl),.inl (by decide)]
  nulls := by simp [sevenValue,notANumber]
  words := by simp [sevenValue,notANumber]

/-- 7.0 is above 5, and a row group whose only number it is has nothing above 8. -/
theorem scanPredicate_iff_seven :
    evaluate Scalars.bare.filtering (fun _ => none) (ageIs .gt 5) (agedRow sevenValue) = .ok (.bool true) ∧
    ∀ v ∈ [some sevenValue,some notANumber], evalAgainstValue (.gt "age" (.int64 8)) v = false := by
  have h := fun n => scanPredicate_iff Scalars.bare (fun _ => none)
      (show agedRow sevenValue "a" = some (.node (aged sevenValue)) from rfl)
    (show tryIntoScanPredicate "a" (ageIs .gt n) = some (.gt "age" (.int64 n)) from rfl)
  exact ⟨(((h 5).1 (by decide)).mpr fun v _ => .inl rfl).mp (by decide),
    ((h 8).2 trivial _ _ describes_sevens (by decide)).mpr fun v _ => rfl⟩

/-- A NaN is accepted for `a.age = 1`, also in a row group whose only number is 7.0; a filter on `a._id` looks for a
stored property; and a list of an integer and a float that is not its own has the wrong ends. -/
theorem scan_accepts_nan : tryIntoScanPredicate "a" (ageIs .eq 1) = some (.eq "age" (.int64 1)) ∧
    evalAgainstValue (.eq "age" (.int64 1)) ((aged notANumber).properties.lookup "age") = true ∧
    evaluate Scalars.bare.filtering (fun _ => none) (ageIs .eq 1) (agedRow notANumber) = .ok (.bool false) ∧
    Describes (statsOf (.float64 0x401c000000000000)) [some sevenValue,some notANumber] ∧
    evalRowGroup (.eq "age" (.int64 1)) (statsOf (.float64 0x401c000000000000)) = .absent ∧
    tryIntoScanPredicate "a" (.isNull (.property (.var "a") "_id") true) = some (.isNotNull "_id") ∧
    evalAgainstValue (.isNotNull "_id") ((aged sevenValue).properties.lookup "_id") = false ∧
    evalRowGroup (.isIn "age" [.int64 9007199254740993, .float64 0x4340000000000000])
      (statsOf (.int64 9007199254740992)) = .absent ∧
    evalAgainstValue (.isIn "age" [.int64 9007199254740993, .float64 0x4340000000000000])
      (some (.i64 9007199254740992)) = true :=
  ⟨rfl,by decide,rfl,describes_sevens,by decide,rfl,by decide,by decide,by decide⟩

end NamiDB.Cypher
