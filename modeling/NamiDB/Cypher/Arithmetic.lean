import NamiDB.Cypher.Evaluate
import NamiDB.Lib.Fallible

/-! Arithmetic as the evaluator does it. Integers are words of 64 bits: an operation whose result is no
such word wraps around, or panics where the build checks for it, and only a quotient by zero is reported. -/
namespace NamiDB.Cypher
open Query List Option

def minI64 : Int := -2^63

def Fits (n : Int) : Prop := minI64≤n ∧ n<2^63

instance : DecidablePred Fits := fun n => inferInstanceAs (Decidable (minI64≤n ∧ n<2^63))

inductive Failure where
  | error (e : EvalError)
  | panicked

abbrev Evaluation := Except Failure

/-- The result of `+`, `-` or `*`. With overflow checks, as in a debug build, a result that does not fit
panics; without them it wraps. -/
def overflowing (checks : Bool) (n : Int) : Evaluation Int :=
  if Fits n then .ok n else if checks then .error .panicked else .ok (n.bmod (2^64))

def divI64 (x y : Int) : Evaluation Int :=
  if y=0 ∨ x=minI64 ∧ y = -1 then .error .panicked else .ok (x.tdiv y)

def remEuclid (x y : Int) : Evaluation Int :=
  if y=0 ∨ x=minI64 ∧ y = -1 then .error .panicked else .ok (x%y)

/-- The arithmetic of floats and the texts of scalars, which are taken as they are. -/
structure FloatLibrary where
  neg : BitVec 64 → BitVec 64
  add : BitVec 64 → BitVec 64 → BitVec 64
  sub : BitVec 64 → BitVec 64 → BitVec 64
  mul : BitVec 64 → BitVec 64 → BitVec 64
  div : BitVec 64 → BitVec 64 → BitVec 64
  rem : BitVec 64 → BitVec 64 → BitVec 64
  floatText : BitVec 64 → String
  dateText : Int → Option String
  dateTimeText : Int → Option String

namespace Arithmetic
variable (checks : Bool) (F : FloatLibrary) (L : Scalars)

def scalarToString : RuntimeValue → Option String
  | .integer n => some (toString n)
  | .float f => some (F.floatText f)
  | .bool b => some (toString b)
  | .string s => some s
  | .date d => F.dateText d
  | .dateTime d => F.dateTimeText d
  | _ => none

def mismatch (label : String) (a b : RuntimeValue) : Evaluation RuntimeValue :=
  .error (.error ("cannot apply `" ++ label ++ "` between " ++ a.typeName ++ " and " ++ b.typeName))

/-- `+` where one side is a list or a string. A list comes first, so that `'a' + [1]` is a list. -/
def concat (label : String) : RuntimeValue → RuntimeValue → Evaluation RuntimeValue
  | .string x, .string y => .ok (.string (x++y))
  | .list xs, .list ys => .ok (.list (xs++ys))
  | .list xs, y => .ok (.list (xs++[y]))
  | x, .list ys => .ok (.list (x::ys))
  | .string x, other => match scalarToString F other with
    | some rendered => .ok (.string (x++rendered))
    | none => mismatch label (.string x) other
  | other, .string y => match scalarToString F other with
    | some rendered => .ok (.string (rendered++y))
    | none => mismatch label other (.string y)
  | a, b => mismatch label a b

def arith (label : String) (fInt : Int → Int → Evaluation Int) (fFloat : BitVec 64 → BitVec 64 → BitVec 64)
    (stringConcat : Bool) : RuntimeValue → RuntimeValue → Evaluation RuntimeValue
  | .integer x, .integer y => (fInt x y).map .integer
  | .float x, .float y => .ok (.float (fFloat x y))
  | .integer x, .float y => .ok (.float (fFloat (i64AsF64 x) y))
  | .float x, .integer y => .ok (.float (fFloat x (i64AsF64 y)))
  | a, b => if stringConcat then concat F label a b else mismatch label a b

def arithDiv : RuntimeValue → RuntimeValue → Evaluation RuntimeValue
  | a, .integer y =>
    if y=0 then .error (.error "integer division by zero")
    else match a with
      | .integer x => (divI64 x y).map .integer
      | .float x => .ok (.float (F.div x (i64AsF64 y)))
      | a => mismatch "/" a (.integer y)
  | .float x, .float y => .ok (.float (F.div x y))
  | .integer x, .float y => .ok (.float (F.div (i64AsF64 x) y))
  | a, b => mismatch "/" a b

def evalUnary (op : UnaryOp) (v : RuntimeValue) : Evaluation RuntimeValue :=
  match op, v with
  | .neg, .integer n => (overflowing checks (-n)).map .integer
  | .neg, .float f => .ok (.float (F.neg f))
  | .neg, _ => .ok .null
  | .not, v => match v.asBool with
    | some b => .ok (.bool !b)
    | none => .ok .null

def unlessNull (a b : RuntimeValue) (result : Evaluation RuntimeValue) : Evaluation RuntimeValue :=
  if isNullValue a||isNullValue b then .ok .null else result

/-- The operators that are no arithmetic are those of the library. -/
def evalBinary (op : BinaryOp) (a b : RuntimeValue) : Evaluation RuntimeValue :=
  match op with
  | .add => unlessNull a b (arith F "+" (fun x y => overflowing checks (x+y)) F.add true a b)
  | .sub => unlessNull a b (arith F "-" (fun x y => overflowing checks (x-y)) F.sub false a b)
  | .mul => unlessNull a b (arith F "*" (fun x y => overflowing checks (x*y)) F.mul false a b)
  | .div => unlessNull a b (arithDiv F a b)
  | .mod => unlessNull a b (arith F "%" remEuclid F.rem false a b)
  | op => (L.evalBinary op a b).mapError .error

end Arithmetic

section
variable (checks : Bool) (F : FloatLibrary) (L : Scalars)

def Failure.message : Failure → EvalError
  | .error e => e
  | .panicked => "panicked"

/-- The library with this arithmetic. It tells an operation that panics as an error. -/
def Scalars.withArithmetic : Scalars :=
  { L with
    negate := fun v => (Arithmetic.evalUnary checks F .neg v).toOption.getD .null
    operate := fun op a b => (Arithmetic.evalBinary checks F L op a b).mapError Failure.message }

variable (params : Params)

def compute : Expression → Row → Evaluation RuntimeValue
  | .unary op expr, row => do
    let v ← compute expr row
    Arithmetic.evalUnary checks F op v
  | .binary op left right, row => do
    let a ← compute left row
    let b ← compute right row
    Arithmetic.evalBinary checks F L op a b
  | e, row => (evaluate (L.withArithmetic checks F) params e row).mapError .error

variable {checks F L params}

theorem message_error (r : Except EvalError α) : (r.mapError Failure.error).mapError Failure.message=r := by
  cases r <;> rfl

/-- Negation reports nothing: it has a value or it panics. -/
theorem withArithmetic_evalUnary {r : Except EvalError RuntimeValue}
    (h : Arithmetic.evalUnary checks F op v=r.mapError .error) :
    r = .ok ((L.withArithmetic checks F).evalUnary op v) := by
  rw [← message_error r,← h]
  cases op with
  | neg =>
    cases v
    case integer n =>
      simp only [Arithmetic.evalUnary,Scalars.evalUnary,Scalars.withArithmetic,isNullValue] at h ⊢
      cases ho : overflowing checks (-n) with
      | ok m => rfl
      | error failure =>
        have hpanic : failure = .panicked := by
          unfold overflowing at ho
          split_ifs at ho
          exact (Except.error.inj ho).symm
        rw [ho,hpanic] at h
        cases r <;> cases h
    all_goals rfl
  | not =>
    simp only [Arithmetic.evalUnary,Scalars.evalUnary]
    cases v.asBool <;> rfl

theorem withArithmetic_evalBinary {r : Except EvalError RuntimeValue}
    (h : Arithmetic.evalBinary checks F L op a b=r.mapError .error) :
    (L.withArithmetic checks F).evalBinary op a b=r := by
  rw [← message_error r,← h]
  cases op
  case add | sub | mul | div | mod =>
    simp only [Scalars.evalBinary,Scalars.withArithmetic,Arithmetic.evalBinary,Arithmetic.unlessNull]
    split <;> simp_all [Except.mapError]
  case eq | ne => simp only [Arithmetic.evalBinary,Scalars.evalBinary,message_error]
  all_goals
    simp only [Arithmetic.evalBinary,Scalars.evalBinary,Scalars.withArithmetic,message_error]
    split <;> simp_all

/-- What does not panic is what the evaluator answers, error or value. -/
theorem evaluate_of_compute (e : Expression) (row : Row) (r : Except EvalError RuntimeValue)
    (h : compute checks F L params e row=r.mapError .error) : evaluate (L.withArithmetic checks F) params e row=r := by
  induction e, row using compute.induct generalizing r with
  | case1 op expr row ih =>
    rw [compute] at h
    cases he : compute checks F L params expr row with
    | error failure =>
      rw [he] at h
      cases r with
      | ok v => cases h
      | error e =>
        cases h
        rw [evaluate,ih (.error e) he]
        rfl
    | ok w =>
      rw [he] at h
      rw [withArithmetic_evalUnary (L := L) h]
      simp [evaluate,ih (.ok w) he]
  | case2 op left right row ihl ihr =>
    rw [compute] at h
    cases hl : compute checks F L params left row with
    | error failure =>
      rw [hl] at h
      cases r with
      | ok v => cases h
      | error e =>
        cases h
        rw [evaluate,ihl (.error e) hl]
        rfl
    | ok a =>
      rw [hl] at h
      cases hr : compute checks F L params right row with
      | error failure =>
        rw [hr] at h
        cases r with
        | ok v => cases h
        | error e =>
          cases h
          rw [evaluate,ihl (.ok a) hl,ihr (.error e) hr]
          rfl
      | ok b =>
        rw [hr] at h
        simp only [evaluate,ihl (.ok a) hl,ihr (.ok b) hr]
        exact withArithmetic_evalBinary h
  | case3 e row hu hb =>
    rw [compute] at h
    · rw [← message_error r,← h,message_error]
    · exact hu
    · exact hb

end

section

variable {n : Int} {op : BinaryOp} {e : Expression}

def whole (n : Int) : Option Int := if Fits n then some n else none

/-- The exact result of an operator: the quotient is truncated and the remainder Euclidean. -/
def exactOp (x y : Int) : BinaryOp → Option Int
  | .add => whole (x+y)
  | .sub => whole (x-y)
  | .mul => whole (x*y)
  | .div => if y=0 then none else whole (x.tdiv y)
  | .mod => if y=0 then none else whole (x%y)
  | _ => none

variable (params : Params)

inductive IntegerExpr : Expression → Prop where
  | literal {n : Int} (h : Fits n) : IntegerExpr (.literal (.integer n))
  | parameter {name : String} {n : Int} (hp : params name=some (.integer n)) (h : Fits n) :
    IntegerExpr (.parameter name)
  | neg {e : Expression} (h : IntegerExpr e) : IntegerExpr (.unary .neg e)
  | binary {op : BinaryOp} {a b : Expression} (hop : op∈[.add,.sub,.mul,.div,.mod]) (ha : IntegerExpr a)
    (hb : IntegerExpr b) : IntegerExpr (.binary op a b)

def exactValue : Expression → Option Int
  | .literal (.integer n) => whole n
  | .parameter name => match params name with
    | some (.integer n) => whole n
    | _ => none
  | .unary .neg e => do
    let x ← exactValue e
    whole (-x)
  | .binary op a b => do
    let x ← exactValue a
    let y ← exactValue b
    exactOp x y op
  | _ => none

/-- Whether the word operation on two exact operands neither overflows nor panics. -/
def InRange (x y : Int) : BinaryOp → Prop
  | .add => Fits (x+y)
  | .sub => Fits (x-y)
  | .mul => Fits (x*y)
  | .div => ¬ (x=minI64 ∧ y = -1)
  | .mod => y≠0 ∧ ¬ (x=minI64 ∧ y = -1)
  | _ => True

instance (x y : Int) (op : BinaryOp) : Decidable (InRange x y op) := by
  cases op <;> unfold InRange <;> infer_instance

/-- No operation that evaluation comes to leaves the range: the right operand is evaluated only when the left one has
a value, and the operation is done only when both have. -/
def InOrder : Expression → Prop
  | .unary .neg e => InOrder e ∧ ∀ x, exactValue params e=some x → x≠minI64
  | .binary op a b => InOrder a ∧ ∀ x, exactValue params a=some x →
      InOrder b ∧ ∀ y, exactValue params b=some y → InRange x y op
  | _ => True

/-- A value is the exact one, and where there is none an error is reported. -/
def Told (result : Evaluation RuntimeValue) : Option Int → Prop
  | some n => result = .ok (.integer n)
  | none => ∃ message, result = .error (.error message)

/-- The same of the evaluator's answer. -/
def Answered (result : Except EvalError RuntimeValue) : Option Int → Prop
  | some n => result = .ok (.integer n)
  | none => ∃ message, result = .error message

variable {params} {checks : Bool} {F : FloatLibrary} {L : Scalars} {row : Row} {x y : Int}

theorem whole_eq_some : whole m=some n ↔ Fits n ∧ m=n := by
  unfold whole
  split_ifs with h
  · simp only [some.injEq]
    exact ⟨fun hmn => ⟨hmn ▸ h,hmn⟩,And.right⟩
  · simp only [false_iff,not_and]
    rintro hn rfl
    exact h hn

theorem fits_of_exactOp (h : exactOp x y op=some n) : Fits n := by
  cases op <;> simp only [exactOp,reduceCtorEq,ite_none_left_eq_some,whole_eq_some] at h
  case add | sub | mul => exact h.1
  case div | mod => exact h.2.1

theorem fits_of_exactValue (h : exactValue params e=some n) : Fits n := by
  cases e with
  | literal l =>
    cases l <;> simp only [exactValue,reduceCtorEq,whole_eq_some] at h
    exact h.1
  | parameter name =>
    simp only [exactValue] at h
    split at h
    · exact (whole_eq_some.mp h).1
    · simp at h
  | unary op e =>
    cases op <;> simp only [exactValue,reduceCtorEq,bind_eq_bind,bind_eq_some_iff,whole_eq_some] at h
    obtain ⟨_,_,h,_⟩ := h
    exact h
  | binary op a b =>
    simp only [exactValue,bind_eq_bind,bind_eq_some_iff] at h
    obtain ⟨_,_,_,_,h⟩ := h
    exact fits_of_exactOp h
  | _ => simp [exactValue] at h

theorem tdiv_fits (hx : Fits x) (h : ¬ (x=minI64 ∧ y = -1)) : Fits (x.tdiv y) := by
  have habs : (x.tdiv y).natAbs=x.natAbs/y.natAbs := Int.natAbs_tdiv x y
  unfold Fits minI64 at *
  rcases Nat.lt_trichotomy y.natAbs 1 with hy | hy | hy
  · rw [show y.natAbs=0 by omega,Nat.div_zero] at habs
    omega
  · rw [hy,Nat.div_one] at habs
    rcases Int.natAbs_eq y with hsign | hsign
    · rw [hsign,hy,Int.ofNat_one,Int.tdiv_one]
      exact hx
    · have hneg : y = -1 := by omega
      omega
  · have hhalf : x.natAbs/y.natAbs≤x.natAbs/2 := Nat.div_le_div_left hy (by decide)
    omega

theorem emod_fits (hy : Fits y) (h : y≠0) : Fits (x%y) := by
  have hnonneg := Int.emod_nonneg x h
  have hlt := Int.emod_lt x h
  unfold Fits minI64 at *
  omega

theorem told_overflowing : Told ((overflowing checks n).map .integer) (whole n) ↔ Fits n := by
  unfold overflowing whole
  by_cases h : Fits n
  · simp [h,Told,Except.map]
  · cases checks <;> simp [h,Told,Except.map]

theorem not_told_panicked {n : Option Int} : ¬ Told (.error .panicked) n := by
  cases n <;> simp [Told]

theorem told_evalBinary (hop : op∈[BinaryOp.add,.sub,.mul,.div,.mod]) (hx : Fits x) (hy : Fits y) :
    Told (Arithmetic.evalBinary checks F L op (.integer x) (.integer y)) (exactOp x y op) ↔ InRange x y op := by
  have hnull : ∀ n, isNullValue (.integer n)=false := fun _ => rfl
  simp only [mem_cons,not_mem_nil,or_false] at hop
  rcases hop with rfl | rfl | rfl | rfl | rfl <;>
    simp only [Arithmetic.evalBinary,Arithmetic.unlessNull,hnull,Bool.or_self,Bool.false_eq_true,if_false,
      Arithmetic.arith,Arithmetic.arithDiv,exactOp,InRange,told_overflowing]
  · -- only the quotient has a test for zero of its own
    by_cases h0 : y=0
    · simp [h0,Told]
    rw [if_neg h0,if_neg h0,divI64]
    by_cases h : x=minI64 ∧ y = -1
    · rw [if_pos (.inr h)]
      exact iff_of_false not_told_panicked (not_not.mpr h)
    · rw [if_neg (not_or.mpr ⟨h0,h⟩),whole,if_pos (tdiv_fits hx h)]
      exact iff_of_true rfl h
  · rw [remEuclid]
    by_cases h : y=0 ∨ x=minI64 ∧ y = -1
    · rw [if_pos h]
      exact iff_of_false not_told_panicked (not_and_or.mpr (h.imp not_not.mpr not_not.mpr))
    · have h' := not_or.mp h
      rw [if_neg h,if_neg h'.1,whole,if_pos (emod_fits hy h'.1)]
      exact iff_of_true rfl h'

theorem told_bind {n : Option Int} (h : Told result n) :
    Told (result >>= f) (n >>= g) ↔ ∀ x, n=some x → Told (f (.integer x)) (g x) := by
  cases n with
  | none =>
    obtain ⟨message,rfl⟩ := h
    simp only [reduceCtorEq,false_implies,implies_true,iff_true]
    exact ⟨message,rfl⟩
  | some x =>
    cases h
    simp only [some.injEq,forall_eq']
    rfl

theorem told_neg (hx : Fits x) : Told (Arithmetic.evalUnary checks F .neg (.integer x)) (whole (-x)) ↔ x≠minI64 := by
  rw [Arithmetic.evalUnary,told_overflowing]
  unfold Fits minI64 at *
  omega

theorem told_of_inOrder (checks : Bool) (F : FloatLibrary) (L : Scalars) (row : Row) (he : IntegerExpr params e)
    (h : InOrder params e) :
    Told (compute checks F L params e row) (exactValue params e) := by
  induction he with
  | literal hn =>
    rw [exactValue,whole,if_pos hn]
    rfl
  | parameter hp hn => simp [compute,evaluate,exactValue,hp,whole,hn,Told,Except.mapError]
  | neg _ ih =>
    rw [compute,exactValue,told_bind (ih h.1)]
    exact fun x hx => (told_neg (fits_of_exactValue hx)).mpr (h.2 x hx)
  | binary hop _ _ iha ihb =>
    rw [compute,exactValue,told_bind (iha h.1)]
    intro x hx
    obtain ⟨hb,hrange⟩ := h.2 x hx
    refine (told_bind (ihb hb)).mpr fun y hy => ?_
    exact (told_evalBinary hop (fits_of_exactValue hx) (fits_of_exactValue hy)).mpr (hrange y hy)

theorem panics_evalBinary (hop : op∈[BinaryOp.add,.sub,.mul,.div,.mod]) (h : ¬ InRange x y op) :
    Arithmetic.evalBinary true F L op (.integer x) (.integer y) = .error .panicked := by
  simp only [mem_cons,not_mem_nil,or_false] at hop
  rcases hop with rfl | rfl | rfl | rfl | rfl
  case inr.inr.inr.inr =>
    have hzero : y=0 ∨ x=minI64 ∧ y = -1 := by simpa [InRange,or_iff_not_imp_left] using h
    simp [Arithmetic.evalBinary,Arithmetic.unlessNull,Arithmetic.arith,isNullValue,remEuclid,if_pos hzero,Except.map]
  all_goals
    simp_all [InRange,Arithmetic.evalBinary,Arithmetic.unlessNull,Arithmetic.arith,Arithmetic.arithDiv,isNullValue,
      overflowing,divI64,Except.map]

/-- With overflow checks the first operation that leaves the range panics, and nothing after it is evaluated. -/
theorem panics_of_not_inOrder (he : IntegerExpr params e) (h : ¬ InOrder params e) :
    compute true F L params e row = .error .panicked := by
  induction he with
  | literal _ | parameter _ _ => exact absurd trivial h
  | @neg e he ih =>
    rw [compute]
    by_cases hin : InOrder params e
    · simp only [InOrder,hin,true_and,not_forall,not_not] at h
      obtain ⟨x,hx,rfl⟩ := h
      have htold := told_of_inOrder true F L row he hin
      rw [hx] at htold
      rw [htold]
      rfl
    · rw [ih hin]
      rfl
  | @binary op a b hop ha hb iha ihb =>
    rw [compute]
    by_cases hin : InOrder params a
    · simp only [InOrder,hin,true_and,not_forall,not_and] at h
      obtain ⟨x,hx,h⟩ := h
      have htold := told_of_inOrder true F L row ha hin
      rw [hx] at htold
      rw [htold]
      by_cases hin' : InOrder params b
      · obtain ⟨y,hy,hrange⟩ := h hin'
        have htold' := told_of_inOrder true F L row hb hin'
        rw [hy] at htold'
        rw [htold']
        exact panics_evalBinary hop hrange
      · rw [ihb hin']
        rfl
    · rw [iha hin]
      rfl

/-- The evaluator is exact in every build exactly when no operation that evaluation comes to leaves the range. -/
theorem told_iff_inOrder (params : Params) (F : FloatLibrary) (L : Scalars) (row : Row) (e : Expression)
    (he : IntegerExpr params e) :
    ((∀ checks, Told (compute checks F L params e row) (exactValue params e)) ↔ InOrder params e) ∧
    (InOrder params e → ∀ checks,
      Answered (evaluate (L.withArithmetic checks F) params e row) (exactValue params e)) := by
  refine ⟨⟨fun h => ?_,fun h checks => told_of_inOrder checks F L row he h⟩,fun h checks => ?_⟩
  · by_contra hout
    exact not_told_panicked (panics_of_not_inOrder he hout ▸ h true)
  have htold := told_of_inOrder checks F L row he h
  cases hexact : exactValue params e with
  | some n =>
    rw [hexact] at htold
    exact evaluate_of_compute e row (.ok (.integer n)) htold
  | none =>
    rw [hexact] at htold
    obtain ⟨message,htold⟩ := htold
    exact ⟨message,evaluate_of_compute e row (.error message) htold⟩

def smallExpr : Expression :=
  .binary .sub (.literal (.integer 1)) (.binary .mul (.unary .neg (.literal (.integer 2))) (.literal (.integer 3)))

def zeroFloats : FloatLibrary where
  neg f := f
  add f _ := f
  sub f _ := f
  mul f _ := f
  div f _ := f
  rem f _ := f
  floatText _ := ""
  dateText _ := none
  dateTimeText _ := none

theorem smallExpr_computed :
    evaluate (Scalars.bare.withArithmetic false zeroFloats) (fun _ => none) smallExpr (fun _ => none) =
      .ok (.integer 7) := by
  have hexpr : IntegerExpr (fun _ => none) smallExpr :=
    .binary (by simp) (.literal (by decide))
      (.binary (by simp) (.neg (.literal (by decide))) (.literal (by decide)))
  refine (told_iff_inOrder (fun _ => none) zeroFloats .bare (fun _ => none) smallExpr hexpr).2 ?_ false
  simp only [smallExpr,InOrder,exactValue,true_and]
  refine fun x hx => ⟨⟨fun x hx => ?_,fun x hx y hy => ?_⟩,fun y hy => ?_⟩
  · obtain rfl : 2=x := some.inj hx
    decide
  · obtain rfl : -2=x := some.inj hx
    obtain rfl : 3=y := some.inj hy
    decide
  · obtain rfl : 1=x := some.inj hx
    obtain rfl : -6=y := some.inj hy
    decide

/-- The remainder by zero panics, and without overflow checks the largest word plus one is the smallest. -/
theorem remainder_by_zero_panics :
    compute false zeroFloats .bare (fun _ => none) (.binary .mod (.literal (.integer 1)) (.literal (.integer 0)))
      (fun _ => none) = .error .panicked ∧
    compute false zeroFloats .bare (fun _ => none)
      (.binary .add (.literal (.integer (2 ^ 63 - 1))) (.literal (.integer 1))) (fun _ => none) =
        .ok (.integer minI64) := by
  constructor <;> rfl

end

end NamiDB.Cypher
