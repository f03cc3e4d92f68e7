import NamiDB.Cypher.Scan
import NamiDB.Lib.Endian

/-! The keys that equality indexes file a value under. A key is the list of its characters, in the order of which
the index can be read. -/
namespace NamiDB.Cypher
open Query Storage Lib List

def sortableF64Bits (bits : BitVec 64) : Nat :=
  if bits.toNat<2^63 then bits.toNat+2^63 else 2^64-1-bits.toNat

def normalized (bits : BitVec 64) : BitVec 64 := if isZero bits then 0 else bits

def numericKey (bits : BitVec 64) : List Char := 'n' :: ':' :: hexText 16 (sortableF64Bits bits)

def encodeEqualityPropertyValue : Value → Option (List Char)
  | .str s => some s.toList
  | .bool b => some ['b',':',if b then '1' else '0']
  | .i64 n => some (numericKey (i64AsF64 n))
  | .f64 f => if isNan 52 f then none else some (numericKey (normalized f))
  | .bytes b => some ('x' :: ':' :: (b.map UInt8.toNat).flatMap (hexText 2))
  | .date d => some ('d' :: ':' :: hexText 8 (BitVec.ofInt 32 d^^^0x80000000).toNat)
  | .dateTime t => some ('t' :: ':' :: hexText 16 (BitVec.ofInt 64 t^^^0x8000000000000000).toNat)
  | .null | .vec _ | .vecI8 _ _ | .list _ | .map _ => none

def tuplePart : Value → Option (UInt8 × Bytes)
  | .str s => some (0x73,s.toByteArray.data.toList)
  | .bool b => some (0x62,[if b then 1 else 0])
  | .i64 n => some (0x6e,(leBytes 8 (i64AsF64 n).toNat).reverse)
  | .f64 f => if isNan 52 f then none else some (0x6e,(leBytes 8 (normalized f).toNat).reverse)
  | .bytes b => some (0x78,b)
  | .date d => some (0x64,(leBytes 4 (BitVec.ofInt 32 d).toNat).reverse)
  | .dateTime t => some (0x74,(leBytes 8 (BitVec.ofInt 64 t).toNat).reverse)
  | .null | .vec _ | .vecI8 _ _ | .list _ | .map _ => none

def encodeEqualityTupleKey : List Value → Option Bytes
  | [] => some []
  | v::vs => do
    let (tag,bytes) ← tuplePart v
    if bytes.length<2^32 then
      let rest ← encodeEqualityTupleKey vs
      return tag::(leBytes 4 bytes.length++(bytes++rest))
    else none

def cypherScalarEqual : Value → Value → Bool
  | .null,_ | _,.null => false
  | .i64 x,.f64 y | .f64 y,.i64 x => floatEq 52 (i64AsF64 x) y
  | a,b => a.eq b

/-- The bounds of 32 bits are widened where they are compared and where their key is made. -/
def numericValue : StatScalar → Option Value
  | .int64 n => some (.i64 n)
  | .float64 f => if isNan 52 f then none else some (.f64 f)
  | _ => none

def rangeBound : ScanPredicate → Option (StatScalar × Bool × Bool)
  | .gt _ s | .gtEq _ s => some (s,true,false)
  | .lt _ s | .ltEq _ s => some (s,false,true)
  | .eq _ s => some (s,true,true)
  | .isIn _ _ | .isNull _ | .isNotNull _ => none

def narrow (property : String) (window : List Char × List Char) (predicate : ScanPredicate) :
    Option (List Char × List Char) :=
  if predicate.column≠property then none
  else do
    let (scalar,isLower,isUpper) ← rangeBound predicate
    let value ← numericValue scalar
    let key ← encodeEqualityPropertyValue value
    return (if isLower&&decide (window.1<key) then key else window.1,
      if isUpper&&decide (key<window.2) then key else window.2)

def numericRangeKeyBounds (property : String) (predicates : List ScanPredicate) : Option (List Char × List Char) := do
  let window ← predicates.foldlM (narrow property) ("n:0000000000000000".toList,"n:ffffffffffffffff".toList)
  if predicates.isEmpty then none else return window

section

def IsI64 (n : Int) : Prop := -2^63≤n ∧ n<2^63

def mantissa (n : Nat) : Nat := if n.log2≤52 then n*2^(52-n.log2) else roundShift n (n.log2-52)

def magnitude (n : Nat) : Nat := if n=0 then 0 else (n.log2+1022)*2^52+mantissa n

variable {n : Nat}

theorem roundShift_mono (k : Nat) (h : m≤n) : roundShift m k≤roundShift n k := by
  have hm := Nat.div_add_mod m (2^k)
  have hn := Nat.div_add_mod n (2^k)
  unfold roundShift
  obtain hlt | heq := Nat.lt_or_eq_of_le (Nat.div_le_div_right (c := 2^k) h)
  · dsimp only
    split_ifs <;> omega
  · rw [heq] at hm ⊢
    dsimp only
    split_ifs <;> omega

theorem mantissa_bounds (h : n≠0) : 2^52≤ mantissa n ∧ mantissa n≤2^53 := by
  have hlow := Nat.log2_self_le h
  have hhigh := @Nat.lt_log2_self n
  unfold mantissa
  split_ifs with hlog
  · have hpow : 2^n.log2*2^(52-n.log2)=2^52 := by rw [← Nat.pow_add,Nat.add_sub_cancel' hlog]
    have hmin := Nat.mul_le_mul_right (2^(52-n.log2)) hlow
    have hmax := Nat.mul_le_mul_right (2^(52-n.log2)) hhigh.le
    rw [Nat.pow_succ',Nat.mul_assoc,hpow] at hmax
    omega
  · have hpow : 2^n.log2=2^52*2^(n.log2-52) := by rw [← Nat.pow_add,Nat.add_sub_cancel' (by omega)]
    rw [hpow] at hlow
    have := (Nat.le_div_iff_mul_le (Nat.pow_pos (by decide))).mpr hlow
    have : n/2^(n.log2-52)<2^53 := Nat.div_lt_of_lt_mul (by omega)
    unfold roundShift
    dsimp only
    split_ifs <;> omega

theorem magnitude_mono (h : m≤n) : magnitude m≤ magnitude n := by
  unfold magnitude
  by_cases hm : m=0
  · simp [hm]
  have hn : n≠0 := by omega
  rw [if_neg hm,if_neg hn]
  have hlog : m.log2≤n.log2 := (Nat.le_log2 hn).mpr ((Nat.log2_self_le hm).trans h)
  obtain hlt | heq := Nat.lt_or_eq_of_le hlog
  · have := mantissa_bounds hm
    have := mantissa_bounds hn
    omega
  · have : mantissa m≤ mantissa n := by
      unfold mantissa
      rw [heq]
      split_ifs
      · exact Nat.mul_le_mul_right _ h
      · exact roundShift_mono _ h
    omega

theorem toNat_i64AsF64 {n : Int} (h : IsI64 n) : magnitude n.natAbs≤1086*2^52 ∧
    (i64AsF64 n).toNat=(if n<0 then 2^63 else 0)+magnitude n.natAbs := by
  have hmag : magnitude n.natAbs≤ magnitude (2^63) := magnitude_mono (by obtain ⟨hmin,hmax⟩ := h; omega)
  rw [show magnitude (2^63)=1086*2^52 by decide] at hmag
  have heq : i64AsF64 n=BitVec.ofNat 64 ((if n<0 then 1 else 0)*2^63+magnitude n.natAbs) := by
    simp only [i64AsF64,magnitude,mantissa,Int.natAbs_eq_zero]
  rw [heq,BitVec.toNat_ofNat,Nat.mod_eq_of_lt (by split_ifs <;> omega)]
  exact ⟨hmag,by split_ifs <;> omega⟩

theorem magnitude_lt (h : m<n) (hm : m<2^53) : magnitude m < magnitude n := by
  unfold magnitude
  have hn : n≠0 := by omega
  have hbounds := mantissa_bounds hn
  by_cases hzero : m=0
  · rw [if_pos hzero,if_neg hn]
    omega
  rw [if_neg hzero,if_neg hn]
  have hlog : m.log2≤52 := Nat.lt_succ_iff.mp ((Nat.log2_lt hzero).mpr hm)
  have hpow : 2^m.log2*2^(52-m.log2)=2^52 := by rw [← Nat.pow_add,Nat.add_sub_cancel' hlog]
  have hpos : 0<2^(52-m.log2) := Nat.pow_pos (by decide)
  have hle : m.log2≤n.log2 := (Nat.le_log2 hn).mpr ((Nat.log2_self_le hzero).trans h.le)
  have hman : mantissa m=m*2^(52-m.log2) := if_pos hlog
  obtain hlt | heq := Nat.lt_or_eq_of_le hle
  · -- a number of at most 53 bits does not round up to the next power of two
    have htop : m*2^(52-m.log2)<2^53 := by
      have := Nat.mul_lt_mul_of_pos_right (@Nat.lt_log2_self m) hpos
      rwa [Nat.pow_succ',Nat.mul_assoc,hpow] at this
    omega
  · have hman' : mantissa n=n*2^(52-m.log2) := by rw [mantissa,← heq,if_pos hlog]
    have := Nat.mul_lt_mul_of_pos_right h hpos
    omega

theorem floatKey_mono (hx : IsI64 x) (hy : IsI64 y) (h : x≤y) : floatKey (i64AsF64 x)≤floatKey (i64AsF64 y) := by
  obtain ⟨hx,ex⟩ := toNat_i64AsF64 hx
  obtain ⟨hy,ey⟩ := toNat_i64AsF64 hy
  have hpos := @magnitude_mono x.natAbs y.natAbs
  have hneg := @magnitude_mono y.natAbs x.natAbs
  unfold floatKey
  rw [ex,ey]
  split_ifs <;> omega

theorem eq_of_floatKey_eq (hx : IsI64 x) (hy : IsI64 y) (hsmall : y.natAbs<2^53)
    (h : floatKey (i64AsF64 x)=floatKey (i64AsF64 y)) : x=y := by
  obtain ⟨hx,ex⟩ := toNat_i64AsF64 hx
  obtain ⟨hy,ey⟩ := toNat_i64AsF64 hy
  unfold floatKey at h
  rw [ex,ey] at h
  have hpos : ∀ n : Int, n≠0 → 0 < magnitude n.natAbs := fun n hn =>
    magnitude_lt (m := 0) (Int.natAbs_pos.mpr hn) (by decide)
  have hposx := hpos x
  have hposy := hpos y
  obtain hlt | heq | hlt := Nat.lt_trichotomy x.natAbs y.natAbs
  · have := magnitude_lt hlt (hlt.trans hsmall)
    split_ifs at h <;> omega
  · rw [heq] at h hposx hx
    split_ifs at h <;> omega
  · have := magnitude_lt hlt hsmall
    split_ifs at h <;> omega

theorem compare_floatKey (hx : IsI64 x) (hy : IsI64 y) (hsmall : y.natAbs<2^53) :
    compare (floatKey (i64AsF64 x)) (floatKey (i64AsF64 y))=compare x y := by
  obtain hlt | rfl | hlt := lt_trichotomy x y
  · have hne := mt (eq_of_floatKey_eq hx hy hsmall) hlt.ne
    rw [compare_lt_iff_lt.mpr hlt,compare_lt_iff_lt.mpr ((floatKey_mono hx hy hlt.le).lt_of_ne hne)]
  · rw [compare_eq_iff_eq.mpr rfl,compare_eq_iff_eq.mpr rfl]
  · have hne := mt (eq_of_floatKey_eq hx hy hsmall) hlt.ne'
    rw [compare_gt_iff_gt.mpr hlt,compare_gt_iff_gt.mpr ((floatKey_mono hy hx hlt.le).lt_of_ne' hne)]

end

theorem sortable_lt (bits : BitVec 64) : sortableF64Bits bits<16^16 := by
  unfold sortableF64Bits
  split_ifs <;> omega

theorem sortable_inj : sortableF64Bits a=sortableF64Bits b ↔ a=b := by
  rw [← BitVec.toNat_inj]
  unfold sortableF64Bits
  split_ifs <;> omega

theorem sortable_normalized (bits : BitVec 64) : (sortableF64Bits (normalized bits) : Int) =
    floatKey bits+2^63-if floatKey bits<0 then 1 else 0 := by
  unfold normalized isZero floatKey
  simp only [decide_eq_true_eq]
  by_cases hz : 2*bits.toNat%2^64=0
  · rw [if_pos hz,show sortableF64Bits 0=2^63 from rfl]
    split_ifs <;> omega
  · rw [if_neg hz,sortableF64Bits]
    split_ifs <;> omega

theorem normalized_i64AsF64 (h : IsI64 n) : normalized (i64AsF64 n)=i64AsF64 n := by
  obtain ⟨hlt,he⟩ := toNat_i64AsF64 h
  by_cases hn : n=0
  · rw [hn]
    decide
  · have hmag : magnitude n.natAbs≠0 := by
      rw [magnitude,if_neg (by omega)]
      omega
    rw [normalized,isZero,he,if_neg]
    simp only [decide_eq_true_eq]
    split_ifs <;> omega

theorem numericKey_le (h : floatKey x≤floatKey y) : numericKey (normalized x)≤numericKey (normalized y) := by
  have hx := sortable_normalized x
  have hy := sortable_normalized y
  have hle : sortableF64Bits (normalized x)≤ sortableF64Bits (normalized y) := by
    split_ifs at hx hy <;> omega
  exact cons_le_cons 'n' (cons_le_cons ':' (hexText_le (sortable_lt _) hle))

theorem not_isNan_i64AsF64 (h : IsI64 n) : isNan 52 (i64AsF64 n)=false := by
  obtain ⟨hle,he⟩ := toNat_i64AsF64 h
  rw [isNan,he,decide_eq_false_iff_not]
  split_ifs <;> omega

def InI64 : Value → Prop
  | .i64 n => IsI64 n
  | _ => True

theorem normalized_of_floatEq (h : floatEq 52 x y=true) : normalized x=normalized y := by
  simp only [floatEq,Bool.and_eq_true,Bool.or_eq_true,decide_eq_true_eq] at h
  exact (fold_zero_eq_iff y x).mpr h.2

theorem key_of_equal (ha : InI64 a) (hb : InI64 b) (h : cypherScalarEqual a b=true)
    (hk : encodeEqualityPropertyValue a=some k) (hl : encodeEqualityPropertyValue b=some l) : k=l := by
  cases a <;> cases b <;> simp_all [cypherScalarEqual,Value.eq,encodeEqualityPropertyValue]
  case i64.f64 => rw [← hk,← hl.2,← normalized_of_floatEq h,normalized_i64AsF64 ha]
  case f64.i64 => rw [← hk.2,← hl,← normalized_of_floatEq h,normalized_i64AsF64 hb]
  case f64.f64 => rw [← hk.2,← hl.2,normalized_of_floatEq h]

section

def isStr : Value → Bool
  | .str _ => true
  | _ => false

/-- Values with one key, of which a string shares its key only with a string. -/
def SameKey (a b : Value) : Prop :=
  encodeEqualityPropertyValue a=encodeEqualityPropertyValue b ∧ isStr a=isStr b

variable {v : Nat}

theorem leBytes_word (h : 2^v ≤ 256^w) (x y : BitVec v) : leBytes w x.toNat=leBytes w y.toNat ↔ x=y := by
  rw [leBytes_inj (x.isLt.trans_le h) (y.isLt.trans_le h),BitVec.toNat_inj]

theorem hexText_word (h : 2^v ≤ 16^w) (x y c : BitVec v) : hexText w (x^^^c).toNat=hexText w (y^^^c).toNat ↔ x=y := by
  rw [hexText_inj ((x^^^c).isLt.trans_le h) ((y^^^c).isLt.trans_le h),BitVec.toNat_inj,BitVec.xor_left_inj]

theorem hexText_sortable : hexText 16 (sortableF64Bits x)=hexText 16 (sortableF64Bits y) ↔ x=y := by
  rw [hexText_inj (sortable_lt x) (sortable_lt y),sortable_inj]

theorem byteKeys_inj {a b : Bytes} :
    (a.map UInt8.toNat).flatMap (hexText 2)=(b.map UInt8.toNat).flatMap (hexText 2) ↔ a=b := by
  refine ⟨fun h => ?_,fun h => by rw [h]⟩
  have hlen : a.length=b.length := by simpa [hexText,Function.comp_def] using congrArg length h
  have hlt : ∀ c : Bytes, ∀ n ∈ c.map UInt8.toNat, n<16^2 := fun c => by simpa using fun x _ => x.toNat_lt
  obtain ⟨hmap,-⟩ := split_hexTexts (hlt a) (hlt b) (by simpa using hlen) (congrArg (· ++ ([] : List Char)) h)
  exact map_injective_iff.mpr (fun x y => UInt8.toNat_inj.mp) hmap

theorem tuplePart_iff (ha : (tuplePart a).isSome) (hb : (tuplePart b).isSome) :
    tuplePart a=tuplePart b ↔ SameKey a b := by
  cases a <;> cases b <;> simp_all [-BitVec.toNat_ofInt,-BitVec.toNat_xor,SameKey,isStr,tuplePart,
    encodeEqualityPropertyValue,numericKey,leBytes_word (v := 64) (w := 8) (by decide),
    leBytes_word (v := 32) (w := 4) (by decide),hexText_word (v := 64) (w := 16) (by decide),
    hexText_word (v := 32) (w := 8) (by decide),hexText_sortable,byteKeys_inj]
  case bool.bool x y => cases x <;> cases y <;> decide
  case str.str => rw [← ByteArray.ext_iff,String.toByteArray_inj,String.toList_inj]

theorem tupleKey_cons {v : Value} (h : encodeEqualityTupleKey (v::vs)=some k) :
    ∃ tag bytes rest, tuplePart v=some (tag,bytes) ∧ bytes.length<2^32 ∧ encodeEqualityTupleKey vs=some rest ∧
      k=tag::(leBytes 4 bytes.length++(bytes++rest)) := by
  obtain ⟨⟨tag,bytes⟩,hpart,h⟩ := Option.bind_eq_some_iff.mp h
  dsimp only at h
  split_ifs at h with hlen
  obtain ⟨rest,hrest,h⟩ := Option.bind_eq_some_iff.mp h
  exact ⟨tag,bytes,rest,hpart,hlen,hrest,(Option.some.inj h).symm⟩

/-- A member says itself where it ends. -/
theorem tupleKey_iff (hk : encodeEqualityTupleKey as=some k) (hl : encodeEqualityTupleKey bs=some l) :
    k=l ↔ Forall₂ SameKey as bs := by
  induction as generalizing bs k l with
  | nil =>
    cases hk
    cases bs with
    | nil => cases hl; simp
    | cons b bs =>
      obtain ⟨tag,bytes,rest,-,-,-,rfl⟩ := tupleKey_cons hl
      simp
  | cons a as ih =>
    obtain ⟨tag,bytes,rest,ha,hlen,hrest,rfl⟩ := tupleKey_cons hk
    cases bs with
    | nil => cases hl; simp
    | cons b bs =>
      obtain ⟨tag',bytes',rest',hb,hlen',hrest',rfl⟩ := tupleKey_cons hl
      rw [forall₂_cons,← ih hrest hrest',← tuplePart_iff (by simp [ha]) (by simp [hb]),ha,hb,cons.injEq,
        Option.some.injEq,Prod.mk.injEq,and_assoc]
      refine and_congr_right fun _ => ⟨fun h => ?_,fun ⟨hbytes,hrest⟩ => by rw [hbytes,hrest]⟩
      obtain ⟨hsize,h⟩ := append_inj h (by simp)
      exact append_inj h ((leBytes_inj hlen hlen').mp hsize)

end

section

theorem le_of_compare {x y : Int} (h : compare x y=o) : (o≠.gt → x≤y) ∧ (o≠.lt → y≤x) := by
  subst h
  exact ⟨fun h => not_lt.mp (compare_gt_iff_gt.not.mp h),fun h => not_lt.mp (compare_lt_iff_lt.not.mp h)⟩

def floatOf : Value → BitVec 64
  | .i64 n => i64AsF64 n
  | .f64 f => f
  | _ => 0

def isNumber : Value → Bool
  | .i64 _ | .f64 _ => true
  | _ => false

theorem key_of_number (hv : InI64 v) (hn : isNumber v=true) (hk : encodeEqualityPropertyValue v=some k) :
    isNan 52 (floatOf v)=false ∧ k=numericKey (normalized (floatOf v)) := by
  cases v <;> simp_all [isNumber,encodeEqualityPropertyValue,floatOf]
  case i64 => exact ⟨not_isNan_i64AsF64 hv,by rw [normalized_i64AsF64 hv,hk]⟩

theorem le_of_floatCmp (h : floatCmp x y=o) (hx : isNan 52 x=false) (hy : isNan 52 y=false) :
    (o≠.gt → floatKey x≤floatKey y) ∧ (o≠.lt → floatKey y≤floatKey x) := by
  rw [floatCmp,hx,hy] at h
  exact le_of_compare h

variable {s : StatScalar}

theorem key_of_valueCmp (hv : InI64 v) (hu : InI64 u) (hs : numericValue s=some u) (ho : valueCmp v s=some o)
    (hk : encodeEqualityPropertyValue v=some k) (hl : encodeEqualityPropertyValue u=some l) :
    isNumber v=true ∧ (o≠.gt → k≤l) ∧ (o≠.lt → l≤k) := by
  have hcmp : isNumber v=true ∧ isNumber u=true ∧ (isNan 52 (floatOf v)=false → isNan 52 (floatOf u)=false →
      (o≠.gt → floatKey (floatOf v)≤floatKey (floatOf u)) ∧ (o≠.lt → floatKey (floatOf u)≤floatKey (floatOf v))) := by
    cases s with
    | bool | utf8 => cases hs
    | int64 m =>
      cases hs
      cases v with
      | i64 n =>
        obtain ⟨hle,hge⟩ := le_of_compare (Option.some.inj ho)
        exact ⟨rfl,rfl,fun _ _ => ⟨fun h => floatKey_mono hv hu (hle h),fun h => floatKey_mono hu hv (hge h)⟩⟩
      | f64 f => exact ⟨rfl,rfl,le_of_floatCmp (Option.some.inj ho)⟩
      | _ => cases ho
    | float64 g =>
      simp only [numericValue] at hs
      split_ifs at hs
      cases hs
      cases v with
      | i64 | f64 => exact ⟨rfl,rfl,le_of_floatCmp (Option.some.inj ho)⟩
      | _ => cases ho
  obtain ⟨hnv,hnu,hle⟩ := hcmp
  obtain ⟨hnan,rfl⟩ := key_of_number hv hnv hk
  obtain ⟨hnan',rfl⟩ := key_of_number hu hnu hl
  exact ⟨hnv,fun h => numericKey_le ((hle hnan hnan').1 h),fun h => numericKey_le ((hle hnan hnan').2 h)⟩

theorem cmp_of_eval (hp : rangeBound p=some (s,lower,upper)) (h : evalAgainstValue p (some v)=true) :
    ∃ o, valueCmp v s=some o ∧ (lower=true → o≠.lt) ∧ (upper=true → o≠.gt) := by
  cases p <;> simp only [rangeBound,reduceCtorEq] at hp
  all_goals
    cases v <;> simp [evalAgainstValue] at h
  all_goals grind

variable {property : String} {p : ScanPredicate} {predicates : List ScanPredicate} {v : Value} (hv : InI64 v)
  (hk : encodeEqualityPropertyValue v=some k)

def BoundInI64 (p : ScanPredicate) : Prop := ∀ b u, rangeBound p=some b → numericValue b.1=some u → InI64 u

include hv hk

theorem narrow_keeps (h : narrow property w p=some w') (hp : BoundInI64 p) (hsat : evalAgainstValue p (some v)=true) :
    isNumber v=true ∧ (w.1≤k ∧ k≤w.2 → w'.1≤k ∧ k≤w'.2) := by
  rw [narrow] at h
  split_ifs at h
  obtain ⟨⟨s,lower,upper⟩,hb,h⟩ := Option.bind_eq_some_iff.mp h
  obtain ⟨u,hu,h⟩ := Option.bind_eq_some_iff.mp h
  obtain ⟨l,hl,⟨⟩⟩ := Option.bind_eq_some_iff.mp h
  obtain ⟨o,ho,hlower,hupper⟩ := cmp_of_eval hb hsat
  obtain ⟨hnum,hle,hge⟩ := key_of_valueCmp hv (hp _ u hb hu) hu ho hk hl
  refine ⟨hnum,fun ⟨hlow,hhigh⟩ => ?_⟩
  constructor
  · dsimp only
    split_ifs with hc
    · exact hge (hlower (Bool.and_eq_true_iff.mp hc).1)
    · exact hlow
  · dsimp only
    split_ifs with hc
    · exact hle (hupper (Bool.and_eq_true_iff.mp hc).1)
    · exact hhigh

theorem foldlM_narrow (h : predicates.foldlM (narrow property) w=some w') (hp : ∀ p ∈ predicates, BoundInI64 p)
    (hsat : ∀ p ∈ predicates, evalAgainstValue p (some v)=true) (hw : w.1≤k ∧ k≤w.2) : w'.1≤k ∧ k≤w'.2 := by
  induction predicates generalizing w with
  | nil =>
    cases h
    exact hw
  | cons p ps ih =>
    obtain ⟨w1,h1,h⟩ := Option.bind_eq_some_iff.mp h
    exact ih h (fun p hp' => hp p (.tail _ hp')) (fun p hp' => hsat p (.tail _ hp'))
      ((narrow_keeps hv hk h1 (hp p (.head _)) (hsat p (.head _))).2 hw)

/-- The first predicate makes the value a number, so its key is in the window before that is narrowed. -/
theorem key_in_window (h : numericRangeKeyBounds property predicates=some w) (hp : ∀ p ∈ predicates, BoundInI64 p)
    (hsat : ∀ p ∈ predicates, evalAgainstValue p (some v)=true) : w.1≤k ∧ k≤w.2 := by
  obtain ⟨w',hw,h⟩ := Option.bind_eq_some_iff.mp h
  cases predicates with
  | nil => cases h
  | cons p ps =>
    cases h
    obtain ⟨w1,h1,-⟩ := Option.bind_eq_some_iff.mp hw
    have hnum := (narrow_keeps hv hk h1 (hp p (.head _)) (hsat p (.head _))).1
    refine foldlM_narrow hv hk hw hp hsat ?_
    obtain ⟨-,rfl⟩ := key_of_number hv hnum hk
    have hlt := sortable_lt (normalized (floatOf v))
    have hfirst : 'n' :: ':' :: hexText 16 0="n:0000000000000000".toList := by decide
    have hlast : 'n' :: ':' :: hexText 16 (16^16-1)="n:ffffffffffffffff".toList := by decide
    rw [← hfirst,← hlast]
    exact ⟨cons_le_cons 'n' (cons_le_cons ':' (hexText_le hlt (Nat.zero_le _))),
      cons_le_cons 'n' (cons_le_cons ':' (hexText_le (by decide) (Nat.le_pred_of_lt hlt)))⟩

end

/-- Values that are equal have one key, the keys of integers are in their order, the key of a tuple tells its
members apart by their keys and strings from the rest, and what a range asks for is within its window. -/
theorem equality_keys :
    (∀ a b k l, InI64 a → InI64 b → cypherScalarEqual a b = true → encodeEqualityPropertyValue a = some k →
      encodeEqualityPropertyValue b = some l → k = l) ∧
    (∀ x y k l, IsI64 x → IsI64 y → x ≤ y → encodeEqualityPropertyValue (.i64 x) = some k →
      encodeEqualityPropertyValue (.i64 y) = some l → k ≤ l) ∧
    (∀ as bs k l, encodeEqualityTupleKey as = some k → encodeEqualityTupleKey bs = some l →
      (k = l ↔ Forall₂ SameKey as bs)) ∧
    ∀ property predicates w v k, numericRangeKeyBounds property predicates = some w → InI64 v →
      (∀ p ∈ predicates, BoundInI64 p ∧ evalAgainstValue p (some v) = true) →
      encodeEqualityPropertyValue v = some k → w.1 ≤ k ∧ k ≤ w.2 := by
  refine ⟨fun a b k l => key_of_equal,fun x y k l hx hy h hk hl => ?_,fun as bs k l => tupleKey_iff,
    fun property predicates w v k h hv hp hk => key_in_window hv hk h (fun p hm => (hp p hm).1) fun p hm => (hp p hm).2⟩
  obtain ⟨-,rfl⟩ := key_of_number (v := .i64 x) hx rfl hk
  obtain ⟨-,rfl⟩ := key_of_number (v := .i64 y) hy rfl hl
  exact numericKey_le (floatKey_mono hx hy h)

def five : List Char := "n:c014000000000000".toList

def seven : List Char := "n:c01c000000000000".toList

theorem equality_keys_five : encodeEqualityPropertyValue (.f64 0x4014000000000000) = some five ∧ five ≤ seven ∧
    numericRangeKeyBounds "age" [.gtEq "age" (.int64 5)] = some (five,"n:ffffffffffffffff".toList) ∧
    seven ≤ "n:ffffffffffffffff".toList ∧
    (encodeEqualityTupleKey [.i64 5] = encodeEqualityTupleKey [.f64 0x4014000000000000] ↔
      Forall₂ SameKey [.i64 5] [.f64 0x4014000000000000]) :=
  have h5 : IsI64 5 := by unfold IsI64; decide
  have h7 : IsI64 7 := by unfold IsI64; decide
  have bound : BoundInI64 (.gtEq "age" (.int64 5)) := fun b u hb hu => by cases hb; cases hu; exact h5
  ⟨(equality_keys.1 (.i64 5) (.f64 0x4014000000000000) five _ h5 trivial (by decide) (by decide) rfl) ▸ rfl,
    equality_keys.2.1 5 7 _ _ h5 h7 (by decide) (by decide) (by decide),by decide,
    (equality_keys.2.2.2 "age" [.gtEq "age" (.int64 5)] (five,"n:ffffffffffffffff".toList) (.i64 7) seven (by decide) h7
      (forall_mem_singleton.mpr ⟨bound,by decide⟩) (by decide)).2,
    Option.some_inj.trans (equality_keys.2.2.1 [.i64 5] [.f64 0x4014000000000000] _ _ rfl rfl)⟩

/-- A string and a truth value with one key, whose tuples have different ones. -/
theorem tuple_keys_differ : encodeEqualityPropertyValue (.str "b:1") = encodeEqualityPropertyValue (.bool true) ∧
    (encodeEqualityTupleKey [.str "b:1"]).isSome ∧
    encodeEqualityTupleKey [.str "b:1"] ≠ encodeEqualityTupleKey [.bool true] := by decide

end NamiDB.Cypher
