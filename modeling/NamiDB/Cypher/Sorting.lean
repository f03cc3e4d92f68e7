import NamiDB.Cypher.Scan

/-! The order of values, and the first rows of a sort without the sort. -/
namespace NamiDB.Cypher
open Query Storage Lib List

/-- `partial_cmp`. -/
def floatPartialCmp (a b : BitVec 64) : Option Ordering :=
  if isNan 52 a||isNan 52 b then none else some (compare (floatKey a) (floatKey b))

/-- `compare`. Values of different kinds, and lists, maps and graph values, do not compare. -/
def compareValues : RuntimeValue → RuntimeValue → Option Ordering
  | .integer a, .integer b => some (compare a b)
  | .float a, .float b => floatPartialCmp a b
  | .integer a, .float b => floatPartialCmp (i64AsF64 a) b
  | .float a, .integer b => floatPartialCmp a (i64AsF64 b)
  | .string a, .string b => some (compare a b)
  | .bool a, .bool b => some (compare a b)
  | .date a, .date b => some (compare a b)
  | .dateTime a, .dateTime b => some (compare a b)
  | _, _ => none

/-- NULL is the greatest value, and what does not compare counts as equal. -/
def orderForSort (descending : Bool) (a b : RuntimeValue) : Ordering :=
  let base : Ordering := match isNullValue a, isNullValue b with
    | true, true => .eq
    | true, false => .gt
    | false, true => .lt
    | false, false => (compareValues a b).getD .eq
  if descending then base.swap else base

def Scalars.sorting (L : Scalars) : Scalars := { L with orderForSort := Cypher.orderForSort }

theorem floatPartialCmp_swap (a b : BitVec 64) : floatPartialCmp b a=(floatPartialCmp a b).map Ordering.swap := by
  unfold floatPartialCmp
  rw [Bool.or_comm]
  split_ifs
  · rfl
  · exact congrArg some (Std.OrientedCmp.eq_swap)

theorem compareValues_swap (a b : RuntimeValue) : compareValues b a=(compareValues a b).map Ordering.swap := by
  cases a <;> cases b <;> first
    | rfl
    | exact floatPartialCmp_swap _ _
    | exact congrArg some (Std.OrientedCmp.eq_swap)

theorem orderForSort_swap (descending : Bool) (a b : RuntimeValue) :
    orderForSort descending b a=(orderForSort descending a b).swap := by
  unfold orderForSort
  rw [compareValues_swap a b]
  cases isNullValue a <;> cases isNullValue b <;> cases descending <;> cases compareValues a b <;> simp

/-- Values that compare in one way; of the `others` no two compare. -/
inductive Kind where
  | strings | booleans | dates | dateTimes | integers | floats | others

/-- NULL may be among the values of every kind. -/
def Kind.has : Kind → RuntimeValue → Bool
  | _, .null => true
  | .strings, .string _ | .booleans, .bool _ | .dates, .date _ | .dateTimes, .dateTime _ | .integers, .integer _ => true
  | .floats, .float f => !isNan 52 f
  | .others, v => (compareValues v v).isNone
  | _, _ => false

def stringRank : RuntimeValue → String
  | .string s => s
  | _ => ""

def numberRank : RuntimeValue → Int
  | .integer n | .date n | .dateTime n => n
  | .bool b => b.toNat
  | .float f => floatKey f
  | _ => 0

section

variable {kind : Kind} {a b c : RuntimeValue}

theorem orderForSort_trans {α : Type} [Ord α] [Std.TransOrd α] (rank : RuntimeValue → α)
    (hrank : ∀ a b, kind.has a=true → kind.has b=true → isNullValue a=false → isNullValue b=false →
      (compareValues a b).getD .eq=compare (rank a) (rank b))
    (descending : Bool) (ha : kind.has a=true) (hb : kind.has b=true) (hc : kind.has c=true)
    (hab : orderForSort descending a b≠.gt) (hbc : orderForSort descending b c≠.gt) :
    orderForSort descending a c≠.gt := by
  unfold orderForSort at hab hbc ⊢
  cases hna : isNullValue a <;> cases hnb : isNullValue b <;> cases hnc : isNullValue c <;> cases descending <;>
    simp_all
  · exact Ordering.isLE_iff_ne_gt.mp
      (Std.TransCmp.isLE_trans (Ordering.isLE_iff_ne_gt.mpr hab) (Ordering.isLE_iff_ne_gt.mpr hbc))
  · exact Ordering.isGE_iff_ne_lt.mp
      (Std.TransCmp.isGE_trans (Ordering.isGE_iff_ne_lt.mpr hab) (Ordering.isGE_iff_ne_lt.mpr hbc))

theorem Kind.trans (kind : Kind) (descending : Bool) (ha : kind.has a=true) (hb : kind.has b=true)
    (hc : kind.has c=true) : orderForSort descending a b≠.gt → orderForSort descending b c≠.gt →
      orderForSort descending a c≠.gt := by
  cases kind with
  | strings =>
    refine orderForSort_trans stringRank (fun a b ha hb hna hnb => ?_) descending ha hb hc
    cases a <;> cases ha <;> cases hna
    cases b <;> cases hb <;> cases hnb
    rfl
  | others =>
    refine orderForSort_trans (fun _ => (0 : Int)) (fun a b ha hb hna hnb => ?_) descending ha hb hc
    cases a <;> try cases ha
    all_goals cases b <;> try cases hb
    all_goals first | rfl | simp_all [Kind.has,compareValues,floatPartialCmp]
  | floats =>
    refine orderForSort_trans numberRank (fun a b ha hb hna hnb => ?_) descending ha hb hc
    cases a <;> first | cases ha; done | cases hna
    cases b <;> first | cases hb; done | cases hnb
    simp_all [Kind.has,compareValues,floatPartialCmp,numberRank]
  | booleans | dates | dateTimes | integers =>
    refine orderForSort_trans numberRank (fun a b ha hb hna hnb => ?_) descending ha hb hc
    cases a <;> cases ha <;> cases hna
    cases b <;> cases hb <;> cases hnb
    rename_i x y
    first | rfl | cases x <;> cases y <;> rfl

end

section

variable (L : Scalars) (params : Params)

def boundedTopk (keys : List OrderKey) (bound : Nat) (rows : List Row) : Except EvalError (List Row) :=
  if bound=0 then .ok []
  else do
    let keyed ← gather (fun row => do
      let b ← keyedRow L params keys row
      pure [b]) rows
    pure ((topK (fun a b => compareKeys L keys a.1 b.1) bound keyed).map Prod.snd)

variable {L params} {keys : List OrderKey} {rows : List Row}

theorem boundedTopk_of_keyed {bound : Nat} {keyed : List (List RuntimeValue × Row)} (hbound : bound≠0)
    (h : gather (fun row => do
      let b ← keyedRow L params keys row
      pure [b]) rows = .ok keyed) : boundedTopk L params keys bound rows =
        .ok ((topK (fun a b => compareKeys L keys a.1 b.1) bound keyed).map Prod.snd) := by
  rw [boundedTopk,if_neg hbound,h]
  rfl

abbrev Swaps (L : Scalars) : Prop :=
  ∀ descending a b, L.orderForSort descending b a=(L.orderForSort descending a b).swap

theorem swaps_of_eq (h : L.orderForSort=orderForSort) : Swaps L := by
  rw [Swaps,h]
  exact orderForSort_swap

theorem compareKeys_swap (hswap : Swaps L) (keys : List OrderKey) (as bs : List RuntimeValue) :
    compareKeys L keys bs as=(compareKeys L keys as bs).swap := by
  induction keys generalizing as bs with
  | nil => rfl
  | cons key keys ih =>
    cases as with
    | nil => cases bs <;> rfl
    | cons a as =>
      cases bs with
      | nil => rfl
      | cons b bs =>
        rw [compareKeys,compareKeys,hswap key.descending a b]
        cases L.orderForSort key.descending a b with
        | lt | gt => rfl
        | eq => exact ih as bs

def Consistent (L : Scalars) (params : Params) (keys : List OrderKey) (good : Row → Prop) : Prop :=
  ∀ a b c as bs cs, good a → good b → good c → keyedRow L params keys a = .ok (as,a) →
    keyedRow L params keys b = .ok (bs,b) → keyedRow L params keys c = .ok (cs,c) →
    compareKeys L keys as bs ≠ .gt → compareKeys L keys bs cs ≠ .gt → compareKeys L keys as cs ≠ .gt

theorem boundedTopk_eq (hswap : Swaps L) (hkeys : ∀ row ∈ rows, ∃ b, keyedRow L params keys row = .ok b)
    (hconsistent : Consistent L params keys (·∈rows)) (bound : Nat) :
    boundedTopk L params keys bound rows=(sortRows L params keys rows).map (·.take bound) := by
  obtain ⟨keyed,hkeyed⟩ := exists_gather_one hkeys
  have hall := gather_one_eq_ok.mp hkeyed
  rw [sortRows,hkeyed]
  change _ = Except.ok (take bound (map Prod.snd _))
  rw [← map_take]
  by_cases hbound : bound=0
  · rw [boundedTopk,if_pos hbound,hbound,take_zero]
    rfl
  · rw [boundedTopk_of_keyed hbound hkeyed,topK_eq_of_mem (fun a b => compareKeys_swap hswap keys a.1 b.1)]
    · rfl
    · intro a ha b hb c hc
      obtain ⟨rowA,hrowA,hkeyA⟩ := mem_of_forall₂_right hall ha
      obtain ⟨rowB,hrowB,hkeyB⟩ := mem_of_forall₂_right hall hb
      obtain ⟨rowC,hrowC,hkeyC⟩ := mem_of_forall₂_right hall hc
      obtain rfl := keyedRow_snd hkeyA
      obtain rfl := keyedRow_snd hkeyB
      obtain rfl := keyedRow_snd hkeyC
      exact hconsistent _ _ _ _ _ _ hrowA hrowB hrowC hkeyA hkeyB hkeyC

theorem compareKeys_cons (key : OrderKey) (a b : RuntimeValue) (as bs : List RuntimeValue) :
    compareKeys L.sorting (key::keys) (a::as) (b::bs) =
      (orderForSort key.descending a b).then (compareKeys L.sorting keys as bs) := by
  have hsorting : L.sorting.orderForSort key.descending a b=orderForSort key.descending a b := rfl
  rw [compareKeys,hsorting]
  cases orderForSort key.descending a b <;> rfl

abbrev OfKinds (values : List RuntimeValue) (kinds : List Kind) : Prop :=
  Forall₂ (fun v kind => Kind.has kind v=true) values kinds

theorem compareKeys_trans (hA : OfKinds as kinds) (hB : OfKinds bs kinds) (hC : OfKinds cs kinds)
    (hab : compareKeys L.sorting keys as bs≠.gt) (hbc : compareKeys L.sorting keys bs cs≠.gt) :
    compareKeys L.sorting keys as cs≠.gt := by
  induction hA generalizing keys bs cs with
  | nil => cases keys <;> nofun
  | @cons a kind as kinds ha has ih =>
    obtain ⟨b,bs,hb,hbs,rfl⟩ := forall₂_cons_right_iff.mp hB
    obtain ⟨c,cs,hc,hcs,rfl⟩ := forall₂_cons_right_iff.mp hC
    cases keys with
    | nil => nofun
    | cons key keys =>
      have habc := kind.trans key.descending ha hb hc
      -- If the first keys of `a` and `c` do not differ, neither do those of `b`, which lie between them.
      have hbca := kind.trans key.descending hb hc ha
      have hcab := kind.trans key.descending hc ha hb
      have hrest : compareKeys L.sorting keys as bs≠.gt → compareKeys L.sorting keys bs cs≠.gt →
          compareKeys L.sorting keys as cs≠.gt := ih hbs hcs
      rw [compareKeys_cons] at hab hbc ⊢
      rw [orderForSort_swap key.descending a b] at hbca
      rw [orderForSort_swap key.descending a c] at hbca hcab
      rw [orderForSort_swap key.descending b c] at hcab
      cases h1 : orderForSort key.descending a b <;> cases h2 : orderForSort key.descending b c <;>
        cases h3 : orderForSort key.descending a c <;> simp_all

/-- Keys compare consistently where the values of each are of one kind. -/
theorem consistent_of_kinds {good : Row → Prop} (kinds : List Kind)
    (h : ∀ row values, good row → keyedRow L.sorting params keys row = .ok (values,row) →
      OfKinds values kinds) : Consistent L.sorting params keys good :=
  fun a b c as bs cs ha hb hc hkeyA hkeyB hkeyC =>
    compareKeys_trans (h a as ha hkeyA) (h b bs hb hkeyB) (h c cs hc hkeyC)

/-- The heap agrees with the sort on all lists of some rows exactly when the keys of these rows compare
consistently. -/
theorem boundedTopk_iff (L : Scalars) (params : Params) (keys : List OrderKey) (good : Row → Prop)
    (hkeys : ∀ row, good row → ∃ b, keyedRow L.sorting params keys row = .ok b) :
    (∀ rows, (∀ row ∈ rows, good row) → ∀ bound, boundedTopk L.sorting params keys bound rows =
      (sortRows L.sorting params keys rows).map (·.take bound)) ↔ Consistent L.sorting params keys good := by
  have hswap : Swaps L.sorting := orderForSort_swap
  constructor
  · intro hall a b c as bs cs ha hb hc hkeyA hkeyB hkeyC hab hbc hac
    have hcircle : compareKeys L.sorting keys cs as = .lt := by rw [compareKeys_swap hswap,hac]; rfl
    have hrows : ∀ row ∈ [a,b,c], good row := by
      simp only [forall_mem_cons]
      exact ⟨ha,hb,hc,forall_mem_nil _⟩
    obtain ⟨sorted,hsorted⟩ := exists_sortRows fun row hrow => hkeys row (hrows row hrow)
    obtain ⟨hone,htwo⟩ : topK (fun a b : List RuntimeValue × Row => compareKeys L.sorting keys a.1 b.1) 1
        [(as,a),(bs,b),(cs,c)]=[(cs,c)] ∧ _ :=
      topK_circle (fun a b => compareKeys_swap hswap keys a.1 b.1) hab hbc hcircle
    have hkeyed : gather (fun row => do
        let b ← keyedRow L.sorting params keys row
        pure [b]) [a,b,c] = .ok [(as,a),(bs,b),(cs,c)] := by
      simp only [gather,hkeyA,hkeyB,hkeyC]
      rfl
    have h1 := hall [a,b,c] hrows 1
    have h2 := hall [a,b,c] hrows 2
    rw [boundedTopk_of_keyed (by decide) hkeyed,hone,hsorted] at h1
    rw [boundedTopk_of_keyed (by decide) hkeyed,htwo,hsorted] at h2
    -- The first row of both answers would be the first row of the sort.
    obtain rfl : c=a := by
      cases sorted with
      | nil => cases h1
      | cons row sorted =>
        have h1 := head_eq_of_cons_eq (Except.ok.inj h1)
        exact h1.trans (head_eq_of_cons_eq (Except.ok.inj h2)).symm
    have hsame : cs=as := by
      rw [hkeyC] at hkeyA
      exact (Prod.mk.inj (Except.ok.inj hkeyA)).1
    have hself := compareKeys_swap hswap keys as as
    rw [hsame] at hcircle
    rw [hcircle] at hself
    cases hself
  · intro hconsistent rows hrows bound
    refine boundedTopk_eq hswap (fun row hrow => hkeys row (hrows row hrow)) ?_ bound
    intro a b c as bs cs ha hb hc
    exact hconsistent a b c as bs cs (hrows a ha) (hrows b hb) (hrows c hc)

def byX : List OrderKey := [⟨.var "x",false⟩]

def xRow (v : RuntimeValue) : Row := Row.new.set "x" v

/-- `ORDER BY x` over 2, "a", 1: the least row alone is 1, but 2 and "a" are the least two, so that no order of the
three has both answers at its front. -/
theorem boundedTopk_mixed_kinds :
    boundedTopk Scalars.bare.sorting (fun _ => none) byX 1 [xRow (.integer 2), xRow (.string "a"), xRow (.integer 1)] =
      .ok [xRow (.integer 1)] ∧
    boundedTopk Scalars.bare.sorting (fun _ => none) byX 2 [xRow (.integer 2), xRow (.string "a"), xRow (.integer 1)] =
      .ok [xRow (.integer 2), xRow (.string "a")] ∧
    ∀ sorted : List Row, ¬ (sorted.take 1 = [xRow (.integer 1)] ∧
      sorted.take 2 = [xRow (.integer 2), xRow (.string "a")]) := by
  obtain ⟨hone,htwo⟩ : topK (fun a b : List RuntimeValue × Row => compareKeys Scalars.bare.sorting byX a.1 b.1) 1
      [([.integer 2],xRow (.integer 2)),([.string "a"],xRow (.string "a")),([.integer 1],xRow (.integer 1))] = _ ∧ _ :=
    topK_circle (fun a b => compareKeys_swap orderForSort_swap byX a.1 b.1) (by decide) (by decide) (by decide)
  have hkeyed : gather (fun row => do
      let b ← keyedRow Scalars.bare.sorting (fun _ => none) byX row
      pure [b]) [xRow (.integer 2),xRow (.string "a"),xRow (.integer 1)] =
        .ok [([.integer 2],xRow (.integer 2)),([.string "a"],xRow (.string "a")),
          ([.integer 1],xRow (.integer 1))] := rfl
  refine ⟨?_,?_,?_⟩
  · rw [boundedTopk_of_keyed (by decide) hkeyed,hone]
    rfl
  · rw [boundedTopk_of_keyed (by decide) hkeyed,htwo]
    rfl
  rintro sorted ⟨hone,htwo⟩
  have hfirst : [xRow (.integer 2)]=[xRow (.integer 1)] := by
    rw [← hone,show sorted.take 1=(sorted.take 2).take 1 by rw [take_take]; rfl,htwo]
    rfl
  have hvalue := congrArg (fun rows : List Row => rows.map (·.get "x")) hfirst
  simp [xRow] at hvalue

theorem boundedTopk_integers :
    boundedTopk Scalars.bare.sorting (fun _ => none) byX 2 [xRow (.integer 3), xRow (.integer 1), xRow (.integer 2)] =
      (sortRows Scalars.bare.sorting (fun _ => none) byX
        [xRow (.integer 3), xRow (.integer 1), xRow (.integer 2)]).map (·.take 2) := by
  have hkey : ∀ n, keyedRow Scalars.bare.sorting (fun _ => none) byX (xRow (.integer n)) =
      .ok ([.integer n],xRow (.integer n)) := by
    intro n
    rfl
  refine (boundedTopk_iff Scalars.bare (fun _ => none) byX (fun row => ∃ n, row=xRow (.integer n)) ?_).mpr ?_ _ ?_ 2
  · rintro row ⟨n,rfl⟩
    exact ⟨_,hkey n⟩
  · refine consistent_of_kinds [.integers] fun row values hgood hkeyed => ?_
    obtain ⟨n,rfl⟩ := hgood
    cases hkeyed
    exact .cons rfl .nil
  · simp only [forall_mem_cons]
    exact ⟨⟨3,rfl⟩,⟨1,rfl⟩,⟨2,rfl⟩,forall_mem_nil _⟩

end
end NamiDB.Cypher
