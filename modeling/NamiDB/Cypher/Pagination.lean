import NamiDB.Cypher.Pushdown
import NamiDB.Cypher.Windows

/-! Pages of a query. A page by offset is a window of the rows. A page by key keeps the ids that come after the last
one, and takes the first rows in the order of the ids. -/
namespace NamiDB.Cypher
open Query Storage Lib Option Except
open List hiding beq_eq_decide

def orderTest : BinaryOp → Option (Ordering → Bool)
  | .lt => some (· == .lt)
  | .gt => some (· == .gt)
  | .le => some (· != .gt)
  | .ge => some (· != .lt)
  | _ => none

def orderCmp (a b : RuntimeValue) (test : Ordering → Bool) : RuntimeValue :=
  match compareValues a b with
  | some o => .bool (test o)
  | none => .null

def Scalars.comparing (L : Scalars) : Scalars where
  __ := L.sorting
  operate op a b :=
    match orderTest op with
    | some test => .ok (orderCmp a b test)
    | none => L.operate op a b

section

structure Cursor where
  skip : Nat

structure CursorKeyset where
  planHash : BitVec 64
  lastId : String

def pageLimit (pageSize : Nat) : Nat := if pageSize=0 then noLimit else pageSize

/-- A window that the plan has is replaced. -/
def paginatePlan (plan : LogicalPlan) (cursor : Option Cursor) (pageSize : Nat) : LogicalPlan :=
  let skip := .const ((cursor.map Cursor.skip).getD 0)
  let limit := .const (pageLimit pageSize)
  match plan with
  | .topN input keys _ _ => .topN input keys skip limit
  | other => .topN other [] skip limit

def nextCursor (current : Option Cursor) (returnedRows pageSize : Nat) : Option Cursor :=
  if pageSize=0 ∨ returnedRows<pageSize then none else some ⟨(current.map Cursor.skip).getD 0+pageSize⟩

def idAccess (keyAlias : String) : Expression := .property (.var keyAlias) "_id"

def paginatePlanKeyset (plan : LogicalPlan) (cursor : Option CursorKeyset) (pageSize : Nat) (keyAlias : String) :
    LogicalPlan :=
  let plan := match cursor with
    | some c => .filter plan (.binary .gt (idAccess keyAlias) (.literal (.string c.lastId)))
    | none => plan
  .topN plan [⟨idAccess keyAlias,false⟩] (.const 0) (.const (pageLimit pageSize))

def nextCursorKeyset (planHash : BitVec 64) (returnedRows pageSize : Nat) (lastId : Option String) :
    Option CursorKeyset :=
  if pageSize=0 ∨ returnedRows<pageSize then none else lastId.map fun id => ⟨planHash,id⟩

def keyId (keyAlias : String) (row : Row) : Option NodeId :=
  match row.get keyAlias with
  | some (.node n) => some n.id
  | _ => none

variable (L : Scalars) (C : Callees) (params : Params) (base : Base)

def offsetPage (plan : LogicalPlan) (pageSize : Nat) (cursor : Option Cursor) :
    Except EvalError (List Row × Option Cursor) := do
  let rows ← execute L C params base (paginatePlan plan cursor pageSize) none none
  pure (rows,nextCursor cursor rows.length pageSize)

def keysetPage (optimize : LogicalPlan → LogicalPlan) (plan : LogicalPlan) (planHash : BitVec 64) (pageSize : Nat)
    (keyAlias : String) (cursor : Option CursorKeyset) : Except EvalError (List Row × Option CursorKeyset) := do
  let rows ← execute L C params base (optimize (paginatePlanKeyset plan cursor pageSize keyAlias)) none none
  pure (rows,nextCursorKeyset planHash rows.length pageSize ((rows.getLast?.bind (keyId keyAlias)).map L.nodeIdText))

end

section

variable {κ : Type} {page : Option κ → Except EvalError (List Row × Option κ)} {whole : List Row} {size : Nat}

/-- The pages from a cursor on, until none is returned; nothing when the fuel runs out. -/
def followCursors (page : Option κ → Except EvalError (List Row × Option κ)) :
    Nat → Option κ → Except EvalError (Option (List Row))
  | 0, _ => .ok none
  | fuel+1, cursor => do
    let (rows,next) ← page cursor
    match next with
    | none => pure (some rows)
    | some c =>
      let rest ← followCursors page fuel (some c)
      pure (rest.map (rows++·))

theorem followCursors_windows (hsize : 0<size) (cursorAt : Nat → κ)
    (hpage : ∀ n ≤ whole.length, size ∣ n → page (if n=0 then none else some (cursorAt n)) =
      .ok ((whole.drop n).take size,if whole.length<n+size then none else some (cursorAt (n+size))))
    {n fuel : Nat} (hn : n≤whole.length) (hdvd : size ∣ n) (hfuel : whole.length<n+fuel) :
    followCursors page fuel (if n=0 then none else some (cursorAt n)) = .ok (some (whole.drop n)) := by
  induction fuel generalizing n with
  | zero => omega
  | succ fuel ih =>
    rw [followCursors,hpage n hn hdvd]
    by_cases hlast : whole.length<n+size
    · rw [if_pos hlast,take_of_length_le (by rw [length_drop]; omega)]
      rfl
    · have hrest := ih (n := n+size) (by omega) (hdvd.add dvd_rfl) (by omega)
      rw [if_neg (by omega)] at hrest
      rw [if_neg hlast]
      change (followCursors page fuel _ >>= _) = _
      rw [hrest,← drop_drop]
      exact congrArg (fun l => ok (some l)) (take_append_drop size _)

end

section

variable {L : Scalars} {C : Callees} {params : Params} {base : Base} {plan : LogicalPlan} {keyAlias : String}
  {rows : List Row}
variable {row : Row} {sorted : List Row} {n : Nat} {x : NodeId}

theorem rowWindow_eq (hlen : l.length<noLimit) (skip limit : Nat) :
    rowWindow skip limit l=(l.drop skip).take limit := by
  unfold rowWindow
  split
  · rename_i hlimit
    rw [take_of_length_le]
    rw [length_drop]
    omega
  · rfl

def keyText (L : Scalars) (keyAlias : String) (row : Row) : String :=
  ((keyId keyAlias row).map L.nodeIdText).getD ""

def orderByKey (L : Scalars) (keyAlias : String) (a b : Row) : Ordering :=
  compare (keyText L keyAlias a) (keyText L keyAlias b)

def byKey (L : Scalars) (keyAlias : String) (rows : List Row) : List Row :=
  rows.mergeSort (leOf (orderByKey L keyAlias))

theorem evaluate_idAccess (h : (keyId keyAlias row).isSome=true) :
    evaluate L.comparing params (idAccess keyAlias) row.get = .ok (.string (keyText L keyAlias row)) := by
  unfold keyId at h
  split at h
  · rename_i n hn
    simp only [idAccess,evaluate,hn,keyText,keyId]
    rfl
  · cases h

theorem byKeys_id (text : Row → String) :
    byKeys L.comparing [⟨idAccess keyAlias,false⟩] (fun row => [.string (text row)]) =
      fun a b => compare (text a) (text b) := by
  funext a b
  change (compare (text a) (text b)).then .eq = _
  cases compare (text a) (text b) <;> rfl

theorem execute_firstByKey (hrows : execute L.comparing C params base plan none none = .ok rows)
    (hkeys : ∀ row ∈ rows, (keyId keyAlias row).isSome=true) (hlen : rows.length<noLimit) {limit : Nat}
    (hagrees : IndexAgrees C base plan [⟨idAccess keyAlias,false⟩] limit) :
    execute L.comparing C params base (.topN plan [⟨idAccess keyAlias,false⟩] (.const 0) (.const limit)) none none =
      .ok ((byKey L keyAlias rows).take limit) := by
  have hvalues : ∀ row ∈ rows, evaluateAll L.comparing params
      ([⟨idAccess keyAlias,false⟩].map OrderKey.expression) (id row).get = .ok [.string (keyText L keyAlias row)] := by
    intro row hrow
    simp only [map_cons,evaluateAll,id,evaluate_idAccess (hkeys row hrow)]
    rfl
  have hsorted := sortRows_map hvalues
  have hconsistent := consistent_map hvalues <| by
    rw [byKeys_id]
    simp only [TransOn,ne_eq,compare_gt_iff_gt,not_lt]
    exact fun a _ b _ c _ => le_trans
  simp only [byKeys_id,List.map_id] at hsorted hconsistent
  rw [execute_topN rfl (cons_ne_nil _ _) rfl rfl hrows hsorted fun _ => ⟨hconsistent,by rwa [Nat.zero_add]⟩,
    rowWindow_eq (by rw [length_mergeSort]; exact hlen)]
  rfl

theorem execute_after (hrows : execute L.comparing C params base plan none none = .ok rows)
    (hkeys : ∀ row ∈ rows, (keyId keyAlias row).isSome=true) (lastId : String) : execute L.comparing C params base
        (.filter plan (.binary .gt (idAccess keyAlias) (.literal (.string lastId)))) none none =
      .ok (rows.filter fun row => lastId<keyText L keyAlias row) := by
  have hvalue : ∀ row ∈ rows, evaluate L.comparing params
      (.binary .gt (idAccess keyAlias) (.literal (.string lastId))) row.get =
        .ok (.bool (decide (lastId<keyText L keyAlias row))) := by
    intro row hrow
    simp only [evaluate,evaluate_idAccess (hkeys row hrow)]
    change ok (RuntimeValue.bool (compare _ _ == .gt)) = _
    simp only [← compare_gt_iff_gt (a := keyText L keyAlias row),beq_eq_decide]
  refine bind_eq_ok.mpr ⟨rows,hrows,filterRows_eq_ok.mpr ⟨fun row hrow => ⟨_,hvalue row hrow⟩,?_⟩⟩
  refine filter_congr fun row hrow => ?_
  rw [keeps,evalRow,hvalue row hrow]
  simp [RuntimeValue.asBool]

theorem pairwise_byKey (hnodup : (rows.map (keyText L keyAlias)).Nodup) :
    (byKey L keyAlias rows).Pairwise fun a b => keyText L keyAlias a<keyText L keyAlias b := by
  have hsorted : (byKey L keyAlias rows).Pairwise fun a b => leOf (orderByKey L keyAlias) a b=true := by
    refine pairwise_mergeSort ?_ ?_ rows
    · simp only [leOf_iff,orderByKey,ne_eq,compare_gt_iff_gt,not_lt]
      exact fun _ _ _ => le_trans
    · simp only [Bool.or_eq_true,leOf_iff,orderByKey,ne_eq,compare_gt_iff_gt,not_lt]
      exact fun _ _ => le_total _ _
  have hperm : (byKey L keyAlias rows).Perm rows := mergeSort_perm _ _
  have hne := List.pairwise_map.mp ((hperm.map (keyText L keyAlias)).nodup_iff.mpr hnodup)
  refine (hsorted.and hne).imp fun ⟨hle,hne⟩ => lt_of_le_of_ne ?_ hne
  simpa only [leOf_iff,orderByKey,ne_eq,compare_gt_iff_gt,not_lt] using hle

theorem byKey_eq (hperm : sorted.Perm rows)
    (hsorted : sorted.Pairwise fun a b => keyText L keyAlias a<keyText L keyAlias b) :
    byKey L keyAlias rows=sorted := by
  have hnodup : (rows.map (keyText L keyAlias)).Nodup :=
    (hperm.map _).nodup_iff.mp (List.pairwise_map.mpr (hsorted.imp ne_of_lt))
  exact ((mergeSort_perm rows _).trans hperm.symm).eq_of_pairwise
    (fun _ _ _ _ hab hba => absurd hba (not_lt_of_gt hab)) (pairwise_byKey hnodup) hsorted

theorem filter_after (hsorted : sorted.Pairwise fun a b => keyText L keyAlias a<keyText L keyAlias b)
    (hn : n<sorted.length) :
    (sorted.filter fun row => keyText L keyAlias sorted[n]<keyText L keyAlias row)=sorted.drop (n+1) := by
  have hsplit : sorted=sorted.take n++sorted[n]::sorted.drop (n+1) := by
    rw [← drop_eq_getElem_cons hn,take_append_drop]
  generalize hx : sorted[n]=x at hsplit ⊢
  rw [hsplit,pairwise_append,pairwise_cons] at hsorted
  obtain ⟨-,⟨hafter,-⟩,hbefore⟩ := hsorted
  have hnone : (sorted.take n).filter (fun row => keyText L keyAlias x<keyText L keyAlias row)=[] :=
    List.filter_eq_nil_iff.mpr fun row hrow =>
      mt of_decide_eq_true (not_lt_of_gt (hbefore row hrow x (.head _)))
  have hall : (sorted.drop (n+1)).filter (fun row => keyText L keyAlias x<keyText L keyAlias row) =
      sorted.drop (n+1) := List.filter_eq_self.mpr fun row hrow => decide_eq_true (hafter row hrow)
  conv_lhs => rw [hsplit]
  rw [filter_append,filter_cons_of_neg (by simp),hnone,hall,nil_append]

/-- The rows bind different nodes to the key variable, the texts of their ids compare as the ids do, and their number
is one that a machine can count. -/
structure BindsKeys (L : Scalars) (keyAlias : String) (rows : List Row) : Prop where
  bound : ∀ row ∈ rows, (keyId keyAlias row).isSome=true
  distinct : (rows.map (keyId keyAlias)).Nodup
  texts : ∀ a ∈ rows, ∀ b ∈ rows, ∀ x ∈ keyId keyAlias a, ∀ y ∈ keyId keyAlias b, x<y →
    L.nodeIdText x<L.nodeIdText y
  counted : rows.length<noLimit

theorem keyText_of_keyId (h : keyId keyAlias row=some x) : keyText L keyAlias row=L.nodeIdText x := by
  rw [keyText,h]
  rfl

theorem BindsKeys.lt_of_keyText (h : BindsKeys L keyAlias rows) (ha : a∈rows) (hb : b∈rows)
    (hlt : keyText L keyAlias a<keyText L keyAlias b) (hx : keyId keyAlias a=some x) (hy : keyId keyAlias b=some y) :
    x<y := by
  rw [keyText_of_keyId hx,keyText_of_keyId hy] at hlt
  rcases Nat.lt_trichotomy x y with hxy | rfl | hyx
  · exact hxy
  · exact absurd hlt (lt_irrefl _)
  · exact absurd (h.texts b hb a ha y hy x hx hyx) (not_lt_of_gt hlt)

theorem BindsKeys.nodup_keyText (h : BindsKeys L keyAlias rows) : (rows.map (keyText L keyAlias)).Nodup := by
  refine List.pairwise_map.mpr ((List.pairwise_map.mp h.distinct).imp_of_mem fun {a b} ha hb hne heq => hne ?_)
  obtain ⟨x,hx⟩ := isSome_iff_exists.mp (h.bound a ha)
  obtain ⟨y,hy⟩ := isSome_iff_exists.mp (h.bound b hb)
  rw [keyText_of_keyId hx,keyText_of_keyId hy] at heq
  rw [hx,hy,L.ids.injective x y (String.ofList_injective heq)]

theorem BindsKeys.ascending (h : BindsKeys L keyAlias rows) : (byKey L keyAlias rows).Pairwise fun a b =>
    ∀ x y, keyId keyAlias a=some x → keyId keyAlias b=some y → x<y :=
  (pairwise_byKey h.nodup_keyText).imp_of_mem fun ha hb hlt _ _ =>
    h.lt_of_keyText (List.mem_mergeSort.mp ha) (List.mem_mergeSort.mp hb) hlt

def cursorAfter (L : Scalars) (keyAlias : String) (planHash : BitVec 64) (sorted : List Row) (n : Nat) : CursorKeyset :=
  ⟨planHash,(sorted[n-1]?.map (keyText L keyAlias)).getD ""⟩

theorem nextCursorKeyset_window (hbound : ∀ row ∈ sorted, (keyId keyAlias row).isSome=true) (hsize : 0<pageSize)
    (hn : n ≤ sorted.length) (planHash : BitVec 64) :
    nextCursorKeyset planHash ((sorted.drop n).take pageSize).length pageSize
        ((((sorted.drop n).take pageSize).getLast?.bind (keyId keyAlias)).map L.nodeIdText) =
      if sorted.length<n+pageSize then none else some (cursorAfter L keyAlias planHash sorted (n+pageSize)) := by
  unfold nextCursorKeyset
  rw [length_take,length_drop]
  by_cases hlast : sorted.length<n+pageSize
  · rw [if_pos (by omega),if_pos hlast]
  · have hindex : n+pageSize-1<sorted.length := by omega
    obtain ⟨x,hx⟩ := isSome_iff_exists.mp (hbound _ (getElem_mem hindex))
    rw [if_neg (by omega),if_neg hlast,getLast?_take,if_neg (by omega),getElem?_drop,
      ← Nat.add_sub_assoc hsize,cursorAfter,getElem?_eq_getElem hindex]
    simp [hx,keyText_of_keyId hx]

variable {pageSize : Nat} (hrows : execute L.comparing C params base plan none none = .ok rows)
  (hkeys : BindsKeys L keyAlias rows) (hsize : 0<pageSize)
  (hagrees : IndexAgrees C base plan [⟨idAccess keyAlias,false⟩] pageSize) (planHash : BitVec 64)
include hrows hkeys hsize hagrees

theorem keysetPage_window (hn : n≤(byKey L keyAlias rows).length) :
    keysetPage L.comparing C params base id plan planHash pageSize keyAlias
        (if n=0 then none else some (cursorAfter L keyAlias planHash (byKey L keyAlias rows) n)) =
      .ok (((byKey L keyAlias rows).drop n).take pageSize,if (byKey L keyAlias rows).length<n+pageSize then none
        else some (cursorAfter L keyAlias planHash (byKey L keyAlias rows) (n+pageSize))) := by
  have hperm : (byKey L keyAlias rows).Perm rows := mergeSort_perm _ _
  have hsorted := pairwise_byKey hkeys.nodup_keyText
  rw [← nextCursorKeyset_window (L := L) (fun row hrow => hkeys.bound row (hperm.mem_iff.mp hrow)) hsize hn planHash]
  refine bind_eq_ok.mpr ⟨((byKey L keyAlias rows).drop n).take pageSize,?_,rfl⟩
  unfold paginatePlanKeyset pageLimit
  rw [if_neg hsize.ne']
  split_ifs with hzero
  · rw [hzero]
    exact execute_firstByKey hrows hkeys.bound hkeys.counted hagrees
  · have hindex : n-1<(byKey L keyAlias rows).length := by omega
    have hafter := filter_after hsorted hindex
    rw [Nat.sub_add_cancel (Nat.pos_of_ne_zero hzero)] at hafter
    rw [← byKey_eq (hafter ▸ hperm.filter _) (hsorted.sublist (drop_sublist _ _)),cursorAfter,
      getElem?_eq_getElem hindex]
    exact execute_firstByKey (execute_after hrows hkeys.bound _)
      (fun row hrow => hkeys.bound row (mem_of_mem_filter hrow))
      (Nat.lt_of_le_of_lt (length_filter_le _ _) hkeys.counted) nofun

theorem followKeyset_direct : followCursors (keysetPage L.comparing C params base id plan planHash pageSize keyAlias)
    (rows.length+1) none = .ok (some (byKey L keyAlias rows)) :=
  followCursors_windows (n := 0) hsize (cursorAfter L keyAlias planHash (byKey L keyAlias rows))
    (fun _ hn _ => keysetPage_window hrows hkeys hsize hagrees planHash hn) (Nat.zero_le _) (dvd_zero _)
    (by rw [byKey,length_mergeSort]; omega)

end

section

variable {L : Scalars} {C : Callees} {params : Params} {base : Base} {label : Option String} {keyAlias : String}
  {predicates : List ScanPredicate} {rows : List Row}

theorem predicatePushdown_keyset (cursor : Option CursorKeyset) (pageSize : Nat) :
    predicatePushdown (paginatePlanKeyset (.nodeScan label keyAlias predicates none) cursor pageSize keyAlias) =
      .topN (.nodeScan label keyAlias (predicates++(cursor.map fun c => .gt "_id" (.utf8 c.lastId)).toList) none)
        [⟨idAccess keyAlias,false⟩] (.const 0) (.const (pageLimit pageSize)) := by
  have hterm : ∀ last : String, tryIntoScanPredicate keyAlias (.binary .gt (idAccess keyAlias)
      (.literal (.string last)))=some (.gt "_id" (.utf8 last)) := by
    simp [tryIntoScanPredicate,tryBinaryToPredicate,idAccess,propertyColumnForAlias,scalarBoundOf,
      literalToStatScalar,predicateForBinary]
  cases cursor <;> simp [paginatePlanKeyset,predicatePushdown,pushdownAt,splitAndTerms,classifyPendingForScan,
    separate,hterm,applyFilters,andChain]

theorem execute_scanById (hids : ∀ n ∈ scanNodeViews base.graph none [] none, n.properties.lookup "_id" = none)
    (value : StatScalar) :
    execute L C params base (.nodeScan label keyAlias (predicates++[.gt "_id" value]) none) none none = .ok [] := by
  have hnone : scanNodeViews base.graph label (predicates++[.gt "_id" value]) none=[] := by
    refine List.eq_nil_iff_forall_not_mem.mpr fun n hn => ?_
    obtain ⟨hlookup,hkeeps⟩ := mem_scanNodeViews.mp hn
    rw [scanKeeps,all_append,Bool.and_eq_true,Bool.and_eq_true] at hkeeps
    simp [ScanPredicate.column,hids n (mem_scanNodeViews.mpr ⟨hlookup,rfl⟩),evalAgainstValue] at hkeeps
  rw [execute,hnone]
  rfl

theorem indexAgrees_id (hids : ∀ n ∈ scanNodeViews base.graph none [] none, n.properties.lookup "_id" = none)
    (hsize : 0<pageSize) : IndexAgrees C base plan [⟨idAccess keyAlias,false⟩] pageSize := by
  rintro label binding projection property rfl hkey - hmany
  cases hkey
  have hnone : withText "_id" (nodesOf base label)=[] := by
    refine List.filter_eq_nil_iff.mpr fun n hn => ?_
    have hn : n∈scanNodeViews base.graph none [] none := mem_scanNodeViews.mpr ⟨(mem_scanNodeViews.mp hn).1,rfl⟩
    rw [indexedText,hids n hn]
    decide
  rw [hnone] at hmany
  exact absurd hsize (Nat.not_lt.mpr hmany)

theorem followKeyset_pushed
    (hrows : execute L.comparing C params base (.nodeScan label keyAlias predicates none) none none = .ok rows)
    (hkeys : BindsKeys L keyAlias rows) (hsize : 0<pageSize)
    (hids : ∀ n ∈ scanNodeViews base.graph none [] none, n.properties.lookup "_id" = none) (planHash : BitVec 64)
    (fuel : Nat) : followCursors (keysetPage L.comparing C params base predicatePushdown
      (.nodeScan label keyAlias predicates none) planHash pageSize keyAlias) (fuel+2) none =
        .ok (some ((byKey L keyAlias rows).take pageSize)) := by
  have hfirst := keysetPage_window hrows hkeys hsize (indexAgrees_id hids hsize) planHash (Nat.zero_le _)
  rw [if_pos rfl] at hfirst
  have hrest : ∀ c, keysetPage L.comparing C params base predicatePushdown (.nodeScan label keyAlias predicates none)
      planHash pageSize keyAlias (some c) = .ok ([],none) := by
    intro c
    have hscan : execute L.comparing C params base
        (.nodeScan label keyAlias (predicates++[.gt "_id" (.utf8 c.lastId)]) none) none none = .ok [] :=
      execute_scanById hids _
    rw [keysetPage,predicatePushdown_keyset]
    refine bind_eq_ok.mpr ⟨[],(execute_firstByKey hscan nofun (by decide)
      (indexAgrees_id hids (by rwa [pageLimit,if_neg hsize.ne']))).trans ?_,?_⟩
    · simp [byKey]
    · rw [nextCursorKeyset,if_pos (.inr hsize)]
      rfl
  rw [followCursors,keysetPage,predicatePushdown_keyset,map_none,toList_none,append_nil]
  change (keysetPage L.comparing C params base id _ planHash pageSize keyAlias none >>= _) = _
  rw [hfirst]
  split_ifs with hlast
  · rfl
  · change (followCursors _ (fuel+1) (some _) >>= _) = _
    rw [followCursors,hrest]
    exact congrArg (fun l => ok (some l)) (append_nil _)

end

section

variable {L : Scalars} {C : Callees} {params : Params} {base : Base} {whole : List Row}

def pageInput : LogicalPlan → LogicalPlan × List OrderKey
  | .topN input keys _ _ => (input,keys)
  | other => (other,[])

theorem paginatePlan_eq (plan : LogicalPlan) (cursor : Option Cursor) (pageSize : Nat) :
    paginatePlan plan cursor pageSize = .topN (pageInput plan).1 (pageInput plan).2
      (.const ((cursor.map Cursor.skip).getD 0)) (.const (pageLimit pageSize)) := by
  cases plan <;> rfl

/-- Rows that may be asked for a page at a time: without keys an input that gives its first rows, and with keys rows
whose keys compare consistently and an index that agrees with them. -/
structure Divisible (L : Scalars) (C : Callees) (params : Params) (base : Base) (input : LogicalPlan)
    (keys : List OrderKey) (pageSize : Nat) : Prop where
  fillable : keys=[] → ∀ n, pageSize ∣ n → Fillable L C params base none (n+pageSize) input
  consistent : ∀ rows, execute L C params base input none none = .ok rows → Consistent L params keys (·∈rows)
  indexed : ∀ n, pageSize ∣ n → IndexAgrees C base input keys (n+pageSize)

theorem execute_window {keys : List OrderKey} (hdivisible : Divisible L.comparing C params base input keys limit)
    (hwhole : execute L.comparing C params base (.topN input keys (.const 0) (.const noLimit)) none none = .ok whole)
    (hcounted : whole.length<noLimit) {skip : Nat} (hdvd : limit ∣ skip) :
    execute L.comparing C params base (.topN input keys (.const skip) (.const limit)) none none =
      .ok ((whole.drop skip).take limit) := by
  obtain ⟨_,hskip,hwhole⟩ := bind_eq_ok.mp hwhole
  cases hskip
  obtain ⟨_,hlimit,hwhole⟩ := bind_eq_ok.mp hwhole
  cases hlimit
  obtain ⟨rows,hrows,hwhole⟩ := bind_eq_ok.mp hwhole
  obtain ⟨sorted,hsorted,hwhole⟩ := bind_eq_ok.mp hwhole
  rw [indexedRows,if_neg (by simp),Option.elim_none,rowBudget,if_neg (by simp)] at hrows
  rw [topRows,if_neg (by simp)] at hsorted
  obtain rfl : sorted=whole := ok.inj hwhole
  rw [← rowWindow_eq hcounted]
  by_cases hkeys : keys=[]
  · subst hkeys
    cases hsorted
    exact execute_topN_nil rfl rfl hrows (fun _ => hdivisible.fillable rfl skip hdvd) none
  · rw [orderRows,if_neg (by simpa using hkeys)] at hsorted
    exact execute_topN rfl hkeys rfl rfl hrows hsorted
      (fun _ => ⟨hdivisible.consistent rows hrows,hdivisible.indexed skip hdvd⟩) none

theorem followOffset (hsize : 0<pageSize)
    (hdivisible : Divisible L.comparing C params base (pageInput plan).1 (pageInput plan).2 pageSize)
    (hwhole : execute L.comparing C params base (paginatePlan plan none 0) none none = .ok whole)
    (hcounted : whole.length<noLimit) :
    followCursors (offsetPage L.comparing C params base plan pageSize) (whole.length+1) none = .ok (some whole) := by
  rw [paginatePlan_eq] at hwhole
  refine followCursors_windows (n := 0) hsize Cursor.mk (fun n hn hdvd => ?_) (Nat.zero_le _) (dvd_zero _) (by omega)
  have hskip : ((if n=0 then none else some (.mk n)).map Cursor.skip).getD 0=n := by
    split_ifs with hzero
    · exact hzero.symm
    · rfl
  rw [offsetPage,paginatePlan_eq,hskip,pageLimit,if_neg hsize.ne',
    execute_window hdivisible hwhole hcounted hdvd]
  refine congrArg (fun next => ok (_,next)) ?_
  rw [nextCursor,hskip,length_take,length_drop]
  by_cases hlast : whole.length<n+pageSize
  · rw [if_pos (by omega),if_pos hlast]
  · rw [if_neg (by omega),if_neg hlast]

end

theorem bindsKeys_circle : ∃ rows, execute Scalars.bare.comparing Callees.none (fun _ => none) circle
    (.nodeScan none "a" [] none) none none = .ok rows ∧ BindsKeys .bare "a" rows ∧ rows.length=3 := by
  exact ⟨_,rfl,⟨by decide,by decide,by decide,by decide⟩,rfl⟩

end NamiDB.Cypher
