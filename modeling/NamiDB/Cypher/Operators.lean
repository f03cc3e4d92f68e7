import NamiDB.Cypher.Aliases
import NamiDB.Cypher.Row
import NamiDB.Lib.Fallible
import NamiDB.Lib.Firsts
import NamiDB.Lib.Table

/-! The operators that work on rows alone, and what comes out of them when nothing fails. -/
namespace NamiDB.Cypher
open Query Lib List

variable (L : Scalars) (params : Params)

section

def filterRows (predicate : Expression) (rows : List Row) : Except EvalError (List Row) :=
  gather (fun row => do
    let v ← evalRow L params predicate row
    pure (if v.asBool=some true then [row] else [])) rows

def keeps (predicate : Expression) (row : Row) : Bool :=
  match evalRow L params predicate row with
  | .ok v => v.asBool=some true
  | .error _ => false

variable {L params} {predicate : Expression} {rows out : List Row}

theorem keeps_iff : keeps L params predicate row=true ↔ Holds L params predicate row.get := by
  unfold keeps Holds evalRow
  cases evaluate L params predicate row.get with
  | error e | ok v => simp

theorem filterRows_eq_ok : filterRows L params predicate rows = .ok out ↔
    (∀ row ∈ rows, Evaluates L params predicate row.get) ∧ out=rows.filter (keeps L params predicate) := by
  have hrow : ∀ row bs, (do
      let v ← evalRow L params predicate row
      pure (if v.asBool=some true then [row] else []) : Except EvalError (List Row)) = .ok bs ↔
        Evaluates L params predicate row.get ∧ bs=[row].filter (keeps L params predicate) := by
    intro row bs
    rw [filter_cons,filter_nil]
    unfold Evaluates keeps evalRow
    cases evaluate L params predicate row.get with
    | error e => simp [bind,Except.bind]
    | ok v => by_cases hv : v.asBool=some true <;> simp [bind,Except.bind,pure,Except.pure,hv,eq_comm]
  rw [filterRows,gather_eq_ok]
  constructor
  · rintro ⟨hall,rfl⟩
    refine ⟨fun row hr => ((hrow row _).mp (hall row hr).choose_spec).1,?_⟩
    rw [← flatMap_singleton' rows,filter_flatMap,flatMap_singleton']
    refine flatMap_congr fun row hr => ?_
    obtain ⟨bs,hbs⟩ := hall row hr
    rw [hbs,returned_ok,((hrow row bs).mp hbs).2]
  · rintro ⟨hall,rfl⟩
    have hok := fun row hr => (hrow row _).mpr ⟨hall row hr,rfl⟩
    refine ⟨fun row hr => ⟨_,hok row hr⟩,?_⟩
    rw [← flatMap_singleton' rows,filter_flatMap,flatMap_singleton']
    exact flatMap_congr fun row hr => by rw [hok row hr,returned_ok]

end

section

def projectRow (items : List ProjectionItem) (discardInputBindings : Bool) (row : Row) : Except EvalError Row :=
  items.foldlM (fun new item => do
    let v ← evalRow L params item.expression row
    pure (new.set item.binding v)) (if discardInputBindings then Row.new else row)

def projectRows (items : List ProjectionItem) (discardInputBindings : Bool) (rows : List Row) :
    Except EvalError (List Row) :=
  gather (fun row => do
    let new ← projectRow L params items discardInputBindings row
    pure [new]) rows

def rowFingerprint (row : Row) : List Char :=
  row.bindings.flatMap fun e => e.1.toList ++ '=' :: (fingerprint L.ids e.2++[';'])

def dedupRows : List (List Char) → List Row → List Row
  | _, [] => []
  | seen, row::rows =>
    if seen.contains (rowFingerprint L row) then dedupRows seen rows
    else row::dedupRows (rowFingerprint L row::seen) rows

variable {L params} {items : List ProjectionItem} {rows out : List Row} {seen : List (List Char)}

theorem projectRow_congr (hreads : ∀ item ∈ items, reads item.expression ⊆ names)
    (h : Agree names row.get row'.get) : projectRow L params items true row=projectRow L params items true row' := by
  simp only [projectRow]
  generalize Row.new=new
  induction items generalizing new with
  | nil => rfl
  | cons item items ih =>
    obtain ⟨hitem,hitems⟩ := forall_mem_cons.mp hreads
    simp only [foldlM_cons,evalRow,evaluate_congr L params item.expression (h.mono hitem)]
    cases evaluate L params item.expression row'.get with
    | error e => rfl
    | ok v => exact ih hitems _

theorem dedupRows_eq_firsts (seen : List (List Char)) (rows : List Row) :
    dedupRows L seen rows=firsts (rowFingerprint L) seen rows := by
  induction rows generalizing seen with
  | nil => rfl
  | cons row rows ih =>
    rw [dedupRows,firsts,ih,ih]
    by_cases hseen : rowFingerprint L row∈seen
    · rw [if_pos hseen,if_pos (contains_iff_mem.mpr hseen)]
    · rw [if_neg hseen,if_neg (mt contains_iff_mem.mp hseen)]

theorem dedupRows_eq (hnodup : (rows.map (rowFingerprint L)).Nodup)
    (hseen : ∀ row ∈ rows, rowFingerprint L row∉seen) : dedupRows L seen rows=rows := by
  induction rows generalizing seen with
  | nil => rfl
  | cons row rows ih =>
    obtain ⟨hrow,hrest⟩ := forall_mem_cons.mp hseen
    obtain ⟨hnew,hnodup⟩ := nodup_cons.mp hnodup
    rw [dedupRows,if_neg (by simpa using hrow),ih hnodup]
    intro row' hrow' hmem
    rcases mem_cons.mp hmem with heq | hmem
    · exact hnew (heq ▸ mem_map_of_mem hrow')
    · exact hrest row' hrow' hmem

theorem mem_dedupRows :
    fp∈(dedupRows L seen rows).map (rowFingerprint L) ↔ fp∈rows.map (rowFingerprint L) ∧ fp∉seen := by
  induction rows generalizing seen with
  | nil => simp [dedupRows]
  | cons row rows ih =>
    rw [dedupRows]
    by_cases hseen : rowFingerprint L row∈seen
    · rw [if_pos (by simpa using hseen),ih,map_cons,mem_cons]
      constructor
      · rintro ⟨hmem,hn⟩
        exact ⟨.inr hmem,hn⟩
      · rintro ⟨rfl | hmem,hn⟩
        · exact absurd hseen hn
        · exact ⟨hmem,hn⟩
    · rw [if_neg (by simpa using hseen),map_cons,mem_cons,ih,map_cons,mem_cons,
        mem_cons,not_or]
      constructor
      · rintro (rfl | ⟨hmem,-,hn⟩)
        · exact ⟨.inl rfl,hseen⟩
        · exact ⟨.inr hmem,hn⟩
      · rintro ⟨rfl | hmem,hn⟩
        · exact .inl rfl
        · by_cases heq : fp=rowFingerprint L row
          · exact .inl heq
          · exact .inr ⟨hmem,heq,hn⟩

end

section

def compareKeys : List OrderKey → List RuntimeValue → List RuntimeValue → Ordering
  | key::keys, a::as, b::bs =>
    match L.orderForSort key.descending a b with
    | .eq => compareKeys keys as bs
    | o => o
  | _, _, _ => .eq

def keyedRow (keys : List OrderKey) (row : Row) : Except EvalError (List RuntimeValue × Row) := do
  let values ← evaluateAll L params (keys.map OrderKey.expression) row.get
  pure (values,row)

/-- A stable sort by the values of the keys, which are computed first. -/
def sortRows (keys : List OrderKey) (rows : List Row) : Except EvalError (List Row) := do
  let keyed ← gather (fun row => do
    let b ← keyedRow L params keys row
    pure [b]) rows
  pure ((keyed.mergeSort fun a b => compareKeys L keys a.1 b.1 != .gt).map Prod.snd)

variable {L params} {keys : List OrderKey} {rows out : List Row}

theorem keyedRow_snd (h : keyedRow L params keys row = .ok b) : b.2=row := by
  obtain ⟨values,-,⟨⟩⟩ := bind_eq_ok.mp h
  rfl

theorem sortRows_perm (h : sortRows L params keys rows = .ok out) :
    out.Perm rows ∧ ∀ row ∈ rows, ∃ b, keyedRow L params keys row = .ok b := by
  obtain ⟨keyed,hkeyed,⟨⟩⟩ := bind_eq_ok.mp h
  have hall := gather_one_eq_ok.mp hkeyed
  refine ⟨((mergeSort_perm keyed _).map Prod.snd).trans ?_,fun row hrow => ?_⟩
  · have : keyed.map Prod.snd=rows := by
      clear hkeyed h
      induction hall with
      | nil => rfl
      | cons hb _ ih => rw [map_cons,ih,keyedRow_snd hb]
    rw [this]
  · obtain ⟨b,-,hb⟩ := mem_of_forall₂_left hall hrow
    exact ⟨b,hb⟩

theorem exists_sortRows (h : ∀ row ∈ rows, ∃ b, keyedRow L params keys row = .ok b) :
    ∃ out, sortRows L params keys rows = .ok out := by
  obtain ⟨keyed,hkeyed⟩ := exists_gather_one h
  exact ⟨_,bind_eq_ok.mpr ⟨keyed,hkeyed,rfl⟩⟩

end

section

variable {build : List Row} {table : Table (List (List Char)) Row} {p : Row}

def crossProduct (left right : List Row) : List Row :=
  left.flatMap fun l => right.map fun r => l.extend r

/-- The key of a row for a join. A NULL has none, and what stands behind it is not looked at. -/
def joinKey : List Expression → Row → Except EvalError (Option (List (List Char)))
  | [], _ => .ok (some [])
  | e::es, row => do
    let v ← evalRow L params e row
    if isNullValue v then pure none
    else
      let rest ← joinKey es row
      pure (rest.map (fingerprint L.ids v::·))

def keepRows (residual : Option Expression) (rows : List Row) : Except EvalError (List Row) :=
  match residual with
  | none => .ok rows
  | some e => filterRows L params e rows

def buildTable (sides : List Expression) : List Row → Table (List (List Char)) Row →
    Except EvalError (Table (List (List Char)) Row)
  | [], table => .ok table
  | b::build, table => do
    let key ← joinKey L params sides b
    buildTable sides build (table.add key b)

def probeRow (sides : List Expression) (residual : Option Expression)
    (table : Table (List (List Char)) Row) (p : Row) : Except EvalError (List Row) := do
  match ← joinKey L params sides p with
  | some k => keepRows L params residual ((table.find k).map fun b => b.extend p)
  | none => pure []

def hashJoin (on : List JoinKey) (residual : Option Expression) (build probe : List Row) :
    Except EvalError (List Row) := do
  let table ← buildTable L params (on.map JoinKey.buildSide) build []
  gather (probeRow L params (on.map JoinKey.probeSide) residual table) probe

def keyOf (sides : List Expression) (row : Row) : Option (List (List Char)) :=
  match joinKey L params sides row with
  | .ok key => key
  | .error _ => none

def Keyed (sides : List Expression) (rows : List Row) : Prop :=
  ∀ row ∈ rows, ∃ key, joinKey L params sides row = .ok key

def hits (sides : List Expression) (table : Table (List (List Char)) Row) (p : Row) : List Row :=
  match keyOf L params sides p with
  | some k => table.find k
  | none => []

def matched (buildSides probeSides : List Expression) (b p : Row) : Bool :=
  (keyOf L params probeSides p).any fun k => keyOf L params buildSides b=some k

variable {L params} {sides : List Expression} {residual : Option Expression} {out : Table (List (List Char)) Row}

theorem buildTable_eq_ok : buildTable L params sides build table = .ok out ↔ Keyed L params sides build ∧
      out=build.foldl (fun table b => table.add (keyOf L params sides b) b) table := by
  induction build generalizing table with
  | nil => simp [buildTable,Keyed,eq_comm]
  | cons b build ih =>
    simp only [buildTable,Keyed,forall_mem_cons,foldl_cons,keyOf] at ih ⊢
    cases hb : joinKey L params sides b with
    | error e => simp [bind,Except.bind]
    | ok key => simp [bind,Except.bind,ih]

theorem buildTable_new : buildTable L params sides build [] = .ok out ↔
      Keyed L params sides build ∧ out=Table.collect (keyOf L params sides) build :=
  buildTable_eq_ok

theorem keepRows_eq_ok {rows out : List Row} : keepRows L params residual rows = .ok out ↔
    (∀ e ∈ residual, ∀ row ∈ rows, Evaluates L params e row.get) ∧
      out=rows.filter fun row => residual.all fun e => keeps L params e row := by
  cases residual with
  | none => simp [keepRows,eq_comm]
  | some e => simpa [keepRows] using filterRows_eq_ok

theorem probeRow_eq_ok {out : List Row} :
    probeRow L params sides residual table p = .ok out ↔ (∃ key, joinKey L params sides p = .ok key) ∧
      (∀ b ∈ hits L params sides table p, ∀ e ∈ residual, Evaluates L params e (b.extend p).get) ∧
      out=((hits L params sides table p).map fun b => b.extend p).filter fun row =>
        residual.all fun e => keeps L params e row := by
  unfold probeRow hits keyOf
  cases hk : joinKey L params sides p with
  | error e => simp [bind,Except.bind]
  | ok key =>
    cases key with
    | none => simp [bind,Except.bind,pure,Except.pure,eq_comm]
    | some k =>
      simp only [bind,Except.bind,keepRows_eq_ok,Except.ok.injEq,exists_eq',true_and,forall_mem_map]
      constructor
      · rintro ⟨heval,rfl⟩
        exact ⟨fun b hb e he => heval e he b hb,rfl⟩
      · rintro ⟨heval,rfl⟩
        exact ⟨fun e he b hb => heval b hb e he,rfl⟩

theorem hits_collect :
    hits L params probeSides (Table.collect (keyOf L params buildSides) build) p =
      build.filter fun b => matched L params buildSides probeSides b p := by
  unfold hits matched
  cases keyOf L params probeSides p with
  | none => simp
  | some k => simp [Table.find_collect]

theorem hashJoin_eq_ok {probe out : List Row} :
    hashJoin L params on residual build probe = .ok out ↔
      Keyed L params (on.map JoinKey.buildSide) build ∧ Keyed L params (on.map JoinKey.probeSide) probe ∧
      (∀ p ∈ probe, ∀ b ∈ build, matched L params (on.map JoinKey.buildSide) (on.map JoinKey.probeSide) b p=true →
          ∀ e ∈ residual, Evaluates L params e (b.extend p).get) ∧ out=probe.flatMap fun p => ((build.filter fun b =>
        matched L params (on.map JoinKey.buildSide) (on.map JoinKey.probeSide) b p).map
          fun b => b.extend p).filter fun row => residual.all fun e => keeps L params e row := by
  have hprobe : ∀ p, hits L params (on.map JoinKey.probeSide)
      (Table.collect (keyOf L params (on.map JoinKey.buildSide)) build) p = _ := fun _ => hits_collect
  simp only [hashJoin,bind_eq_ok,buildTable_new,gather_eq_ok]
  constructor
  · rintro ⟨_,⟨hbuild,rfl⟩,hall,rfl⟩
    have hrow := fun p hp => probeRow_eq_ok.mp (hall p hp).choose_spec
    refine ⟨hbuild,fun p hp => (hrow p hp).1,fun p hp b hb hmatch => (hrow p hp).2.1 b ?_,?_⟩
    · rw [hprobe]
      exact mem_filter.mpr ⟨hb,hmatch⟩
    · refine flatMap_congr fun p hp => ?_
      obtain ⟨bs,hbs⟩ := hall p hp
      rw [hbs,returned_ok,(probeRow_eq_ok.mp hbs).2.2,hprobe]
  · rintro ⟨hbuild,hkeyed,heval,rfl⟩
    have hok : ∀ p ∈ probe, probeRow L params (on.map JoinKey.probeSide) residual
        (Table.collect (keyOf L params (on.map JoinKey.buildSide)) build) p = .ok _ := fun p hp =>
      probeRow_eq_ok.mpr ⟨hkeyed p hp,by
        intro b hb
        rw [hprobe] at hb
        exact heval p hp b (mem_filter.mp hb).1 (mem_filter.mp hb).2,rfl⟩
    refine ⟨_,⟨hbuild,rfl⟩,fun p hp => ⟨_,hok p hp⟩,?_⟩
    refine flatMap_congr fun p hp => ?_
    rw [hok p hp,returned_ok,hprobe]

end
end NamiDB.Cypher
