import NamiDB.Query.Dangling

/-! SET over many rows, beside what it means for the graph: every item assigns to an entity as the items before it
left it, and reads every other one so. -/
namespace NamiDB.Query
open Storage Lib Option

/-- The record of an entity, as its encoding keeps it. -/
def RuntimeValue.record : RuntimeValue → Option Mutation
  | .node n => some (.node n.id (some ⟨n.labels.dedup,storedProperties n.properties⟩))
  | .rel r => some (.edge ⟨r.edgeType,r.src,r.dst⟩ (some (jsonProperties r.properties)))
  | _ => none

namespace Graph

mutual
/-- A value with every entity in it as the graph has it. -/
def current (self : Graph) : RuntimeValue → RuntimeValue
  | .node n => (self.read (.node n.id)).getD (.node n)
  | .rel r => (self.read (.rel ⟨r.edgeType,r.src,r.dst⟩)).getD (.rel r)
  | .list xs => .list (self.currentList xs)
  | .map entries => .map (self.currentMap entries)
  | .path xs => .path (self.currentList xs)
  | v => v

def currentList (self : Graph) : List RuntimeValue → List RuntimeValue
  | [] => []
  | x::xs => self.current x::self.currentList xs

def currentMap (self : Graph) : List (String × RuntimeValue) → List (String × RuntimeValue)
  | [] => []
  | (k,x)::xs => (k,self.current x)::self.currentMap xs
end

def store (self : Graph) (v : RuntimeValue) : Graph := v.record.elim self self.apply

end Graph

section
variable {Expr : Type} (L : Language Expr) (descs : List VectorIndexDescriptor)

/-- An entity with new properties. Where a vector index covers one of the changed names, a list of numbers becomes a
vector. -/
def reassign (changed : List String) (new : Properties → Properties) : RuntimeValue → Option RuntimeValue
  | .node n => (descs.foldlM (enforceVectorDim n.labels (some changed)) (new n.properties)).toOption.map
      fun properties => .node { n with properties }
  | .rel r => some (.rel { r with properties := new r.properties })
  | _ => none

/-- The entries of a map, or the properties of an entity; null has none. -/
def entriesOf : RuntimeValue → Option (List (String × RuntimeValue))
  | .map entries => some entries
  | .node n => some (n.properties.entries.map fun e => (e.1,.ofCore e.2))
  | .rel r => some (r.properties.entries.map fun e => (e.1,.ofCore e.2))
  | .null => some []
  | _ => none

def assignments (v : RuntimeValue) : Option (List (String × Value)) :=
  (entriesOf v).bind fun entries => entries.mapM fun e => e.2.toCore.toOption.map fun v => (e.1,v)

/-- `=` starts from nothing and `+=` from what is there; a null removes its name. -/
def assignMap (replace : Bool) (v : RuntimeValue) (target : Option RuntimeValue) : Option (Option RuntimeValue) :=
  match v, replace with
  | .null, false => some none
  | v, replace => do
    let incoming ← assignments v
    let new ← target.bind (reassign descs (incoming.map (·.1)) fun properties =>
      incoming.foldl (fun out e => if e.2.isNull then out.erase e.1 else out.insert e.1 e.2)
        (if replace then ∅ else properties))
    pure (some new)

namespace SetOp
variable {Expr : Type}

def value : SetOp Expr → Option Expr
  | .property _ _ value | .replace _ value | .merge _ value => some value
  | .labels _ _ => none

/-- The new value of the target, from the value of the right-hand side; `some none` when there is nothing to assign. -/
def assigns (descs : List VectorIndexDescriptor) (v target : Option RuntimeValue) :
    SetOp Expr → Option (Option RuntimeValue)
  | .property _ key _ => do
    let core ← v.bind fun v => v.toCore.toOption
    let new ← target.bind (reassign descs [key] (·.insert key core))
    pure (some new)
  | .replace _ _ => v.bind fun v => assignMap descs true v target
  | .merge _ _ => v.bind fun v => assignMap descs false v target
  | .labels _ names => match target with
    | some (.node n) =>
      let added := (names.filter fun l => l∉n.labels).dedup
      (descs.foldlM (enforceVectorDim added none) n.properties).toOption.map fun properties =>
        some (.node ⟨n.id,n.labels++added,properties⟩)
    | _ => none

/-- The entity that an item assigns to, as the graph has it. -/
def target (g : Graph) (row : Row) (op : SetOp Expr) : Option RuntimeValue :=
  ((row op.targetAlias).bind entity).bind g.read

end SetOp

/-- What an item assigns when every entity of the row is as the graph has it. -/
def meaning (row : Row) (g : Graph) (op : SetOp Expr) : Option (Option RuntimeValue) :=
  op.assigns descs (op.value.bind fun e => (L.evaluate e fun name => (row name).map g.current).toOption)
    (op.target g row)

def setItem (row : Row) (g : Graph) (op : SetOp Expr) : Option Graph :=
  (meaning L descs row g op).map fun new => new.elim g g.store

variable (items : List (SetOp Expr))

def setRow (g : Graph) (row : Row) : Option Graph := items.foldlM (setItem L descs row) g

/-- Row by row, and from left to right, on the graph itself. -/
def setRows (g : Graph) (rows : List Row) : Option Graph := rows.foldlM (setRow L descs items) g

def overwrite (row : Row) (now : RuntimeValue) : Row := fun name =>
  if (row name).bind entity=entity now ∧ (entity now).isSome then some now else row name

variable (reads : Expr → List String)

def Local : Prop := ∀ e r r', (∀ name ∈ reads e, r name=r' name) → L.evaluate e r=L.evaluate e r'

/-- What an item reads is its own target, or as the graph has it. -/
def Sees (g : Graph) (row carried : Row) (op : SetOp Expr) : Prop :=
  ∀ name ∈ op.value.elim [] reads, ∀ v, carried name=some v →
    (entity v).isSome ∧ entity v=(row op.targetAlias).bind entity ∨ g.current v=v

/-- Every item of the row sees what it reads. `carried` is the row with what the items before have assigned. -/
def RowUpToDate (row : Row) : List (SetOp Expr) → Row → Graph → Prop
  | [], _, _ => True
  | op::ops, carried, g => Sees reads g row carried op ∧ ∀ new, meaning L descs row g op=some new →
    RowUpToDate row ops ((new.or (op.target g row)).elim carried (overwrite carried)) (new.elim g g.store)

/-- No right-hand side reads a copy that an earlier assignment has made stale. -/
def UpToDate : List Row → Graph → Prop
  | [], _ => True
  | row::rows, g => RowUpToDate L descs reads row items row g ∧
    ∀ g', setRow L descs items g row=some g' → UpToDate rows g'

end

section
variable {g : Graph} {k : Entity} {v now : RuntimeValue}

theorem current_of_entity (h : entity v=some k) : g.current v=(g.read k).getD v := by
  cases v <;> cases h <;> rfl

theorem record_of_entity (h : entity v=some k) : ∃ m, v.record=some m ∧ m.entity=k ∧ m.value.isSome := by
  cases v <;> cases h <;> exact ⟨_,rfl,rfl,rfl⟩

namespace Writer

def write (self : Writer) (v : RuntimeValue) : Writer := v.record.elim self self.stage

end Writer

def Upserted (w : Writer) (k : Entity) : Prop := ∃ now, w.staged k = .upsert now

variable {w : Writer}

theorem staged_stage (w : Writer) (m : Mutation) (k : Entity) :
    (w.stage m).staged k=if m.entity=k then m.value.elim .tombstone .upsert else w.staged k := by
  unfold Writer.staged Writer.stage
  rw [List.reverse_append,List.reverse_singleton,List.singleton_append,List.find?_cons]
  by_cases hm : m.entity=k <;> simp [hm]

theorem read_of_upserted (h : Upserted w k) : (w.overlay.graph.read k).isSome := by
  obtain ⟨now,hnow⟩ := h
  rw [read_overlay,hnow]
  rfl

theorem overlay_write (w : Writer) (v : RuntimeValue) : (w.write v).overlay.graph=w.overlay.graph.store v := by
  unfold Writer.write Graph.store
  cases v.record with
  | none => rfl
  | some m => exact Holds.overlay_stage w m

theorem upserted_write (h : entity v=some k) : Upserted (w.write v) k := by
  obtain ⟨m,hm,hk,hvalue⟩ := record_of_entity h
  obtain ⟨now,hnow⟩ := isSome_iff_exists.mp hvalue
  refine ⟨now,?_⟩
  rw [Writer.write,hm]
  exact (staged_stage w m k).trans (by rw [if_pos hk,hnow]; rfl)

theorem staged_write (h : entity v=some k) (hj : j≠k) : (w.write v).staged j=w.staged j := by
  obtain ⟨m,hm,hk,-⟩ := record_of_entity h
  rw [Writer.write,hm]
  exact (staged_stage w m j).trans (if_neg fun hj' => hj (hj'.symm.trans hk))

theorem Upserted.write (hj : Upserted w j) (h : entity v=some k) : Upserted (w.write v) j := by
  by_cases hjk : j=k
  · subst hjk
    exact upserted_write h
  · exact hj.imp fun now hnow => (staged_write h hjk).trans hnow

theorem read_write (h : entity v=some k) (hj : j≠k) :
    (w.write v).overlay.graph.read j=w.overlay.graph.read j := by
  obtain ⟨m,hm,hk,-⟩ := record_of_entity h
  rw [overlay_write,Graph.store,hm]
  exact (read_apply _ m j).trans (if_neg fun hj' => hj (hj'.symm.trans hk))

end

section
variable {w : Writer} {row carried : Row} {name : String} {k : Entity} {v now : RuntimeValue}

theorem overwrite_same (h : (row name).bind entity=entity now) (hk : (entity now).isSome) :
    overwrite row now name=some now := if_pos ⟨h,hk⟩

theorem overwrite_ne (h : (row name).bind entity≠entity now) : overwrite row now name=row name :=
  if_neg fun h' => h h'.1

theorem entity_overwrite (row : Row) (now : RuntimeValue) (name : String) :
    (overwrite row now name).bind entity=(row name).bind entity := by
  by_cases h : (row name).bind entity=entity now ∧ (entity now).isSome
  · rw [overwrite_same h.1 h.2,h.1]
    rfl
  · rw [overwrite,if_neg h]

theorem overwrite_overwrite (row : Row) (h : entity v=entity now) :
    overwrite (overwrite row v) now=overwrite row now := by
  funext name
  by_cases hname : (row name).bind entity=entity now ∧ (entity now).isSome
  · rw [overwrite_same (by rw [entity_overwrite]; exact hname.1) hname.2,overwrite_same hname.1 hname.2]
  · unfold overwrite
    rw [← overwrite,entity_overwrite,if_neg hname,if_neg hname,overwrite,if_neg (h ▸ hname)]

theorem synchronizeNodeBindings_eq (row : Row) (view : NodeValue) :
    row.synchronizeNodeBindings view=overwrite row (.node view) := by
  funext name
  unfold Row.synchronizeNodeBindings overwrite
  cases hrow : row name with
  | none => simp [entity]
  | some v => cases v <;> simp [entity]

theorem synchronizeRelBindings_eq (row : Row) (view : RelValue) :
    row.synchronizeRelBindings view=overwrite row (.rel view) := by
  funext name
  unfold Row.synchronizeRelBindings overwrite
  cases hrow : row name with
  | none => simp [entity]
  | some v => cases v <;> simp [entity]

/-- A row that the clause carries on: it differs from the row it got in bindings of staged entities only. -/
def Carried (w : Writer) (row carried : Row) : Prop :=
  ∀ name, carried name=row name ∨ ∃ k, Upserted w k ∧ (row name).bind entity=some k ∧ (carried name).bind entity=some k

theorem Carried.entity_eq (h : Carried w row carried) (name : String) :
    (carried name).bind entity=(row name).bind entity := by
  rcases h name with heq | ⟨k,-,hrow,hcarried⟩
  · rw [heq]
  · rw [hrow,hcarried]

theorem Carried.overwrite (h : Carried w row carried) (hk : entity now=some k) (hup : Upserted w' k)
    (hkeep : ∀ j, Upserted w j → Upserted w' j) : Carried w' row (overwrite carried now) := by
  intro name
  by_cases hname : (carried name).bind entity=entity now
  · refine .inr ⟨k,hup,?_,?_⟩
    · rw [← h.entity_eq,hname,hk]
    · rw [entity_overwrite,hname,hk]
  · rw [overwrite_ne hname]
    exact (h name).imp_right fun ⟨j,hj,hent⟩ => ⟨j,hkeep j hj,hent⟩

/-- The entity that an item assigns to is in the graph, and is staged or bound to what the graph has. -/
def Bound {Expr : Type} (w : Writer) (row : Row) (op : SetOp Expr) : Prop :=
  ∀ k, (row op.targetAlias).bind entity=some k → (w.overlay.graph.read k).isSome ∧
    (Upserted w k ∨ ∀ name v, row name=some v → entity v=some k → w.overlay.graph.read k=some v)

variable {Expr : Type} {op : SetOp Expr}

theorem Bound.write (h : Bound w row op) (hv : entity v=some k) : Bound (w.write v) row op := by
  intro j hj
  by_cases hjk : j=k
  · subst hjk
    have hup : Upserted (w.write v) j := upserted_write hv
    exact ⟨read_of_upserted hup,.inl hup⟩
  · rw [read_write hv hjk]
    obtain ⟨hread,hcopy⟩ := h j hj
    exact ⟨hread,hcopy.imp_left fun hup => hup.write hv⟩

/-- What the refresh of the target comes to. -/
def refreshed (w : Writer) (row : Row) (targetAlias : String) : Except ExecError Row :=
  match ((row targetAlias).bind entity).map w.staged with
  | some .tombstone => .error (.runtime s!"SET target `{targetAlias}` was deleted earlier in this transaction")
  | some (.upsert now) => .ok (overwrite row now)
  | _ => .ok row

/-- The target of the refreshed row, and every other binding of it, is as the graph has it. -/
theorem Carried.refreshed (h : Carried w row carried) (hb : Bound w row op) :
    refreshed w carried op.targetAlias = .ok ((op.target w.overlay.graph row).elim carried (Query.overwrite carried)) ∧
      Carried w row ((op.target w.overlay.graph row).elim carried (Query.overwrite carried)) := by
  unfold Query.refreshed SetOp.target
  rw [h.entity_eq]
  cases hk : (row op.targetAlias).bind entity with
  | none => exact ⟨rfl,h⟩
  | some k =>
    obtain ⟨hread,hcopy⟩ := hb k hk
    have hst := read_overlay w k
    simp only [map_some,bind_some]
    cases hw : w.staged k with
    | tombstone =>
      rw [hst,hw] at hread
      cases hread
    | upsert now =>
      rw [hw,StagedValue.over] at hst
      rw [hst]
      exact ⟨rfl,h.overwrite (entity_of_read hst) ⟨now,hw⟩ fun _ hj => hj⟩
    | untouched =>
      obtain ⟨u,hu⟩ := isSome_iff_exists.mp hread
      have hcopy := hcopy.resolve_left (by rintro ⟨now,hnow⟩; rw [hw] at hnow; cases hnow)
      have hsame : Query.overwrite carried u=carried := by
        funext name
        by_cases hname : (carried name).bind entity=entity u
        · rw [overwrite_same hname (by rw [entity_of_read hu]; rfl)]
          rw [h.entity_eq,entity_of_read hu] at hname
          obtain ⟨v,hv,hvk⟩ := bind_eq_some_iff.mp hname
          rcases h name with heq | ⟨j,⟨now,hnow⟩,hj,-⟩
          · rw [heq,hv,← hu,hcopy name v hv hvk]
          · rw [Option.some.inj (hj.symm.trans hname),hw] at hnow
            cases hnow
        · exact overwrite_ne hname
      rw [hu,elim_some,hsame]
      exact ⟨rfl,h⟩

variable {L : Language Expr} {reads : Expr → List String}

/-- The right-hand side has the value it has in the graph. -/
theorem Carried.evaluate (h : Carried w row carried) (hreads : Local L reads)
    (hs : Sees reads w.overlay.graph row carried op) (hb : Bound w row op) (he : op.value=some e) :
    L.evaluate e ((op.target w.overlay.graph row).elim carried (Query.overwrite carried)) =
      L.evaluate e fun name => (row name).map w.overlay.graph.current := by
  refine hreads e _ _ fun name hname => ?_
  have hown : ∀ k, (row op.targetAlias).bind entity=some k → (row name).bind entity=some k →
      (op.target w.overlay.graph row).elim carried (Query.overwrite carried) name =
        (row name).map w.overlay.graph.current := by
    intro k hk hnk
    obtain ⟨v,hv,hvk⟩ := bind_eq_some_iff.mp hnk
    obtain ⟨u,hu⟩ := isSome_iff_exists.mp (hb k hk).1
    have huk := entity_of_read hu
    rw [SetOp.target,hk,bind_some,hu,elim_some,overwrite_same (by rw [h.entity_eq,hnk,huk]) (by rw [huk]; rfl),hv,
      map_some,current_of_entity hvk,hu]
    rfl
  have hother : (row name).bind entity≠(row op.targetAlias).bind entity ∨ (row name).bind entity=none →
      (op.target w.overlay.graph row).elim carried (Query.overwrite carried) name=carried name := by
    intro hne
    cases ht : op.target w.overlay.graph row with
    | none => rfl
    | some u =>
      obtain ⟨k,hk,hu⟩ := bind_eq_some_iff.mp ht
      refine overwrite_ne fun heq => ?_
      rw [h.entity_eq,entity_of_read hu] at heq
      rcases hne with hne | hne
      · exact hne (heq.trans hk.symm)
      · rw [hne] at heq
        cases heq
  cases hc : carried name with
  | none =>
    have hrow : row name=none := by
      rcases h name with heq | ⟨k,-,-,hk⟩
      · rw [← heq,hc]
      · rw [hc] at hk
        cases hk
    rw [hother (.inr (by rw [hrow]; rfl)),hc,hrow]
    rfl
  | some v =>
    have hent : (row name).bind entity=entity v := by rw [← h.entity_eq,hc]; rfl
    rcases hs name (by rw [he]; exact hname) v hc with ⟨hsome,htarget⟩ | hcur
    · obtain ⟨k,hk⟩ := isSome_iff_exists.mp hsome
      exact hown k (htarget.symm.trans hk) (hent.trans hk)
    · by_cases hsame : (row name).bind entity=(row op.targetAlias).bind entity ∧ (entity v).isSome
      · obtain ⟨k,hk⟩ := isSome_iff_exists.mp hsame.2
        exact hown k (hsame.1.symm.trans (hent.trans hk)) (hent.trans hk)
      · rw [hother ?_,hc]
        · rcases h name with heq | ⟨k,hup,hrow,hcar⟩
          · rw [← heq,hc,map_some,hcur]
          · obtain ⟨u,hu⟩ := isSome_iff_exists.mp (read_of_upserted hup)
            obtain ⟨x,hx,hxk⟩ := bind_eq_some_iff.mp hrow
            rw [hc,bind_some] at hcar
            rw [current_of_entity hcar,hu,getD_some] at hcur
            rw [hx,map_some,current_of_entity hxk,hu,getD_some,hcur]
        · by_cases heq : (row name).bind entity=(row op.targetAlias).bind entity
          · refine .inr ?_
            rw [hent]
            exact not_isSome_iff_eq_none.mp fun h => hsame ⟨heq,h⟩
          · exact .inl heq

end

/-- The request was not refused. -/
def answered : (o : Request) → Reply o → Bool
  | .readOverlay, r => r.isOk
  | .checkDeadline, r => r.isOk
  | .uniqueProbe _ _ _, r => r.isOk
  | .upsertNode _ _ _, r => r.isOk
  | .upsertEdge _ _, r => r.isOk
  | _, _ => true

/-- Nothing is declared that a write could violate. -/
def Writer.Plain (w : Writer) : Prop := w.schema.labels=[] ∧ w.schema.constraints=[]

/-- Run under `sem`, the program ends as `P` says. Where it fails, not everything is `fine`, or `Q` holds. -/
abbrev Sets {α : Type} (sem : Semantics Writer Reply) (fine Q : Prop) (p : ExecM α) (P : α → Writer → Prop)
    (w : Writer) : Prop := Does sem (fun _ => True) p P (fun _ _ => fine → Q) w

/-- The program assigns what `assigned` says, if anything, to the bindings of the row and to the batch. -/
abbrev Assigns (sem : Semantics Writer Reply) (fine : Prop) (assigned : Option (Option RuntimeValue)) (row : Row)
    (p : ExecM Row) (w : Writer) : Prop :=
  Sets sem fine (assigned=none) p (fun out w' => ∃ new, assigned=some new ∧ out=new.elim row (overwrite row) ∧
    SameButIndex (new.elim w w.write) w') w

theorem SameButIndex.write (h : SameButIndex w w') (v : RuntimeValue) : SameButIndex (w.write v) (w'.write v) := by
  obtain ⟨index,rfl⟩ := h
  unfold Writer.write
  cases v.record <;> exact ⟨_,rfl⟩

theorem SameButIndex.plain {fine : Prop} (h : SameButIndex w w') (hplain : fine → w.Plain) : fine → w'.Plain := by
  obtain ⟨index,rfl⟩ := h
  exact hplain

theorem bind_entity_eq_none {t : Option RuntimeValue} (hnode : ∀ n, t=some (.node n) → False)
    (hrel : ∀ r, t=some (.rel r) → False) : t.bind entity=none := by
  cases t with
  | none => rfl
  | some v =>
    cases v with
    | node n => exact (hnode n rfl).elim
    | rel r => exact (hrel r rfl).elim
    | _ => rfl

theorem bind_reassign_eq_none {t : Option RuntimeValue} (h : t.bind entity=none) (descs : List VectorIndexDescriptor)
    (changed : List String) (new : Properties → Properties) : t.bind (reassign descs changed new)=none := by
  cases t with
  | none => rfl
  | some v =>
    cases v with
    | node | rel => cases h
    | _ => rfl

theorem entity_reassign (h : reassign descs changed f v=some new) : entity new=entity v ∧ (entity v).isSome := by
  cases v with
  | node n =>
    obtain ⟨properties,-,rfl⟩ := map_eq_some_iff.mp h
    exact ⟨rfl,rfl⟩
  | rel r =>
    cases h
    exact ⟨rfl,rfl⟩
  | _ => cases h

theorem entity_bind_reassign {t : Option RuntimeValue} (h : t.bind (reassign descs changed f)=some new) :
    entity new=t.bind entity ∧ (entity new).isSome := by
  obtain ⟨x,rfl,hx⟩ := bind_eq_some_iff.mp h
  obtain ⟨heq,hsome⟩ := entity_reassign hx
  exact ⟨heq,by rwa [heq]⟩

theorem entity_assignMap {t : Option RuntimeValue} (h : assignMap descs replace v t=some (some new)) :
    entity new=t.bind entity ∧ (entity new).isSome := by
  unfold assignMap at h
  split at h
  · cases h
  · obtain ⟨incoming,-,h⟩ := bind_eq_some_iff.mp h
    obtain ⟨u,hu,⟨⟩⟩ := bind_eq_some_iff.mp h
    exact entity_bind_reassign hu

/-- What is assigned is the target with other labels or properties. -/
theorem entity_assigns {Expr : Type} {op : SetOp Expr} {t : Option RuntimeValue}
    (h : op.assigns descs v t=some (some new)) : entity new=t.bind entity ∧ (entity new).isSome := by
  cases op with
  | property targetAlias key value =>
    obtain ⟨core,-,h⟩ := bind_eq_some_iff.mp h
    obtain ⟨u,hu,⟨⟩⟩ := bind_eq_some_iff.mp h
    exact entity_bind_reassign hu
  | replace targetAlias value =>
    obtain ⟨x,-,h⟩ := bind_eq_some_iff.mp h
    exact entity_assignMap h
  | merge targetAlias value =>
    obtain ⟨x,-,h⟩ := bind_eq_some_iff.mp h
    exact entity_assignMap h
  | labels targetAlias names =>
    cases t with
    | none => cases h
    | some x =>
      cases x with
      | node n =>
        obtain ⟨properties,-,h⟩ := map_eq_some_iff.mp h
        cases h
        exact ⟨rfl,rfl⟩
      | _ => cases h

theorem assignMap_of_unbound {t : Option RuntimeValue} (h : t.bind entity=none) :
    assignMap descs replace v t=assignMap descs replace v none := by
  unfold assignMap
  split
  · rfl
  · simp [bind_reassign_eq_none h]

theorem assigns_of_unbound {Expr : Type} {op : SetOp Expr} {t : Option RuntimeValue} (h : t.bind entity=none) :
    op.assigns descs v t=op.assigns descs v none := by
  cases op with
  | property targetAlias key value => simp [SetOp.assigns,bind_reassign_eq_none h]
  | replace targetAlias value | merge targetAlias value => simp [SetOp.assigns,assignMap_of_unbound h]
  | labels targetAlias names =>
    cases t with
    | none => rfl
    | some x =>
      cases x with
      | node | rel => cases h
      | _ => rfl

theorem mapM_toOption {α β ε : Type} (f : α → Except ε β) (l : List α) :
    (l.mapM f).toOption=l.mapM fun x => (f x).toOption := by
  induction l with
  | nil => rfl
  | cons x l ih =>
    rw [List.mapM_cons,List.mapM_cons,← ih]
    cases f x with
    | error => rfl
    | ok y => cases l.mapM f <;> rfl

theorem coreEntries_toOption (entries : List (String × RuntimeValue)) : (coreEntries entries).toOption =
    entries.mapM fun e => e.2.toCore.toOption.map fun v => (e.1,v) := by
  rw [coreEntries,mapM_toOption]
  congr
  funext e
  cases e.2.toCore <;> rfl

theorem assignMap_eq (descs : List VectorIndexDescriptor) (replace : Bool) (targetAlias : String) (v : RuntimeValue)
    (target : Option RuntimeValue) :
    assignMap descs replace v target =
      (incomingEntries replace targetAlias v).toOption.bind fun found => found.elim (some none) fun entries =>
        (coreEntries entries).toOption.bind fun incoming =>
          (target.bind (reassign descs (incoming.map (·.1)) (mergedProps replace · incoming))).map some := by
  simp only [coreEntries_toOption]
  cases v <;> cases replace <;> simp [assignMap,assignments,entriesOf,incomingEntries,Except.toOption,mergedProps,
    Option.map_eq_bind,Function.comp_def]

section
variable {sem : Semantics Writer Reply} {fine Q : Prop} {w : Writer} {α β : Type} {P : β → Writer → Prop}

theorem sets_ask {f : Reply o → ExecM β} (hf : ∀ r w', sem w o r w' → Sets sem fine Q (f r) P w') :
    Sets sem fine Q (ask o >>= f) P w :=
  Does.bind (P := fun r w' => Sets sem fine Q (f r) P w') (Does.request fun _ r w' hs => ⟨trivial,hf r w' hs⟩)
    fun _ _ h => h

theorem sets_orFail {r : Except ExecError α} {f : α → ExecM β} (hok : ∀ a, r = .ok a → Sets sem fine Q (f a) P w)
    (herr : ∀ e, r = .error e → fine → Q) : Sets sem fine Q (orFail r >>= f) P w := by
  cases r with
  | ok a => exact hok a rfl
  | error e => exact Does.fail (herr e rfl)

variable (hsem : ∀ {w o r w'}, sem w o r w' → answers w o r w')
include hsem

theorem sets_session {f : Writer → ExecM β} (hf : Sets sem fine Q (f w) P w) :
    Sets sem fine Q (ask .session >>= f) P w := by
  refine sets_ask fun r w' hs => ?_
  obtain ⟨rfl,rfl⟩ := hsem hs
  exact hf

theorem sets_rejectConflicts {checks : List (String × List (String × Value))} (hnone : fine → checks=[]) :
    Sets sem fine Q (rejectConflicts exclude message checks) (fun _ w' => SameButIndex w w') w := by
  cases checks with
  | nil => exact Does.ret (.refl w)
  | cons check checks =>
    have hnot : fine → Q := fun h => by cases hnone h
    refine Does.forM_keep (SameButIndex w) (fun check w1 h1 => ?_) (check::checks) (.refl w)
    refine Does.bind (P := fun _ w' => SameButIndex w w') ?_ fun conflict w2 h2 => ?_
    · refine sets_ask fun r w2 hs => ?_
      have h2 : SameButIndex w w2 := by
        rcases hsem hs with ⟨-,rfl⟩ | ⟨-,rfl⟩
        · exact h1.trans (w1.uniqueProbe_snd check.1 check.2 exclude)
        · exact h1
      refine sets_orFail (fun probe _ => ?_) fun _ _ => hnot
      cases probe with
      | conflict | noConflict => exact Does.ret h2
      | unindexable =>
        refine sets_ask fun r w3 hs => sets_orFail (fun g _ => Does.ret ?_) fun _ _ => hnot
        rcases hsem hs with ⟨-,rfl⟩ | ⟨-,rfl⟩ <;> exact h2
    · cases conflict with
      | none => exact Does.ret h2
      | some found => exact Does.fail hnot

variable {Expr : Type} (L : Language Expr)

theorem sets_uniqueOnSet (hplain : fine → w.Plain) :
    Sets sem fine Q (enforceUniqueOnSet L labels key value selfId) (fun _ w' => SameButIndex w w') w := by
  refine sets_session hsem (sets_rejectConflicts hsem fun h => ?_)
  simp [Schema.label,(hplain h).1]

theorem sets_compositeUnique (hplain : fine → w.Plain) :
    Sets sem fine Q (enforceCompositeUnique L labels props exclude changed) (fun _ w' => SameButIndex w w') w := by
  refine sets_session hsem (sets_rejectConflicts hsem fun h => ?_)
  simp [compositeChecks,(hplain h).2]

theorem sets_notnull (hplain : fine → w.Plain) :
    Sets sem fine Q (enforceNotnullOnCreate labels props) (fun _ w' => w'=w) w := by
  refine sets_session hsem ?_
  cases hv : notNullViolation w.schema labels props with
  | none => exact Does.ret rfl
  | some message =>
    refine Does.fail fun h => ?_
    rw [notNullViolation,List.findSome?_eq_none_iff.mpr (by simp [Schema.label,(hplain h).1])] at hv
    cases hv

theorem sets_vectorDims (herr : (w.vectorIndexes.foldlM (enforceVectorDim labels changed) props).toOption=none → Q) :
    Sets sem fine Q (enforceVectorDims labels props changed) (fun stored w' => w'=w ∧
      (w.vectorIndexes.foldlM (enforceVectorDim labels changed) props).toOption=some stored) w := by
  refine sets_ask fun r w' hs => ?_
  obtain rfl : w'=w := hsem hs
  refine sets_session hsem ?_
  cases hfold : w'.vectorIndexes.foldlM (enforceVectorDim labels changed) props with
  | ok stored => exact Does.ret ⟨rfl,rfl⟩
  | error e => exact Does.fail fun _ => herr (by rw [hfold]; rfl)

variable (hfine : fine → ∀ {w o r w'}, sem w o r w' → answered o r=true)
include hfine

theorem sets_rewriteNode : Sets sem fine Q (rewriteNode row n labels properties) (fun out w' =>
    out=overwrite row (.node ⟨n.id,labels,properties⟩) ∧
      SameButIndex (w.write (.node ⟨n.id,labels,properties⟩)) w') w := by
  refine sets_ask fun r w' hs => sets_orFail (fun _ hr => Does.ret ⟨synchronizeNodeBindings_eq row _,?_⟩)
    fun e he h => ?_
  · rcases hsem hs with ⟨-,rfl⟩ | ⟨⟨e,he⟩,-⟩
    · exact ⟨_,rfl⟩
    · rw [hr] at he
      cases he
  · have hans := hfine h hs
    rw [he] at hans
    cases hans

theorem sets_rewriteRel : Sets sem fine Q (rewriteRel row r properties) (fun out w' =>
    out=overwrite row (.rel { r with properties }) ∧ SameButIndex (w.write (.rel { r with properties })) w') w := by
  refine sets_ask fun reply w' hs => sets_orFail (fun _ hr => Does.ret ⟨synchronizeRelBindings_eq row _,?_⟩)
    fun e he h => ?_
  · rcases hsem hs with ⟨-,rfl⟩ | ⟨⟨e,he⟩,-⟩
    · exact .refl _
    · rw [hr] at he
      cases he
  · have hans := hfine h hs
    rw [he] at hans
    cases hans

/-- The end of every assignment to a node. -/
theorem assigns_rewriteNode (row : Row) (n : NodeValue) (h1 : SameButIndex w w1) :
    Sets sem fine (((w.vectorIndexes.foldlM (enforceVectorDim labels changed) props).toOption.map fun properties =>
        some (RuntimeValue.node ⟨n.id,all,properties⟩))=none)
      (enforceVectorDims labels props changed >>= fun stored => rewriteNode row n all stored)
      (fun out w' => ∃ new, ((w.vectorIndexes.foldlM (enforceVectorDim labels changed) props).toOption.map
        fun properties => some (RuntimeValue.node ⟨n.id,all,properties⟩))=some new ∧ out=new.elim row (overwrite row) ∧
          SameButIndex (new.elim w w.write) w') w1 := by
  have hsame : w1.vectorIndexes=w.vectorIndexes := by
    obtain ⟨index,rfl⟩ := h1
    rfl
  refine Does.bind (sets_vectorDims hsem fun hnone => ?_) fun stored w2 h2 => ?_
  · rw [← hsame,hnone]
    rfl
  · obtain ⟨rfl,hstored⟩ := h2
    refine (sets_rewriteNode hsem hfine).mono (fun out w' h => ?_) fun _ _ h => h
    rw [← hsame,hstored]
    exact ⟨_,rfl,h.1,(h1.write _).trans h.2⟩

theorem assigns_setNodeProperty (row : Row) (n : NodeValue) (hplain : fine → w.Plain) :
    Assigns sem fine ((reassign w.vectorIndexes [key] (·.insert key core) (.node n)).map some) row
      (setNodeProperty L row n key core) w := by
  refine Does.bind (sets_uniqueOnSet hsem L hplain) fun _ w1 h1 => sets_session hsem ?_
  have hplain1 := h1.plain hplain
  split
  · next label hnull hlabel =>
    refine Does.fail fun h => ?_
    rw [notNullLabel,List.find?_eq_none.mpr (by simp [Schema.label,(hplain1 h).1])] at hlabel
    cases hlabel
  · refine Does.bind (sets_compositeUnique hsem L hplain1) fun _ w2 h2 => ?_
    rw [reassign,Option.map_map]
    exact assigns_rewriteNode hsem hfine row n (h1.trans h2)

theorem assigns_setNodeMap (row : Row) (n : NodeValue) (hplain : fine → w.Plain) :
    Assigns sem fine ((reassign w.vectorIndexes (incoming.map (·.1)) (mergedProps replace · incoming)
      (.node n)).map some)
      row (setNodeMap L row n replace incoming) w := by
  refine Does.bind (Does.forM_keep (SameButIndex w) (fun key w1 h1 => ?_) _ (.refl w)) fun _ w1 h1 => ?_
  · split
    · exact (sets_uniqueOnSet hsem L (h1.plain hplain)).mono (fun _ _ h => h1.trans h) fun _ _ h => h
    · exact Does.ret h1
  · refine Does.bind (sets_compositeUnique hsem L (h1.plain hplain)) fun _ w2 h2 => ?_
    refine Does.bind (sets_notnull hsem ((h1.trans h2).plain hplain)) fun _ w3 h3 => ?_
    obtain rfl := h3
    rw [reassign,Option.map_map]
    exact assigns_rewriteNode hsem hfine row n (h1.trans h2)

theorem assigns_setNodeLabels (row : Row) (n : NodeValue) (hplain : fine → w.Plain) :
    Assigns sem fine ((w.vectorIndexes.foldlM (enforceVectorDim (gainedLabels n.labels labels) none)
        n.properties).toOption.map fun properties =>
          some (.node ⟨n.id,n.labels++gainedLabels n.labels labels,properties⟩))
      row (setNodeLabels L row n labels) w := by
  refine Does.bind (sets_notnull hsem hplain) fun _ w1 h1 => ?_
  obtain rfl := h1
  refine Does.bind (sets_vectorDims hsem fun hnone => by rw [hnone]; rfl) fun stored w2 h2 => ?_
  obtain ⟨rfl,hstored⟩ := h2
  refine Does.bind (Does.forM_keep (SameButIndex w2) (fun e w3 h3 => ?_) _ (.refl w2)) fun _ w3 h3 => ?_
  · exact (sets_uniqueOnSet hsem L (h3.plain hplain)).mono (fun _ _ h => h3.trans h) fun _ _ h => h
  · refine Does.bind (sets_compositeUnique hsem L (h3.plain hplain)) fun _ w4 h4 => ?_
    refine (sets_rewriteNode hsem hfine).mono (fun out w' h => ?_) fun _ _ h => h
    rw [hstored]
    exact ⟨_,rfl,h.1,((h3.trans h4).write _).trans h.2⟩

theorem assigns_rewriteRel (changed : List String) (row : Row) (r : RelValue) (new : Properties → Properties) :
    Assigns sem fine ((reassign w.vectorIndexes changed new (.rel r)).map some) row
      (rewriteRel row r (new r.properties)) w :=
  (sets_rewriteRel hsem hfine).mono (fun _ _ h => ⟨_,rfl,h⟩) fun _ _ h => h

theorem assigns_applySetMap (row : Row) (hplain : fine → w.Plain) :
    Assigns sem fine (((L.evaluate value row).toOption).bind fun v =>
        assignMap w.vectorIndexes replace v (row targetAlias)) row (applySetMap L replace targetAlias value row) w := by
  refine sets_orFail (fun v hv => ?_) fun e he _ => by rw [he]; rfl
  rw [hv,Except.toOption,bind_some]
  have hassign := assignMap_eq w.vectorIndexes replace targetAlias v (row targetAlias)
  refine sets_orFail (fun found hfound => ?_) fun e he _ => by rw [hassign,he]; rfl
  rw [hfound] at hassign
  cases found with
  | none => exact Does.ret ⟨none,hassign,rfl,.refl w⟩
  | some entries =>
    rw [Except.toOption,bind_some,elim_some] at hassign
    rw [hassign]
    dsimp only
    split
    · next n htarget =>
      refine sets_orFail (fun incoming hin => ?_) fun e he _ => by rw [he]; rfl
      rw [hin,htarget]
      exact assigns_setNodeMap hsem L hfine row n hplain
    · next r htarget =>
      refine sets_orFail (fun incoming hin => ?_) fun e he _ => by rw [he]; rfl
      rw [hin,htarget]
      exact assigns_rewriteRel hsem hfine (incoming.map (·.1)) row r (mergedProps replace · incoming)
    · next hnode hrel =>
      refine Does.fail fun _ => ?_
      simp [bind_reassign_eq_none (bind_entity_eq_none hnode hrel)]

theorem assigns_applySetOp (row : Row) (op : SetOp Expr) (hplain : fine → w.Plain) :
    Assigns sem fine (op.assigns w.vectorIndexes (op.value.bind fun e => (L.evaluate e row).toOption)
      (row op.targetAlias)) row (applySetOp L row op) w := by
  cases op with
  | property targetAlias key value =>
    have hassign : (SetOp.property targetAlias key value).assigns w.vectorIndexes (L.evaluate value row).toOption
        (row targetAlias)=((L.evaluate value row).toOption.bind fun v => v.toCore.toOption).bind fun core =>
          ((row targetAlias).bind (reassign w.vectorIndexes [key] (·.insert key core))).map some := by
      simp [SetOp.assigns,map_eq_bind]
    change Assigns sem fine ((SetOp.property targetAlias key value).assigns w.vectorIndexes
      (L.evaluate value row).toOption (row targetAlias)) row _ w
    rw [hassign]
    refine sets_orFail (fun v hv => ?_) fun e he _ => by rw [he]; rfl
    rw [hv]
    have hcore : (L.runtimeToCore v value).toOption=v.toCore.toOption := by
      unfold Language.runtimeToCore
      cases v.toCore <;> rfl
    rw [Except.toOption,bind_some,← hcore]
    refine sets_orFail (fun core hcore => ?_) fun e he _ => by rw [he]; rfl
    rw [hcore,Except.toOption,bind_some]
    split
    · next n htarget =>
      rw [htarget]
      exact assigns_setNodeProperty hsem L hfine row n hplain
    · next r htarget =>
      rw [htarget]
      exact assigns_rewriteRel hsem hfine [key] row r (·.insert key core)
    · next hnode hrel =>
      refine Does.fail fun _ => ?_
      rw [bind_reassign_eq_none (bind_entity_eq_none hnode hrel)]
      rfl
  | replace targetAlias value => exact assigns_applySetMap hsem L hfine row hplain
  | merge targetAlias value => exact assigns_applySetMap hsem L hfine row hplain
  | labels targetAlias names =>
    rw [applySetOp]
    split
    · next n htarget =>
      rw [SetOp.targetAlias,htarget]
      exact assigns_setNodeLabels hsem L hfine row n hplain
    · next hnode =>
      refine Does.fail fun _ => ?_
      cases htarget : row targetAlias with
      | none => simp [SetOp.assigns,SetOp.targetAlias,htarget]
      | some v =>
        cases v with
        | node n => exact (hnode n htarget).elim
        | _ => simp [SetOp.assigns,SetOp.targetAlias,htarget]

omit hfine in
theorem sets_refresh (h : refreshed w row targetAlias = .ok out) :
    Sets sem fine Q (refreshStagedWriteTarget row targetAlias) (fun row' w' => row'=out ∧ w'=w) w := by
  unfold refreshed at h
  unfold refreshStagedWriteTarget
  split
  · next n hrow =>
    rw [hrow,bind_some,entity,map_some,staged_node] at h
    refine sets_session hsem ?_
    cases hst : w.stagedNode n.id with
    | untouched =>
      rw [hst] at h
      exact sets_ask fun _ w' hs => Does.ret ⟨Except.ok.inj h,hsem hs⟩
    | tombstone =>
      rw [hst] at h
      cases h
    | upsert view =>
      rw [hst] at h
      exact Does.ret ⟨(synchronizeNodeBindings_eq row view).trans (Except.ok.inj h),rfl⟩
  · next r hrow =>
    rw [hrow,bind_some,entity,map_some,staged_rel] at h
    refine sets_session hsem ?_
    cases hst : w.stagedEdge ⟨r.edgeType,r.src,r.dst⟩ with
    | untouched =>
      rw [hst] at h
      exact Does.ret ⟨Except.ok.inj h,rfl⟩
    | tombstone =>
      rw [hst] at h
      cases h
    | upsert view =>
      rw [hst] at h
      exact Does.ret ⟨(synchronizeRelBindings_eq row view).trans (Except.ok.inj h),rfl⟩
  · next hnode hrel =>
    rw [bind_entity_eq_none hnode hrel] at h
    exact Does.ret ⟨Except.ok.inj h,rfl⟩

variable {L} {reads : Expr → List String} {row carried : Row} {op : SetOp Expr}

/-- An item does to the batch and to the row what it means for the graph. -/
theorem Carried.applySet (h : Carried w row carried) (hreads : Local L reads)
    (hs : Sees reads w.overlay.graph row carried op) (hb : Bound w row op) (hplain : fine → w.Plain) :
    Sets sem fine (meaning L w.vectorIndexes row w.overlay.graph op=none) (applySet L carried op) (fun out w' =>
      ∃ new, meaning L w.vectorIndexes row w.overlay.graph op=some new ∧
        out=(new.or (op.target w.overlay.graph row)).elim carried (Query.overwrite carried) ∧
          SameButIndex (new.elim w w.write) w' ∧ Carried w' row out) w := by
  obtain ⟨hrefresh,hcarried⟩ := h.refreshed hb
  refine Does.bind (sets_refresh hsem hrefresh) fun out w1 h1 => ?_
  obtain ⟨rfl,rfl⟩ := h1
  generalize hrow : (op.target w1.overlay.graph row).elim carried (Query.overwrite carried)=now at hcarried
  have hvalue : (op.value.bind fun e => (L.evaluate e now).toOption)=
      op.value.bind fun e => (L.evaluate e fun name => (row name).map w1.overlay.graph.current).toOption := by
    cases he : op.value with
    | none => rfl
    | some e =>
      rw [bind_some,bind_some,← hrow]
      exact congrArg Except.toOption (h.evaluate hreads hs hb he)
  have htarget : op.assigns w1.vectorIndexes (op.value.bind fun e => (L.evaluate e now).toOption) (now op.targetAlias)=
      meaning L w1.vectorIndexes row w1.overlay.graph op := by
    rw [hvalue,meaning]
    cases hk : (row op.targetAlias).bind entity with
    | none =>
      have hnone : op.target w1.overlay.graph row=none := by rw [SetOp.target,hk]; rfl
      rw [hnone,assigns_of_unbound]
      rw [← hrow,hnone,elim_none,h.entity_eq,hk]
    | some k =>
      obtain ⟨u,hu⟩ := isSome_iff_exists.mp (hb k hk).1
      have huk := entity_of_read hu
      have hsome : op.target w1.overlay.graph row=some u := by rw [SetOp.target,hk,bind_some,hu]
      rw [← hrow,hsome,elim_some,overwrite_same (by rw [h.entity_eq,hk,huk]) (by rw [huk]; rfl)]
  have hset := assigns_applySetOp hsem L hfine now op hplain
  rw [htarget] at hset
  refine hset.mono (fun out w' => ?_) fun _ _ h => h
  rintro ⟨new,hnew,rfl,hsame⟩
  cases new with
  | none =>
    refine ⟨none,hnew,hrow.symm,hsame,?_⟩
    obtain ⟨index,rfl⟩ := hsame
    exact hcarried
  | some v =>
    obtain ⟨hent,hsome⟩ := entity_assigns (htarget.trans hnew)
    obtain ⟨k,hk⟩ := isSome_iff_exists.mp hsome
    refine ⟨some v,hnew,?_,hsame,?_⟩
    · rw [← hrow]
      cases ht : op.target w1.overlay.graph row with
      | none => rfl
      | some u =>
        obtain ⟨j,hj,hu⟩ := bind_eq_some_iff.mp ht
        refine overwrite_overwrite carried ?_
        rw [entity_of_read hu,hent,hcarried.entity_eq,hj]
    · obtain ⟨index,rfl⟩ := hsame
      exact hcarried.overwrite hk (upserted_write hk) fun j hj => hj.write hk

/-- The batch gives the graph `g'`, and what was bound as the graph has it is so still. -/
structure Means (Expr : Type) (w : Writer) (g' : Option Graph) (w' : Writer) : Prop where
  graph : g'=some w'.overlay.graph
  schema : w'.schema=w.schema
  vectorIndexes : w'.vectorIndexes=w.vectorIndexes
  bound : ∀ (row : Row) (op : SetOp Expr), Bound w row op → Bound w' row op

omit hsem hfine in
theorem Means.trans (h : Means Expr w g w1) (h' : Means Expr w1 g' w') : Means Expr w g' w' :=
  ⟨h'.graph,h'.schema.trans h.schema,h'.vectorIndexes.trans h.vectorIndexes,
    fun row op hb => h'.bound row op (h.bound row op hb)⟩

omit hsem hfine in
theorem Means.plain (h : Means Expr w g' w') (hplain : fine → w.Plain) : fine → w'.Plain := fun hf => by
  rw [Writer.Plain,h.schema]
  exact hplain hf

omit hsem hfine in
theorem Means.setItem (hsame : SameButIndex (new.elim w w.write) w')
    (hnew : meaning L w.vectorIndexes row w.overlay.graph op=some new) :
    Means Expr w (setItem L w.vectorIndexes row w.overlay.graph op) w' := by
  obtain ⟨index,rfl⟩ := hsame
  rw [Query.setItem,hnew]
  cases new with
  | none => exact ⟨rfl,rfl,rfl,fun _ _ h => h⟩
  | some v =>
    obtain ⟨k,hk⟩ := isSome_iff_exists.mp (entity_assigns hnew).2
    obtain ⟨m,hm,-⟩ := record_of_entity hk
    have hwrite : w.write v=w.stage m := by rw [Writer.write,hm]; rfl
    refine ⟨congrArg some (overlay_write w v).symm,?_,?_,fun row op h => h.write hk⟩
    · rw [elim_some,hwrite]
      rfl
    · rw [elim_some,hwrite]
      rfl

theorem Carried.applySets (items : List (SetOp Expr)) (h : Carried w row carried) (hreads : Local L reads)
    (hs : RowUpToDate L w.vectorIndexes reads row items carried w.overlay.graph) (hb : ∀ op ∈ items, Bound w row op)
    (hplain : fine → w.Plain) :
    Sets sem fine (setRow L w.vectorIndexes items w.overlay.graph row=none) (applySets L items carried)
      (fun _ => Means Expr w (setRow L w.vectorIndexes items w.overlay.graph row)) w := by
  induction items generalizing carried w with
  | nil => exact Does.ret ⟨rfl,rfl,rfl,fun _ _ h => h⟩
  | cons op items ih =>
    rw [setRow,List.foldlM_cons]
    have hop := h.applySet hsem hfine hreads hs.1 (hb op List.mem_cons_self) hplain
    refine Does.bind (hop.mono (fun _ _ h => h) fun _ _ hnone hf => ?_) fun out w1 h1 => ?_
    · rw [setItem,hnone hf]
      rfl
    · obtain ⟨new,hnew,rfl,hsame,hcarried⟩ := h1
      have hmeans := Means.setItem hsame hnew
      have hgraph : new.elim w.overlay.graph w.overlay.graph.store=w1.overlay.graph := by
        have := hmeans.graph
        rw [setItem,hnew] at this
        exact some.inj this
      have hrest := hs.2 new hnew
      rw [hgraph,← hmeans.vectorIndexes] at hrest
      have hdone := ih hcarried hrest (fun op' hop' => hmeans.bound row op' (hb op' (List.mem_cons_of_mem op hop')))
        (hmeans.plain hplain)
      rw [hmeans.vectorIndexes] at hdone
      rw [hmeans.graph]
      exact hdone.mono (fun _ _ h => hmeans.trans h) fun _ _ h => h

theorem sets_rows (items : List (SetOp Expr)) (hreads : Local L reads) (rows : List Row)
    (hs : UpToDate L w.vectorIndexes items reads rows w.overlay.graph)
    (hb : ∀ row ∈ rows, ∀ op ∈ items, Bound w row op) (hplain : fine → w.Plain) :
    Sets sem fine (setRows L w.vectorIndexes items w.overlay.graph rows=none)
      (rows.mapM' fun row => do
        checkDeadline
        applySets L items row)
      (fun _ => Means Expr w (setRows L w.vectorIndexes items w.overlay.graph rows)) w := by
  induction rows generalizing w with
  | nil => exact Does.ret ⟨rfl,rfl,rfl,fun _ _ h => h⟩
  | cons row rows ih =>
    rw [setRows,List.foldlM_cons]
    have hrow := Carried.applySets hsem hfine items (fun _ => .inl rfl : Carried w row row) hreads hs.1
      (hb row List.mem_cons_self) hplain
    have hchecked : Sets sem fine (setRow L w.vectorIndexes items w.overlay.graph row=none) (do
        checkDeadline
        applySets L items row) (fun _ => Means Expr w (setRow L w.vectorIndexes items w.overlay.graph row)) w := by
      refine Does.bind (P := fun _ w' => w'=w) ?_ fun _ w' h => h ▸ hrow
      refine sets_ask fun r w' hask => ?_
      cases r with
      | ok => exact Does.ret (hsem hask)
      | error =>
        refine Does.fail fun hf => ?_
        cases hfine hf hask
    refine Does.bind (hchecked.mono (fun _ _ h => h) fun _ _ hnone hf => ?_) fun out w1 h1 => ?_
    · rw [hnone hf]
      rfl
    · have hrest := hs.2 _ h1.graph
      rw [← h1.vectorIndexes] at hrest
      have hdone := ih hrest (fun row' hrow' op hop =>
        h1.bound row' op (hb row' (List.mem_cons_of_mem row hrow') op hop)) (h1.plain hplain)
      rw [h1.vectorIndexes] at hdone
      rw [h1.graph]
      exact Does.bind (hdone.mono (fun _ _ h => h1.trans h) fun _ _ h => h) fun _ _ h => Does.ret h

theorem sets_eachRow (items : List (SetOp Expr)) (hreads : Local L reads) (rows : List Row)
    (hs : UpToDate L w.vectorIndexes items reads rows w.overlay.graph)
    (hb : ∀ row ∈ rows, ∀ op ∈ items, Bound w row op) (hplain : fine → w.Plain) (retainOutput : Bool) :
    Sets sem fine (setRows L w.vectorIndexes items w.overlay.graph rows=none)
      (eachRow (applySets L items) retainOutput rows)
      (fun _ => Means Expr w (setRows L w.vectorIndexes items w.overlay.graph rows)) w :=
  Does.bind (sets_rows hsem hfine items hreads rows hs hb hplain) fun _ _ h => Does.ret h

end

section
variable {Expr : Type}

/-- No request is refused. -/
def willing : Semantics Writer Reply := fun w o r w' => answers w o r w' ∧ answered o r=true

def numbered (id : NodeId) (x : Int) : NodeValue := ⟨id,[],(∅ : Properties).insert "x" (.i64 x)⟩

def pairRow (a b : NodeValue) : Row := (Row.new.set "a" (.node a)).set "b" (.node b)

def twoNumbers : Writer := .opened {} [] {
  graph := ⟨((∅ : Overlay).insert 1 ⟨[],(numbered 1 1).properties⟩).insert 2 ⟨[],(numbered 2 2).properties⟩,∅⟩
  edgeTypes := []
  typed := typed_empty
  distinct := List.nodup_nil }

def numberOf (g : Graph) (id : NodeId) : Option Int :=
  match (g.nodes.lookup id).bind fun r => r.props.lookup "x" with
  | some (.i64 n) => some n
  | _ => none

def conclude (p : ExecM (List Row)) (steps : Nat) : Option (Prog Reply (Except ExecError (List Row)) × Writer) :=
  follow (fun w o id => some (w.answer id o)) (List.range steps) p.run twoNumbers

theorem ends_of_conclude (id : NodeId) (steps : Nat)
    (h : (conclude p steps).map (fun q =>
      (match q.1 with | .ret (.ok _) => true | _ => false,numberOf q.2.overlay.graph id)) = some (true,x)) :
    ∃ out w, Ends answers p twoNumbers (.ok out) w ∧ numberOf w.overlay.graph id=x := by
  obtain ⟨⟨q,w⟩,hq,hend⟩ := map_eq_some_iff.mp h
  have hruns : Runs answers p.run twoNumbers q w := follow_runs (fun {s o new r s'} hexec => by
    have hans := s.answer_answers new o
    rwa [some.inj hexec] at hans) hq
  obtain ⟨hret,hx⟩ := Prod.mk.inj hend
  split at hret
  · next out hq' =>
    obtain rfl : q = _ := hq'
    exact ⟨out,w,hruns,hx⟩
  · cases hret

theorem bound_pairRow (op : SetOp String) : Bound twoNumbers (pairRow (numbered 1 1) (numbered 2 2)) op := by
  have hrow : ∀ {name v}, pairRow (numbered 1 1) (numbered 2 2) name=some v →
      v = .node (numbered 1 1) ∨ v = .node (numbered 2 2) := by
    intro name v h
    simp only [pairRow,Row.set,Row.new] at h
    split at h
    · exact .inr (some.inj h).symm
    · split at h
      · exact .inl (some.inj h).symm
      · cases h
  intro k hk
  obtain ⟨u,hu,huk⟩ := bind_eq_some_iff.mp hk
  rcases hrow hu with rfl | rfl
  · cases huk
    refine ⟨rfl,.inr fun name v hv hvk => ?_⟩
    rcases hrow hv with rfl | rfl
    · rfl
    · cases hvk
  · cases huk
    refine ⟨rfl,.inr fun name v hv hvk => ?_⟩
    rcases hrow hv with rfl | rfl
    · cases hvk
    · rfl

theorem upToDate_pairRow : UpToDate varExprs [] [.replace "a" "b",.merge "b" "b"] (fun e => [e])
    [pairRow (numbered 1 1) (numbered 2 2)] twoNumbers.overlay.graph := by
  refine ⟨⟨fun name hname v hv => ?_,fun new _ => ⟨fun name hname v hv => ?_,fun _ _ => trivial⟩⟩,fun _ _ => trivial⟩
  · obtain rfl := List.mem_singleton.mp hname
    cases hv
    exact .inr rfl
  · obtain rfl := List.mem_singleton.mp hname
    have hent : entity v=some (.node 2) := by
      cases hnew : new.or _ with
      | none =>
        rw [hnew] at hv
        cases hv
        rfl
      | some now =>
        have hkeep := entity_overwrite (pairRow (numbered 1 1) (numbered 2 2)) now "b"
        rw [hnew,elim_some] at hv
        rwa [hv] at hkeep
    exact .inl ⟨by rw [hent]; rfl,hent⟩

end
end NamiDB.Query
