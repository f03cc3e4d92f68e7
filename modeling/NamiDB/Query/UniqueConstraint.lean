import NamiDB.Query.Constraints

/-! `CREATE CONSTRAINT … IS UNIQUE`: the committed graph is validated, the schema is published, and the batch that
other requests have staged stays where it is. -/
namespace NamiDB.Storage

def reservedPropertyNames : List String := ["node_id", "tombstone", "lsn"]

def validatePropertyName (name : String) : Except String Unit :=
  if name = "" then .error "property name must be non-empty"
  else if name.startsWith "__" then .error s!"property name '{name}' uses the reserved '__' prefix"
  else if name.startsWith "prop_" then .error s!"property name '{name}' uses the reserved 'prop_' prefix"
  else if name∈reservedPropertyNames then
    .error s!"property name '{name}' collides with an engine-managed column"
  else .ok ()

def PropertyDef.new (name : String) (dataType : DataType) (nullable : Bool) : Except String PropertyDef :=
  (validatePropertyName name).map fun _ => { name, dataType, nullable }

def ddlPropertyType (declared inferred : Option DataType) : DataType × Bool :=
  match declared.or inferred with
  | some dtype => (dtype,false)
  | none => (.utf8,true)

/-- A second DDL only adds its flags, and a pending type is replaced by a concrete one. -/
def PropertyDef.addFlags (self : PropertyDef) (dtype : DataType) (typePending unique indexed : Bool) : PropertyDef :=
  let flagged := { self with unique := self.unique||unique, indexed := self.indexed||indexed }
  if self.typePending && !typePending then { flagged with dataType := dtype, typePending := false } else flagged

def changeProperty (property : String) (change : PropertyDef → PropertyDef) :
    List PropertyDef → Option (List PropertyDef)
  | [] => none
  | p::ps => if p.name=property then some (change p::ps) else (changeProperty property change ps).map (p::·)

def LabelDef.upsertFlags (self : LabelDef) (property : String) (dtype : DataType) (typePending unique indexed : Bool) :
    Except String LabelDef :=
  match changeProperty property (·.addFlags dtype typePending unique indexed) self.properties with
  | some properties => .ok { self with properties }
  | none => (PropertyDef.new property dtype true).map fun p =>
    { self with properties := self.properties++[{ p with unique, indexed, typePending }] }

def putLabel (d : LabelDef) : List LabelDef → List LabelDef
  | [] => [d]
  | e::es => if e.name=d.name then d::es else if d.name<e.name then d::e::es else e::putLabel d es

def upsertPropertyFlags (schema : Schema) (label property : String) (dtype : DataType)
    (typePending unique indexed : Bool) : Except String Schema :=
  (((schema.label label).getD ⟨label,[]⟩).upsertFlags property dtype typePending unique indexed).map fun d =>
    { schema with labels := putLabel d schema.labels }

def Constraint.defaultName (label : String) (properties : List String) : String :=
  s!"uniq_{label}_" ++ "_".intercalate properties

/-- The same label and the same set of properties. -/
def Constraint.isMatch (self : Constraint) (label : String) (properties : List String) : Bool :=
  decide (self.label=label ∧ self.properties.insertionSort (·≤·)=properties.insertionSort (·≤·))

namespace Schema

def constraintNamed (self : Schema) (name : String) : Option Constraint :=
  self.constraints.find? fun c => c.name=name

variable (self : Schema) (label : String) (properties : List String)

def constraintMatching : Option Constraint :=
  self.constraints.find? fun c => c.isMatch label properties

def soleProperty : Option PropertyDef :=
  match properties with
  | [property] => (self.label label).bind fun d => d.properties.find? fun p => p.name=property
  | _ => none

/-- A manifest older than named constraints has the flag only. -/
def hasUniqueConstraint : Bool :=
  (self.constraintMatching label properties).isSome||(self.soleProperty label properties).any (·.unique)

def takenName (self : Schema) (name : Option String) (label : String) (properties : List String) : Option String :=
  name.filter fun n => (self.constraintNamed n).any fun c => !c.isMatch label properties

def flagUnique (inferred : Option DataType) : Except String Schema :=
  match properties with
  | [property] =>
    let declared := ((self.soleProperty label properties).filter fun p => !p.typePending).map (·.dataType)
    let (dtype,typePending) := ddlPropertyType declared inferred
    upsertPropertyFlags self label property dtype typePending true false
  | _ => .ok self

/-- One property is flagged, and every constraint gets its entry. -/
def withUniqueConstraint (self : Schema) (name : Option String) (label : String) (properties : List String)
    (inferred : Option DataType) : Except String Schema :=
  (self.flagUnique label properties inferred).map fun schema =>
    { schema with
      constraints := schema.constraints++[⟨name.getD (Constraint.defaultName label properties),label,properties⟩] }

end Schema
end NamiDB.Storage

namespace NamiDB.Query
open Storage Lib Checked Option

variable {debug : Value → String} {name : Option String} {properties : List String} {ifNotExists : Bool}
  {label : String} {w : Writer}

def findDuplicate {α : Type} (key : α → Option String) : List α → List String → Option α
  | [], _ => none
  | x::xs, seen =>
    match key x with
    | none => findDuplicate key xs seen
    | some k => if k∈seen then some x else findDuplicate key xs (k::seen)

/-- The texts of a complete tuple. A row is exempt unless every property is present and not null. -/
def tupleKey (debug : Value → String) (properties : List String) (props : Properties) : Option String :=
  (completeTuple properties props).map fun tuple => "\u0001".intercalate (tuple.map fun e => debug e.2)

/-- The first node of the committed graph that repeats a tuple. -/
def Writer.duplicateNode (self : Writer) (debug : Value → String) (label : String) (properties : List String) :
    Option NodeValue :=
  findDuplicate (fun n => tupleKey debug properties n.properties) (self.committed.graph.scanNodes label) []

def Writer.inferredType (self : Writer) (label : String) (properties : List String) : Option DataType :=
  match properties with
  | [property] => (self.committed.graph.scanNodes label).findSome? fun n =>
    (n.properties.lookup property).bind valueDatatype
  | _ => none

/-- The schema that the statement publishes; nothing where it has nothing to do. -/
def Writer.uniqueConstraintSchema (self : Writer) (debug : Value → String) (name : Option String) (label : String)
    (properties : List String) (ifNotExists : Bool) : Except String (Option Schema) :=
  let listed := ", ".intercalate properties
  if properties=[] then .error "a uniqueness constraint requires at least one property"
  else match findDuplicate some properties [] with
  | some p => .error s!"property '{p}' is listed twice in the same constraint"
  | none => match self.schema.takenName name label properties with
    | some n => .error s!"a constraint named '{n}' already exists with a different definition"
    | none =>
      if self.schema.hasUniqueConstraint label properties then
        if ifNotExists then .ok none
        else .error s!"a uniqueness constraint on {label}({listed}) already exists"
      else match self.duplicateNode debug label properties with
        | some n =>
          let desc := ", ".intercalate (properties.map fun p => s!"{p}=" ++ ((n.properties.lookup p).elim "" debug))
          .error s!"cannot create unique constraint on {label}({listed}): duplicate ({desc}) already exists"
        | none => (self.schema.withUniqueConstraint name label properties (self.inferredType label properties)).map some

/-- The statement succeeds. A manifest is published only over the one that the session knows, and the index starts
anew. -/
def CreatesUniqueConstraint (debug : Value → String) (name : Option String) (label : String) (properties : List String)
    (ifNotExists : Bool) (w w' : Writer) : Prop :=
  w.uniqueConstraintSchema debug name label properties ifNotExists = .ok none ∧ w'=w ∨
    ∃ schema, w.uniqueConstraintSchema debug name label properties ifNotExists = .ok (some schema) ∧
      w.durable=w.committed ∧ w'={ w with schema, index := .new }

theorem findDuplicate_none (h : findDuplicate key xs seen=none) :
    (∀ x ∈ xs, ∀ k ∈ key x, k∉seen) ∧ xs.Pairwise fun a b => ∀ k ∈ key a, k∉key b := by
  induction xs generalizing seen with
  | nil => exact ⟨fun _ h => absurd h List.not_mem_nil,.nil⟩
  | cons x xs ih =>
    cases hk : key x with
    | none =>
      simp only [findDuplicate,hk] at h
      refine ⟨fun y hy => ?_,.cons (fun _ _ => by simp [hk]) (ih h).2⟩
      rcases List.mem_cons.mp hy with rfl | hy
      · simp [hk]
      · exact (ih h).1 y hy
    | some k =>
      simp only [findDuplicate,hk] at h
      split at h
      · cases h
      next hnew =>
      refine ⟨fun y hy j hj => ?_,.cons (fun y hy j hj hy' => ?_) (ih h).2⟩
      · rcases List.mem_cons.mp hy with rfl | hy
        · rw [hk] at hj
          exact some.inj hj ▸ hnew
        · exact fun hseen => (ih h).1 y hy j hj (.tail _ hseen)
      · rw [hk] at hj
        exact (ih h).1 y hy j hy' (some.inj hj ▸ List.mem_cons_self)

/-- Equal values of the constrained properties have equal texts. -/
def Uniqueness.PrintsEqual (u : Uniqueness) (debug : Value → String) (nodes : Overlay) : Prop :=
  ∀ a b ra rb, nodes.lookup a=some ra → nodes.lookup b=some rb → ∀ p ∈ u.properties, ∀ v w,
    ra.props.lookup p=some v → rb.props.lookup p=some w → v.eq w=true → debug v=debug w

theorem tupleKey_of_sameTuple (h : SameTuple properties a b)
    (hprint : ∀ p ∈ properties, ∀ v w, a.lookup p=some v → b.lookup p=some w → v.eq w=true → debug v=debug w) :
    ∃ k, tupleKey debug properties a=some k ∧ tupleKey debug properties b=some k := by
  have htuples : ∃ ta tb, completeTuple properties a=some ta ∧ completeTuple properties b=some tb ∧
      ta.map (fun e => debug e.2)=tb.map fun e => debug e.2 := by
    induction properties with
    | nil => exact ⟨[],[],rfl,rfl,rfl⟩
    | cons p ps ih =>
      obtain ⟨ta,tb,hta,htb,htexts⟩ := ih (fun q hq => h q (.tail _ hq))
        fun q hq => hprint q (.tail _ hq)
      obtain ⟨v,w,hv,hw,hnull,heq⟩ := h p (.head _)
      have hnull' : w.isNull=false := (Value.isNull_of_eq heq).symm.trans hnull
      refine ⟨(p,v)::ta,(p,w)::tb,?_,?_,?_⟩
      · rw [completeTuple] at hta ⊢
        simp [hv,hnull,hta]
      · rw [completeTuple] at htb ⊢
        simp [hw,hnull',htb]
      · rw [List.map_cons,List.map_cons,htexts,hprint p List.mem_cons_self v w hv hw heq]
  obtain ⟨ta,tb,hta,htb,htexts⟩ := htuples
  refine ⟨"\u0001".intercalate (tb.map fun e => debug e.2),?_,?_⟩
  · rw [tupleKey,hta,← htexts]
    rfl
  · rw [tupleKey,htb]
    rfl

theorem distinct_of_validated {u : Uniqueness} (h : w.duplicateNode debug u.label u.properties=none)
    (hprint : u.PrintsEqual debug w.committed.graph.nodes) : u.Distinct w.committed.graph.nodes := by
  intro a b ra rb hab ha hb hla hlb hsame
  obtain ⟨k,hka,hkb⟩ := tupleKey_of_sameTuple hsame fun p hp v w hv hw => hprint a b ra rb ha hb p hp v w hv hw
  have hmem : ∀ c rc, w.committed.graph.nodes.lookup c=some rc → u.label∈rc.labels →
      ⟨c,rc.labels,rc.props⟩∈w.committed.graph.scanNodes u.label := fun c rc hc hl =>
    List.mem_map.mpr ⟨⟨c,rc⟩,List.mem_filter.mpr ⟨AList.mem_lookup_iff.mp hc,decide_eq_true (.inr hl)⟩,rfl⟩
  have hne : (⟨a,ra.labels,ra.props⟩ : NodeValue)≠⟨b,rb.labels,rb.props⟩ := fun h => hab (congrArg (·.id) h)
  have hsymm : Std.Symm fun m n : NodeValue =>
      ∀ k ∈ tupleKey debug u.properties m.properties, k∉tupleKey debug u.properties n.properties :=
    ⟨fun m n hmn k hn hm => hmn k hm hn⟩
  exact (findDuplicate_none h).2.forall (hmem a ra ha hla) (hmem b rb hb hlb) hne k hka hkb

section

variable {property label : String} {s : Schema}

theorem changeProperty_unique (hchange : ∀ p, p.name=property → (change p).name=property ∧ (change p).unique=true)
    (h : changeProperty property change ps=some ps') : ∃ p ∈ ps', p.name=property ∧ p.unique=true := by
  induction ps generalizing ps' with
  | nil => cases h
  | cons p ps ih =>
    rw [changeProperty] at h
    split at h
    · next hname =>
      cases h
      exact ⟨change p,.head _,hchange p hname⟩
    · obtain ⟨rest,hrest,rfl⟩ := map_eq_some_iff.mp h
      obtain ⟨q,hq,hunique⟩ := ih hrest
      exact ⟨q,.tail _ hq,hunique⟩

theorem upsertFlags_unique {d d' : LabelDef} (h : d.upsertFlags property dtype typePending true indexed = .ok d') :
    d'.name=d.name ∧ d'.isUnique property=true := by
  have hany : ∀ ps : List PropertyDef, (∃ p ∈ ps, p.name=property ∧ p.unique=true) →
      LabelDef.isUnique ⟨d.name,ps⟩ property=true := fun ps ⟨p,hp,hname,hunique⟩ =>
    List.any_eq_true.mpr ⟨p,hp,by simp [hname,hunique]⟩
  unfold LabelDef.upsertFlags at h
  split at h
  · next ps hps =>
    cases h
    refine ⟨rfl,hany ps (changeProperty_unique (fun p hp => ?_) hps)⟩
    unfold PropertyDef.addFlags
    split <;> exact ⟨hp,Bool.or_true _⟩
  · unfold PropertyDef.new at h
    cases hvalid : validatePropertyName property with
    | error e =>
      rw [hvalid] at h
      cases h
    | ok _ =>
      rw [hvalid] at h
      cases h
      exact ⟨rfl,hany _ ⟨_,List.mem_append_right _ (List.mem_singleton_self _),rfl,rfl⟩⟩

theorem find_putLabel (d : LabelDef) (ls : List LabelDef) :
    (putLabel d ls).find? (fun e => decide (e.name=d.name))=some d := by
  induction ls with
  | nil => simp [putLabel]
  | cons e es ih =>
    rw [putLabel]
    split
    · simp
    next hne =>
    split
    · simp
    · simpa [hne] using ih

theorem name_label : ((s.label label).getD ⟨label,[]⟩).name=label := by
  cases hd : s.label label with
  | none => rfl
  | some d => exact of_decide_eq_true (List.find?_some (p := fun d : LabelDef => decide (d.name=label)) hd)

theorem inSchema_withUniqueConstraint (hne : properties≠[])
    (h : s.withUniqueConstraint name label properties inferred = .ok s') :
    Uniqueness.InSchema ⟨label,properties⟩ s' := by
  unfold Schema.withUniqueConstraint at h
  cases hflag : s.flagUnique label properties inferred with
  | error e =>
    rw [hflag] at h
    cases h
  | ok flagged =>
  rw [hflag] at h
  cases h
  unfold Schema.flagUnique at hflag
  split at hflag
  · next property =>
    simp only [upsertPropertyFlags] at hflag
    generalize ddlPropertyType _ inferred=ty at hflag
    cases hd : ((s.label label).getD ⟨label,[]⟩).upsertFlags property ty.1 ty.2 true false with
    | error e =>
      rw [hd] at hflag
      cases hflag
    | ok d =>
      rw [hd] at hflag
      cases hflag
      obtain ⟨hname,hunique⟩ := upsertFlags_unique hd
      rw [name_label] at hname
      exact .inl ⟨property,d,rfl,hname ▸ find_putLabel d s.labels,hunique⟩
  · next hmany =>
    refine .inr ⟨_,List.mem_append_right _ (List.mem_singleton_self _),?_,rfl,fun p => Iff.rfl⟩
    match properties, hne, hmany with
    | [p], _, hmany => exact absurd rfl (hmany p)
    | _ :: _ :: _, _, _ => simp

end

section

variable {w : Writer}

/-- No node that the batch writes conflicts with another one. -/
def Uniqueness.StagedApart (u : Uniqueness) (w : Writer) : Prop :=
  ∀ a b ra rb, a≠b → w.stagedNode a ≠ .untouched → w.overlay.graph.nodes.lookup a=some ra →
    w.overlay.graph.nodes.lookup b=some rb → u.label∈ra.labels → u.label∈rb.labels →
    ¬SameTuple u.properties ra.props rb.props

theorem distinct_overlay {u : Uniqueness} (h : u.Distinct w.committed.graph.nodes) (hstaged : u.StagedApart w) :
    u.Distinct w.overlay.graph.nodes := by
  intro a b ra rb hab ha hb hla hlb
  by_cases hsa : w.stagedNode a = .untouched
  · by_cases hsb : w.stagedNode b = .untouched
    · rw [lookup_of_untouched hsa] at ha
      rw [lookup_of_untouched hsb] at hb
      exact h a b ra rb hab ha hb hla hlb
    · exact fun hsame => hstaged b a rb ra (.symm hab) hsb hb ha hlb hla hsame.symm
  · exact hstaged a b ra rb hab hsa ha hb hla hlb

end

def Uniqueness.only (u : Uniqueness) : Rules := ⟨fun v => v=u,fun _ _ => False⟩

theorem Uniqueness.satisfied_only {u : Uniqueness} : u.only.Satisfied g ↔ u.Distinct g.nodes :=
  ⟨fun h => h.1 u rfl,fun h => ⟨fun _ hv => hv ▸ h,nofun⟩⟩

theorem uniqueConstraintSchema_none (h : w.uniqueConstraintSchema debug name label properties ifNotExists = .ok none) :
    w.schema.hasUniqueConstraint label properties=true := by
  cases hs : w.schema.withUniqueConstraint name label properties (w.inferredType label properties) <;>
    grind [Writer.uniqueConstraintSchema,Except.map]

theorem uniqueConstraintSchema_some
    (h : w.uniqueConstraintSchema debug name label properties ifNotExists = .ok (some schema)) :
    properties≠[] ∧ w.duplicateNode debug label properties=none ∧
      w.schema.withUniqueConstraint name label properties (w.inferredType label properties) = .ok schema := by
  cases hs : w.schema.withUniqueConstraint name label properties (w.inferredType label properties) <;>
    grind [Writer.uniqueConstraintSchema,Except.map]

theorem nodes_applyAll (h : ms.any Mutation.isNode=false) (base : Base) :
    (base.applyAll ms).graph.nodes=base.graph.nodes := by
  induction ms generalizing base with
  | nil => rfl
  | cons m ms ih =>
    obtain ⟨hm,hms⟩ := Bool.or_eq_false_iff.mp h
    refine (ih hms (base.apply m)).trans ?_
    cases m with
    | node => cases hm
    | edge key properties => cases properties <;> rfl

/-- An empty index is exact, whatever is staged. -/
theorem inv_index_new (hindex : w.index = .new) (hmark : w.mark=none) : w.unique.Inv where
  good c := by
    simp only [Writer.unique,hindex,hmark]
    exact ⟨by rintro _ ⟨⟩,by rintro _ ⟨⟩,.no_entry (by rintro _ ⟨⟩)⟩
  clean hs := ⟨nodes_applyAll hs w.committed,fun c => by simp [Writer.unique,hindex,IndexState.slot,IndexState.new]⟩
  mark := by simp [Writer.unique,hmark]

theorem inv_of_created (hcreate : CreatesUniqueConstraint debug name label properties ifNotExists w w')
    (hmark : w.mark=none) (hprint : Uniqueness.PrintsEqual ⟨label,properties⟩ debug w.committed.graph.nodes)
    (hstaged : Uniqueness.StagedApart ⟨label,properties⟩ w)
    (hknown : w.schema.hasUniqueConstraint label properties=true → Inv (Uniqueness.only ⟨label,properties⟩) w) :
    Inv (Uniqueness.only ⟨label,properties⟩) w' := by
  rcases hcreate with ⟨hnone,rfl⟩ | ⟨schema,hsome,hdurable,rfl⟩
  · exact hknown (uniqueConstraintSchema_none hnone)
  obtain ⟨hne,hvalid,hschema⟩ := uniqueConstraintSchema_some hsome
  have hcommitted : Uniqueness.Distinct ⟨label,properties⟩ w.committed.graph.nodes :=
    distinct_of_validated hvalid hprint
  refine ⟨⟨?_,?_,?_,?_⟩,⟨?_,nofun⟩,inv_index_new rfl hmark⟩
  · exact Uniqueness.satisfied_only.mpr hcommitted
  · exact Uniqueness.satisfied_only.mpr (hdurable ▸ hcommitted)
  · exact Uniqueness.satisfied_only.mpr (distinct_overlay hcommitted hstaged)
  · intro n hn
    rw [hmark] at hn
    cases hn
  · rintro u rfl
    exact inSchema_withUniqueConstraint hne hschema

def email (text : String) : Properties := (∅ : Properties).insert "email" (.str text)

/-- A group commit has staged one user, and nothing is committed. -/
def oneStaged : Writer := (Writer.opened {} [] emptyBase).upsertNode ["User"] 1 (email "ada")

/-- Another request of the group staged a user with the same email. -/
def twoStaged : Writer := oneStaged.upsertNode ["User"] 2 (email "ada")

def zeroes : Base where
  graph := ⟨((∅ : Overlay).insert 1 ⟨["User"],(∅ : Properties).insert "score" (.f64 0)⟩).insert 2
    ⟨["User"],(∅ : Properties).insert "score" (.f64 0x8000000000000000)⟩,∅⟩
  edgeTypes := []
  typed := typed_empty
  distinct := List.nodup_nil

def debugText : Value → String
  | .str text => s!"Str(\"{text}\")"
  | .f64 bits => if bits=0 then "F64(0.0)" else if bits=0x8000000000000000 then "F64(-0.0)" else ""
  | _ => ""

def described : Language RuntimeValue := { literals with debug := debugText }

def emailSchema : Schema where
  labels := [⟨"User",[{ uniqueEmail with typePending := true }]⟩]
  constraints := [⟨"uniq_User_email", "User",["email"]⟩]

def scoreSchema : Schema where
  labels := [⟨"User",[{ name := "score", dataType := .float64, nullable := true, unique := true }]⟩]
  constraints := [⟨"uniq_User_score", "User",["score"]⟩]

/-- The group is committed, another user with its email is rejected and one with a new email goes in. -/
def laterUsers : List (Deed RuntimeValue) :=
  [.commitGroup,createUser "email" (.string "ada"),createUser "email" (.string "eve")]

end NamiDB.Query
