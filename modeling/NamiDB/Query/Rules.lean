import NamiDB.Query.Constrain

/-! What the declared constraints ask of a graph, and which records may be written without breaking them. -/
namespace NamiDB.Storage

theorem Value.isNull_of_eq {a b : Value} (h : a.eq b=true) : a.isNull=b.isNull := by
  cases a <;> cases b <;> first | rfl | cases h

end NamiDB.Storage

namespace NamiDB.Query
open Storage AList

variable {properties : List String} {a b : Properties}

/-- A uniqueness constraint: no two nodes of the label hold the same complete tuple. -/
structure Uniqueness where
  label : String
  properties : List String

def Present (props : Properties) (key : String) : Prop := ∃ v, props.lookup key=some v ∧ v.isNull=false

def SameTuple (properties : List String) (a b : Properties) : Prop :=
  ∀ p ∈ properties, ∃ v w, a.lookup p=some v ∧ b.lookup p=some w ∧ v.isNull=false ∧ v.eq w=true

theorem SameTuple.symm (h : SameTuple properties a b) : SameTuple properties b a := by
  intro p hp
  obtain ⟨v,w,hv,hw,hnull,heq⟩ := h p hp
  exact ⟨w,v,hw,hv,(Value.isNull_of_eq heq).symm.trans hnull,(Value.eq_comm w v).trans heq⟩

theorem SameTuple.present (h : SameTuple properties a b) (hp : p∈properties) : Present b p := by
  obtain ⟨v,w,-,hw,hnull,heq⟩ := h p hp
  exact ⟨w,hw,(Value.isNull_of_eq heq).symm.trans hnull⟩

theorem SameTuple.congr (h : SameTuple properties a b) (hb : ∀ p ∈ properties, b'.lookup p=b.lookup p) :
    SameTuple properties a b' := by
  intro p hp
  obtain ⟨v,w,hv,hw,hnull,heq⟩ := h p hp
  exact ⟨v,w,hv,(hb p hp).trans hw,hnull,heq⟩

def Uniqueness.Distinct (u : Uniqueness) (nodes : Overlay) : Prop :=
  ∀ a b ra rb, a≠b → nodes.lookup a=some ra → nodes.lookup b=some rb → u.label∈ra.labels →
    u.label∈rb.labels → ¬SameTuple u.properties ra.props rb.props

def Uniqueness.Admits (u : Uniqueness) (nodes : Overlay) (id : NodeId) (labels : List String) (props : Properties) :
    Prop :=
  u.label∈labels → ∀ b rb, b≠id → nodes.lookup b=some rb → u.label∈rb.labels →
    ¬SameTuple u.properties rb.props props

def Filled (label key : String) (nodes : Overlay) : Prop :=
  ∀ id r, nodes.lookup id=some r → label∈r.labels → Present r.props key

section

variable {u : Uniqueness} {nodes : Overlay} {id : NodeId} {labels : List String} {props : Properties}
  {label key : String}

theorem Uniqueness.Distinct.insert (h : u.Distinct nodes) (hadm : u.Admits nodes id labels props) :
    u.Distinct (AList.insert id ⟨labels,props⟩ nodes) := by
  intro a b ra rb hab ha hb hla hlb
  by_cases hia : a=id
  · subst hia
    rw [lookup_insert] at ha
    cases ha
    rw [lookup_insert_ne (Ne.symm hab)] at hb
    exact fun hsame => hadm hla b rb (.symm hab) hb hlb hsame.symm
  · rw [lookup_insert_ne hia] at ha
    by_cases hib : b=id
    · subst hib
      rw [lookup_insert] at hb
      cases hb
      exact hadm hlb a ra hia ha hla
    · rw [lookup_insert_ne hib] at hb
      exact h a b ra rb hab ha hb hla hlb

theorem Uniqueness.Distinct.erase (h : u.Distinct nodes) : u.Distinct (nodes.erase id) := by
  have hlookup : ∀ a r, (nodes.erase id).lookup a=some r → nodes.lookup a=some r := by
    intro a r ha
    by_cases hid : a=id
    · rw [hid,lookup_erase] at ha
      cases ha
    · rwa [lookup_erase_ne hid] at ha
  exact fun a b ra rb hab ha hb => h a b ra rb hab (hlookup a ra ha) (hlookup b rb hb)

theorem Filled.insert (h : Filled label key nodes) (hp : label∈labels → Present props key) :
    Filled label key (AList.insert id ⟨labels,props⟩ nodes) := by
  intro a r ha hl
  by_cases hid : a=id
  · subst hid
    rw [lookup_insert] at ha
    cases ha
    exact hp hl
  · exact h a r ((lookup_insert_ne hid).symm.trans ha) hl

theorem Filled.erase (h : Filled label key nodes) : Filled label key (nodes.erase id) := by
  intro a r ha
  by_cases hid : a=id
  · rw [hid,lookup_erase] at ha
    cases ha
  · exact h a r ((lookup_erase_ne hid).symm.trans ha)

theorem Uniqueness.Admits.of_missing (hp : p∈u.properties) (hmiss : ¬Present props p) :
    u.Admits nodes id labels props := fun _ _ _ _ _ _ hsame => hmiss (hsame.present hp)

theorem Uniqueness.Admits.of_same (h : u.Distinct nodes) (hr : nodes.lookup id=some r) (hl : u.label∈r.labels)
    (hsame : ∀ p ∈ u.properties, props.lookup p=r.props.lookup p) :
    u.Admits nodes id labels props := fun _ b rb hb hrb hlb htuple =>
  h b id rb r hb hrb hr hlb hl (htuple.congr fun p hp => (hsame p hp).symm)

theorem Uniqueness.Admits.congr (h : u.Admits nodes id labels props)
    (hsame : ∀ p ∈ u.properties, props'.lookup p=props.lookup p) : u.Admits nodes id labels props' :=
  fun hl b rb hb hrb hlb htuple => h hl b rb hb hrb hlb (htuple.congr fun p hp => (hsame p hp).symm)

end

section

variable {properties : List String} {props : Properties} {probe : List (String × Value)} {nodes : Overlay}

theorem mem_completeTuple (h : completeTuple properties props=some tuple) (he : e∈tuple) :
    e.1∈properties ∧ props.lookup e.1=some e.2 := by
  induction properties generalizing tuple with
  | nil =>
    cases h
    cases he
  | cons p ps ih =>
    simp only [completeTuple,List.mapM_cons,bind,Option.bind_eq_some_iff] at h
    obtain ⟨x,⟨v,hv,hx⟩,rest,hrest,⟨⟩⟩ := h
    split at hx
    · cases hx
    cases hx
    rcases List.mem_cons.mp he with rfl | he
    · exact ⟨.head _,hv⟩
    · exact ⟨.tail _ (ih hrest he).1,(ih hrest he).2⟩

theorem completeTuple_isSome (h : ∀ p ∈ properties, Present props p) :
    ∃ tuple, completeTuple properties props=some tuple := by
  induction properties with
  | nil => exact ⟨[],rfl⟩
  | cons p ps ih =>
    obtain ⟨v,hv,hnull⟩ := h p (.head _)
    obtain ⟨rest,hrest⟩ := ih fun q hq => h q (.tail _ hq)
    rw [completeTuple] at hrest ⊢
    simp [hv,hnull,hrest]

theorem mem_scanHolders_iff {b : NodeId} :
    b∈nodes.scanHolders label probe ↔ ∃ r, nodes.lookup b=some r ∧ Overlay.carries r label=true ∧
      Overlay.holdsValues probe r.props=true := by
  simp only [Overlay.scanHolders,Overlay.scanLabel,List.mem_map,List.mem_filter]
  constructor
  · rintro ⟨_,⟨⟨⟨m,r⟩,⟨he,hc⟩,rfl⟩,hv⟩,rfl⟩
    exact ⟨r,(entries_lookup nodes m r).mp he,hc,hv⟩
  · rintro ⟨r,hr,hc,hv⟩
    exact ⟨_,⟨⟨⟨b,r⟩,⟨(entries_lookup nodes b r).mpr hr,hc⟩,rfl⟩,hv⟩,rfl⟩

theorem holdsValues_of_sameTuple (h : SameTuple properties a b)
    (hprobe : ∀ e ∈ probe, e.1∈properties ∧ b.lookup e.1=some e.2) : Overlay.holdsValues probe a=true := by
  rw [Overlay.holdsValues,List.all_eq_true]
  intro e he
  obtain ⟨hp,hb⟩ := hprobe e he
  obtain ⟨v,w,hv,hw,-,heq⟩ := h e.1 hp
  rw [hb] at hw
  cases hw
  simp only [hv]
  exact heq

theorem Uniqueness.Admits.of_scan {u : Uniqueness} {id : NodeId}
    (h : (∀ p ∈ u.properties, Present props p) → ∃ probe : List (String × Value),
      (∀ e ∈ probe, e.1∈u.properties ∧ props.lookup e.1=some e.2) ∧ ∀ b ∈ nodes.scanHolders u.label probe, b=id) :
    u.Admits nodes id labels props := by
  intro _ b rb hb hrb hlb hsame
  obtain ⟨probe,hprobe,hscan⟩ := h fun p hp => hsame.present hp
  refine hb (hscan b (mem_scanHolders_iff.mpr ⟨rb,hrb,?_,holdsValues_of_sameTuple hsame hprobe⟩))
  exact decide_eq_true (.inr hlb)

end
end NamiDB.Query
