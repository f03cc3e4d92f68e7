import NamiDB.Storage.Alone
import NamiDB.Storage.Janitor

/-! What a sweep has to keep, and that its plan keeps it, for any objects and leases it finds. -/
namespace NamiDB.Storage.Janitor
open Lib ManifestStore

def clock (t : Time) : (o : Request) → Reply o → Bool
  | .now, r => decide (r=t)
  | _, _ => true

def sem (t : Time) : Semantics World Reply := fun w o r w' => answers .listing w o r w' ∧ clock t o r=true

theorem seesWorld (t : Time) : SeesWorld (sem t) (fun w => w) := by
  intro w o r w' ho hs
  obtain ⟨ha,-⟩ := hs
  cases o with
  | get _ | getWithMeta _ | head _ | list _ =>
    obtain ⟨rfl,ha⟩ := ha
    exact ⟨rfl,rfl,ha⟩
  | _ => cases ho

/-- The objects that the descriptor of an SST names. -/
inductive Names (desc : SstDescriptor) : RelPath → Prop
  | sst : Names desc desc.path
  | bloom {car : SideCar} (h : desc.bloom=some car) : Names desc car.path
  | unique {index : PropertyIndexDescriptor} (h : index∈desc.uniquePropertyIndices) : Names desc index.path
  | equality {index : PropertyIndexDescriptor} (h : index∈desc.equalityPropertyIndices) : Names desc index.path
  | composite {index : PropertyIndexDescriptor} (h : index∈desc.compositeEqualityIndices) : Names desc index.path
  | paged {index : PropertyIndexDescriptor} {car : SideCar} (h : index∈desc.uniquePropertyIndices ++
      desc.equalityPropertyIndices++desc.compositeEqualityIndices) (hp : index.paged=some car) : Names desc car.path
  | labelIndex {car : SideCar} (h : desc.labelIndex=some car) : Names desc car.path
  | nodeLocator {locator : NodeLocatorDescriptor} (h : desc.nodeLocator=some locator) : Names desc locator.path
  | propertyPages {pages : NodePropertyPagesDescriptor} (h : nodePropertyPagesSidecar desc=some pages) :
    Names desc pages.path
  | edgePoints {path : RelPath} (h : edgePointSidecarPath desc=some path) : Names desc path

/-- What a manifest needs of the store: the SSTs it lists, their side-cars and search indexes, and its WAL. -/
def references (m : Manifest) : Path → Prop
  | .object relative => ∃ desc ∈ m.ssts, Names desc relative
  | .walSegment seq => ∃ segment ∈ m.walSegments, segment.seq=seq
  | _ => False

theorem mem_descriptorPaths_of_index (hpath : path∈indexPaths index) (h : index∈desc.uniquePropertyIndices ++
    desc.equalityPropertyIndices++desc.compositeEqualityIndices) : path∈descriptorPaths desc := by
  simp only [List.mem_append] at h
  simp only [descriptorPaths,List.mem_append]
  rcases h with (h | h) | h
  all_goals
    have hfound := List.mem_flatMap_of_mem h hpath
    tauto

theorem Names.mem_descriptorPaths (h : Names desc path) : path∈descriptorPaths desc := by
  cases h with
  | sst => simp [descriptorPaths]
  | bloom h | labelIndex h | nodeLocator h | edgePoints h => simp [descriptorPaths,h]
  | unique h | equality h | composite h => exact mem_descriptorPaths_of_index List.mem_cons_self (by simp [h])
  | paged h hp => exact mem_descriptorPaths_of_index (by simp [indexPaths,hp]) h
  | propertyPages h =>
    obtain ⟨locator,hl,hp⟩ := Option.bind_eq_some_iff.mp h
    simp [descriptorPaths,hl,hp]

def isData : Path → Bool
  | .object _ | .walSegment _ => true
  | _ => false

theorem isData_of_references (h : references m p) : isData p=true := by
  cases p <;> first | rfl | cases h

/-- Both ages are counted in whole seconds. -/
def Sweep.YoungerThanMinAge (s : Sweep) (lastModified : Time) : Prop :=
  (s.now-lastModified).tdiv nanosPerSec<(s.minAge/nanosPerSec : Nat)

theorem Sweep.YoungerThanMinAge.tooYoung {s : Sweep} (h : s.YoungerThanMinAge lastModified)
    (hmin : s.minAge<2^63*nanosPerSec) : s.tooYoung lastModified=true := by
  have hlt : s.minAge/nanosPerSec<2^63 := Nat.div_lt_of_lt_mul (by rwa [Nat.mul_comm])
  have hsec : s.minAgeSecs=(s.minAge/nanosPerSec : Nat) := by
    rw [Sweep.minAgeSecs,asI64,Nat.mod_eq_of_lt (Nat.lt_trans hlt (by decide)),if_pos hlt]
  rw [Sweep.tooYoung,decide_eq_true_eq,hsec]
  exact h

section

variable (w₀ : World) (s : Sweep) (current : Manifest)

def LiveLease (lease : PinLease) : Prop :=
  ∃ id, w₀.body (.pinObject id)=some (.pin lease) ∧ s.expired lease=false

/-- The versions from the effective horizon to the current one. -/
def Retained (v : Nat) : Prop :=
  v≤current.version ∧ (s.retentionHorizon≤v ∨ v=current.version ∨
    ∃ lease, LiveLease w₀ s lease ∧ lease.scope = .floor ∧ lease.version≤v)

def PointPinned (v : Nat) : Prop :=
  ∃ lease, LiveLease w₀ s lease ∧ lease.scope = .point ∧ lease.version=v

def WindowCovers (v : Nat) : Prop :=
  ∃ lease since, LiveLease w₀ s lease ∧ lease.scope = .window since ∧ lease.version≤v

def WindowFloor (v : Nat) : Prop :=
  (∃ lease since, LiveLease w₀ s lease ∧ lease.scope = .window since ∧ lease.version=v) ∧
    ∀ v', WindowCovers w₀ s v' → v≤v'

/-- The objects a sweep has to leave alone. `o` is the object at `p` when it starts. -/
inductive Protected (p : Path) (o : Object) : Prop
  | current (h : references current p)
  | version (v : Nat) (m : Manifest) (hv : v<current.version)
      (hkept : Retained w₀ s current v ∨ PointPinned w₀ s v ∨ WindowFloor w₀ s v)
      (hm : w₀.body (.manifestVersion v)=some (.manifest m)) (h : references m p)
  | window (lease : PinLease) (since : Time) (hl : LiveLease w₀ s lease) (hscope : lease.scope = .window since)
      (hnew : since-s.minAge≤o.lastModified) (hdata : isData p=true)
  | body (v : Nat) (hp : p = .manifestVersion v)
      (hkept : Retained w₀ s current v ∨ PointPinned w₀ s v ∨ WindowCovers w₀ s v)
  | lease (id : Uuid) (l : PinLease) (hp : p = .pinObject id) (ho : o.body = .pin l) (hl : s.expired l=false)
  | young (hmin : s.minAge<2^63*nanosPerSec) (h : s.YoungerThanMinAge o.lastModified)
      (hl : ∀ l, o.body = .pin l → s.expired l=false)

def Intact (w : World) : Prop :=
  ∀ p o, w₀.objects.lookup p=some o → Protected w₀ s current p o → w.objects.lookup p=some o

end

section

variable {w₀ : World} {s : Sweep} {current : Manifest} {t : Time} {w : World} {p : Path}

theorem Intact.start : Intact w₀ s current w₀ := fun _ _ h _ => h

theorem Intact.erase (h : Intact w₀ s current w)
    (hp : ∀ o, w₀.objects.lookup p=some o → ¬Protected w₀ s current p o) : Intact w₀ s current (w.erase p) := by
  intro q o hq hprot
  have hne : q≠p := by
    rintro rfl
    exact hp o hq hprot
  rw [World.erase,AList.lookup_erase_ne hne]
  exact h q o hq hprot

def AtMostGone (p : Path) (w w' : World) : Prop :=
  ∀ q, w'.objects.lookup q=w.objects.lookup q ∨ q=p ∧ w'.objects.lookup q=none

theorem does_deleteWhen (hE : ∀ e w, E e w) (hI : Intact w₀ s current w)
    (hp : ∀ o, w₀.objects.lookup p=some o → ¬Protected w₀ s current p o) :
    Does (sem t) (Intact w₀ s current) (deleteWhen b p)
      (fun _ w' => AtMostGone p w w' ∧ Intact w₀ s current w') E w := by
  cases b with
  | false => exact .ret ⟨fun _ => .inl rfl,hI⟩
  | true =>
    refine .bind (P := fun r w' => AtMostGone p w w' ∧ Intact w₀ s current w')
      (.request fun hI r w' hs => ?_) fun r w' hw => ?_
    · obtain ⟨hans,-⟩ := hs
      rcases hans with ⟨rfl,-⟩ | ⟨rfl,-⟩
      · refine ⟨hI.erase hp,fun q => ?_,hI.erase hp⟩
        by_cases hq : q=p
        · subst hq
          exact .inr ⟨rfl,AList.lookup_erase _ _⟩
        · exact .inl (AList.lookup_erase_ne hq)
      · exact ⟨hI,fun _ => .inl rfl,hI⟩
    · cases r with
      | ok u => exact .ret hw
      | error e => exact .fail (hE _ _)

end

section

variable {w₀ : World} {s : Sweep} {current : Manifest} {t : Time} {w : World}
variable {id : Uuid} {lease : PinLease} {pins : Pins}

def OnlyPinsGone (w₀ w : World) : Prop :=
  ∀ p, w.objects.lookup p=w₀.objects.lookup p ∨ (∃ id, p = .pinObject id) ∧ w.objects.lookup p=none

theorem OnlyPinsGone.trans (h : OnlyPinsGone w₀ w) (hw : AtMostGone (.pinObject id) w w') : OnlyPinsGone w₀ w' := by
  intro p
  rcases hw p with hp | ⟨rfl,hp⟩
  · rw [hp]
    exact h p
  · exact .inr ⟨⟨id,rfl⟩,hp⟩

theorem OnlyPinsGone.body (h : OnlyPinsGone w₀ w) (hb : w.body p=some b) : w₀.body p=some b := by
  obtain ⟨o,ho,hbody⟩ := body_eq_some.mp hb
  rcases h p with hp | ⟨-,hp⟩
  · exact body_eq_some.mpr ⟨o,hp ▸ ho,hbody⟩
  · rw [hp] at ho
    cases ho

/-- The survey does what the lease asks for. -/
def Honours (pins : Pins) (lease : PinLease) : Prop :=
  match lease.scope with
  | .floor => pins.floor≤lease.version
  | .point => lease.version∈pins.pointVersions
  | .window since => ∃ window, pins.window=some window ∧ window.version≤lease.version ∧ window.since ≤ since

/-- The window's version is the one of a lease. -/
def WindowFromLease (w₀ : World) (s : Sweep) (pins : Pins) : Prop :=
  ∀ window, pins.window=some window →
    ∃ lease since, LiveLease w₀ s lease ∧ lease.scope = .window since ∧ lease.version=window.version

theorem honours_honour (pins : Pins) (p : Path) (lease : PinLease) : Honours (pins.honour p lease) lease := by
  unfold Honours Pins.honour
  cases hs : lease.scope with
  | floor => exact Nat.min_le_right _ _
  | point => exact .head _
  | window since =>
    refine ⟨_,rfl,?_⟩
    unfold widen
    split
    · exact ⟨le_refl _,Int.le_refl _⟩
    · exact ⟨Nat.min_le_right _ _,Int.min_le_right _ _⟩

theorem Honours.honour (h : Honours pins lease) (p : Path) (other : PinLease) :
    Honours (pins.honour p other) lease := by
  unfold Honours at h ⊢
  unfold Pins.honour
  generalize lease.scope=scope at h ⊢
  cases scope with
  | floor =>
    cases other.scope with
    | floor => exact le_trans (Nat.min_le_left _ _) h
    | point | window since => exact h
  | point =>
    cases other.scope with
    | floor | window since => exact h
    | point => exact .tail _ h
  | window since =>
    obtain ⟨window,hw,hv,ht⟩ := h
    cases other.scope with
    | floor | point => exact ⟨window,hw,hv,ht⟩
    | window since' =>
      refine ⟨_,rfl,?_⟩
      simp only [hw]
      exact ⟨le_trans (Nat.min_le_left _ _) hv,Int.le_trans (Int.min_le_left _ _) ht⟩

theorem WindowFromLease.honour (h : WindowFromLease w₀ s pins) (p : Path)
    (hl : LiveLease w₀ s lease) : WindowFromLease w₀ s (pins.honour p lease) := by
  intro window hwindow
  unfold Pins.honour at hwindow
  cases hs : lease.scope with
  | floor | point => exact h window (by simpa [hs] using hwindow)
  | window since =>
    simp only [hs,Option.some.injEq] at hwindow
    subst hwindow
    unfold widen
    split
    · exact ⟨lease,since,hl,hs,rfl⟩
    · next old hold =>
      obtain ⟨lease',since',hl',hs',hv'⟩ := h old hold
      rcases Nat.le_total old.version lease.version with hle | hle
      · exact ⟨lease',since',hl',hs',hv'.trans (Nat.min_eq_left hle).symm⟩
      · exact ⟨lease,since,hl,hs,(Nat.min_eq_right hle).symm⟩

theorem not_protected_expired (hI : Intact w₀ s current w)
    (hb : w.body (.pinObject id)=some (.pin lease)) (hexp : s.expired lease=true) :
    ∀ o, w₀.objects.lookup (.pinObject id)=some o → ¬Protected w₀ s current (.pinObject id) o := by
  intro o ho hprot
  have hbody : o.body = .pin lease := by
    obtain ⟨o',ho',hb'⟩ := body_eq_some.mp hb
    rw [hI _ o ho hprot] at ho'
    cases ho'
    exact hb'
  cases hprot with
  | current h => cases h
  | version v m hv hkept hm h => cases h
  | window lease since hl hscope hnew hdata => cases hdata
  | body v hp hkept => cases hp
  | lease id l hp ho hl =>
    rw [ho] at hbody
    cases hbody
    simp [hexp] at hl
  | young _ _ hl => simpa [hexp] using hl lease hbody

/-- What a survey of the listed pins returns: every live lease is honoured, and those that were so far. -/
def Surveying (w₀ : World) (s : Sweep) (current : Manifest) (pins : Pins) (metas : List ObjectMeta)
    (r : Pins × JanitorReport) (w' : World) : Prop :=
  OnlyPinsGone w₀ w' ∧ Intact w₀ s current w' ∧ WindowFromLease w₀ s r.1 ∧
    (∀ lease, Honours pins lease → Honours r.1 lease) ∧
    ∀ info ∈ metas, ∀ lease, w₀.body info.location=some (.pin lease) → s.expired lease=false → Honours r.1 lease

theorem does_surveyPins (hE : ∀ e w, E e w) (metas : List ObjectMeta) (pins : Pins) (report : JanitorReport)
    (hpins : ∀ info ∈ metas, ∃ id, info.location = .pinObject id) (hwindow : WindowFromLease w₀ s pins)
    (hI : Intact w₀ s current w) (hgone : OnlyPinsGone w₀ w) :
    Does (sem t) (Intact w₀ s current) (surveyPins s metas pins report) (Surveying w₀ s current pins metas) E w := by
  induction metas generalizing pins report w with
  | nil => exact .ret ⟨hgone,hI,hwindow,fun _ h => h,by simp⟩
  | cons info rest ih =>
    obtain ⟨id,hid⟩ := hpins info (.head _)
    have hrest := fun info' hm => hpins info' (.tail _ hm)
    -- a round that honours no lease is right to do so when the file holds no live one
    have hskip : (∀ lease, w₀.body (.pinObject id)=some (.pin lease) → s.expired lease=true) →
        ∀ {w'}, Intact w₀ s current w' → OnlyPinsGone w₀ w' → ∀ report,
        Does (sem t) (Intact w₀ s current) (surveyPins s rest pins report)
          (Surveying w₀ s current pins (info::rest)) E w' := by
      intro hvoid w' hI' hgone' report
      refine (ih pins report hrest hwindow hI' hgone').mono (fun r w'' hr => ?_) fun _ _ h => h
      refine ⟨hr.1,hr.2.1,hr.2.2.1,hr.2.2.2.1,List.forall_mem_cons.mpr ⟨fun lease hb hl => ?_,hr.2.2.2.2⟩⟩
      rw [hid] at hb
      simp [hvoid lease hb] at hl
    unfold surveyPins
    rw [hid]
    refine (seesWorld t).get_bind (fun b hb => ?_) (fun hnone => ?_) (.fail (hE _ _))
    · have hb0 := hgone.body hb
      cases b with
      | pin lease =>
        dsimp only
        by_cases hexp : s.expired lease=true
        · rw [if_pos hexp]
          refine .bind (does_deleteWhen hE hI (not_protected_expired hI hb hexp)) fun _ w' hw' => ?_
          refine hskip (fun l hl => ?_) hw'.2 (hgone.trans hw'.1) _
          rw [hb0] at hl
          cases hl
          exact hexp
        · have hexp := Bool.eq_false_iff.mpr hexp
          rw [if_neg (by simp [hexp])]
          refine (ih _ _ hrest (hwindow.honour _ ⟨id,hb0,hexp⟩) hI hgone).mono (fun r w' hr => ?_) fun _ _ h => h
          refine ⟨hr.1,hr.2.1,hr.2.2.1,fun l hl => hr.2.2.2.1 l (hl.honour _ _),
            List.forall_mem_cons.mpr ⟨fun l hl _ => ?_,hr.2.2.2.2⟩⟩
          rw [hid,hb0] at hl
          cases hl
          exact hr.2.2.2.1 _ (honours_honour _ _ _)
      | _ => exact hskip (fun l hl => by rw [hb0] at hl; cases hl) hI hgone _
    · refine hskip (fun l hl => ?_) hI hgone _
      -- a live lease would still be there
      by_contra hlive
      obtain ⟨o,ho,hob⟩ := body_eq_some.mp hl
      have hstill := hI _ o ho (.lease id l rfl hob (Bool.eq_false_iff.mpr hlive))
      simp [World.body,hstill] at hnone

end

section

variable {w₀ : World} {s : Sweep} {current : Manifest} {t : Time} {w : World} {M : Manifest → Prop}
  {live live' : Live}

def Live.has (live : Live) : Path → Bool
  | .object relative => live.referenced.contains relative
  | .walSegment seq => live.referencedWal.contains seq
  | _ => false

theorem markLive_has (h : references m p ∨ live.has p=true) : (markLive live m).has p=true := by
  cases p with
  | object relative =>
    simp only [Live.has,markLive,List.contains_eq_mem,decide_eq_true_eq,List.mem_append,List.mem_flatMap] at h ⊢
    refine h.imp_left ?_
    rintro ⟨desc,hmem,hnames⟩
    exact ⟨desc,hmem,hnames.mem_descriptorPaths⟩
  | walSegment seq => simpa [Live.has,markLive,references] using h
  | _ => exact h.elim False.elim id

def Marked (live : Live) (M : Manifest → Prop) (live' : Live) : Prop :=
  (∀ p, live.has p=true → live'.has p=true) ∧ ∀ m, M m → ∀ p, references m p → live'.has p=true

theorem Marked.cons {m0 : Manifest}
    (h : Marked (markLive live m0) M live') (hM : ∀ m, M' m → m=m0 ∨ M m) : Marked live M' live' := by
  have hstart : ∀ p, references m0 p ∨ live.has p=true → live'.has p=true := fun p hp =>
    h.1 p (markLive_has hp)
  refine ⟨fun p hp => hstart p (.inr hp),fun m hm p hp => ?_⟩
  rcases hM m hm with rfl | hm
  · exact hstart p (.inl hp)
  · exact h.2 m hm p hp

theorem Marked.skip (h : Marked live M live')
    (hM : ∀ m, M' m → M m) : Marked live M' live' := ⟨h.1,fun m hm => h.2 m (hM m hm)⟩

def storedAt (w : World) (versions : List Nat) (m : Manifest) : Prop :=
  ∃ v ∈ versions, w.body (.manifestVersion v)=some (.manifest m)

theorem storedAt_cons : storedAt w (v::rest) m ↔
    w.body (.manifestVersion v)=some (.manifest m) ∨ storedAt w rest m := by
  simp [storedAt]

theorem does_markExtra (hE : ∀ e w, E e w) (versions : List Nat) (live : Live) :
    Does (sem t) (Intact w₀ s current) (markExtra versions live)
      (fun r w' => w'=w ∧ Marked live (storedAt w versions) r) E w := by
  induction versions generalizing live with
  | nil => exact .ret ⟨rfl,fun _ h => h,fun m ⟨_,hv,_⟩ => by cases hv⟩
  | cons v rest ih =>
    refine .attempt_bind (does_loadManifestAt (seesWorld t) v) (fun m w' hm => ?_) fun e w' he => ?_
    · obtain ⟨rfl,hm⟩ := hm
      refine (ih (markLive live m)).mono (fun r w'' hr => ⟨hr.1,hr.2.cons fun m' hm' => ?_⟩) fun _ _ h => h
      rcases storedAt_cons.mp hm' with hb | hrest
      · rw [hm] at hb
        cases hb
        exact .inl rfl
      · exact .inr hrest
    · obtain ⟨rfl,he⟩ := he
      dsimp only
      split
      · next hmissing =>
        refine (ih live).mono (fun r w'' hr => ⟨hr.1,hr.2.skip fun m' hm' => ?_⟩) fun _ _ h => h
        rcases storedAt_cons.mp hm' with hb | hrest
        · rw [he hmissing] at hb
          cases hb
        · exact hrest
      · exact .fail (hE _ _)

/-- What the retained versions hold: `current` stands for its own version, the others are read. -/
def retainedAt (w : World) (current : Manifest) (versions : List Nat) (m : Manifest) : Prop :=
  ∃ v ∈ versions, if v=current.version then m=current else w.body (.manifestVersion v)=some (.manifest m)

theorem does_markRetained (hE : ∀ e w, E e w) (strictFloor : Nat) (versions : List Nat) (live : Live) :
    Does (sem t) (Intact w₀ s current) (markRetained current strictFloor versions live)
      (fun r w' => w'=w ∧ Marked live (retainedAt w current versions) r) E w := by
  have hcons : ∀ {v rest m}, retainedAt w current (v::rest) m ↔
      (if v=current.version then m=current else w.body (.manifestVersion v)=some (.manifest m)) ∨
        retainedAt w current rest m := fun {v rest m} => by simp [retainedAt]
  induction versions generalizing live with
  | nil => exact .ret ⟨rfl,fun _ h => h,fun m ⟨_,hv,_⟩ => by cases hv⟩
  | cons v rest ih =>
    unfold markRetained
    by_cases hv : v=current.version
    · rw [if_pos hv]
      refine (ih _).mono (fun r w'' hr => ⟨hr.1,hr.2.cons fun m' hm' => ?_⟩) fun _ _ h => h
      rwa [hcons,if_pos hv] at hm'
    · rw [if_neg hv]
      refine .attempt_bind (does_loadManifestAt (seesWorld t) v) (fun m w' hm => ?_) fun e w' he => ?_
      · obtain ⟨rfl,hm⟩ := hm
        refine (ih (markLive live m)).mono (fun r w'' hr => ⟨hr.1,hr.2.cons fun m' hm' => ?_⟩) fun _ _ h => h
        rw [hcons,if_neg hv,hm] at hm'
        exact hm'.imp_left fun h => by cases h; rfl
      · obtain ⟨rfl,he⟩ := he
        dsimp only
        split
        · next hmissing =>
          refine (ih live).mono (fun r w'' hr => ⟨hr.1,hr.2.skip fun m' hm' => ?_⟩) fun _ _ h => h
          rw [hcons,if_neg hv,he hmissing.1] at hm'
          exact hm'.resolve_left fun h => by cases h
        · exact .fail (hE _ _)

end

section

variable {w₀ : World} {s : Sweep} {current : Manifest} {t : Time} {w : World}

structure Plan.Sound (w₀ : World) (s : Sweep) (current : Manifest) (plan : Plan) : Prop where
  horizon : ∀ v, Retained w₀ s current v → plan.horizon≤v
  points : ∀ v, PointPinned w₀ s v → v∈plan.pointVersions
  window : ∀ lease since, LiveLease w₀ s lease → lease.scope = .window since →
    ∃ window, plan.window=some window ∧ window.version≤lease.version ∧ window.since ≤ since
  live : ∀ p, references current p → plan.live.has p=true
  older : ∀ v m, v<current.version → Retained w₀ s current v ∨ PointPinned w₀ s v ∨ WindowFloor w₀ s v →
    w₀.body (.manifestVersion v)=some (.manifest m) → ∀ p, references m p → plan.live.has p=true

def Surveyed (w₀ : World) (s : Sweep) (pins : Pins) : Prop :=
  WindowFromLease w₀ s pins ∧ ∀ lease, LiveLease w₀ s lease → Honours pins lease

variable {pins : Pins} {lease : PinLease} {v : Nat}

section
variable (h : Surveyed w₀ s pins)
include h

theorem Surveyed.floor (hl : LiveLease w₀ s lease) (hs : lease.scope = .floor) : pins.floor≤lease.version := by
  simpa [Honours,hs] using h.2 lease hl

theorem Surveyed.point (hv : PointPinned w₀ s v) : v∈pins.pointVersions := by
  obtain ⟨lease,hl,hs,rfl⟩ := hv
  simpa [Honours,hs] using h.2 lease hl

theorem Surveyed.window (hl : LiveLease w₀ s lease) (hs : lease.scope = .window since) :
    ∃ window, pins.window=some window ∧ window.version≤lease.version ∧ window.since ≤ since := by
  simpa [Honours,hs] using h.2 lease hl

theorem Surveyed.windowFloor (hv : WindowFloor w₀ s v) : ∃ since, pins.window=some ⟨v,since⟩ := by
  obtain ⟨⟨lease,since,hl,hs,rfl⟩,hleast⟩ := hv
  obtain ⟨window,hw,hle,-⟩ := h.window hl hs
  obtain ⟨lease',since',hl',hs',hv'⟩ := h.1 window hw
  have hge := hleast window.version ⟨lease',since',hl',hs',Nat.le_of_eq hv'⟩
  have heq := Nat.le_antisymm hle hge
  exact ⟨window.since,by rw [hw,← heq]⟩

theorem Surveyed.horizon (hv : Retained w₀ s current v) :
    min (min s.retentionHorizon pins.floor) current.version≤v := by
  obtain ⟨-,hr | rfl | ⟨lease,hl,hs,hle⟩⟩ := hv
  · omega
  · exact Nat.min_le_right _ _
  · have := h.floor hl hs
    omega

end

theorem does_planSweep (hE : ∀ e w, E e w) (hgone : OnlyPinsGone w₀ w) (h : Surveyed w₀ s pins) :
    Does (sem t) (Intact w₀ s current) (planSweep s current pins)
      (fun plan w' => w'=w ∧ plan.Sound w₀ s current) E w := by
  refine .bind (does_markRetained hE _ _ _) fun live w' hlive => ?_
  obtain ⟨rfl,hlive⟩ := hlive
  refine .bind (does_markExtra hE _ _) fun live' w' hlive' => ?_
  obtain ⟨rfl,hlive'⟩ := hlive'
  refine .ret ⟨rfl,fun v hv => h.horizon hv,fun v hv => h.point hv,fun lease since hl hs => h.window hl hs,
    fun p hp => ?_,fun v m hlt hkept hm p hp => ?_⟩
  · refine hlive'.1 p (hlive.2 current ⟨current.version,?_,by simp⟩ p hp)
    rw [List.mem_range'_1]
    omega
  · have hm' : w'.body (.manifestVersion v)=some (.manifest m) := by
      rcases hgone (.manifestVersion v) with hv | ⟨⟨id,hid⟩,-⟩
      · rw [World.body,hv]
        exact hm
      · cases hid
    by_cases hv : min (min s.retentionHorizon pins.floor) current.version≤v
    · refine hlive'.1 p (hlive.2 m ⟨v,?_,by rwa [if_neg (Nat.ne_of_lt hlt)]⟩ p hp)
      rw [List.mem_range'_1]
      omega
    · refine hlive'.2 m ⟨v,?_,hm'⟩ p hp
      simp only [extraVersions,List.mem_filter,List.mem_append,decide_eq_true_eq]
      refine ⟨?_,Nat.not_le.mp hv⟩
      rcases hkept with hkept | hkept | hkept
      · exact absurd (h.horizon hkept) hv
      · exact .inl (h.point hkept)
      · obtain ⟨since,hs⟩ := h.windowFloor hkept
        exact .inr (by simp [hs])

end

end NamiDB.Storage.Janitor
