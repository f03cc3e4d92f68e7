import NamiDB.Storage.JanitorPlan

/-! What a sweep keeps: the deleting half leaves alone what its plan protects. -/
namespace NamiDB.Storage.Janitor
open Lib ManifestStore

section

variable {w₀ : World} {s : Sweep} {current : Manifest} {t : Time} {w : World} {E : Error → World → Prop} {plan : Plan}
variable {metas : List ObjectMeta}
variable {lastModified : Time} {o : Object}

/-- Of protected objects, a listing shows the age they have. -/
def TrueAges (w₀ : World) (s : Sweep) (current : Manifest) (metas : List ObjectMeta) : Prop :=
  ∀ info ∈ metas, ∀ o, w₀.objects.lookup info.location=some o → Protected w₀ s current info.location o →
    info.lastModified=o.lastModified

theorem Intact.trueAges (hI : Intact w₀ s current w) (hl : metas.Perm (w.listing d)) :
    TrueAges w₀ s current metas := by
  intro info hm o ho hprot
  obtain ⟨o',ho',-,hinfo⟩ := mem_listing.mp (hl.mem_iff.mp hm)
  rw [hI _ o ho hprot] at ho'
  cases ho'
  rw [hinfo]

theorem Plan.Sound.windowKeeps (h : plan.Sound w₀ s current) (hl : LiveLease w₀ s lease)
    (hs : lease.scope = .window since) (hnew : since-s.minAge≤lastModified) :
    plan.windowKeeps s.minAge lastModified=true := by
  obtain ⟨window,hw,-,hsince⟩ := h.window lease since hl hs
  rw [Plan.windowKeeps,hw]
  dsimp only
  split
  · rw [decide_eq_true_eq]
    exact Int.le_trans (Int.sub_le_sub_right hsince _) hnew
  · rfl

variable (h : plan.Sound w₀ s current)
include h

theorem Plan.Sound.orphan (hdata : isData p=true) (hlive : plan.live.has p=false)
    (hwindow : plan.windowKeeps s.minAge lastModified=false) (hold : s.tooYoung lastModified=false)
    (hage : lastModified=o.lastModified) :
    ¬Protected w₀ s current p o := by
  intro hprot
  cases hprot with
  | current href => simp [h.live p href] at hlive
  | version v m hv hkept hm href => simp [h.older v m hv hkept hm p href] at hlive
  | window lease since hl hscope hnew => simp [h.windowKeeps hl hscope (hage ▸ hnew)] at hwindow
  | body v hp => simp [hp,isData] at hdata
  | lease id l hp => simp [hp,isData] at hdata
  | young hmin hyoung => simp [hage,hyoung.tooYoung hmin] at hold

theorem Plan.Sound.staleManifest (hp : manifestFile p=some (isPointer,version))
    (hkeep : keepsManifest plan isPointer version=false) (hold : s.tooYoung lastModified=false)
    (hage : lastModified=o.lastModified) : ¬Protected w₀ s current p o := by
  intro hprot
  have hother : isData p=true → False := by
    cases p <;> first | exact fun h => Bool.noConfusion h | cases hp
  cases hprot with
  | current href => exact hother (isData_of_references href)
  | version v m hv hkept hm href => exact hother (isData_of_references href)
  | window lease since hl hscope hnew hdata => exact hother hdata
  | body v hpath hkept =>
    subst hpath
    cases hp
    simp only [keepsManifest,Bool.not_false,Bool.true_and,Bool.or_eq_false_iff,decide_eq_false_iff_not,
      List.contains_eq_mem] at hkeep
    obtain ⟨hhorizon,hfloor,hpoint⟩ := hkeep
    rcases hkept with hkept | hkept | ⟨lease,since,hl,hs,hle⟩
    · exact hhorizon (h.horizon _ hkept)
    · exact hpoint (h.points _ hkept)
    · obtain ⟨window,hw,hv,-⟩ := h.window lease since hl hs
      refine hfloor ?_
      rw [Plan.bodyFloor,hw]
      exact Nat.le_trans (Nat.min_le_right _ _) (Nat.le_trans hv hle)
  | lease id l hpath => simp [hpath,manifestFile] at hp
  | young hmin hyoung => simp [hage,hyoung.tooYoung hmin] at hold

variable (t) in
/-- A part of the sweep that keeps what is protected. -/
abbrev Spares (w₀ : World) (s : Sweep) (current : Manifest) (E : Error → World → Prop) (m : StoreM JanitorReport) :=
  ∀ w, Intact w₀ s current w → Does (sem t) (Intact w₀ s current) m (fun _ => Intact w₀ s current) E w

variable (hE : ∀ e w, E e w)
include hE

section
variable (hages : TrueAges w₀ s current metas)
include hages

theorem does_sweepSsts (report : JanitorReport) : Spares t w₀ s current E (sweepSsts s plan metas report) := by
  induction metas generalizing report with
  | nil => exact fun _ hI => .ret hI
  | cons info rest ih =>
    have hskip := ih fun i hi => hages i (.tail _ hi)
    intro w hI
    unfold sweepSsts
    split
    · exact hskip _ _ hI
    · next relative hrel =>
      have hpath : info.location = .object relative := by
        unfold canonicalSst at hrel
        grind
      split_ifs with hlive hwindow hyoung
      · exact hskip _ _ hI
      · exact hskip _ _ hI
      · exact hskip _ _ hI
      all_goals
        refine .bind (does_deleteWhen hE hI fun o ho hprot => ?_) fun _ w' hw' => hskip _ _ hw'.2
        have hage := hages info (.head _) o ho hprot
        refine h.orphan ?_ ?_ (by simpa using hwindow) (by simpa using hyoung) hage hprot
        · rw [hpath]; rfl
        · rw [hpath]; simpa [Live.has] using hlive

theorem does_sweepWal (report : JanitorReport) : Spares t w₀ s current E (sweepWal s plan metas report) := by
  induction metas generalizing report with
  | nil => exact fun _ hI => .ret hI
  | cons info rest ih =>
    have hskip := ih fun i hi => hages i (.tail _ hi)
    intro w hI
    unfold sweepWal
    split
    · exact hskip _ _ hI
    · next seq hseq =>
      have hpath : info.location = .walSegment seq := by
        unfold WalStore.parseSeq at hseq
        grind
      split_ifs with hlive hwindow hyoung
      · exact hskip _ _ hI
      · exact hskip _ _ hI
      · exact hskip _ _ hI
      · refine .bind (does_deleteWhen hE hI fun o ho hprot => ?_) fun _ w' hw' => hskip _ _ hw'.2
        have hage := hages info (.head _) o ho hprot
        refine h.orphan ?_ ?_ (by simpa using hwindow) (by simpa using hyoung) hage hprot
        · rw [hpath]; rfl
        · rw [hpath]; simpa [Live.has] using hlive

theorem does_sweepManifests (report : JanitorReport) :
    Spares t w₀ s current E (sweepManifests s plan metas report) := by
  induction metas generalizing report with
  | nil => exact fun _ hI => .ret hI
  | cons info rest ih =>
    have hskip := ih fun i hi => hages i (.tail _ hi)
    intro w hI
    unfold sweepManifests
    split
    · exact hskip _ _ hI
    · next isPointer version hfile =>
      split_ifs with hkeep hyoung
      · exact hskip _ _ hI
      · exact hskip _ _ hI
      · refine .bind (does_deleteWhen hE hI fun o ho hprot => ?_) fun _ w' hw' => hskip _ _ hw'.2
        have hage := hages info (.head _) o ho hprot
        exact h.staleManifest hfile (by simpa using hkeep) (by simpa using hyoung) hage hprot

end

variable [ContentHash]

omit h in
theorem does_sweepSnapshot (hI : Intact w₀ s current w) (report : JanitorReport) :
    Does (sem t) (Intact w₀ s current) (sweepSnapshot s current report) (fun _ _ => True) E w := by
  refine (seesWorld t).bind (o := .getWithMeta .memtableSnapshot) rfl fun r hr => ?_
  rcases hr.2 with rfl | ⟨-,rfl⟩
  · cases ho : w.objects.lookup .memtableSnapshot with
    | none =>
      simp only [World.objectWithMeta,ho,found]
      exact .ret trivial
    | some o =>
      simp only [World.objectWithMeta,ho,Option.map_some,found]
      split_ifs with hstale hyoung
      · exact .ret trivial
      · refine .bind (does_deleteWhen hE hI fun o' ho' hprot => ?_) fun _ w' _ => .ret trivial
        rw [hI _ o' ho' hprot] at ho
        cases ho
        cases hprot with
        | young hmin h => exact hyoung (h.tooYoung hmin)
        | _ => simp_all [references,isData]
      · exact .ret trivial
  · exact .fail (hE _ _)

theorem does_deleteOrphans (hI : Intact w₀ s current w) (report : JanitorReport) :
    Does (sem t) (Intact w₀ s current) (deleteOrphans s current plan report) (fun _ _ => True) E w := by
  have hlist : ∀ {α : Type} {d : Dir} {w : World} {f : List ObjectMeta → StoreM α} {P : α → World → Prop},
      (∀ metas, metas.Perm (w.listing d) → Does (sem t) (Intact w₀ s current) (f metas) P E w) →
      Does (sem t) (Intact w₀ s current) (do f (← ofStore (← ask (.list d)))) P E w := by
    intro α d w f P hf
    refine (seesWorld t).list_bind (fun l hl => ?_) (Does.fail (hE _ _))
    exact hf l hl
  refine Does.ask_bind (o := .enter (.sweep plan.horizon)) fun _ w' hw' => ?_
  obtain ⟨rfl,-⟩ := hw'
  have hI' : Intact w₀ s current { w with calls := .sweep plan.horizon::w.calls } := hI
  refine ⟨hI',hlist fun metas hl => Does.bind (does_sweepSsts h hE (hI'.trueAges hl) report _ hI') ?_⟩
  intro report w' hI'
  refine hlist fun metas hl => Does.bind (does_sweepManifests h hE (hI'.trueAges hl) report _ hI') ?_
  intro report w' hI'
  refine hlist fun metas hl => Does.bind (does_sweepWal h hE (hI'.trueAges hl) report _ hI') ?_
  exact fun report w' hI' => does_sweepSnapshot hE hI' report

end

section

variable {w₀ : World} {s : Sweep} {current : Manifest} {t : Time} {w : World} {E : Error → World → Prop}

theorem does_pinsChanged (hE : ∀ e w, E e w) (honoured : List (Path × PinLease)) (horizon : Nat) :
    Does (sem t) (Intact w₀ s current) (pinsChangedBelowHorizon s honoured horizon) (fun _ w' => w'=w) E w := by
  have hany : ∀ metas, Does (sem t) (Intact w₀ s current) (anyPinChanged s honoured horizon metas)
      (fun _ w' => w'=w) E w := by
    intro metas
    induction metas with
    | nil => exact .ret rfl
    | cons info rest ih =>
      refine (seesWorld t).get_bind (fun b _ => ?_) (fun _ => ih) (.fail (hE _ _))
      cases b with
      | pin lease =>
        dsimp only
        split_ifs
        · exact ih
        · exact .ret rfl
      | _ => exact ih
  refine (seesWorld t).list_bind (fun l hl => ?_) (.fail (hE _ _))
  exact hany l

variable [ContentHash]

theorem does_sweepOrphans (retentionHorizon minAge : Nat) (delete : Bool) (hcur : currentOf w₀=some l) :
    Does (sem t) (Intact w₀ ⟨retentionHorizon,minAge,delete,t⟩ l.manifest)
      (sweepOrphans retentionHorizon minAge delete) (fun _ _ => True) (fun _ _ => True) w₀ := by
  have hE : ∀ (e : Error) (w : World), True := fun _ _ => trivial
  refine Does.bind (does_loadCurrent (seesWorld t) (hE · w₀)) fun l' w hl => ?_
  obtain ⟨rfl,hl⟩ := hl
  rw [hcur] at hl
  cases hl
  refine Does.ask_bind (o := .now) fun r w' hr => ?_
  obtain ⟨rfl,hr⟩ := hr
  obtain rfl := of_decide_eq_true hr
  refine ⟨Intact.start,(seesWorld _).list_bind (fun metas hmetas => ?_) (Does.fail trivial)⟩
  have hpins : ∀ info ∈ metas, ∃ id, info.location = .pinObject id := fun info hm => by
    obtain ⟨o,-,hc,-⟩ := mem_listing.mp (hmetas.mem_iff.mp hm)
    revert hc
    cases info.location <;> simp [Dir.covers]
  refine Does.ofStore_bind (fun metas' hm => ?_) fun _ _ => trivial
  cases hm
  refine Does.bind (does_surveyPins hE metas {} {} hpins (fun _ h => by cases h) Intact.start fun p => .inl rfl) ?_
  rintro ⟨pins,report⟩ w ⟨hgone,hI,hwindow,-,hall⟩
  have hsurveyed : Surveyed w' _ pins := ⟨hwindow,fun lease ⟨id,hb,hlive⟩ => by
    obtain ⟨o,ho,hob⟩ := body_eq_some.mp hb
    refine hall ⟨.pinObject id,o.body.size,o.lastModified⟩ ?_ lease hb hlive
    exact hmetas.mem_iff.mpr (mem_listing.mpr ⟨o,ho,rfl,rfl⟩)⟩
  refine Does.bind (does_planSweep hE hgone hsurveyed) fun plan w'' hplan => ?_
  obtain ⟨rfl,hplan⟩ := hplan
  have hdelete : Does (sem r) (Intact w' ⟨retentionHorizon,minAge,delete,r⟩ l.manifest)
      (deleteOrphans ⟨retentionHorizon,minAge,delete,r⟩ l.manifest plan report)
      (fun _ _ => True) (fun _ _ => True) w'' := does_deleteOrphans hplan hE hI report
  cases delete with
  | false => exact hdelete
  | true =>
    refine Does.bind (does_pinsChanged hE pins.honoured plan.horizon) fun changed w hw => ?_
    subst hw
    cases changed with
    | true => exact Does.ret trivial
    | false => exact hdelete

end

/-! A store at version 2. A live window lease reaches down to version 0 and has been open for 1000 s; version 1
references an SST that was written long before, as the output of a slow compaction is. A second lease has expired
and was rewritten just now. -/

def execAt (t : Time) (w : World) (o : Request) (c : Choice) : Option (Reply o × World) :=
  (exec .listing w o c).filter fun x => clock t o x.1

theorem execAt_sound (h : execAt t w o c=some (r,w')) : sem t w o r w' := by
  obtain ⟨he,hc⟩ := Option.filter_eq_some_iff.mp h
  exact ⟨exec_sound he,hc⟩

def nodesSst (id : Uuid) : SstDescriptor where
  id := id
  kind := .nodes
  scope := ""
  level := 1
  path := .sst "1" (.named id ".parquet")
  sizeBytes := 0
  rowCount := 0
  minKey := 0
  maxKey := 0
  minLsn := 1
  maxLsn := 1

def atVersion (version : Nat) (ssts : List SstDescriptor) : Manifest :=
  { Manifest.empty 1 7 0 with version, ssts }

def windowStore : World where
  objects :=
    [(.pointerVersion 2,⟨.pointer ⟨2,1,.manifestVersion 2⟩,0⟩),
     (.manifestVersion 0,⟨.manifest (atVersion 0 [nodesSst 10]),0⟩),
     (.manifestVersion 1,⟨.manifest (atVersion 1 [nodesSst 11]),0⟩),
     (.manifestVersion 2,⟨.manifest (atVersion 2 [nodesSst 12]),0⟩),(.object (nodesSst 10).path,⟨.sst [],0⟩),
     (.object (nodesSst 11).path,⟨.sst [],0⟩),(.object (nodesSst 12).path,⟨.sst [],0⟩),
     (.pinObject 1,⟨.pin ⟨0,10^6,.window (1000*nanosPerSec)⟩,0⟩),
     (.pinObject 2,⟨.pin ⟨0,1999,.point⟩,2000*nanosPerSec⟩)].foldr
      (fun e objects => objects.insert e.1 e.2) ∅
  history := []
  used := []
  calls := []

@[reducible] def flatHash : ContentHash := ⟨fun _ => 0,fun _ _ => 0⟩

def windowSweep : Sweep := ⟨2,60*nanosPerSec,true,2000*nanosPerSec⟩

abbrev windowProgram : Prog Reply (Except Error JanitorReport) :=
  letI := flatHash
  (sweepOrphans windowSweep.retentionHorizon windowSweep.minAge windowSweep.delete).run

def windowRun : Option (Prog Reply (Except Error JanitorReport) × World) :=
  letI := flatHash
  follow (execAt windowSweep.now) (List.replicate 18 (.ok windowSweep.now)) windowProgram windowStore

theorem exists_windowRun {P : Prog Reply (Except Error JanitorReport) × World → Bool} (h : windowRun.any P=true) :
    letI := flatHash
    ∃ q w', Runs (sem windowSweep.now) windowProgram windowStore q w' ∧ P (q,w')=true := by
  cases hrun : windowRun with
  | none => simp [hrun] at h
  | some x =>
    refine ⟨x.1,x.2,follow_runs ?_ hrun,by simpa [hrun] using h⟩
    exact execAt_sound

theorem window_lease_live : LiveLease windowStore windowSweep ⟨0,10^6,.window (1000*nanosPerSec)⟩ :=
  ⟨1,by decide +kernel,by decide⟩

end NamiDB.Storage.Janitor
