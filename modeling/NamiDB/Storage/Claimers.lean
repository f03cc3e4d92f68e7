import NamiDB.Storage.Agreement
import NamiDB.Storage.ClaimReload

/-! Any number of processes that claim the writer epoch of one namespace at once, with nothing else at the store and
no interrupted commit in it. Bodies that a claim writes add no file to the manifest they succeed, so the repair of a
stalled claim finds them complete and publishes them. -/
namespace NamiDB.Storage.Claimers
open Lib ManifestStore Agreement

/-- The store and, beside it, where each claimer stands. -/
structure Claims (ι : Type) where
  world : World
  stand : ι → Stand

abbrev Outcome := Except Error (LoadedManifest × WriterFence)

section
variable [ContentHash] {ι : Type} [DecidableEq ι]

/-- Claimers, one for each `i : ι`; each keeps the outcome of its call, and one whose call is dropped may call again.
The rounds of a claim are bounded by `fuel`, which is arbitrary. -/
def claimers (F : Faults) : System (Claims ι) ι (Option Outcome) Reply where
  sem := fun i s o r s' => answers F s.world o r s'.world ∧
    s'.stand=Function.update s.stand i ((s.stand i).after s.world o r)
  start := fun _ outcome p => outcome=none ∧ ∃ fuel, p=do return some (← (claimWriter fuel).run)
  drop := fun i s => { s with stand := Function.update s.stand i ⟨.none,s.world,[]⟩ }

/-- A namespace that exists, as the writers of the manifest protocol leave it when no commit is interrupted, and
claimers that have not begun. -/
def Initial (cfg : Config (Claims ι) ι (Option Outcome) Reply) : Prop :=
  (∃ left : Config World Nat Writer Reply, writers.Reachable Agreement.Initial left ∧ cfg.world.world=left.world) ∧
  (∃ m, Published cfg.world.world m) ∧ (∀ m, HasBody cfg.world.world m → Published cfg.world.world m) ∧
  (∀ i, (cfg.world.stand i).phase = .none ∧ (cfg.world.stand i).bases = []) ∧ ∀ i, cfg.proc i = .idle none

end

/-- `m` adds nothing to the files of the published manifest before it. -/
def AddsNothing (w : World) (m : Manifest) : Prop :=
  ∃ m₀, Published w m₀ ∧ m₀.version+1=m.version ∧ m.ssts=m₀.ssts ∧
    m.walSegments=m₀.walSegments

/-- What claimers keep true of a store that began as `w₀`. -/
structure Tidy (w₀ w : World) : Prop where
  chain : Chain w
  grown : Grows w₀ w
  bodies : ∀ {m}, HasBody w m → HasBody w₀ m ∨ AddsNothing w m

/-- Requests that neither delete nor write a manifest body. -/
def harmless : Request → Bool
  | .delete _ => false
  | .putCreate (.manifestVersion _) _ => false
  | .put (.manifestVersion _) _ => false
  | _ => true

/-- `p` makes harmless requests only. -/
abbrev Harmless {α : Type} (p : StoreM α) : Prop := Sends (harmless ·=true) (fun _ => True) p

variable {w w' : World} {o : Request} {r : Reply o} {F : Faults}

theorem answers_all (h : answers F w o r w') : answers .all w o r w' := by
  cases o <;> simp only [answers,Faults.all] at h ⊢ <;> grind

variable {m : Manifest}

theorem harmless_hasBody (ho : harmless o=true) (h : answers F w o r w') (hm : HasBody w' m) : HasBody w m := by
  have hset : ∀ {p : Path} {b : Blob} {t : Time}, (∀ n, p ≠ .manifestVersion n) →
      HasBody (w.set p b t) m → HasBody w m := fun {p b t} hp hb => by
    unfold HasBody at hb ⊢
    rwa [World.body_set_of_ne _ _ _ (hp _).symm] at hb
  cases o with
  | putCreate p b =>
    rcases h with ⟨-,⟨t,rfl⟩,-⟩ | ⟨rfl,-⟩
    · exact hset (by rintro n rfl; cases ho) hm
    · exact hm
  | put p b =>
    rcases h with ⟨⟨t,rfl⟩,-⟩ | ⟨rfl,-⟩
    · exact hset (by rintro n rfl; cases ho) hm
    · exact hm
  | delete p => cases ho
  | get _ | getWithMeta _ | head _ | list _ => cases h.1; exact hm
  | uuid => cases h.2; exact hm
  | now | enter _ => cases h; exact hm
  | never => exact r.elim

theorem AddsNothing.grows (hg : Grows w w') (h : AddsNothing w m) : AddsNothing w' m := by
  obtain ⟨m0,hp,hv,hs⟩ := h
  exact ⟨m0,hg.published hp,hv,hs⟩

section
variable {F : Faults} {w₀ : World}
variable {w : World} {α : Type} {p : StoreM α} {P : α → World → Prop} {fence : WriterFence} {base : LoadedManifest}
  {G : World → Prop} {new : Manifest} {o : Request}

/-- `p` keeps the store tidy and, when it succeeds, establishes `P`. -/
def Keeps (F : Faults) (w₀ : World) {α : Type} (p : StoreM α) (P : α → World → Prop) (w : World) :
    Prop := wp (answers F) (Tidy w₀) growing p.run (onOk P) w

theorem Keeps.of_wp (hp : Harmless p) (h : wp sem Chain growing p.run Q w) :
    wp (answers F) (Tidy w₀) growing p.run Q w := by
  refine wp_lift (K := (harmless ·=true)) (fun w => w) (fun h => h) Tidy.chain ?_ hp.only h
  intro w1 o r w2 ho hI hs
  have hdel : o.isDelete=false := by cases o <;> first | rfl | cases ho
  refine ⟨⟨hdel,answers_all hs⟩,fun hc hg => ⟨⟨hc,hI.grown.trans hg,fun hm => ?_⟩,hg⟩⟩
  exact (hI.bodies (harmless_hasBody ho hs hm)).imp_right (.grows hg)

theorem Keeps.of_spec (hp : Harmless p) (h : Spec p P w) : Keeps F w₀ p P w := of_wp hp h

theorem Keeps.bind (hp : Keeps F w₀ p P w) (hf : ∀ a w', P a w' → Keeps F w₀ (f a) Q w') :
    Keeps F w₀ (p >>= f) Q w := wp_onOk_bind hp hf

theorem Keeps.ret (h : P a w) : Keeps F w₀ (pure a) P w := h

theorem Keeps.fail (e : Error) : Keeps F w₀ (throw e) P w := trivial

theorem Keeps.require_bind [Decidable c] (h : c → Keeps F w₀ (f ()) P w) : Keeps F w₀ (require c e >>= f) P w :=
  of_require_bind (motive := (Keeps F w₀ · P w)) h fun _ => .fail _

theorem Keeps.attempt_bind {P : Except Error α → World → Prop} (hp : wp (answers F) (Tidy w₀) growing p.run P w)
    (hf : ∀ r w', P r w' → Keeps F w₀ (f r) Q w') : Keeps F w₀ (attempt p >>= f) Q w := by
  unfold Keeps
  rw [wp_attempt]
  exact wp_mono hf hp

/-! ### The requests of the manifest store -/

theorem harmless_ask (ho : harmless o=true) : Harmless (ask o) := ⟨ho,fun _ => Sends.ret _⟩

theorem harmless_settles (o : Request) (h : settles o=true) : harmless o=true := by
  unfold settles at h
  split at h <;> first | rfl | cases h

theorem Keeps.ask_bind (ho : harmless o=true) (hr : reads o=true) (hG : ∀ w w', Grows w w' → G w → G w') (hw : G w)
    (hf : ∀ r w', G w' → Keeps F w₀ (f r) Q w') : Keeps F w₀ (ask o >>= f) Q w :=
  Keeps.bind (of_spec (harmless_ask ho) ((spec_reads hr w).frame hG hw))
    fun r w' h => hf r w' h.2

theorem keeps_get (p : Path) (hG : ∀ w w', Grows w w' → G w → G w') (hw : G w) : Keeps F w₀ (ask (.get p))
      (fun r w' => Tidy w₀ w' ∧ (∀ b, r = .ok b → w'.body p=some b) ∧ G w') w := by
  rintro w1 hR hI r w2 hs
  cases hs.1
  exact ⟨hI,.refl _,hI,fun b hb => body_of_get (hb ▸ hs),hG _ _ hR hw⟩

/-! ### The steps of a claim -/

theorem Tidy.set_body (h : Tidy w₀ w) (t : Time) (hbase : Loaded w base)
    (hcall : Call.putBody fence base new∈w.calls) (halive : base.manifest.epoch≤fence.epoch)
    (hv : new.version=base.manifest.version+1) (he : base.manifest.epoch≤new.epoch)
    (hs : new.ssts=base.manifest.ssts) (hwal : new.walSegments=base.manifest.walSegments)
    (hnone : w.body (.manifestVersion new.version)=none) :
    Tidy w₀ (w.set (.manifestVersion new.version) (.manifest new) t) := by
  obtain ⟨_,m0,hpub,hm0⟩ := hbase
  have hn : m0.version+1=new.version := by rw [← hm0.version_eq,hv]
  have hg : Grows w (w.set (.manifestVersion new.version) (.manifest new) t) :=
    grows_set t fun _ => hnone
  refine ⟨h.chain.set_body t hnone fun _ => ⟨m0,hpub,hn,?_,fence,base,hcall,hm0,halive⟩,
    h.grown.trans hg,fun {m} hm => ?_⟩
  · rwa [← hm0.epoch_eq]
  · by_cases hmv : m.version=new.version
    · have hmn : m=new := by
        unfold HasBody at hm
        rw [hmv,World.body_set_same] at hm
        cases hm
        rfl
      subst hmn
      refine .inr ⟨m0,hg.published hpub,hn,?_,?_⟩
      · rw [hs,← hm0]
      · rw [hwal,← hm0]
    · have hold : HasBody w m := by
        unfold HasBody at hm ⊢
        rwa [World.body_set_of_ne _ _ _ (by simpa using hmv)] at hm
      exact (h.bodies hold).imp_right (.grows hg)

theorem keeps_putBody (hbase : Loaded w base) (hs : new.ssts=base.manifest.ssts)
    (hwal : new.walSegments=base.manifest.walSegments) : Keeps F w₀ (putBody fence base new)
      (fun p w' => p=pointerOf new ∧ Loaded w' base ∧ Staged w' fence base new) w := by
  refine .bind (.of_spec (harmless_ask rfl)
    ((spec_enter rfl w).frame (fun _ _ hg => hg.loaded) hbase)) fun _ w1 ⟨hcall,hb1⟩ => ?_
  refine .require_bind fun halive => .require_bind fun hv => .require_bind fun he => ?_
  refine .attempt_bind (P := fun r w' => Loaded w' base ∧
    (r = .ok () → w'.body (.manifestVersion new.version)=some (.manifest new))) ?_
    fun r w2 ⟨hb2,hok⟩ => ?_
  · intro w2 hR hI r w3 hs'
    have hb2 := Grows.loaded hR hb1
    rcases hs' with ⟨hnone,⟨t,rfl⟩,hr⟩ | ⟨rfl,hr⟩
    · have hg := grows_set (b := .manifest new) t fun _ => hnone
      refine ⟨hI.set_body t hb2 (hR.calls hcall) halive hv he hs hwal hnone,hg,?_⟩
      rcases hr with rfl | ⟨-,rfl | rfl⟩ <;>
        exact ⟨hg.loaded hb2,fun _ => World.body_set_same _ _ _ _⟩
    · refine ⟨hI,.refl _,?_⟩
      rcases hr with ⟨-,rfl⟩ | ⟨-,rfl⟩ <;> exact ⟨hb2,nofun⟩
  · refine .bind (.of_spec (sends_settleBody (fun _ => trivial) harmless_settles _ _ _ _) (spec_settleBody hb2 hok))
      fun _ w3 ⟨hb3,hm⟩ => ?_
    exact .ret ⟨rfl,hb3,hv,halive,hm⟩

theorem keeps_commit (hbase : Loaded w base) (hs : new.ssts=base.manifest.ssts)
    (hwal : new.walSegments=base.manifest.walSegments) : Keeps F w₀ (commit fence base new)
      (fun l w' => (Loaded w' l ∧ l.manifest=new) ∧ Loaded w' base) w := by
  refine .bind (keeps_putBody hbase hs hwal) fun p w1 ⟨hp,hb,hst⟩ => ?_
  subst hp
  exact .of_spec (sends_casPointer (fun _ => trivial) harmless_settles _ _ _ _)
    ((spec_casPointer hb hst).frame (fun _ _ hg => hg.loaded) hb)

section
variable [ContentHash]
variable {base : LoadedManifest} {m : Manifest}

/-- A body written by a claim is complete whenever it is judged. -/
theorem orphanReadyToPublish_eq (fuel : Nat) (he : base.manifest.epoch ≤ m.epoch) (hs : m.ssts=base.manifest.ssts)
    (hwal : m.walSegments=base.manifest.walSegments) :
    orphanReadyToPublish base m.version (.manifest m) fuel=pure (some m) := by
  have hssts : addedSsts base.manifest m=[] :=
    List.filter_eq_nil_iff.mpr fun s hmem => by simpa using ⟨s,hs ▸ hmem,rfl⟩
  have hsegs : addedWalSegments base.manifest m=[] :=
    List.filter_eq_nil_iff.mpr fun s hmem => by simpa using ⟨s,hwal ▸ hmem,rfl⟩
  simp only [orphanReadyToPublish,he,hssts,hsegs]
  rfl

omit [ContentHash] in
theorem Tidy.stalled (h : Tidy w₀ w) (hw0 : ∀ m, HasBody w₀ m → Published w₀ m) (hbase : Loaded w base)
    (hv : m.version=base.pointer.version+1) (hm : HasBody w m) (hnone : w₀.body (.pointerVersion m.version)=none) :
    base.manifest.epoch ≤ m.epoch ∧ m.ssts=base.manifest.ssts ∧ m.walSegments=base.manifest.walSegments := by
  obtain ⟨hptr,m0,hpub,hm0⟩ := hbase
  have hbv : base.pointer.version=m0.version := by
    rw [hptr]
    exact hm0.version_eq
  have hadds : AddsNothing w m := by
    refine (h.bodies hm).resolve_left fun h0 => ?_
    rw [(hw0 m h0).2] at hnone
    cases hnone
  obtain ⟨m1,hpub1,hv1,hs,hwal⟩ := hadds
  obtain ⟨m2,hpub2,hv2,he,-⟩ := h.chain.built hm (by omega)
  have h1 : m1=m0 := published_unique hpub1 hpub (by omega)
  have h2 : m2=m0 := published_unique hpub2 hpub (by omega)
  subst h1 h2
  refine ⟨?_,?_,?_⟩
  · rwa [hm0.epoch_eq]
  · rw [hs,← hm0]
  · rw [hwal,← hm0]

theorem keeps_repairVersion (hw0 : ∀ m, HasBody w₀ m → Published w₀ m) (hbase : Loaded w base)
    (hv : version=base.pointer.version+1) (hcall : Call.repairStalledCommit version∈w.calls) (fuel : Nat) :
    Keeps F w₀ (repairVersion base version fuel) (fun _ _ => True) w := by
  have hG := Grows.keeps_call (F := (Loaded · base)) (c := .repairStalledCommit version) fun _ _ hg => hg.loaded
  refine .bind (P := fun r w' => (r = .error .notFound → w₀.body (.pointerVersion version)=none) ∧ Loaded w' base ∧
      Call.repairStalledCommit version∈w'.calls) ?_ fun r w1 ⟨hr,hb1,hc1⟩ => ?_
  · -- a pointer that was there at the start is still there
    rintro w1 hR hI r w2 ⟨rfl,hs⟩
    refine ⟨hI,.refl _,⟨fun hnf => ?_,hG _ _ hR ⟨hbase,hcall⟩⟩⟩
    subst hnf
    cases hbody : w₀.body (.pointerVersion version) with
    | none => rfl
    | some b =>
      have hstill := hI.grown.slots (p := .pointerVersion version) rfl hbody
      unfold World.body at hstill
      unfold World.stat at hs
      cases hlook : w2.objects.lookup (.pointerVersion version) with
      | none => rw [hlook] at hstill; cases hstill
      | some obj =>
        rw [hlook] at hs
        rcases hs with hs | ⟨-,hs⟩ <;> cases hs
  match r with
  | .ok _ => exact .ret trivial
  | .error .alreadyExists | .error .other => exact .fail _
  | .error .notFound =>
    refine .bind (keeps_get (.manifestVersion version) hG ⟨hb1,hc1⟩)
      fun r w2 ⟨hI2,hstored,hb2,hc2⟩ => ?_
    match r with
    | .error .notFound => exact .ret trivial
    | .error .alreadyExists | .error .other => exact .fail _
    | .ok body =>
      have hbody := hstored body rfl
      obtain ⟨m,rfl,hmv⟩ := hI2.chain.body hbody
      subst hmv
      obtain ⟨he,hs,hwal⟩ := hI2.stalled hw0 hb2 hv hbody (hr rfl)
      change Keeps F w₀ (orphanReadyToPublish base m.version (.manifest m) fuel >>= _) _ _
      rw [orphanReadyToPublish_eq fuel he hs hwal]
      exact .of_spec (sends_publishOrphan (fun _ _ => trivial) (fun _ => rfl) fun _ => rfl)
        (spec_publishOrphan hbody hc2)

theorem keeps_repairStalledCommit (hw0 : ∀ m, HasBody w₀ m → Published w₀ m) (hbase : Loaded w base) (fuel : Nat) :
    Keeps F w₀ (repairStalledCommit base fuel) (fun _ _ => True) w := by
  refine .bind (.of_spec (harmless_ask rfl)
    ((spec_enter rfl w).frame (fun _ _ hg => hg.loaded) hbase)) fun _ w1 ⟨hcall,hb1⟩ => ?_
  refine .attempt_bind (keeps_repairVersion hw0 hb1 rfl hcall fuel) fun r w2 _ => ?_
  refine .ask_bind rfl rfl (G := fun _ => True) (fun _ _ _ h => h) trivial fun _ w3 _ => ?_
  cases r with
  | ok u => exact .ret trivial
  | error e => exact .fail _

omit [ContentHash] in
/-- What a successful claim returns: a published manifest whose epoch, and the fence's, is one above
that of the manifest before it. -/
def Claimed (w : World) (x : LoadedManifest × WriterFence) : Prop :=
  Loaded w x.1 ∧ x.2.epoch=x.1.manifest.epoch ∧ ∃ m₀, Published w m₀ ∧
    m₀.version+1=x.1.manifest.version ∧ m₀.epoch+1=x.1.manifest.epoch

omit [ContentHash] in
theorem Claimed.grows (hg : Grows w w') (h : Claimed w x) : Claimed w' x := by
  obtain ⟨hl,he,m0,hp,hs⟩ := h
  exact ⟨hg.loaded hl,he,m0,hg.published hp,hs⟩

theorem keeps_claimLoop (hw0 : ∀ m, HasBody w₀ m → Published w₀ m) (mine : Option Epoch)
    (stall : Stall) (fuel : Nat) (w : World) :
    Keeps F w₀ (claimLoop mine stall fuel) (fun x w' => Claimed w' x) w := by
  induction fuel generalizing stall w with
  | zero =>
    exact .ask_bind (o := .never) rfl rfl (G := fun _ => True) (fun _ _ _ h => h) trivial
      fun r _ _ => nomatch r
  | succ fuel ih =>
    refine .bind (.of_spec (sends_loadCurrent (fun _ => trivial) harmless_settles) (spec_loadCurrent w))
      fun base w1 hb1 => ?_
    have hL : ∀ w w', Grows w w' → Loaded w base → Loaded w' base := fun _ _ hg => hg.loaded
    refine .bind (P := fun _ w => Loaded w base) ?_ fun _ w2 hb2 => ?_
    · refine .of_spec ?_ (spec_yieldTo (F := fun w => Loaded w base) mine _ hb1)
      cases mine with
      | none => exact .ret ()
      | some e => exact .require trivial
    refine .ask_bind (o := .uuid) rfl rfl hL hb2 fun id w3 hb3 => ?_
    refine .ask_bind (o := .now) rfl rfl hL hb3 fun now w4 hb4 => ?_
    refine .ask_bind (o := .uuid) rfl rfl hL hb4 fun id' w5 hb5 => ?_
    refine .attempt_bind (wp_frame hL hL hb5 (keeps_commit hb5 rfl rfl)) fun r w6 hr => ?_
    cases r with
    | ok loaded =>
      obtain ⟨⟨⟨hl,hnew⟩,-⟩,-,m0,hpub,hm0⟩ := hr
      refine .ret ⟨hl,?_,m0,hpub,?_,?_⟩
      · simp [hnew]
      · simp [hnew,Manifest.nextVersion,← hm0.version_eq]
      · simp [hnew,← hm0.epoch_eq]
    | error e =>
      dsimp only
      repeat' split
      · exact .fail _
      · exact .bind (keeps_repairStalledCommit hw0 hr.2 fuel) fun _ w7 _ => ih _ w7
      · exact ih _ w6
      · exact ih _ w6
      · exact .fail _

end
end

section
variable [ContentHash] {ι : Type} [DecidableEq ι] {F : Faults} {w₀ : World}

/-- A claimer leaves the other claimers' stand alone, and expects the same of them. -/
def contract (i : ι) : Contract (Claims ι) where
  rely := fun s s' => Grows s.world s'.world ∧ s'.stand i=s.stand i
  guar := fun s s' => Grows s.world s'.world ∧ ∀ j, j≠i → s'.stand j=s.stand j

def OutcomeOk (F : Faults) (i : ι) (outcome : Option Outcome) (s : Claims ι) : Prop :=
  ∀ r, outcome=some r → (∀ e, r = .error e → OfClaim F e (s.world,s.stand i)) ∧ ∀ x, r = .ok x → Claimed s.world x

omit [ContentHash] [DecidableEq ι] in
theorem OutcomeOk.grows (hR : (contract i).rely s s') (h : OutcomeOk F i outcome s) : OutcomeOk F i outcome s' := by
  refine fun r hr => ⟨fun e he => ?_,fun x hx => ((h r hr).2 x hx).grows hR.1⟩
  obtain ⟨hlost,hwhy⟩ := (h r hr).1 e he
  rw [OfClaim,hR.2]
  refine ⟨hlost,fun hF => (hwhy hF).imp_left ?_⟩
  rintro ⟨m,hp,hbound⟩
  exact ⟨m,hR.1.published hp,hbound⟩

/-- The runs in which no version is published between the refusal of a claimer's create and the end of the re-read
that follows, if the claimer competes for that version. -/
def unracedClaimers (F : Faults) : System (Claims ι) ι (Option Outcome) Reply :=
  (claimers F).restrict fun i s o => unraced (s.stand i).phase s.world o=true

theorem claim_world (hw0 : ∀ m, HasBody w₀ m → Published w₀ m) (i : ι) (fuel : Nat) (s : Claims ι) :
    wp ((unracedClaimers F).sem i) (fun s => Tidy w₀ s.world) (contract i) (claimWriter fuel).run
      (fun r s' => onOk (fun x w' => Claimed w' x) r s'.world) s := by
  refine wp_lift (K := fun _ => True) (fun s : Claims ι => s.world) And.left (fun h => h) ?_
    (Prog.only_true _) (keeps_claimLoop (F := F) hw0 none {} fuel s.world)
  intro s1 o r s2 _ _ hs
  refine ⟨hs.2.1,fun hI hg => ⟨hI,hg,fun j hj => ?_⟩⟩
  rw [hs.2.2,Function.update_of_ne hj]

omit [DecidableEq ι] in
theorem claim_stand (i : ι) (fuel : Nat) (s : Claims ι) (hboot : ∃ m, Published s.world m) :
    wp (fun s o r s' => Step F (s.world,s.stand i) o r (s'.world,s'.stand i) ∧ ∀ j, j≠i → s'.stand j=s.stand j)
      (fun s => ∀ j, Fresh F (s.stand j)) (contract i) (claimWriter fuel).run
      (fun r s' => ∀ e, r = .error e → OfClaim F e (s'.world,s'.stand i)) s := by
  refine wp_mono (fun r s' hr => hr.1) (wp_lift (K := fun _ => True) (fun s : Claims ι => (s.world,s.stand i))
    (fun h => h) (fun h => h i) ?_ (Prog.only_true _)
    (calm_claimLoop {} fuel (s.world,s.stand i) (fun _ => hboot) (.inl nofun)))
  intro s1 o r s2 _ hI hs
  refine ⟨hs.1,fun hfresh hg => ⟨fun j => ?_,hg,hs.2⟩⟩
  by_cases hj : j=i
  · exact hj ▸ hfresh
  · rw [hs.2 j hj]
    exact hI j

theorem claim_wp (hw0 : ∀ m, HasBody w₀ m → Published w₀ m) (i : ι) (fuel : Nat) (s : Claims ι)
    (hboot : ∃ m, Published s.world m) :
    wp ((unracedClaimers F).sem i) (fun s => Tidy w₀ s.world ∧ ∀ j, Fresh F (s.stand j)) (contract i)
      (do return some (← (claimWriter fuel).run)) (OutcomeOk F i) s := by
  rw [wp_bind]
  refine wp_mono (fun r s' hr => ?_) (wp_and (fun h => h) (fun {s o r s'} _ hI' hG hs => ?_) (claim_world hw0 i fuel s)
    (claim_stand i fuel s hboot))
  · rintro r' ⟨⟩
    refine ⟨hr.2,fun x hx => ?_⟩
    subst hx
    exact hr.1
  · refine ⟨⟨hs.2.1,?_,hI'.chain,hG.1,hs.1⟩,hG.2⟩
    rw [hs.2.2,Function.update_self]

theorem claimers_respects (hw0 : ∀ m, HasBody w₀ m → Published w₀ m) (hboot : ∃ m, Published w₀ m) :
    (unracedClaimers (ι := ι) F).Respects (fun s => Tidy w₀ s.world ∧ ∀ j, Fresh F (s.stand j)) contract
      (OutcomeOk F) where
  rely_trans := fun _ _ _ _ h h' => ⟨h.1.trans h'.1,h'.2.trans h.2⟩
  rely_refl := fun _ _ => ⟨.refl _,rfl⟩
  compatible := fun hne h => ⟨h.1,h.2 _ hne.symm⟩
  ok_stable := fun hR h => h.grows hR
  start_wp := fun ⟨_,fuel,hp⟩ hI _ => hp ▸ claim_wp hw0 _ fuel _ (hboot.imp fun _ => hI.1.grown.published)
  drop_guar := fun {i s} h => by
    refine ⟨⟨h.1,fun j => ?_⟩,.refl _,fun _ hj => Function.update_of_ne hj _ _⟩
    change Fresh F (Function.update s.stand i _ j)
    by_cases hj : j=i
    · subst hj
      rw [Function.update_self]
      exact nofun
    · rw [Function.update_of_ne hj]
      exact h.2 j
  -- only a claimer without an outcome is busy
  drop_ok := fun hs _ r hr => by
    rw [hs.1] at hr
    cases hr
  guar_ok := fun hs _ _ r hr => by
    rw [hs.1] at hr
    cases hr

def runner (F : Faults) : Runner (claimers (ι := ι) F) Choice Nat where
  exec := fun i s o c => (exec F s.world o c).map fun x =>
    (x.1,⟨x.2,Function.update s.stand i ((s.stand i).after s.world o x.1)⟩)
  program := fun _ outcome fuel =>
    if outcome=none then some do return some (← (claimWriter fuel).run) else none
  exec_sound := fun h => by
    obtain ⟨x,hx,⟨⟩⟩ := Option.map_eq_some_iff.mp h
    exact ⟨exec_sound hx,rfl⟩
  program_sound := fun {_ _ fuel _} h => by
    split at h <;> cases h
    exact ⟨‹_›,fuel,rfl⟩

end

/-! ### Two claimers of a fresh namespace -/

def bootstrapRun : List (Act Nat Choice WriterCall) :=
  [.start 0 (.open none 1)] ++
    [.ok 0,.ok 0,.ok 0,.ok 0,.fresh 1,.ok 0,.ok 0,.ok 0,.ok 0,.fresh 2].map (.step 0) ++
    [.finish 0]

def fresh : World :=
  letI := lengthHash
  (Agreement.runner.run bootstrapRun ⟨⟨∅,[],[],[]⟩,fun _ => .idle ⟨none,none⟩⟩).elim
    ⟨∅,[],[],[]⟩ (·.world)

def twoClaimers : Config (Claims Bool) Bool (Option Outcome) Reply :=
  ⟨⟨fresh,fun _ => ⟨.none,fresh,[]⟩⟩,fun _ => .idle none⟩

theorem twoClaimers_initial : letI := lengthHash; Initial twoClaimers := by
  let := lengthHash
  refine ⟨?_,⟨Manifest.empty 0 1 0,rfl,rfl⟩,fun m hm => ?_,fun _ => ⟨rfl,rfl⟩,fun _ => rfl⟩
  · obtain ⟨cfg,hrun,hw⟩ : ∃ cfg, Agreement.runner.run bootstrapRun
        ⟨⟨∅,[],[],[]⟩,fun _ => .idle ⟨none,none⟩⟩=some cfg ∧ fresh=cfg.world :=
      ⟨_,rfl,rfl⟩
    exact ⟨cfg,Agreement.runner.run_reachable (.init ⟨rfl,fun _ => rfl⟩) hrun,hw⟩
  · change HasBody fresh m at hm
    have hzero : m.version=0 := by
      by_contra hne
      obtain ⟨n,hn⟩ := Nat.exists_eq_succ_of_ne_zero hne
      unfold HasBody at hm
      rw [hn] at hm
      cases hm
    unfold HasBody at hm
    rw [hzero] at hm
    cases hm
    exact ⟨rfl,rfl⟩

def load (i : Bool) (id : Uuid) : List (Act Bool Choice Nat) :=
  [.ok 0,.ok 0,.ok 0,.ok 0,.fresh id,.ok 0,.fresh (id+1)].map (.step i)

/-- Both claimers load version 0; the second claims version 1 before the first writes its body. -/
def lostRace : List (Act Bool Choice Nat) :=
  [.start false 1]++load false 10++[.start true 1]++load true 20 ++
    List.replicate 5 (.step true (.ok 0))++[.finish true] ++
    List.replicate 7 (.step false (.ok 0))++[.finish false]

def outcomeOf (cfg : Config (Claims Bool) Bool (Option Outcome) Reply) (i : Bool) : Option Outcome :=
  match cfg.proc i with
  | .idle outcome => outcome
  | .busy _ _ => none

theorem proc_of_outcomeOf {r : Outcome} (h : outcomeOf cfg i=some r) : cfg.proc i = .idle (some r) := by
  unfold outcomeOf at h
  cases hp : cfg.proc i with
  | idle outcome =>
    rw [hp] at h
    exact congrArg Proc.idle h
  | busy back p => rw [hp] at h; cases h

/-- The first claimer writes its body while the second's is in the slot but not published; it reports
a lost race, reloads once the second has published, and claims version 2. -/
def retriedRace : List (Act Bool Choice Nat) :=
  [.start false 2]++load false 10++[.start true 1]++load true 20 ++
    List.replicate 2 (.step true (.ok 0))++List.replicate 7 (.step false (.ok 0)) ++
    List.replicate 3 (.step true (.ok 0))++[.finish true] ++
    load false 30++List.replicate 5 (.step false (.ok 0))++[.finish false]

def second : Manifest :=
  { (Manifest.empty 0 1 0).nextVersion 20 0 |>.nextVersion 30 0 with epoch := 2 }

end NamiDB.Storage.Claimers
