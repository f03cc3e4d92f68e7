import NamiDB.Storage.Chain
import NamiDB.Storage.Requests

/-! What each operation of the manifest store does to the chain, whatever the other writers do in
between and however its own requests fail. -/
namespace NamiDB.Storage.Agreement
open Lib ManifestStore

variable {w : World} {fence : WriterFence} {base : LoadedManifest} {new : Manifest} {o : Request} {α : Type}
  {p : StoreM α} {P : α → World → Prop} {r : Except Error Unit} {F : World → Prop} {w' : World}

def sem : Semantics World Reply := fun w o r w' => o.isDelete=false ∧ answers .all w o r w'

/-- All writers are alike: each promises what it expects of the others. -/
def growing : Contract World := ⟨Grows,Grows⟩

/-- `p` keeps the chain and, when it succeeds, establishes `P`. -/
def Spec {α : Type} (p : StoreM α) (P : α → World → Prop) (w : World) : Prop :=
  wp sem Chain growing p.run (onOk P) w

theorem Spec.bind (hp : Spec p P w) (hf : ∀ a w', P a w' → Spec (f a) Q w') : Spec (p >>= f) Q w :=
  wp_onOk_bind hp hf

theorem Spec.ret (h : P a w) : Spec (pure a) P w := h

theorem Spec.fail (e : Error) : Spec (throw e) P w := trivial

theorem Spec.mono {Q : α → World → Prop} (h : Spec p P w) (hPQ : ∀ a w', P a w' → Q a w') : Spec p Q w := by
  refine wp_mono (fun r w' hr => ?_) h
  cases r with
  | ok a => exact hPQ a w' hr
  | error e => trivial

theorem Spec.frame (hF : ∀ w w', Grows w w' → F w → F w') (hw : F w) (h : Spec p P w) :
    Spec p (fun a w' => P a w' ∧ F w') w := by
  refine wp_mono (fun r w' hr => ?_) (wp_frame hF hF hw h)
  cases r with
  | ok a => exact hr
  | error e => trivial

/-- Requests that only read; `enter` is one as long as it is not a `cas_pointer` call. -/
def reads : Request → Bool
  | .get _ | .getWithMeta _ | .head _ | .list _ | .now | .uuid | .never => true
  | .enter (.casPointer _ _ _) => false
  | .enter _ => true
  | .putCreate _ _ | .put _ _ | .delete _ => false

theorem reads_objects (ho : reads o=true) {r : Reply o} (h : sem w o r w') :
    w'.objects=w.objects ∧ w'.history=w.history ∧ w.calls ⊆ w'.calls ∧
      ∀ f b n, Call.casPointer f b n∈w'.calls → Call.casPointer f b n∈w.calls := by
  obtain ⟨-,h⟩ := h
  cases o with
  | get _ | getWithMeta _ | head _ | list _ => cases h.1; simp
  | uuid => cases h.2; simp
  | now => cases h; simp
  | never => exact r.elim
  | enter c =>
    cases h
    cases c <;> simp_all [reads]
  | putCreate p b | put p b | delete p => cases ho

theorem reads_step (ho : reads o=true) {r : Reply o} (hw : Chain w) (h : sem w o r w') : Chain w' ∧ Grows w w' := by
  obtain ⟨hobj,hh,hc,hcas⟩ := reads_objects ho h
  refine ⟨hw.of_objects_eq hobj hh hc fun h' hn => absurd (hcas _ _ _ h') hn,?_⟩
  exact ⟨fun {p b} _ h => by unfold World.body at h ⊢; rwa [hobj],hc,by rw [hh]; exact fun _ h => h⟩

theorem spec_ask (ho : reads o=true) (w : World) :
    Spec (ask o) (fun r w' => Chain w' ∧ ∃ w1, Chain w1 ∧ Grows w1 w' ∧ sem w1 o r w') w := by
  intro w1 _ hI r w2 hs
  obtain ⟨hc,hg⟩ := reads_step ho hI hs
  exact ⟨hc,hg,hc,w1,hI,hg,hs⟩

theorem spec_reads (ho : reads o=true) (w : World) :
    Spec (ask o) (fun _ _ => True) w := (spec_ask ho w).mono fun _ _ _ => trivial

theorem body_of_get {F : Faults} {p : Path} (h : answers F w (.get p) (.ok b) w') : w'.body p=some b := by
  obtain ⟨rfl,h | ⟨-,h⟩⟩ := h
  · cases hb : w'.body p <;> rw [hb] at h <;> cases h
    rfl
  · cases h

theorem spec_get (p : Path) (w : World) :
    Spec (ask (.get p)) (fun r w' => Chain w' ∧ ∀ b, r = .ok b → w'.body p=some b) w := by
  intro w1 _ hI r w2 hs
  obtain ⟨hc,hg⟩ := reads_step (o := .get p) rfl hI hs
  exact ⟨hc,hg,hc,fun b hb => body_of_get (hb ▸ hs.2)⟩

theorem Spec.ofStore_bind {r : Except StoreError α} (h : ∀ a, r = .ok a → Spec (f a) Q w) :
    Spec (ofStore r >>= f) Q w := by
  cases r with
  | ok a => exact h a rfl
  | error e => exact .fail _

theorem Spec.require_bind [Decidable c] {f : Unit → StoreM β} (h : c → Spec (f ()) Q w) :
    Spec (require c e >>= f) Q w :=
  of_require_bind (motive := (Spec · Q w)) h fun _ => .fail _

theorem judges_step (ho : judges o=true) {r : Reply o} (hw : Chain w) (h : sem w o r w') : Chain w' ∧ Grows w w' := by
  cases o with
  | putCreate p b =>
    -- the fence lands outside the manifest slots
    cases p with
    | walSegment seq =>
      rcases h.2 with ⟨-,⟨t,rfl⟩,-⟩ | ⟨rfl,-⟩
      · exact ⟨hw.set_other t rfl fun h => (by cases h),grows_set t fun h => by cases h⟩
      · exact ⟨hw,.refl _⟩
    | _ => cases ho
  | get _ | head _ | list _ | never => exact reads_step rfl hw h
  | _ => cases ho

theorem Spec.of_sends (hp : Sends (judges ·=true) (fun _ => True) p) (w : World) : Spec p (fun _ _ => True) w := by
  refine wp_mono (fun r _ _ => by cases r <;> trivial)
    (wp_of_ends (J := fun _ => True) (fun _ _ => trivial) ?_ hp trivial)
  intro w1 o r w2 ho hI _ hs
  obtain ⟨hc,hg⟩ := judges_step ho hI hs
  exact ⟨hc,hg,trivial⟩

theorem seeks_judges (o : Request) (h : seeks o=true) : judges o=true := by
  cases o <;> first | rfl | cases h

theorem spec_loadPointer (w : World) : Spec loadPointer (fun p w' => ∃ m, p=pointerOf m ∧ Published w' m) w := by
  have hget : ∀ path w', (∃ n, path = .pointerVersion n) ∨ path = .currentPointer →
      Spec (ask (.get path) >>= fun r => ofStore r >>= parsePointer)
        (fun p w' => ∃ m, p=pointerOf m ∧ Published w' m) w' := by
    intro path w' hpath
    refine .bind (spec_get path w') fun r w1 ⟨hI,hr⟩ => ?_
    refine .ofStore_bind fun body hbody => ?_
    have hstored := hr body hbody
    have hpub : ∃ m, body = .pointer (pointerOf m) ∧ Published w1 m := by
      rcases hpath with ⟨n,rfl⟩ | rfl
      · obtain ⟨m,-,he,hp⟩ := hI.pointer hstored
        exact ⟨m,he,hp⟩
      · exact hI.advisory hstored
    obtain ⟨m,rfl,hp⟩ := hpub
    exact .ret ⟨m,rfl,hp⟩
  refine .bind (.of_sends (sends_maxPointerVersion (fun _ _ => trivial) seeks_judges) w) fun r w1 _ => ?_
  cases r with
  | none => exact hget _ w1 (.inr rfl)
  | some maxN =>
    exact .bind (.of_sends (sends_probeLoop (fun _ _ => trivial) seeks_judges maxN maxProbe) w1)
      fun n w2 _ => hget _ w2 (.inl ⟨n,rfl⟩)

/-- What `load_current` returns, and every other loaded manifest a writer holds: the pointer and
manifest of a published version. -/
def Loaded (w : World) (l : LoadedManifest) : Prop :=
  l.pointer=pointerOf l.manifest ∧ ∃ m₀, Published w m₀ ∧ l.manifest.EqUpToTime m₀

theorem Grows.loaded (h : Grows w w') (hl : Loaded w l) : Loaded w' l := by
  obtain ⟨hp,m0,hpub,he⟩ := hl
  exact ⟨hp,m0,h.published hpub,he⟩

theorem spec_loadCurrent (w : World) : Spec loadCurrent (fun l w' => Loaded w' l) w := by
  refine .bind (spec_loadPointer w) fun pointer w1 ⟨m,hm,hpub⟩ => ?_
  subst hm
  have hget := (spec_get (pointerOf m).manifestPath w1).frame
    (fun _ _ hg hp => hg.published hp) hpub
  refine .bind hget fun r w2 ⟨⟨_,hr⟩,hpub2⟩ => ?_
  refine .ofStore_bind fun body hbody => ?_
  have hstored := hr body hbody
  have hsame : w2.body (pointerOf m).manifestPath=some (.manifest m) := hpub2.1
  rw [hsame] at hstored
  cases hstored
  exact .require_bind fun _ => .ret ⟨rfl,m,hpub2,.refl m⟩

theorem Spec.attempt_bind {f : Except Error α → StoreM β} {P : Except Error α → World → Prop}
    (hp : wp sem Chain growing p.run P w) (hf : ∀ r w', P r w' → Spec (f r) Q w') : Spec (attempt p >>= f) Q w := by
  unfold Spec
  rw [wp_attempt]
  exact wp_mono hf hp

theorem Grows.keeps_call (hF : ∀ w w', Grows w w' → F w → F w') (w w' : World) (hg : Grows w w')
    (h : F w ∧ c∈w.calls) : F w' ∧ c∈w'.calls :=
  ⟨hF w w' hg h.1,hg.calls h.2⟩

/-- A create that reports success has landed; whoever fails learns nothing. -/
theorem wp_putCreate {p : Path} (hF : ∀ w w', Grows w w' → F w → F w') (hw : F w)
    (hset : ∀ w1 t, Chain w1 → F w1 → w1.body p=none → Chain (w1.set p b t) ∧ Grows w1 (w1.set p b t)) :
    wp sem Chain growing (putCreate p b).run (fun r w' => F w' ∧ Chain w' ∧ (r = .ok () → w'.body p=some b)) w := by
  intro w1 hR hI r w2 ⟨_,hs⟩
  have hF1 := hF w w1 hR hw
  rcases hs with ⟨hnone,⟨t,rfl⟩,hr⟩ | ⟨rfl,hr⟩
  · obtain ⟨hc,hg⟩ := hset w1 t hI hF1 hnone
    refine ⟨hc,hg,?_⟩
    rcases hr with rfl | ⟨-,rfl | rfl⟩ <;>
      exact ⟨hF _ _ hg hF1,hc,fun _ => World.body_set_same _ _ _ _⟩
  · refine ⟨hI,.refl _,?_⟩
    rcases hr with ⟨-,rfl⟩ | ⟨-,rfl⟩ <;> exact ⟨hF1,hI,fun h => by cases h⟩

theorem spec_writeAdvisoryCurrent (h : Published w m) :
    Spec (writeAdvisoryCurrent (pointerOf m)) (fun _ w' => Published w' m) w := by
  intro w1 hR hI r w2 ⟨_,hs⟩
  have hpub := Grows.published hR h
  rcases hs with ⟨⟨t,rfl⟩,hr⟩ | ⟨rfl,-,hr⟩
  · have hg : Grows w1 (w1.set .currentPointer (.pointer (pointerOf m)) t) :=
      grows_set t fun h => by cases h
    refine ⟨hI.set_other t rfl fun _ => ⟨m,rfl,hpub⟩,hg,?_⟩
    rcases hr with rfl | ⟨-,rfl⟩
    · exact hg.published hpub
    · trivial
  · subst hr
    exact ⟨hI,Grows.refl _,trivial⟩

/-- A writer that is alive on a published base and holds the body of its successor. -/
def Staged (w : World) (fence : WriterFence) (base : LoadedManifest) (new : Manifest) : Prop :=
  new.version=base.manifest.version+1 ∧ base.manifest.epoch≤fence.epoch ∧
    ∃ m, HasBody w m ∧ m.EqUpToTime new

theorem Grows.staged (h : Grows w w') (hs : Staged w fence base new) : Staged w' fence base new := by
  obtain ⟨hv,he,m,hb,hm⟩ := hs
  exact ⟨hv,he,m,h.hasBody hb,hm⟩

theorem spec_existingBodyIsOurs (new : Manifest) (w : World) :
    Spec (existingBodyIsOurs (.manifestVersion new.version) new)
      (fun ours w' => ours=true → ∃ m, HasBody w' m ∧ m.EqUpToTime new) w := by
  refine .bind (spec_get (.manifestVersion new.version) w) fun r w1 ⟨_,hr⟩ => ?_
  match r with
  | .error .notFound => exact .ret fun h => by cases h
  | .error .alreadyExists | .error .other => exact .fail _
  | .ok existing =>
    have hstored := hr existing rfl
    change Spec (if existing = .manifest new then _ else _) _ w1
    split
    · rename_i he
      subst he
      exact .ret fun _ => ⟨new,hstored,.refl new⟩
    · cases existing with
      | manifest parsed =>
        refine .ret fun hours => ?_
        have he : parsed.EqUpToTime new := by simpa [Manifest.EqUpToTime] using hours
        refine ⟨parsed,?_,he⟩
        unfold HasBody
        rw [he.version_eq]
        exact hstored
      | _ => exact .ret fun h => by cases h

theorem spec_enter (hc : reads (.enter c)=true) (w : World) : Spec (enter c) (fun _ w' => c∈w'.calls) w := by
  intro w1 _ hI r w2 hs
  obtain ⟨hI2,hg⟩ := reads_step hc hI hs
  refine ⟨hI2,hg,?_⟩
  obtain ⟨-,rfl⟩ := hs
  exact .head _

theorem pointerOf_congr (h : m.EqUpToTime m') : pointerOf m=pointerOf m' := by
  unfold pointerOf
  rw [h.version_eq,h.epoch_eq]

theorem spec_lostTo {P : Unit → World → Prop} (fence : WriterFence) (expected : Nat)
    (found : LoadedManifest → Nat) (w : World) : Spec (lostTo fence expected found) P w := by
  refine .bind (spec_loadCurrent w) fun reloaded w1 _ => ?_
  split <;> exact .fail _

theorem spec_settleBody (hbase : Loaded w base)
    (hok : r = .ok () → w.body (.manifestVersion new.version)=some (.manifest new)) :
    Spec (settleBody fence base new r) (fun _ w' => Loaded w' base ∧ ∃ m, HasBody w' m ∧ m.EqUpToTime new) w := by
  cases r with
  | ok u => exact .ret ⟨hbase,new,hok rfl,.refl new⟩
  | error e =>
    simp only [settleBody]
    split
    · refine .bind ((spec_existingBodyIsOurs new w).frame (fun _ _ hg => hg.loaded) hbase)
        fun ours w1 h1 => ?_
      split
      · rename_i h
        exact .ret ⟨h1.2,h1.1 h⟩
      · exact spec_lostTo _ _ _ _
    · exact .fail _

theorem spec_putBody (hbase : Loaded w base) : Spec (putBody fence base new)
      (fun p w' => p=pointerOf new ∧ Loaded w' base ∧ Staged w' fence base new) w := by
  refine .bind ((spec_enter rfl w).frame (fun _ _ hg => hg.loaded) hbase)
    fun _ w1 ⟨hcall,hb1⟩ => ?_
  refine .require_bind fun halive => .require_bind fun hv => .require_bind fun he => ?_
  refine .attempt_bind (wp_putCreate (Grows.keeps_call fun _ _ hg => hg.loaded) ⟨hb1,hcall⟩ ?_)
    fun r w2 ⟨⟨hb2,_⟩,_,hok⟩ => ?_
  · -- the new body is built on the published manifest the writer holds
    intro w3 t hI ⟨⟨_,m0,hpub,hm0⟩,hc⟩ hnone
    refine ⟨hI.set_body t hnone fun _ => ⟨m0,hpub,?_,?_,fence,base,hc,hm0,halive⟩,grows_set t fun _ => hnone⟩
    · rw [← hm0.version_eq,hv]
    · rwa [← hm0.epoch_eq]
  refine .bind (spec_settleBody hb2 hok) fun _ w3 ⟨hb3,hm⟩ => ?_
  exact .ret ⟨rfl,hb3,hv,halive,hm⟩

theorem spec_enterCasPointer (hbase : Loaded w base) (hst : Staged w fence base new) :
    Spec (enter (.casPointer fence base new)) (fun _ w' => Call.casPointer fence base new∈w'.calls) w := by
  intro w1 hR hI r w2 ⟨_,hs⟩
  subst hs
  obtain ⟨_,m0,hpub,hm0⟩ := Grows.loaded hR hbase
  obtain ⟨hv,he,-⟩ := hst
  have hsub : w1.calls ⊆ Call.casPointer fence base new::w1.calls :=
    fun _ h => .tail _ h
  refine ⟨hI.of_objects_eq rfl rfl hsub fun {f b n} hc hn => ?_,⟨fun _ h => h,hsub,fun _ h => h⟩,.head _⟩
  rcases List.mem_cons.mp hc with heq | hmem
  · cases heq
    exact ⟨hv,he,m0,hpub,hm0⟩
  · exact absurd hmem hn

theorem spec_settlePointer : Spec (settlePointer fence base r) (fun _ w' => r = .ok () ∧ w'=w) w := by
  cases r with
  | ok u => exact .ret ⟨rfl,rfl⟩
  | error e =>
    simp only [settlePointer]
    split
    · exact spec_lostTo _ _ _ _
    · exact .fail _

theorem spec_casPointer (hbase : Loaded w base) (hst : Staged w fence base new) :
    Spec (casPointer fence base new (pointerOf new)) (fun l w' => Loaded w' l ∧ l.manifest=new) w := by
  refine .bind ((spec_enterCasPointer hbase hst).frame (fun _ _ hg => hg.staged) hst)
    fun _ w1 ⟨hcall,hst1⟩ => ?_
  refine .attempt_bind (wp_putCreate (Grows.keeps_call fun _ _ hg => hg.staged) ⟨hst1,hcall⟩ ?_)
    fun r w2 ⟨⟨hst2,_⟩,_,hok⟩ => ?_
  · -- the slot holds this writer's body, which the pointer names
    intro w3 t hI ⟨⟨_,_,m,hbody,hm⟩,hc⟩ hnone
    have hslot : w3.body (.pointerVersion m.version)=none := by rw [hm.version_eq]; exact hnone
    have hset := hI.set_pointer t hslot hbody fun _ => .inl ⟨fence,base,new,hc,hm.version_eq.symm⟩
    rw [pointerOf_congr hm,hm.version_eq] at hset
    exact ⟨hset,grows_set t fun _ => hnone⟩
  refine .bind spec_settlePointer fun _ w3 ⟨hr,hw⟩ => ?_
  subst hw
  obtain ⟨_,_,m,hbody,hm⟩ := hst2
  have hpub : Published w3 m := by
    refine ⟨hbody,?_⟩
    rw [hm.version_eq,pointerOf_congr hm]
    exact hok hr
  rw [← pointerOf_congr hm]
  refine .bind (spec_writeAdvisoryCurrent hpub) fun _ w4 hpub4 => ?_
  exact .ret ⟨⟨pointerOf_congr hm,m,hpub4,hm.symm⟩,rfl⟩

theorem spec_commit (hbase : Loaded w base) : Spec (commit fence base new) (fun l w' => Loaded w' l) w := by
  refine .bind (spec_putBody hbase) fun p w1 ⟨hp,hb,hst⟩ => ?_
  subst hp
  exact (spec_casPointer hb hst).mono fun _ _ h => h.1

theorem spec_bootstrapBody (hv : empty.version=0) (w : World) :
    Spec (bootstrapBody empty) (fun m w' => m.version=0 ∧ HasBody w' m) w := by
  have hput : wp sem Chain growing (putCreate (.manifestVersion 0) (.manifest empty)).run
      (fun r w' => True ∧ Chain w' ∧ (r = .ok () → w'.body (.manifestVersion 0)=some (.manifest empty))) w := by
    refine wp_putCreate (fun _ _ _ h => h) trivial fun w1 t hI _ hnone => ?_
    rw [← hv] at hnone ⊢
    exact ⟨hI.set_body t hnone fun h => absurd hv h,grows_set t fun _ => hnone⟩
  refine .attempt_bind hput fun r w1 ⟨_,_,hok⟩ => ?_
  cases r with
  | ok u => exact .ret ⟨hv,by unfold HasBody; rw [hv]; exact hok rfl⟩
  | error e =>
    dsimp only
    split
    · refine .bind (P := fun existing w' =>
          w'.body (.manifestVersion 0)=some (.manifest existing)) ?_ fun existing w2 hbody => ?_
      · refine .bind (spec_get _ w1) fun r w2 ⟨_,hr⟩ => .ofStore_bind fun body hb => ?_
        have hstored := hr body hb
        cases body with
        | manifest m => exact .ret hstored
        | _ => exact .fail _
      · refine .require_bind fun hz => .ret ⟨hz,?_⟩
        unfold HasBody
        rw [hz]
        exact hbody
    · exact .fail _

theorem spec_bootstrap (writerId : Uuid) (w : World) : Spec (bootstrap writerId) (fun l w' => Loaded w' l) w := by
  refine .bind (spec_reads (o := .now) rfl w) fun now w1 _ => ?_
  refine .bind (spec_bootstrapBody rfl w1) fun m w2 ⟨hv,hbody⟩ => ?_
  refine .attempt_bind
    (wp_putCreate (F := fun w => HasBody w m) (fun _ _ hg => hg.hasBody) hbody ?_)
    fun r w3 ⟨hbody3,_,hok⟩ => ?_
  · intro w3 t hI hb hnone
    exact ⟨hI.set_pointer t hnone hb fun h => absurd hv h,grows_set t fun _ => hnone⟩
  cases r with
  | ok u =>
    refine .bind (spec_writeAdvisoryCurrent ⟨hbody3,hok rfl⟩) fun _ w4 hpub => ?_
    exact .ret ⟨rfl,m,hpub,.refl m⟩
  | error e =>
    dsimp only
    split <;> exact .fail _

section
variable [ContentHash]

variable (base : LoadedManifest)

theorem spec_orphanReadyToPublish (version : Nat) (body : Blob) (fuel : Nat) (w : World) :
    Spec (orphanReadyToPublish base version body fuel)
      (fun o _ => ∀ m, o=some m → body = .manifest m ∧ m.version=version) w := by
  cases body with
  | manifest orphan =>
    change Spec (if orphan.version=version ∧ base.manifest.epoch≤orphan.epoch then _ else _) _ w
    split
    · rename_i hv
      refine .bind (.of_sends (sends_sstsDurable (fun _ _ => trivial) (fun _ h => h) _) w) fun ssts w1 _ => ?_
      split
      · refine .bind (.of_sends (sends_walSegmentsDurable (fun _ _ => trivial) (fun _ h => h) _ _) w1)
          fun wal w2 _ => ?_
        refine .ret fun m hm => ?_
        split at hm
        · cases hm
          exact ⟨rfl,hv.1⟩
        · cases hm
      · exact .ret fun m hm => by cases hm
    · exact .ret fun m hm => by cases hm
  | _ => exact .ret fun m hm => by cases hm

omit [ContentHash] in
theorem spec_publishOrphan (hbody : HasBody w m) (hcall : Call.repairStalledCommit m.version∈w.calls) :
    Spec (publishOrphan m.version m) (fun _ _ => True) w := by
  refine .attempt_bind (wp_putCreate (Grows.keeps_call fun _ _ hg => hg.hasBody) ⟨hbody,hcall⟩ ?_)
    fun r w1 ⟨⟨hb,_⟩,_,hok⟩ => ?_
  · intro w1 t hI ⟨hb,hc⟩ hnone
    exact ⟨hI.set_pointer t hnone hb fun _ => .inr hc,grows_set t fun _ => hnone⟩
  cases r with
  | ok u => exact (spec_writeAdvisoryCurrent (m := m) ⟨hb,hok rfl⟩).mono fun _ _ _ => trivial
  | error e =>
    dsimp only
    split
    · exact .ret trivial
    · exact .fail _

theorem spec_repairVersion (fuel : Nat) (hcall : Call.repairStalledCommit version∈w.calls) :
    Spec (repairVersion base version fuel) (fun _ _ => True) w := by
  have hC : ∀ w w', Grows w w' → Call.repairStalledCommit version∈w.calls →
      Call.repairStalledCommit version∈w'.calls := fun _ _ hg h => hg.calls h
  refine .bind ((spec_reads (o := .head (.pointerVersion version)) rfl w).frame hC hcall)
    fun r w1 ⟨_,hc1⟩ => ?_
  match r with
  | .ok _ => exact .ret trivial
  | .error .alreadyExists | .error .other => exact .fail _
  | .error .notFound =>
    refine .bind ((spec_get (.manifestVersion version) w1).frame hC hc1)
      fun r w2 ⟨⟨_,hr⟩,hc2⟩ => ?_
    match r with
    | .error .notFound => exact .ret trivial
    | .error .alreadyExists | .error .other => exact .fail _
    | .ok body =>
      have hstored : w2.body (.manifestVersion version)=some body := hr body rfl
      refine .bind ((spec_orphanReadyToPublish base version body fuel w2).frame
        (F := fun w => w.body (.manifestVersion version)=some body ∧ Call.repairStalledCommit version∈w.calls)
        (fun _ _ hg h => ⟨hg.slots rfl h.1,hg.calls h.2⟩) ⟨hstored,hc2⟩)
        fun o w3 ⟨ho,hb3,hc3⟩ => ?_
      cases o with
      | some orphan =>
        obtain ⟨rfl,rfl⟩ := ho orphan rfl
        exact spec_publishOrphan hb3 hc3
      | none =>
        intro w4 _ _ r w5 ⟨hdel,_⟩
        cases hdel

theorem spec_repairStalledCommit (fuel : Nat) (w : World) :
    Spec (repairStalledCommit base fuel) (fun _ _ => True) w := by
  refine .bind (spec_enter rfl w) fun _ w1 hcall => ?_
  refine .attempt_bind (spec_repairVersion base fuel hcall) fun r w2 _ => ?_
  refine .bind (spec_enter rfl w2) fun _ w3 _ => ?_
  cases r with
  | ok u => exact .ret trivial
  | error e => exact .fail _

omit [ContentHash] in
theorem spec_yieldTo (mine : Option Epoch) (current : Epoch) (h : F w) :
    Spec (yieldTo mine current) (fun _ w' => F w') w := by
  cases mine with
  | none => exact .ret h
  | some m =>
    simp only [yieldTo,require]
    split
    · exact .ret h
    · exact .fail _

theorem spec_claimLoop (mine : Option Epoch) (stall : Stall) (fuel : Nat) (w : World) :
    Spec (claimLoop mine stall fuel) (fun x w' => Loaded w' x.1) w := by
  induction fuel generalizing stall w with
  | zero => exact .bind (spec_reads (o := .never) rfl w) fun r _ _ => nomatch r
  | succ fuel ih =>
    refine .bind (spec_loadCurrent w) fun base w1 hb1 => ?_
    have hL : ∀ w w', Grows w w' → Loaded w base → Loaded w' base := fun _ _ hg => hg.loaded
    refine .bind (spec_yieldTo (F := fun w => Loaded w base) mine _ hb1) fun _ w2 hb2 => ?_
    refine .bind ((spec_reads (o := .uuid) rfl w2).frame hL hb2) fun id w3 ⟨_,hb3⟩ => ?_
    refine .bind ((spec_reads (o := .now) rfl w3).frame hL hb3) fun now w4 ⟨_,hb4⟩ => ?_
    refine .bind ((spec_reads (o := .uuid) rfl w4).frame hL hb4) fun id' w5 ⟨_,hb5⟩ => ?_
    refine .attempt_bind (spec_commit hb5) fun r w6 hr => ?_
    cases r with
    | ok loaded => exact .ret hr
    | error e =>
      dsimp only
      split
      · split
        · split
          · split
            · exact .fail _
            · exact .bind (spec_repairStalledCommit base fuel w6) fun _ w7 _ => ih _ w7
          · exact ih _ w6
        · exact ih _ w6
      · exact .fail _

theorem spec_claimOrBootstrap (mine : Option Epoch) (fuel : Nat) (w : World) :
    Spec (claimOrBootstrap mine fuel) (fun x w' => Loaded w' x.1) w := by
  refine .attempt_bind (spec_loadCurrent w) fun r w1 _ => ?_
  cases r with
  | ok loaded => exact spec_claimLoop mine {} fuel w1
  | error e =>
    dsimp only
    split
    · refine .bind (spec_reads (o := .uuid) rfl w1) fun id w2 _ => ?_
      refine .bind (spec_bootstrap id w2) fun loaded w3 hl => ?_
      refine .bind ((spec_reads (o := .uuid) rfl w3).frame (fun _ _ hg => hg.loaded) hl)
        fun id' w4 ⟨_,hl4⟩ => ?_
      exact .ret hl4
    · exact .fail _

end
end NamiDB.Storage.Agreement
