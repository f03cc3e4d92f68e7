import NamiDB.Server.Opening

/-! Exclusion between the incarnations of a namespace, over every interleaving of the server's
requests and background tasks. -/
namespace NamiDB.Server
open Lib Registry Option

variable {i : Task} {k : Incarnation} {path : Path}

section

theorem holds_loop (h : Holds i P body fun _ => P) (n : Nat) : Holds i P (loop body n) fun _ => P := by
  induction n with
  | zero => exact .ret fun _ => id
  | succ n ih =>
    refine .bind h fun more => ?_
    cases more with
    | true => exact ih
    | false => exact .ret fun _ => id

variable (cancellable : Bool)

theorem requestCompaction_plain : (requestCompaction k cancellable).Only Request.Plain := by
  refine .bind (only_send trivial) fun admission => ?_
  cases admission with
  | startWorker => exact .bind (only_send nofun) fun _ => only_pure _
  | queuedFollowUp | coalesced => exact only_pure _

theorem ignoring_only (h : p.Only K) : (ignoring p).Only K :=
  .bind h fun _ => only_pure _

theorem onlyIf_only (h : p.Only K) : (onlyIf c p).Only K :=
  only_ite h (only_pure _)

theorem requestTracked_plain : (requestTracked k).Only Request.Plain := by
  refine .bind (requestCompaction_plain true) fun worker => ?_
  cases worker with
  | none => exact only_pure _
  | some t =>
    refine .bind (only_send trivial) fun _ => only_ite (only_pure _) ?_
    exact .bind (only_send trivial) fun _ => only_send trivial

theorem isCancelled_plain : (isCancelled k cancellable).Only Request.Plain :=
  only_ite (only_send trivial) (only_pure _)

theorem holds_observeIdle : Serves i (observeIdle k) :=
  .bind holds_lockWriter fun _ => holds_unlockWriter

theorem holds_runCompactionPass {cancellable : Bool} (hpath : path.Guarded cancellable) :
    Serves i (runCompactionPass k path cancellable) := by
  refine .bind holds_lockWriter fun _ => .bind (holds_isCancelled cancellable) fun cancelled =>
    .bind (holds_unlockWriter.mono (fun s h => h.1) fun _ _ => id) fun _ => ?_
  have hchoose : Serves i (send .choose) := holds_plain trivial
  split
  · exact .ret fun _ => id
  refine .bind hchoose fun needed => ?_
  split
  · exact .ret fun _ => id
  refine .bind hchoose fun prepared => ?_
  split
  · exact .bind hchoose fun _ => (by split <;> exact .ret fun _ => id)
  refine .bind (holds_plainly (isCancelled_plain cancellable)) fun _ => ?_
  split
  · exact .ret fun _ => id
  · exact holds_installPrepared hpath

theorem guarded_worker : (Path.worker cancellable).Guarded cancellable := by
  cases cancellable with
  | true => exact .inl rfl
  | false => exact .inr rfl

theorem holds_workerRound : Serves i (workerRound k cancellable) := by
  have hcancelled := holds_plainly (i := i) (isCancelled_plain (k := k) cancellable)
  refine .bind hcancelled fun _ => ?_
  split
  · exact .ret fun _ => id
  refine .bind (holds_plain trivial) fun _ => .bind hcancelled fun _ => ?_
  split
  · exact .ret fun _ => id
  refine .bind (holds_runCompactionPass (guarded_worker cancellable)) fun pass => ?_
  cases pass with
  | cancelled => exact .ret fun _ => id
  | _ => exact holds_plain trivial

theorem holds_runWorker : Serves i (runWorker k cancellable) :=
  .bind (holds_plain trivial) fun n => holds_loop (holds_workerRound cancellable) n

theorem holds_drainPasses (n racesLost : Nat) (applied : Bool) : Serves i (drainPasses k n racesLost applied) := by
  induction n generalizing racesLost applied with
  | zero => exact .ret fun _ => id
  | succ n ih =>
    refine .bind (holds_plain trivial) fun _ =>
      .bind (holds_runCompactionPass (.inr rfl)) fun pass => ?_
    have hlast : Serves i (if applied then observeIdle k else pure ()) := by
      split
      · exact holds_observeIdle
      · exact .ret fun _ => id
    cases pass with
    | applied => exact ih 0 true
    | cancelled | noop => exact holds_observeIdle
    | stale =>
      dsimp only
      split
      · exact ih (racesLost+1) applied
      · exact hlast
    | failed => exact hlast

end

theorem holds_committerRound : Holds i (fun s => Exit i s ∧ Committer i k s) (committerRound k)
      fun _ s => Exit i s ∧ Committer i k s := by
  have hframe : ∀ {β : Type} {P : Registry → Prop} {p : Serve β} {Q : β → Registry → Prop},
      Holds i P p Q → Holds i (fun s => P s ∧ Committer i k s) p fun b s => Q b s ∧ Committer i k s :=
    fun h => h.frame (fun hr hc => hc.stable hr) fun hg hc => hc.guar hg
  refine .bind (hframe (holds_plain trivial)) fun notified => ?_
  cases notified with
  | true =>
    refine .bind (hframe (holds_plain trivial)) fun _ => .bind (hframe holds_lockWriter) fun _ =>
      .bind (section_committer.holds commitGroupLocked_only) fun _ =>
        .bind (hframe holds_unlockWriter) fun _ => .ret fun _ => id
  | false => exact .bind (hframe (holds_plain trivial)) fun _ => .ret fun _ => id

theorem holds_flushRound (groupCommit : Bool) : Serves i (flushRound groupCommit k) := by
  refine .bind (holds_plain trivial) fun _ => .bind (holds_plain trivial) fun _ => ?_
  split
  · exact .ret fun _ => id
  refine .bind (holds_plain trivial) fun _ => ?_
  split
  · exact .ret fun _ => id
  refine .bind holds_lockWriter fun _ => .bind holds_isRetired fun retired => ?_
  cases retired with
  | true =>
    exact .bind (holds_unlockWriter.mono (fun s h => h.1) fun _ _ => id) fun _ => .ret fun _ => id
  | false =>
    refine .bind ((section_fresh.holds (commitThenFlush_only groupCommit)).mono
      (fun s h => ⟨h.1.1,h.2 rfl⟩) fun _ s h => ⟨h.1,h.2.owns⟩) fun _ =>
      .bind holds_unlockWriter fun _ =>
        .bind (holds_plainly (onlyIf_only requestTracked_plain)) fun _ => .ret fun _ => id

theorem holds_compactionRound : Serves i (compactionRound k) := by
  refine .bind (holds_plain trivial) fun _ => .bind (holds_plain trivial) fun _ => ?_
  split
  · exact .ret fun _ => id
  · exact .bind (holds_plainly requestTracked_plain) fun _ =>
      .bind (holds_plain trivial) fun _ => .ret fun _ => id

section

theorem holds_bounded (h : Holds i (fun s => Exit i s ∧ Owns i k s) p fun _ => Exit i) :
    Serves i (do if ← send (.lockWriterBounded k) then p else pure ()) := by
  refine .bind holds_lockWriterBounded fun locked => ?_
  cases locked with
  | true => exact h.mono (fun s hs => ⟨hs.1,hs.2 rfl⟩) fun _ _ => id
  | false => exact .ret fun s hs => hs.1

theorem holds_unchecked (hpath : path.unchecked=true) (hbody : body.Only (InSection k path))
    {rest : α → Serve Unit} (hrest : ∀ a, Serves i (rest a)) :
    Holds i (fun s => Exit i s ∧ Owns i k s) (do
      let a ← body
      send (.unlockWriter k)
      rest a) fun _ => Exit i :=
  .bind ((section_unchecked hpath).holds hbody) fun a => .bind holds_unlockWriter fun _ => hrest a

variable (groupCommit : Bool)

theorem holds_runWriteSection : Serves i (runWriteSection groupCommit k) :=
  holds_bounded (holds_unlessRetired (writeLocked_only groupCommit))

theorem holds_requestUntracked (c : Bool) : Serves i (onlyIf c (ignoring (requestCompaction k false))) :=
  holds_plainly (onlyIf_only (ignoring_only (requestCompaction_plain false)))

theorem holds_runSchemaStatement (onProperties : Bool) : Serves i (runSchemaStatement k onProperties) := by
  refine .bind holds_lockWriter fun _ => .bind holds_isRetired fun retired => ?_
  cases retired with
  | true => exact holds_unlockWriter.mono (fun s h => h.1) fun _ _ => id
  | false =>
    refine .bind ((section_fresh.holds (schemaLocked_only recoverUnlessRetired_only)).mono
      (fun s h => ⟨h.1.1,h.2 rfl⟩) fun _ s h => ⟨h.1,h.2.owns⟩) fun _ =>
      .bind holds_unlockWriter fun _ => holds_requestUntracked _

variable (ns : String)

theorem holds_adminFlush (overLimit : Bool) : Serves i (adminFlush groupCommit ns overLimit) := by
  refine .bind (holds_getForAdmin overLimit) fun state => ?_
  cases state with
  | none => exact .ret fun _ => id
  | some k =>
    exact holds_bounded (holds_unlessRetired (ignoring_only (commitThenFlush_only groupCommit)))

theorem holds_adminCompact (overLimit : Bool) : Serves i (adminCompact ns overLimit) := by
  refine .bind (holds_getForAdmin overLimit) fun state => ?_
  cases state with
  | none => exact .ret fun _ => id
  | some k =>
    refine .bind (holds_plain trivial) fun _ => ?_
    split
    · exact .ret fun _ => id
    · exact holds_drainPasses 128 0 false

theorem holds_boltStatement (k : Incarnation) (statement : Statement) :
    Serves i (boltStatement groupCommit k statement) := by
  cases statement with
  | read => exact holds_plainly (ignoring_only (only_send trivial))
  | write =>
    refine holds_bounded ?_
    exact .bind ((section_unchecked rfl).holds (boltWriteLocked_only groupCommit)) fun _ =>
      holds_unlockWriter
  | schema onProperties =>
    exact holds_bounded (holds_unchecked rfl (schemaLocked_only recoverWriterIfNeeded_only)
      fun _ => holds_requestUntracked _)
  | transaction =>
    refine holds_bounded ?_
    exact .bind ((section_unchecked rfl).holds (boltTransactionLocked_only groupCommit)) fun _ =>
      holds_unlockWriter

theorem holds_httpStatement (k : Incarnation) (statement : Statement) : Serves i (httpStatement k statement) := by
  cases statement with
  | read => exact holds_plainly (ignoring_only (only_send trivial))
  | write => exact holds_plainly (.bind (only_send nofun) fun _ => only_send trivial)
  | schema onProperties => exact holds_runSchemaStatement onProperties
  | transaction => exact .ret fun _ => id

theorem holds_onNamespace (h : ∀ k, Serves i (f k)) : Serves i (onNamespace ns f) := by
  refine .bind holds_getOrOpen fun state => ?_
  cases state with
  | none => exact .ret fun _ => id
  | some k => exact h k

theorem holds_adminRestore : Serves i (adminRestore ns) := by
  refine .bind holds_beginRestore fun reserved => ?_
  cases reserved with
  | false => exact .ret fun _ => id
  | true =>
    refine holds_plainly (.bind (only_send trivial) fun _ => only_ite ?_ (only_pure _))
    exact .bind (only_send trivial) fun _ => only_send trivial

theorem holds_call (call : Call) : Serves i (call.program groupCommit) := by
  cases call with
  | http ns statement => exact holds_onNamespace ns fun k => holds_httpStatement k statement
  | bolt ns statement => exact holds_onNamespace ns fun k => holds_boltStatement groupCommit k statement
  | adminFlush ns overLimit => exact holds_adminFlush groupCommit ns overLimit
  | adminCompact ns overLimit => exact holds_adminCompact ns overLimit
  | restore ns => exact holds_adminRestore ns

theorem holds_job (job : Job) : Holds i (fun s => Exit i s ∧ ∀ k, job = .committer k → Committer i k s)
      (job.program groupCommit) fun _ => Exit i := by
  have hforget : ∀ {p : Serve Unit}, Serves i p →
      Holds i (fun s => Exit i s ∧ ∀ k, job = .committer k → Committer i k s) p fun _ => Exit i :=
    fun h => h.mono (fun _ hs => hs.1) fun _ _ => id
  cases job with
  | request => exact hforget (.ret fun _ => id)
  | writeSection k => exact hforget (holds_runWriteSection groupCommit)
  | restoreCopy => exact hforget (holds_plainly (ignoring_only (only_send trivial)))
  | committer k =>
    have hstart : Holds i (fun s => Exit i s ∧ Committer i k s) (Job.program groupCommit (.committer k))
        fun _ s => Exit i s ∧ Committer i k s :=
      .bind ((holds_plain (o := .rounds) trivial).frame (fun hr hc => hc.stable hr)
        fun hg hc => hc.guar hg) fun n => holds_loop holds_committerRound n
    exact hstart.mono (fun s hs => ⟨hs.1,hs.2 k rfl⟩) fun _ s hs => hs.1
  | flushLoop k =>
    exact hforget (.bind (holds_plain trivial) fun n => holds_loop (holds_flushRound groupCommit) n)
  | compactionLoop k =>
    exact hforget (.bind (holds_plain trivial) fun n => holds_loop holds_compactionRound n)
  | worker k cancellable => exact hforget (holds_runWorker cancellable)

end

section

variable {x : TaskState}

theorem exit_start (hI : Inv s) (hidle : ∀ y, s.tasks i=some y → y.started=false)
    (hlock : s'.sessionsLock=s.sessionsLock) (hx : s'.tasks i=some x) (hstarted : x.started=true)
    (hjoining : x.joining=[]) : Exit i s' := by
  refine ⟨fun hl => ?_,x,hx,hstarted,by simp [hjoining]⟩
  obtain ⟨y,hy,hs⟩ := hI.lock_started (hlock ▸ hl)
  exact absurd ((hidle y hy).symm.trans hs) nofun

variable {s : Registry}

theorem respects_call (call : Call) (hI : Inv s) : Inv (s.addTask { job := .request, started := true }) ∧
      attended.safe Inv contract Exit s.nextTask (call.program s.maintenance.groupCommit)
        (fun _ => Exit s.nextTask) (s.addTask { job := .request, started := true }) := by
  refine ⟨hI.addTask nofun nofun nofun,holds_call _ call _ ?_⟩
  refine exit_start hI (fun y hy => ?_) rfl (Function.update_self _ _ _) rfl rfl
  rw [hI.fresh_task le_rfl] at hy
  cases hy

theorem respects_job (hI : Inv s) (hx : s.tasks i=some x) (hnew : x.started=false) :
    Inv (s.setTask i { x with started := true }) ∧
      (∀ j, j≠i → Rely j s (s.setTask i { x with started := true })) ∧
      attended.safe Inv contract Exit i (x.job.program s.maintenance.groupCommit)
        (fun _ => Exit i) (s.setTask i { x with started := true }) := by
  obtain ⟨hjoining,hdone⟩ := hI.unstarted hx hnew
  have he : Edits x { x with started := true } := ⟨rfl,rfl,fun _ => rfl,fun _ => id,fun _ => rfl⟩
  have hexit : Exit i (s.setTask i { x with started := true }) :=
    exit_start hI (fun y hy => some.inj (hx.symm.trans hy) ▸ hnew) rfl setTask_self rfl hjoining
  refine ⟨hI.setTask hx he fun ns => hI.ownReservation hx,fun j hj => .setTask hx he fun h => absurd h hj,
    holds_job _ x.job _ ⟨hexit,fun k hk => ?_⟩⟩
  exact ⟨_,setTask_self,hk,hdone⟩

theorem respects : attended.Respects Inv contract Exit where
  rely_trans _ _ _ _ := .trans
  rely_refl := .refl
  compatible hne hg := hg.others _ hne
  exit_stable hr h := h.stable hr
  launch_safe {i p s s'} hl hI := by
    obtain ⟨call,hl⟩ := hl
    cases call with
    | some c =>
      simp only [launch] at hl
      split at hl
      · rename_i hi
        cases hl
        subst hi
        obtain ⟨hI',hp⟩ := respects_call c hI
        exact ⟨hI',fun _ _ => .addTask hI,hp⟩
      · cases hl
    | none =>
      simp only [launch] at hl
      split at hl
      · cases hl
      · rename_i x hx
        split at hl
        · cases hl
        · rename_i hnew
          cases hl
          exact respects_job hI hx (Bool.eq_false_iff.mpr hnew)
  drop_keeps hI he := ⟨hI.dropTask he,fun _ hj => .dropTask he hj⟩

end

section

def Registry.Live (s : Registry) (ns : String) (k : Incarnation) : Prop :=
  ∃ x, s.states k=some x ∧ x.ns=ns ∧ x.retired=false

/-- What the registry is for: the incarnations of a namespace do not overlap, neither with each
other nor with a restore. -/
structure Registry.Exclusive (s : Registry) : Prop where
  one_live : ∀ {ns k k'}, s.Live ns k → s.Live ns k' → k=k'
  opening_alone : ∀ {k j n}, s.Initialises j n → ¬s.Live (s.slots n).ns k
  operations : s.log.Pairwise Event.Follows
  unreserved : ∀ {k ns restoring}, .opening k ns restoring∈s.log → restoring=false
  restore_alone : ∀ {t y ns}, s.tasks t=some y → y.reservation=some ns →
    s.restoring ns=true ∧ (∀ k, ¬s.Live ns k) ∧ ∀ j n, s.Initialises j n → (s.slots n).ns≠ns

variable {s : Registry} {ns : String}

theorem Inv.live_slot (h : Inv s) (hk : s.Live ns k) : ∃ n, (s.slots n).cell.value=some k ∧
    (s.slots n).ns=ns ∧ (s.sessions.lookup ns=some n ∨ s.removed=some n) := by
  obtain ⟨x,hx,rfl,hlive⟩ := hk
  obtain ⟨n,hv,hn⟩ := h.state_slot hx
  obtain ⟨x',hx',hns⟩ := h.value_state hv
  obtain rfl := mem_unique hx hx'
  exact ⟨n,hv,hns.symm,hn hlive⟩

theorem Inv.not_removed (h : Inv s) (hl : s.sessions.lookup (s.slots n').ns=some n) : s.removed≠some n' := by
  intro hr
  rw [h.removed_session hr] at hl
  cases hl

theorem Inv.one_live (h : Inv s) (hk : s.Live ns k) (hk' : s.Live ns k') : k=k' := by
  obtain ⟨n,hv,hns,hn⟩ := h.live_slot hk
  obtain ⟨n',hv',hns',hn'⟩ := h.live_slot hk'
  have hnn : n=n' := by
    rcases hn with hl | hr <;> rcases hn' with hl' | hr'
    · exact some.inj (hl.symm.trans hl')
    · exact absurd hr' (h.not_removed (hns'.symm ▸ hl))
    · exact absurd hr (h.not_removed (hns.symm ▸ hl'))
    · exact some.inj (hr.symm.trans hr')
  subst hnn
  exact some.inj (hv.symm.trans hv')

theorem Inv.opening_alone (h : Inv s) (hn : s.Initialises j n) : ¬s.Live (s.slots n).ns k := by
  intro hk
  have hl := h.clone_session hn.2.1 (List.ne_nil_of_mem hn.2.2)
  obtain ⟨n',hv,hns,hn' | hr⟩ := h.live_slot hk
  · obtain rfl := mem_unique hl hn'
    exact absurd (hn.2.1.symm.trans hv) nofun
  · exact h.not_removed (hns.symm ▸ hl) hr

theorem Inv.restore_alone (h : Inv s) (hr : s.restoring ns=true) :
    (∀ k, ¬s.Live ns k) ∧ ∀ j n, s.Initialises j n → (s.slots n).ns≠ns := by
  obtain ⟨hclosed,hremoved⟩ := h.restoring_closed hr
  constructor
  · intro k hk
    obtain ⟨n,-,hns,hl | hm⟩ := h.live_slot hk
    · rw [hclosed] at hl
      cases hl
    · exact hremoved hm hns
  · rintro j n hn rfl
    have hl := h.clone_session hn.2.1 (List.ne_nil_of_mem hn.2.2)
    rw [hclosed] at hl
    cases hl

theorem Inv.exclusive_world (h : Inv s) (hlog : s.log.Pairwise Event.Follows) : s.Exclusive where
  one_live := h.one_live
  opening_alone := h.opening_alone
  operations := hlog
  unreserved hmem := (h.opening_logged hmem).2
  restore_alone ht hr := ⟨h.reserved ht hr,h.restore_alone (h.reserved ht hr)⟩

theorem log_handle (h : handle i s o c=some (r,s')) : s'.log=s.log ∨ (∃ k ns b, s'.log = .opening k ns b::s.log) ∨
    ∃ k op path x, o = .operate k op path ∧ s.states k=some x ∧ s'.log = .operation k x.ns op path::s.log := by
  unfold handle at h
  split at h <;> try simp only [map_eq_some_iff,bind_eq_some_iff] at h
  all_goals grind [cloneSlot,setSlot,setState,setTask,addSlot,addTask,Registry.publish]

theorem log_launch (h : launch s i call=some (p,s')) : s'.log=s.log := by
  unfold launch at h
  grind [setTask,addTask]

theorem log_drop : (undisturbed.drop i s).log=s.log := by
  change (s.dropTask i).log=s.log
  unfold dropTask
  split <;> rfl

/-- An unchecked path meets no later incarnation either, where it is undisturbed. -/
theorem undisturbed_follows (h : undisturbed.Reachable (Registry.new n config) cfg) :
    cfg.world.log.Pairwise Event.Follows := by
  have hinv : ∀ {cfg}, undisturbed.Reachable (Registry.new n config) cfg → Inv cfg.world := fun h =>
    (respects.sound (inv_new n config) (h.mono fun _ _ _ => trivial)).1
  induction h with
  | idle => exact .nil
  | step h hs ih =>
    have hfollows := (hinv (h.step hs)).follows
    cases hs with
    | launch i p s' hi hl =>
      obtain ⟨call,hl⟩ := hl
      rwa [log_launch hl]
    | call i o next r s' hi hs =>
      obtain ⟨hok,c,hc⟩ := hs
      rcases log_handle hc with hlog | ⟨k,ns,b,hlog⟩ | ⟨k,op,path,x,rfl,hx,hlog⟩
      · rwa [hlog]
      · rw [hlog]
        exact List.pairwise_cons.mpr ⟨fun _ _ => trivial,ih⟩
      · rw [hlog] at hfollows ⊢
        refine List.pairwise_cons.mpr ⟨fun e he => ?_,ih⟩
        rcases (List.pairwise_cons.mp hfollows).1 e he with hpath | hf
        · exact (hinv h).operation_follows hx (hok hpath x hx) op path e he
        · exact hf
    | finish i hi => rwa [log_drop]
    | cancel i o next hi hw hc => rwa [log_drop]

end

instance : DecidableRel Event.Follows := fun e e' => by
  cases e <;> cases e' <;> simp only [Event.Follows] <;> infer_instance

instance (s : Registry) (o : Request) : Decidable (Undisturbed s o) := by
  cases o with
  | operate k op path =>
    exact decidable_of_iff (path.unchecked=true → ∀ x ∈ s.states k, x.quiesced.value=none) Iff.rfl
  | _ => exact instDecidableTrue

def dispatcher : Dispatcher server Choice (Option Call) where
  exec := handle
  begins i s call := launch s i call
  exec_sound h := ⟨_,h⟩
  begins_sound h := ⟨_,h⟩

def requests (i : Task) (n : Nat) : List (Turn Task Choice (Option Call)) :=
  List.replicate n (.step i (.flag true))

/-- A client reads from a namespace that is not open, for which another one is evicted. -/
def readAfterEviction (i : Task) (ns victim : String) : List (Turn Task Choice (Option Call)) :=
  [.launch i (some (.http ns .read))]++requests i 6++[.step i (.victim (some victim))] ++
    requests i 19++[.finish i]

/-- An index is created in `acme`, which is then evicted and opened again. -/
def reopened : List (Turn Task Choice (Option Call)) :=
  [.launch 0 (some (.http "acme" (.schema true)))]++requests 0 19++[.finish 0] ++
    readAfterEviction 2 "beta" "acme" ++ readAfterEviction 3 "acme" "beta"

def single : Registry := Registry.new 1 ⟨false,false,false⟩

theorem incarnations_exclusive (maxNamespaces : Nat) (maintenance : MaintenanceConfig)
    (cfg : Running Registry Task Reply)
    (h : undisturbed.Reachable (Registry.new maxNamespaces maintenance) cfg) :
    cfg.world.Exclusive :=
  (respects.sound (inv_new maxNamespaces maintenance) (h.mono fun _ _ _ => trivial)).1.exclusive_world
    (undisturbed_follows h)

theorem incarnations_exclusive_reopened : ∃ cfg, undisturbed.Reachable single cfg ∧
    cfg.world.Exclusive ∧ cfg.world.log = [.operation 2 "acme" .commit .bolt, .opening 2 "acme" false,
      .opening 1 "beta" false, .operation 0 "acme" .commit .httpSchema, .opening 0 "acme" false] := by
  have hrun : (((dispatcher.restrict Undisturbed Waited).run
      (reopened++[.launch 4 (some (.bolt "acme" .write))]++requests 4 5)
      ⟨single,fun _ => none⟩).map (·.world.log)) =
      some [.operation 2 "acme" .commit .bolt,.opening 2 "acme" false,
        .opening 1 "beta" false,.operation 0 "acme" .commit .httpSchema,.opening 0 "acme" false] := by
    decide +kernel
  obtain ⟨cfg,hcfg,hlog⟩ := map_eq_some_iff.mp hrun
  have hr : undisturbed.Reachable single cfg := Dispatcher.run_reachable _ .idle hcfg
  exact ⟨cfg,hr,incarnations_exclusive 1 ⟨false,false,false⟩ cfg hr,hlog⟩

/-- The compaction the index asked for is installed by the first incarnation of `acme` after the
second one was opened. -/
theorem compaction_after_reopening : ∃ cfg, server.Reachable single cfg ∧ ¬cfg.world.Exclusive := by
  have hrun : ((dispatcher.run
      (reopened++[.launch 1 none,.step 1 (.number 1)]++requests 1 7)
      ⟨single,fun _ => none⟩).map fun cfg => decide (cfg.world.log.Pairwise Event.Follows)) =
      some false := by
    decide +kernel
  obtain ⟨cfg,hcfg,hlog⟩ := map_eq_some_iff.mp hrun
  exact ⟨cfg,Dispatcher.run_reachable _ .idle hcfg,fun h => of_decide_eq_false hlog h.operations⟩

/-- When a namespace has been opened again, its earlier incarnations are shut down and their committers have ended. -/
theorem superseded_shut_down (h : attended.Reachable (Registry.new n config) cfg)
    (hx : cfg.world.states k = some x) (ho : cfg.world.openings[k']? = some x.ns) (hk : k < k') :
    x.drained = true ∧ (x.retired = true ∧ x.cancelled = true) ∧
      ∀ t y, cfg.world.tasks t = some y → y.job = .committer k → y.done = true := by
  have hI := (respects.sound (inv_new n config) h).1
  have hd := hI.quiesced_drained hx (hI.superseded hx ho hk)
  exact ⟨hd,hI.drained_retired hx hd,fun _ _ => hI.drained_committer hx hd⟩

/-- The same read, during which the group committer `j` of the evicted namespace ends. -/
def readAfterCommitter (i j : Task) (ns victim : String) : List (Turn Task Choice (Option Call)) :=
  [.launch i (some (.http ns .read))]++requests i 6++[.step i (.victim (some victim))]++requests i 10 ++
    [.launch j none,.step j (.number 1),.step j (.flag false),.step j .only,.finish j]++requests i 11++[.finish i]

theorem superseded_shut_down_reopened : ∃ cfg x y, attended.Reachable (Registry.new 1 ⟨true, false, false⟩) cfg ∧
    cfg.world.states 0 = some x ∧ cfg.world.tasks 1 = some y ∧ y.job = .committer 0 ∧ x.drained = true ∧
      y.done = true := by
  have hrun : (((dispatcher.restrict (fun _ _ => True) Waited).run
      ([.launch 0 (some (.http "acme" .read))]++requests 0 13++[.finish 0]++readAfterCommitter 2 1 "beta" "acme" ++
        readAfterCommitter 4 3 "acme" "beta") ⟨Registry.new 1 ⟨true,false,false⟩,fun _ => none⟩).map fun cfg =>
      (((cfg.world.states 0).map (·.ns),cfg.world.openings[2]?),(cfg.world.tasks 1).map (·.job))) =
      some ((some "acme",some "acme"),some (.committer 0)) := by decide +kernel
  obtain ⟨cfg,hcfg,hw⟩ := map_eq_some_iff.mp hrun
  obtain ⟨hopen,hjob⟩ := Prod.mk.inj hw
  obtain ⟨hns,ho⟩ := Prod.mk.inj hopen
  obtain ⟨x,hx,hns⟩ := map_eq_some_iff.mp hns
  obtain ⟨y,hy,hjob⟩ := map_eq_some_iff.mp hjob
  have hr : attended.Reachable (Registry.new 1 ⟨true,false,false⟩) cfg := Dispatcher.run_reachable _ .idle hcfg
  obtain ⟨hd,-,hended⟩ := superseded_shut_down hr hx (hns ▸ ho) (by decide)
  exact ⟨cfg,x,y,hr,hx,hy,hjob,hd,hended 1 y hy hjob⟩

end NamiDB.Server
