import NamiDB.Server.Lifecycle

/-! The writer's critical sections. A path that looks at the incarnation after it took the mutex
holds it on an incarnation no drain is through with, and so do the committer, which a drain waits
for. Nothing is known of the other paths. -/
namespace NamiDB.Server
open Lib Registry Option

/-- An unchecked path does not begin an operation on an incarnation whose drain is complete. -/
def Undisturbed (s : Registry) : Request → Prop
  | .operate k _ path => path.unchecked=true → ∀ x, s.states k=some x → x.quiesced.value=none
  | _ => True

def Waited (i : Task) (s : Registry) : Prop :=
  ∀ x, s.tasks i=some x → ∀ t ∈ x.joining, s.isDone t=true

/-- The server when no task is cancelled while it waits for the maintenance tasks of a namespace it drains. -/
def attended : Runtime Registry Task Reply := server.restrict (fun _ _ => True) Waited

/-- And when the unchecked paths are undisturbed. -/
def undisturbed : Runtime Registry Task Reply := server.restrict Undisturbed Waited

variable {i : Task} {k : Incarnation} {path : Path} {α : Type}

abbrev Holds (i : Task) (P : Registry → Prop) (p : Serve α) (Q : α → Registry → Prop) : Prop :=
  attended.Triple Inv contract Exit i P p Q

/-- A task that can be left before `p` can be left after it. -/
abbrev Serves (i : Task) (p : Serve α) : Prop := Holds i (Exit i) p fun _ => Exit i

def Started (i : Task) (s : Registry) : Prop := ∃ x, s.tasks i=some x ∧ x.started=true

theorem Exit.started (h : Exit i s) : Started i s := by
  obtain ⟨-,x,hx,hs,-⟩ := h
  exact ⟨x,hx,hs⟩

section
variable {P : Registry → Prop} {Q : Reply o → Registry → Prop}

theorem Holds.send (hP : ∀ {s s'}, Rely i s s' → Inv s' → P s → P s')
    (hwait : o.waits=true → ∀ {s}, P s → s.sessionsLock≠some i ∧ Started i s)
    (h : ∀ {s c r s'}, Inv s → P s → handle i s o c=some (r,s') → Inv s' ∧ Guar i s s' ∧ Q r s') :
    Holds i P (Server.send o) Q := by
  refine .request hP (fun hw {s} _ hs hc => ?_) fun {s r s'} hI hs hsem => ?_
  · obtain ⟨hl,x,hx,hstarted⟩ := hwait hw hs
    exact ⟨hl,x,hx,hstarted,hc.2 x hx⟩
  · obtain ⟨-,c,hc⟩ := hsem
    exact h hI hs hc

theorem Holds.read (hP : ∀ {s s'}, Rely i s s' → Inv s' → P s → P s')
    (hwait : o.waits=true → ∀ {s}, P s → s.sessionsLock≠some i ∧ Started i s)
    (hread : ∀ {s c r s'}, handle i s o c=some (r,s') → s'=s)
    (h : ∀ {s c r}, Inv s → P s → handle i s o c=some (r,s) → Q r s) : Holds i P (Server.send o) Q :=
  .send hP hwait fun hI hs hc => by
    obtain rfl := hread hc
    exact ⟨hI,.refl i _,h hI hs hc⟩

end

def Owns (i : Task) (k : Incarnation) (s : Registry) : Prop :=
  ∃ x, s.states k=some x ∧ x.writer=some i

/-- It holds the mutex, and no drain got hold of it before. -/
def Fresh (i : Task) (k : Incarnation) (s : Registry) : Prop :=
  ∃ x, s.states k=some x ∧ x.writer=some i ∧ x.drained=false

def Committer (i : Task) (k : Incarnation) (s : Registry) : Prop :=
  ∃ x, s.tasks i=some x ∧ x.job = .committer k ∧ x.done=false

section
variable {s s' : Registry} (hr : Rely i s s')
include hr

theorem Owns.stable (h : Owns i k s) : Owns i k s' := by
  obtain ⟨x,hx,hw⟩ := h
  obtain ⟨x',hx',hrel⟩ := hr.states hx
  exact ⟨x',hx',(hrel.writer hw).1⟩

theorem Fresh.stable (h : Fresh i k s) : Fresh i k s' := by
  obtain ⟨x,hx,hw,hd⟩ := h
  obtain ⟨x',hx',hrel⟩ := hr.states hx
  obtain ⟨hw',hd'⟩ := hrel.writer hw
  exact ⟨x',hx',hw',hd'.trans hd⟩

theorem Committer.stable (h : Committer i k s) : Committer i k s' := by
  obtain ⟨x,hx,hj,hd⟩ := h
  obtain ⟨x',hx',hj',hd',-⟩ := hr.own hx
  exact ⟨x',hx',hj'.trans hj,hd'.trans hd⟩

end

theorem Committer.guar (hg : Guar i s s') (h : Committer i k s) : Committer i k s' := by
  obtain ⟨x,hx,hj,hd⟩ := h
  obtain ⟨x',hx',hj',hd',-⟩ := hg.own hx
  exact ⟨x',hx',hj'.trans hj,hd'.trans hd⟩

/-- What a task knows inside a critical section of incarnation `k` on the given path: enough to
begin operations there. -/
structure Section (i : Task) (k : Incarnation) (path : Path) (A : Registry → Prop) : Prop where
  stable : ∀ {s s'}, Rely i s s' → Inv s' → A s → A s'
  exit : ∀ {s}, A s → Exit i s
  log : ∀ {s l}, A s → A { s with log := l }
  live : ∀ {s x}, Inv s → A s → s.states k=some x → path.unchecked=true ∨ x.quiesced.value=none

theorem section_fresh : Section i k path fun s => Exit i s ∧ Fresh i k s where
  stable hr _ h := ⟨h.1.stable hr,h.2.stable hr⟩
  exit h := h.1
  log h := h
  live {s x} hI h hx := by
    obtain ⟨-,y,hy,-,hd⟩ := h
    obtain rfl := mem_unique hx hy
    right
    cases hq : x.quiesced.value with
    | none => rfl
    | some u => simp [hI.quiesced_drained hx hq] at hd

theorem section_unchecked (hpath : path.unchecked=true) : Section i k path fun s => Exit i s ∧ Owns i k s where
  stable hr _ h := ⟨h.1.stable hr,h.2.stable hr⟩
  exit h := h.1
  log h := h
  live _ _ _ := .inl hpath

theorem section_committer : Section i k path fun s => (Exit i s ∧ Owns i k s) ∧ Committer i k s where
  stable hr _ h := ⟨⟨h.1.1.stable hr,h.1.2.stable hr⟩,h.2.stable hr⟩
  exit h := h.1.1
  log h := h
  live {s x} hI h hx := by
    obtain ⟨-,y,hy,hj,hd⟩ := h
    right
    cases hq : x.quiesced.value with
    | none => rfl
    | some u => simp [hI.drained_committer hx (hI.quiesced_drained hx hq) hy hj] at hd

def InSection (k : Incarnation) (path : Path) : Request → Prop
  | .operate k' _ path' => k'=k ∧ path'=path
  | .choose | .isRetired _ | .isCancelled _ => True
  | _ => False

theorem Section.holds (h : Section i k path A) (hp : p.Only (InSection k path)) : Holds i A p fun _ => A := by
  refine Runtime.Triple.only (K := InSection k path) (fun o ho => ?_) hp
  have hwait : o.waits=true → ∀ {s}, A s → s.sessionsLock≠some i ∧ Started i s :=
    fun _ _ hs => ⟨(h.exit hs).1,(h.exit hs).started⟩
  cases o with
  | operate k' op path' =>
    obtain ⟨rfl,rfl⟩ := ho
    refine Holds.send h.stable hwait fun {s c r s'} hI hs hc => ?_
    obtain ⟨x,hx,⟨⟩⟩ := map_eq_some_iff.mp hc
    exact ⟨hI.operate hx (h.live hI hs hx) op,.log,h.log hs⟩
  | choose =>
    refine Holds.read h.stable hwait (fun {s c r s'} hc => ?_) fun _ hs _ => hs
    cases c <;> cases hc
    rfl
  | isRetired _ | isCancelled _ =>
    refine Holds.read h.stable hwait (fun {s c r s'} hc => ?_) fun _ hs _ => hs
    obtain ⟨x,-,⟨⟩⟩ := map_eq_some_iff.mp hc
    rfl
  | _ => exact ho.elim

section

theorem only_send (h : K o) : (Server.send o).Only K := ⟨h,fun _ => trivial⟩

theorem only_pure (a : α) : (pure a : Serve α).Only K := trivial

theorem only_ite [Decidable c] {p q : Serve α} (hp : p.Only K) (hq : q.Only K) : (if c then p else q).Only K := by
  split <;> assumption

theorem reopenAttempts_only (n : Nat) : (reopenAttempts k path n).Only (InSection k path) := by
  induction n with
  | zero => trivial
  | succ n ih =>
    refine .bind (only_send ⟨rfl,rfl⟩) fun _ => .bind (only_send trivial) fun _ => ?_
    exact only_ite (only_pure _) ih

theorem recoverWriterIfNeeded_only : (recoverWriterIfNeeded k path).Only (InSection k path) :=
  .bind (only_send trivial) fun _ => only_ite (reopenAttempts_only 3) (only_pure _)

theorem recoverUnlessRetired_only : (recoverUnlessRetired k path).Only (InSection k path) :=
  .bind (only_send trivial) fun _ => only_ite (only_pure _) recoverWriterIfNeeded_only

theorem commitGroupLocked_only : (commitGroupLocked k path).Only (InSection k path) := by
  refine .bind (only_send trivial) fun _ => only_ite ?_ (only_pure _)
  refine .bind (only_send ⟨rfl,rfl⟩) fun _ => .bind (only_send trivial) fun _ => ?_
  exact only_ite (only_pure _) (.bind recoverWriterIfNeeded_only fun _ => only_pure _)

theorem flushLocked_only : (flushLocked k path).Only (InSection k path) := by
  refine .bind (only_send ⟨rfl,rfl⟩) fun _ => .bind (only_send trivial) fun _ => ?_
  exact only_ite (only_send trivial) (.bind recoverUnlessRetired_only fun _ => only_pure _)

variable (groupCommit : Bool) {recover : Serve Unit}

theorem commitThenFlush_only : (commitThenFlush k path groupCommit).Only (InSection k path) :=
  only_ite (.bind commitGroupLocked_only fun _ => only_ite flushLocked_only (only_pure _))
    flushLocked_only

theorem commitOr_only (h : recover.Only (InSection k path)) :
    (do
      Server.send (.operate k .commit path)
      if ← Server.send .choose then pure () else recover).Only (InSection k path) :=
  .bind (only_send ⟨rfl,rfl⟩) fun _ => .bind (only_send trivial) fun _ =>
    only_ite (only_pure _) h

theorem writeLocked_only : (writeLocked groupCommit k).Only (InSection k .httpWrite) :=
  .bind (only_send trivial) fun _ => only_ite
    (only_ite (only_pure _) (commitOr_only recoverUnlessRetired_only)) recoverUnlessRetired_only

theorem schemaLocked_only (h : recover.Only (InSection k path)) :
    (schemaLocked k path recover).Only (InSection k path) :=
  .bind (only_send ⟨rfl,rfl⟩) fun _ => .bind (only_send trivial) fun _ =>
    only_ite (only_pure _) (.bind h fun _ => only_pure _)

theorem boltWriteLocked_only : (boltWriteLocked groupCommit k).Only (InSection k .bolt) :=
  .bind (only_send trivial) fun _ => only_ite
    (only_ite (only_pure _) (commitOr_only recoverWriterIfNeeded_only))
    (.bind (only_send trivial) fun _ => only_ite (only_pure _) recoverWriterIfNeeded_only)

variable (cancellable : Bool)

theorem isCancelled_only : (isCancelled k cancellable).Only (InSection k path) :=
  only_ite (only_send trivial) (only_pure _)

theorem recoverUnlessCancelled_only : (recoverUnlessCancelled k path cancellable).Only (InSection k path) :=
  .bind (isCancelled_only cancellable) fun _ => only_ite (only_pure _) recoverWriterIfNeeded_only

theorem installLocked_only : (installLocked k path cancellable).Only (InSection k path) := by
  refine .bind (only_send ⟨rfl,rfl⟩) fun _ => .bind (only_send trivial) fun _ => only_ite ?_ ?_
  · exact .bind (only_send trivial) fun _ => only_ite (only_pure _) (only_pure _)
  · exact .bind (recoverUnlessCancelled_only cancellable) fun _ =>
      .bind (only_send trivial) fun _ => only_ite (only_pure _) (only_pure _)

theorem boltEnd_only : (boltEnd k).Only (InSection k .bolt) :=
  .bind (only_send trivial) fun _ =>
    only_ite (commitOr_only recoverWriterIfNeeded_only) (only_pure _)

theorem boltTransactionLocked_only : (boltTransactionLocked groupCommit k).Only (InSection k .bolt) :=
  only_ite (.bind commitGroupLocked_only fun _ => only_ite boltEnd_only (only_pure _)) boltEnd_only

end

section

variable {s : Registry} {x : NamespaceState}

theorem exit_setState (h : Exit i s) : Exit i (s.setState k x) := h

theorem moves_writer (hI : Inv s) (hx : s.states k=some x) (w : Option Task) : Moves s k x { x with writer := w } :=
  hI.moves hx rfl rfl id rfl rfl (hI.tracked hx)

theorem rely_writer (h : x.writer=some j → w=some j) : x.Rely j { x with writer := w } :=
  { NamespaceState.Rely.refl j x with writer := fun hw => ⟨h hw,rfl⟩ }

theorem lock_step (hI : Inv s) (he : Exit i s) (hx : s.states k=some x) (hfree : x.writer.isSome=false) :
    Inv (s.setState k { x with writer := some i }) ∧
      Guar i s (s.setState k { x with writer := some i }) ∧
      Exit i (s.setState k { x with writer := some i }) ∧
      Owns i k (s.setState k { x with writer := some i }) := by
  refine ⟨hI.setState hx (moves_writer hI hx _),.setState hx fun j _ => rely_writer fun hw => ?_,
    exit_setState he,_,setState_self,rfl⟩
  simp [hw] at hfree

theorem holds_lockWriter : Holds i (Exit i) (send (.lockWriter k)) fun _ s => Exit i s ∧ Owns i k s := by
  refine .send (fun hr _ h => h.stable hr) (fun _ _ h => ⟨h.1,h.started⟩)
    fun {s c r s'} hI he hc => ?_
  obtain ⟨x,hx,hc⟩ := bind_eq_some_iff.mp hc
  split at hc
  · cases hc
  · rename_i hfree
    cases hc
    exact lock_step hI he hx (Bool.not_eq_true _ ▸ hfree)

theorem holds_lockWriterBounded : Holds i (Exit i) (send (.lockWriterBounded k)) fun r s =>
    Exit i s ∧ (r=true → Owns i k s) := by
  refine .send (fun hr _ h => h.stable hr) (fun _ _ h => ⟨h.1,h.started⟩)
    fun {s c r s'} hI he hc => ?_
  have hlock : ∀ {r s'}, ((s.states k).bind fun x => if x.writer.isSome then none
      else some (true,s.setState k { x with writer := some i }))=some (r,s') →
      Inv s' ∧ Guar i s s' ∧ Exit i s' ∧ (r=true → Owns i k s') := by
    intro r s' hc
    obtain ⟨x,hx,hc⟩ := bind_eq_some_iff.mp hc
    split at hc
    · cases hc
    · rename_i hfree
      cases hc
      obtain ⟨h1,h2,h3,h4⟩ := lock_step hI he hx (Bool.not_eq_true _ ▸ hfree)
      exact ⟨h1,h2,h3,fun _ => h4⟩
  cases c with
  | flag b =>
    cases b with
    | true => exact hlock hc
    | false =>
      obtain ⟨x,-,⟨⟩⟩ := map_eq_some_iff.mp hc
      exact ⟨hI,.refl i s,he,nofun⟩
  | only | number n | victim v => exact hlock hc

theorem holds_unlockWriter : Holds i (fun s => Exit i s ∧ Owns i k s) (send (.unlockWriter k)) fun _ => Exit i := by
  refine .send (fun hr _ h => ⟨h.1.stable hr,h.2.stable hr⟩)
    (fun _ _ h => ⟨h.1.1,h.1.started⟩) fun {s c r s'} hI h hc => ?_
  obtain ⟨he,y,hy,hw⟩ := h
  obtain ⟨x,hx,⟨⟩⟩ := map_eq_some_iff.mp hc
  obtain rfl := mem_unique hx hy
  refine ⟨hI.setState hx (moves_writer hI hx _),.setState hx fun j hj => rely_writer fun hw' => ?_,exit_setState he⟩
  exact absurd (some.inj (hw.symm.trans hw')) hj.symm

theorem Fresh.owns (h : Fresh i k s) : Owns i k s := by
  obtain ⟨x,hx,hw,-⟩ := h
  exact ⟨x,hx,hw⟩

theorem Owns.fresh (h : Owns i k s) (hd : ∀ x, s.states k=some x → x.drained≠true) : Fresh i k s := by
  obtain ⟨x,hx,hw⟩ := h
  exact ⟨x,hx,hw,Bool.eq_false_iff.mpr (hd x hx)⟩

/-- A drain marks the incarnation as retired before it gets hold of the mutex. -/
theorem holds_isRetired : Holds i (fun s => Exit i s ∧ Owns i k s) (send (.isRetired k))
    fun r s => (Exit i s ∧ Owns i k s) ∧ (r=false → Fresh i k s) := by
  refine .read (fun hr _ h => ⟨h.1.stable hr,h.2.stable hr⟩)
    (fun _ _ h => ⟨h.1.1,h.1.started⟩) (fun {s c r s'} hc => ?_) fun {s c r} hI h hc => ?_
  · obtain ⟨x,-,⟨⟩⟩ := map_eq_some_iff.mp hc
    rfl
  · obtain ⟨x,hx,⟨⟩⟩ := map_eq_some_iff.mp hc
    refine ⟨h,fun hr => h.2.fresh fun y hy hd => ?_⟩
    obtain rfl := mem_unique hx hy
    simp [(hI.drained_retired hx hd).1] at hr

/-- And it cancels the incarnation's workers before; a path that cannot be cancelled learns
nothing. -/
theorem holds_isCancelled (cancellable : Bool) :
    Holds i (fun s => Exit i s ∧ Owns i k s) (isCancelled k cancellable) fun r s =>
      (Exit i s ∧ Owns i k s) ∧ (r=false → cancellable=true → Fresh i k s) := by
  cases cancellable with
  | false => exact fun s h => ⟨h,nofun⟩
  | true =>
    refine .read (fun hr _ h => ⟨h.1.stable hr,h.2.stable hr⟩)
      (fun _ _ h => ⟨h.1.1,h.1.started⟩) (fun {s c r s'} hc => ?_) fun {s c r} hI h hc => ?_
    · obtain ⟨x,-,⟨⟩⟩ := map_eq_some_iff.mp hc
      rfl
    · obtain ⟨x,hx,⟨⟩⟩ := map_eq_some_iff.mp hc
      refine ⟨h,fun hr _ => h.2.fresh fun y hy hd => ?_⟩
      obtain rfl := mem_unique hx hy
      simp [(hI.drained_retired hx hd).2] at hr

theorem holds_unlessRetired (hbody : body.Only (InSection k path)) :
    Holds i (fun s => Exit i s ∧ Owns i k s) (unlessRetired k body) fun _ => Exit i := by
  refine .bind holds_isRetired fun retired => ?_
  cases retired with
  | true => exact holds_unlockWriter.mono (fun s h => h.1) fun _ _ => id
  | false =>
    refine .bind ((section_fresh.holds hbody).mono (fun s h => ⟨h.1.1,h.2 rfl⟩) fun _ _ => id) ?_
    exact fun _ => holds_unlockWriter.mono (fun s h => ⟨h.1,h.2.owns⟩) fun _ _ => id

def Path.Guarded (path : Path) (cancellable : Bool) : Prop :=
  cancellable=true ∨ path.unchecked=true

theorem holds_installPrepared (hpath : path.Guarded cancellable) :
    Serves i (installPrepared k path cancellable) := by
  refine .bind holds_lockWriter fun _ => .bind (holds_isCancelled cancellable) fun cancelled => ?_
  cases cancelled with
  | true =>
    refine .bind (holds_unlockWriter.mono (fun s h => h.1) fun _ _ => id) fun _ => ?_
    exact .ret fun _ => id
  | false =>
    refine .bind (Q := fun _ s => Exit i s ∧ Owns i k s) ?_ fun pass =>
      .bind holds_unlockWriter fun _ => .ret fun _ => id
    obtain hc | hu := hpath
    · exact (section_fresh.holds (installLocked_only cancellable)).mono
        (fun s h => ⟨h.1.1,h.2 rfl hc⟩) fun _ s h => ⟨h.1,h.2.owns⟩
    · exact ((section_unchecked hu).holds (installLocked_only cancellable)).mono
        (fun s h => h.1) fun _ _ => id

end

section

/-- The requests outside the critical sections that need nothing of the task and leave it owning
nothing. -/
def Request.Plain : Request → Prop
  | .peek _ | .isRetired _ | .isCancelled _ | .join _ | .abort _ | .admitTrigger _ | .nextTriggerOrStop _
  | .track _ _ | .spawnCopy | .choose | .rounds => True
  | .spawn job => ∀ k, job ≠ .committer k
  | _ => False

theorem Exit.of (h : Exit i s) (hl : s'.sessionsLock=s.sessionsLock)
    (ht : ∀ {x}, s.tasks i=some x → ∃ x', s'.tasks i=some x' ∧ (x.started=true → x'.started=true) ∧
      x'.joining=x.joining)
    (hd : ∀ {t}, s.isDone t=true → s'.isDone t=true) : Exit i s' := by
  obtain ⟨hlock,x,hx,hs,hj⟩ := h
  obtain ⟨x',hx',hs',hj'⟩ := ht hx
  exact ⟨hl ▸ hlock,x',hx',hs' hs,fun t hm => hd (hj t (hj' ▸ hm))⟩

variable {s : Registry}

theorem exit_setTask (h : Exit i s) (ht : s.tasks t=some y) (he : Edits y y') (hj : y'.joining=y.joining) :
    Exit i (s.setTask t y') := by
  refine h.of rfl (fun {x} hx => ?_) (isDone_setTask ht he)
  by_cases hit : i=t
  · subst hit
    obtain rfl := mem_unique ht hx
    exact ⟨y',setTask_self,he.started,hj⟩
  · exact ⟨x,(setTask_ne hit).trans hx,id,rfl⟩

theorem exit_addTask (hI : Inv s) (h : Exit i s) : Exit i (s.addTask y) :=
  h.of rfl (fun hx => ⟨_,addTask_old hI hx,id,rfl⟩) (Rely.addTask (j := i) hI).done

theorem plain_setState (hI : Inv s) (he : Exit i s) (hx : s.states k=some x) (hm : Moves s k x x')
    (hr : ∀ j, j≠i → x.Rely j x') : Inv (s.setState k x') ∧ Guar i s (s.setState k x') ∧ Exit i (s.setState k x') :=
  ⟨hI.setState hx hm,.setState hx hr,exit_setState he⟩

theorem holds_plain (ho : o.Plain) : Serves i (send o) := by
  have hstable : ∀ {s s'}, Rely i s s' → Inv s' → Exit i s → Exit i s' := fun hr _ h => h.stable hr
  have hwait : o.waits=true → ∀ {s}, Exit i s → s.sessionsLock≠some i ∧ Started i s :=
    fun _ _ h => ⟨h.1,h.started⟩
  refine .send hstable hwait fun {s c r s'} hI he hc => ?_
  have hsame : s'=s → Inv s' ∧ Guar i s s' ∧ Exit i s' := by
    rintro rfl
    exact ⟨hI,.refl i _,he⟩
  cases o with
  | peek ns =>
    simp only [handle] at hc
    split at hc
    · cases hc
    · cases hc
      exact hsame rfl
  | isRetired _ | isCancelled _ =>
    obtain ⟨x,-,⟨⟩⟩ := map_eq_some_iff.mp hc
    exact hsame rfl
  | join t =>
    simp only [handle] at hc
    split at hc
    · cases hc
      exact hsame rfl
    · cases hc
  | abort t =>
    obtain ⟨x,hx,⟨⟩⟩ := map_eq_some_iff.mp hc
    have hedit : Edits x { x with aborted := true } := ⟨rfl,rfl,id,fun _ => id,fun _ => rfl⟩
    exact ⟨hI.setTask hx hedit fun ns hr => hI.ownReservation hx hr,.setTask hx hedit fun _ => rfl,
      exit_setTask he hx hedit rfl⟩
  | admitTrigger k =>
    obtain ⟨x,hx,heq⟩ := map_eq_some_iff.mp hc
    split at heq
    · cases heq
      exact plain_setState hI he hx (hI.moves hx rfl rfl id rfl rfl (hI.tracked hx))
        fun j _ => { NamespaceState.Rely.refl j x with }
    · split at heq
      · cases heq
        exact plain_setState hI he hx (hI.moves hx rfl rfl id rfl rfl (hI.tracked hx))
          fun j _ => { NamespaceState.Rely.refl j x with }
      · cases heq
        exact hsame rfl
  | nextTriggerOrStop k =>
    obtain ⟨x,hx,hc⟩ := bind_eq_some_iff.mp hc
    obtain ⟨me,hme,heq⟩ := map_eq_some_iff.mp hc
    split at heq
    · cases heq
      exact plain_setState hI he hx (hI.moves hx rfl rfl id rfl rfl (hI.tracked hx))
        fun j _ => { NamespaceState.Rely.refl j x with }
    · cases heq
      have hm : Moves s k x { x with workerActive := false } :=
        hI.moves hx rfl rfl id rfl rfl (hI.tracked hx)
      obtain ⟨hI1,hg1,he1⟩ := plain_setState hI he hx hm
        fun j _ => { NamespaceState.Rely.refl j x with }
      have hedit : Edits me { me with lease := none } := ⟨rfl,rfl,id,fun _ => id,fun _ => rfl⟩
      have hme1 : (s.setState k { x with workerActive := false }).tasks i=some me := hme
      refine ⟨hI1.setTask hme1 hedit fun ns hr => hI1.ownReservation hme1 hr,?_,exit_setTask he1 hme1 hedit rfl⟩
      have hg2 := Guar.setTask (i := i) hme1 hedit fun _ => rfl
      refine ⟨fun j hj => (hg1.others j hj).trans (hg2.others j hj),fun hx => ?_⟩
      exact hg2.own hx
  | track k t =>
    obtain ⟨x,hx,heq⟩ := map_eq_some_iff.mp hc
    split at heq
    · cases heq
      exact hsame rfl
    · rename_i hcan
      cases heq
      refine plain_setState hI he hx (hI.moves hx rfl rfl id rfl rfl fun {t' y} ht hj hd => ?_)
        fun j _ => { NamespaceState.Rely.refl j x with untracked := fun h => absurd h hcan }
      refine (hI.tracked hx ht hj hd).imp_left fun hmem => ?_
      simp [hmem,isDone,ht,hd]
  | spawn job =>
    cases hc
    exact ⟨hI.addTask ho (fun _ hr => by cases hr) fun _ => ⟨rfl,rfl⟩,.addTask hI,exit_addTask hI he⟩
  | spawnCopy =>
    obtain ⟨me,hme,⟨⟩⟩ := map_eq_some_iff.mp hc
    refine ⟨hI.spawnCopy hme,.spawnCopy hI hme,?_⟩
    have hedit : Edits me { me with reservation := none } :=
      ⟨rfl,rfl,id,fun _ => id,fun _ => rfl⟩
    exact exit_addTask (hI.setTask hme hedit fun _ hr => by cases hr) (exit_setTask he hme hedit rfl)
  | choose | rounds =>
    cases c <;> cases hc
    exact hsame rfl
  | _ => exact ho.elim

theorem holds_plainly (hp : p.Only Request.Plain) : Serves i p :=
  Runtime.Triple.only (fun _ ho => holds_plain ho) hp

end
end NamiDB.Server
