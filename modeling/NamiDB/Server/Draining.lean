import NamiDB.Server.Sections

/-! The drain of an evicted namespace. When it returns the committer has ended, and whoever held the
writer mutex when the incarnation was retired has given it back. -/
namespace NamiDB.Server
open Lib Registry Option

variable {i : Task} {k : Incarnation} {ns : String} {s s' : Registry}

def Retired (k : Incarnation) (s : Registry) : Prop :=
  ∃ x, s.states k=some x ∧ x.retired=true

def Quiesced (k : Incarnation) (s : Registry) : Prop :=
  ∃ x, s.states k=some x ∧ x.quiesced.value=some ()

def Joined (i : Task) (s : Registry) : Prop :=
  ∃ x, s.tasks i=some x ∧ x.started=true ∧ ∀ t ∈ x.joining, s.isDone t=true

theorem Retired.stable (hr : Rely i s s') (h : Retired k s) : Retired k s' := by
  obtain ⟨x,hx,h⟩ := h
  obtain ⟨x',hx',hrel⟩ := hr.states hx
  exact ⟨x',hx',hrel.retired h⟩

theorem Quiesced.stable (hr : Rely i s s') (h : Quiesced k s) : Quiesced k s' := by
  obtain ⟨x,hx,h⟩ := h
  obtain ⟨x',hx',hrel⟩ := hr.states hx
  exact ⟨x',hx',hrel.quiesced h⟩

theorem Joined.stable (hr : Rely i s s') (h : Joined i s) : Joined i s' := by
  obtain ⟨x,hx,hs,hj⟩ := h
  obtain ⟨x',hx',-,-,hs',hj'⟩ := hr.own hx
  exact ⟨x',hx',hs' hs,fun t ht => hr.done (hj t (hj' ▸ ht))⟩

section

structure Calm (s s' : Registry) : Prop where
  slots : s'.slots=s.slots
  states : ∀ {k x}, s.states k=some x → ∃ x', s'.states k=some x' ∧ x'.ns=x.ns ∧
    (x.retired=true → x'.retired=true) ∧
    (x.quiesced.value=some () → x'.quiesced.value=some ())
  old : ∀ {k x'}, s'.states k=some x' → ∃ x, s.states k=some x

structure Frame (i : Task) (P : Registry → Prop) : Prop where
  rely : ∀ {s s'}, Rely i s s' → Inv s' → P s → P s'
  calm : ∀ {s s'}, Calm s s' → Inv s' → P s → P s'

theorem Calm.setState {x x' : NamespaceState} (hx : s.states k=some x) (hns : x'.ns=x.ns)
    (hr : x.retired=true → x'.retired=true) (hq : x.quiesced.value=some () → x'.quiesced.value=some ()) :
    Calm s (s.setState k x') where
  slots := rfl
  states {k' y} hy := by
    by_cases hk : k'=k
    · subst hk
      obtain rfl := mem_unique hx hy
      exact ⟨x',setState_self,hns,hr,hq⟩
    · exact ⟨y,(setState_ne hk).trans hy,rfl,id,id⟩
  old hy := by
    obtain ⟨rfl,-⟩ | ⟨-,hy⟩ := setState_eq_some hy
    · exact ⟨x,hx⟩
    · exact ⟨_,hy⟩

theorem Calm.setTask : Calm s (s.setTask t y) :=
  ⟨rfl,fun hx => ⟨_,hx,rfl,id,id⟩,fun hx => ⟨_,hx⟩⟩

def Quiescing (i : Task) (k : Incarnation) (s : Registry) : Prop :=
  ∃ x, s.states k=some x ∧ x.quiesced.permit=some i ∧ x.quiesced.value=none ∧
    x.retired=true

def Emptied (i : Task) (k : Incarnation) (s : Registry) : Prop :=
  ∃ x, s.states k=some x ∧ x.quiesced.permit=some i ∧ x.quiesced.value=none ∧
    x.retired=true ∧ x.cancelled=true ∧ x.maintenanceTasks=[]

def Drained (i : Task) (k : Incarnation) (s : Registry) : Prop :=
  ∃ x, s.states k=some x ∧ x.quiesced.permit=some i ∧ x.quiesced.value=none ∧ x.drained=true

theorem Quiescing.stable (hr : Rely i s s') (h : Quiescing i k s) : Quiescing i k s' := by
  obtain ⟨x,hx,hp,hv,hret⟩ := h
  obtain ⟨x',hx',hrel⟩ := hr.states hx
  obtain ⟨hp',hv'⟩ := hrel.permit hp
  exact ⟨x',hx',hp',hv'.trans hv,hrel.retired hret⟩

theorem Emptied.stable (hr : Rely i s s') (h : Emptied i k s) : Emptied i k s' := by
  obtain ⟨x,hx,hp,hv,hret,hc,hm⟩ := h
  obtain ⟨x',hx',hrel⟩ := hr.states hx
  obtain ⟨hp',hv'⟩ := hrel.permit hp
  exact ⟨x',hx',hp',hv'.trans hv,hrel.retired hret,hrel.cancelled hc,hrel.untracked hc hm⟩

theorem Drained.stable (hr : Rely i s s') (h : Drained i k s) : Drained i k s' := by
  obtain ⟨x,hx,hp,hv,hd⟩ := h
  obtain ⟨x',hx',hrel⟩ := hr.states hx
  obtain ⟨hp',hv'⟩ := hrel.permit hp
  exact ⟨x',hx',hp',hv'.trans hv,hrel.drained hd⟩

/-- The handles that were taken and may not have ended are among `pending`. -/
def Waiting (i : Task) (pending : List Task) (s : Registry) : Prop :=
  s.sessionsLock≠some i ∧ ∃ x, s.tasks i=some x ∧ x.started=true ∧
    ∀ t ∈ x.joining, t∈pending ∨ s.isDone t=true

variable {pending : List Task}

theorem Waiting.stable (hr : Rely i s s') (h : Waiting i pending s) : Waiting i pending s' := by
  obtain ⟨hl,x,hx,hs,hj⟩ := h
  obtain ⟨x',hx',-,-,hs',hj'⟩ := hr.own hx
  exact ⟨hr.unlocked hl,x',hx',hs' hs,fun t ht => (hj t (hj' ▸ ht)).imp_right hr.done⟩

theorem Waiting.started (h : Waiting i pending s) : Started i s := by
  obtain ⟨-,x,hx,hs,-⟩ := h
  exact ⟨x,hx,hs⟩

variable {P : Registry → Prop} (hP : Frame i P)
include hP

theorem Frame.stable {X Y : Registry → Prop} (hX : ∀ {s s'}, Rely i s s' → X s → X s')
    (hY : ∀ {s s'}, Rely i s s' → Y s → Y s') (hr : Rely i s s') (hI : Inv s') (h : (X s ∧ P s) ∧ Y s) :
    (X s' ∧ P s') ∧ Y s' :=
  ⟨⟨hX hr h.1.1,hP.rely hr hI h.1.2⟩,hY hr h.2⟩

theorem holds_enterQuiesce : Holds i (fun s => (Exit i s ∧ P s) ∧ Retired k s)
    (send (.enterQuiesce k)) fun r s => (Exit i s ∧ P s) ∧ (r=true → Quiesced k s) ∧ (r=false → Quiescing i k s) := by
  refine .send (hP.stable Exit.stable Retired.stable)
    (fun _ _ h => ⟨h.1.1.1,h.1.1.started⟩) fun {s c r s'} hI h hc => ?_
  obtain ⟨⟨he,hp⟩,y,hy,hret⟩ := h
  obtain ⟨x,hx,hc⟩ := bind_eq_some_iff.mp hc
  obtain rfl := mem_unique hx hy
  split at hc
  · rename_i hv
    cases hc
    exact ⟨hI,.refl i _,⟨he,hp⟩,fun _ => ⟨x,hx,hv⟩,nofun⟩
  · cases hc
  · rename_i hv hperm
    cases hc
    have hm : Moves s k x { x with quiesced := { permit := some i } } :=
      hI.moves hx rfl rfl id rfl hv.symm fun ht hj hd => by
        obtain hm | ⟨j,z,hpj,-⟩ := hI.tracked hx ht hj hd
        · exact .inl hm
        · simp [hperm] at hpj
    refine ⟨hI.setState hx hm,.setState hx fun j hj => ?_,⟨exit_setState he,?_⟩,nofun,fun _ => ?_⟩
    · exact { NamespaceState.Rely.refl j x with
        quiesced := fun h => by simp [hv] at h
        permit := fun h => by simp [hperm] at h }
    · refine hP.calm (.setState hx rfl id fun h => ?_) (hI.setState hx hm) hp
      simp [hv] at h
    · exact ⟨_,setState_self,rfl,rfl,hret⟩

theorem holds_cancel_quiescing : Holds i (fun s => (Exit i s ∧ P s) ∧ Quiescing i k s)
    (send (.cancel k)) fun _ s => (Exit i s ∧ P s) ∧ Quiescing i k s ∧ ∃ x, s.states k=some x ∧ x.cancelled=true := by
  refine .send (hP.stable Exit.stable Quiescing.stable) nofun fun {s c r s'} hI h hc => ?_
  obtain ⟨⟨he,hp⟩,y,hy,hq⟩ := h
  obtain ⟨x,hx,⟨⟩⟩ := map_eq_some_iff.mp hc
  obtain rfl := mem_unique hx hy
  have hm : Moves s k x { x with cancelled := true } :=
    hI.moves hx rfl rfl (fun _ => rfl) rfl rfl (hI.tracked hx)
  refine ⟨hI.setState hx hm,.setState hx fun j _ => ?_,⟨exit_setState he,?_⟩,?_,?_⟩
  · exact { NamespaceState.Rely.refl j x with cancelled := fun _ => rfl }
  · exact hP.calm (.setState hx rfl id id) (hI.setState hx hm) hp
  · exact ⟨_,setState_self,hq⟩
  · exact ⟨_,setState_self,rfl⟩

theorem holds_takeHandles : Holds i (fun s => (Exit i s ∧ P s) ∧ Quiescing i k s ∧
      ∃ x, s.states k=some x ∧ x.cancelled=true) (send (.takeHandles k))
    fun handles s => (Waiting i handles s ∧ P s) ∧ Emptied i k s := by
  refine Holds.send (fun hr hI h => ⟨⟨h.1.1.stable hr,hP.rely hr hI h.1.2⟩,h.2.1.stable hr,?_⟩)
    nofun fun {s c r s'} hI h hc => ?_
  · obtain ⟨x,hx,hcan⟩ := h.2.2
    obtain ⟨x',hx',hrel⟩ := hr.states hx
    exact ⟨x',hx',hrel.cancelled hcan⟩
  obtain ⟨⟨⟨hl,me,hme,hstart,hjoin⟩,hp⟩,⟨y,hy,hperm,hv,hret⟩,z,hz,hcan⟩ := h
  obtain ⟨x,hx,hc⟩ := bind_eq_some_iff.mp hc
  obtain ⟨me',hme',⟨⟩⟩ := map_eq_some_iff.mp hc
  obtain rfl := mem_unique hx hy
  obtain rfl := mem_unique hx hz
  obtain rfl := mem_unique hme hme'
  -- the handles are with the task before they leave the namespace
  have hedit : Edits me { me with joining := me.joining++x.maintenanceTasks } :=
    ⟨rfl,rfl,id,fun t ht => List.mem_append_left _ ht,
      fun h => absurd (hstart.symm.trans h) nofun⟩
  have hI1 := hI.setTask hme hedit fun ns hr => hI.ownReservation hme hr
  have hg1 := Guar.setTask (i := i) hme hedit fun h => absurd rfl h
  have hx1 : (s.setTask i { me with joining := me.joining++x.maintenanceTasks }).states k =
      some x := hx
  have hm : Moves _ k x { x with maintenanceTasks := [] } :=
    hI1.moves hx1 rfl rfl id rfl rfl fun {t y'} ht hj hd => by
      refine .inr ⟨i,_,hperm,setTask_self,?_⟩
      obtain hmem | ⟨j,z,hpj,hz',hmem⟩ := hI1.tracked hx1 ht hj hd
      · exact List.mem_append_right _ hmem
      · obtain rfl := mem_unique hperm hpj
        obtain rfl := some.inj (setTask_self.symm.trans hz')
        exact hmem
  have hg2 : Guar i _ (Registry.setState _ k { x with maintenanceTasks := [] }) :=
    .setState hx1 fun j hj => { NamespaceState.Rely.refl j x with untracked := fun _ _ => rfl }
  refine ⟨hI1.setState hx1 hm,⟨fun j hj => (hg1.others j hj).trans (hg2.others j hj),fun hy => ?_⟩,
    ⟨⟨hl,_,setTask_self,hstart,fun t ht => ?_⟩,?_⟩,?_⟩
  · exact hg1.own hy
  · obtain ht | ht := List.mem_append.mp ht
    · exact .inr (isDone_setTask hme hedit (hjoin t ht))
    · exact .inl ht
  · refine hP.calm (.setState hx1 rfl id id) (hI1.setState hx1 hm) ?_
    exact hP.calm .setTask hI1 hp
  · exact ⟨_,setState_self,hperm,hv,hret,hcan,rfl⟩

theorem holds_abortAll (pending handles : List Task) : Holds i (fun s => (Waiting i pending s ∧ P s) ∧ Emptied i k s)
      (handles.forM fun t => send (.abort t)) fun _ s => (Waiting i pending s ∧ P s) ∧ Emptied i k s := by
  induction handles with
  | nil => exact .ret fun _ => id
  | cons t rest ih =>
    refine .bind (Q := fun _ s => (Waiting i pending s ∧ P s) ∧ Emptied i k s) ?_ fun _ => ih
    refine Holds.send (hP.stable Waiting.stable Emptied.stable) nofun fun {s c r s'} hI h hc => ?_
    obtain ⟨⟨⟨hl,me,hme,hstart,hjoin⟩,hp⟩,hem⟩ := h
    obtain ⟨y,hy,⟨⟩⟩ := map_eq_some_iff.mp hc
    have hedit : Edits y { y with aborted := true } := ⟨rfl,rfl,id,fun _ => id,fun _ => rfl⟩
    have hI1 := hI.setTask hy hedit fun ns hr => hI.ownReservation hy hr
    refine ⟨hI1,.setTask hy hedit fun _ => rfl,⟨⟨hl,?_⟩,hP.calm .setTask hI1 hp⟩,hem⟩
    have hdone : ∀ {t'}, s.isDone t'=true → (s.setTask t { y with aborted := true }).isDone t'=true :=
      isDone_setTask hy hedit
    by_cases hit : i=t
    · subst hit
      obtain rfl := mem_unique hme hy
      exact ⟨_,setTask_self,hstart,fun t' ht' => (hjoin t' ht').imp_right hdone⟩
    · exact ⟨me,(setTask_ne hit).trans hme,hstart,fun t' ht' => (hjoin t' ht').imp_right hdone⟩

theorem holds_joinAll (handles : List Task) : Holds i (fun s => (Waiting i handles s ∧ P s) ∧ Emptied i k s)
      (handles.forM fun t => send (.join t)) fun _ s => (Exit i s ∧ P s) ∧ Emptied i k s := by
  induction handles with
  | nil =>
    refine .ret fun s h => ⟨⟨?_,h.1.2⟩,h.2⟩
    obtain ⟨hl,x,hx,hs,hj⟩ := h.1.1
    exact ⟨hl,x,hx,hs,fun t ht => (hj t ht).resolve_left List.not_mem_nil⟩
  | cons t rest ih =>
    refine .bind (Q := fun _ s => (Waiting i rest s ∧ P s) ∧ Emptied i k s) ?_ fun _ => ih
    refine Holds.send (hP.stable Waiting.stable Emptied.stable)
      (fun _ _ h => ⟨h.1.1.1,h.1.1.started⟩) fun {s c r s'} hI h hc => ?_
    simp only [handle] at hc
    split at hc
    · rename_i hdone
      cases hc
      obtain ⟨⟨⟨hl,x,hx,hs,hj⟩,hp⟩,hem⟩ := h
      refine ⟨hI,.refl i _,⟨⟨hl,x,hx,hs,fun t' ht' => ?_⟩,hp⟩,hem⟩
      obtain hmem | hd := hj t' ht'
      · obtain rfl | hmem := List.mem_cons.mp hmem
        · exact .inr hdone
        · exact .inl hmem
      · exact .inr hd
    · cases hc

/-- The drain gets hold of the mutex: nobody who took it before the incarnation was retired has it
any more, and the committer has ended. -/
theorem holds_drainWriter : Holds i (fun s => (Exit i s ∧ P s) ∧ Emptied i k s)
    (send (.drainWriter k)) fun _ s => ((Exit i s ∧ Owns i k s) ∧ P s) ∧ Drained i k s := by
  refine .send (hP.stable Exit.stable Emptied.stable)
    (fun _ _ h => ⟨h.1.1.1,h.1.1.started⟩) fun {s c r s'} hI h hc => ?_
  obtain ⟨⟨he,hp⟩,y,hy,hperm,hv,hret,hcan,hempty⟩ := h
  obtain ⟨x,hx,hc⟩ := bind_eq_some_iff.mp hc
  obtain rfl := mem_unique hx hy
  split at hc
  · cases hc
  · rename_i hfree
    cases hc
    have hm : Moves s k x { x with writer := some i, drained := true } :=
      { ns := rfl
        retired := .inl rfl
        quiesced := id
        quiesced_drained := fun _ => rfl
        drained_retired := fun _ => ⟨hret,hcan⟩
        drained_committer := fun {t y} _ ht hj => by
          by_contra hd
          obtain hmem | ⟨j,z,hpj,hz,hmem⟩ := hI.tracked hx ht hj (Bool.eq_false_iff.mpr hd)
          · simp [hempty] at hmem
          · obtain rfl := mem_unique hperm hpj
            obtain ⟨-,me,hme,-,hjoin⟩ := he
            obtain rfl := mem_unique hme hz
            have := hjoin t hmem
            simp [isDone,ht,hd] at this
        tracked := hI.tracked hx }
    refine ⟨hI.setState hx hm,.setState hx fun j _ => ?_,⟨⟨exit_setState he,_,setState_self,rfl⟩,?_⟩,?_⟩
    · exact { NamespaceState.Rely.refl j x with
        drained := fun _ => rfl
        writer := fun hw => by simp [hw] at hfree }
    · exact hP.calm (.setState hx rfl id id) (hI.setState hx hm) hp
    · exact ⟨_,setState_self,hperm,hv,rfl⟩

theorem holds_unlock_drained :
    Holds i (fun s => ((Exit i s ∧ Owns i k s) ∧ P s) ∧ Drained i k s) (send (.unlockWriter k))
      fun _ s => (Exit i s ∧ P s) ∧ Drained i k s := by
  refine .send (fun hr hI h => ⟨⟨⟨h.1.1.1.stable hr,h.1.1.2.stable hr⟩,
    hP.rely hr hI h.1.2⟩,h.2.stable hr⟩) nofun fun {s c r s'} hI h hc => ?_
  obtain ⟨⟨⟨he,y,hy,hw⟩,hp⟩,z,hz,hd⟩ := h
  obtain ⟨x,hx,⟨⟩⟩ := map_eq_some_iff.mp hc
  obtain rfl := mem_unique hx hy
  obtain rfl := mem_unique hx hz
  have hm := moves_writer hI hx none
  refine ⟨hI.setState hx hm,.setState hx fun j hj => rely_writer fun hw' => ?_,
    ⟨exit_setState he,?_⟩,_,setState_self,hd⟩
  · exact absurd (some.inj (hw.symm.trans hw')) hj.symm
  · exact hP.calm (.setState hx rfl id id) (hI.setState hx hm) hp

theorem holds_setQuiesced : Holds i (fun s => (Exit i s ∧ P s) ∧ Drained i k s)
    (send (.setQuiesced k)) fun _ s => (Exit i s ∧ P s) ∧ Quiesced k s := by
  refine .send (hP.stable Exit.stable Drained.stable) nofun fun {s c r s'} hI h hc => ?_
  obtain ⟨⟨he,hp⟩,y,hy,hperm,hv,hd⟩ := h
  obtain ⟨x,hx,⟨⟩⟩ := map_eq_some_iff.mp hc
  obtain rfl := mem_unique hx hy
  have hm : Moves s k x { x with quiesced := { value := some () } } :=
    { ns := rfl
      retired := .inl rfl
      quiesced := fun _ => rfl
      quiesced_drained := fun _ => hd
      drained_retired := hI.drained_retired (x := x) hx
      drained_committer := hI.drained_committer (x := x) hx
      tracked := fun ht hj hdone => by
        simp [hI.drained_committer hx hd ht hj] at hdone }
  refine ⟨hI.setState hx hm,.setState hx fun j hj => ?_,⟨exit_setState he,?_⟩,?_⟩
  · exact { NamespaceState.Rely.refl j x with
      quiesced := fun _ => rfl
      permit := fun h => absurd (some.inj (hperm.symm.trans h)) hj.symm }
  · exact hP.calm (.setState hx rfl id fun _ => rfl) (hI.setState hx hm) hp
  · exact ⟨_,setState_self,rfl⟩

theorem holds_quiesce : Holds i (fun s => (Exit i s ∧ P s) ∧ Retired k s) (quiesce k)
    fun _ s => (Exit i s ∧ P s) ∧ Quiesced k s := by
  refine .bind (holds_enterQuiesce hP) fun already => ?_
  cases already with
  | true => exact .ret fun s h => ⟨h.1,h.2.1 rfl⟩
  | false =>
    refine .bind (Q := fun _ s => (Exit i s ∧ P s) ∧ Emptied i k s) ?_ fun _ =>
      .bind (holds_drainWriter hP) fun _ => .bind (holds_unlock_drained hP) fun _ =>
        holds_setQuiesced hP
    refine .bind ((holds_cancel_quiescing hP).mono (fun s h => ⟨h.1,h.2.2 rfl⟩) fun _ _ => id)
      fun _ => ?_
    exact .bind (holds_takeHandles hP) fun handles =>
      .bind (holds_abortAll hP handles handles) fun _ => holds_joinAll hP handles

theorem holds_removeDraining : Holds i (fun s => (Exit i s ∧ P s) ∧ Quiesced k s)
    (send (.removeDraining k)) fun _ s => (Exit i s ∧ P s) ∧ Quiesced k s := by
  refine .send (hP.stable Exit.stable Quiesced.stable) nofun fun {s c r s'} hI h hc => ?_
  obtain ⟨x,hx,heq⟩ := map_eq_some_iff.mp hc
  split at heq
  · rename_i hd
    cases heq
    obtain ⟨⟨he,hp⟩,y,hy,hq⟩ := h
    obtain rfl := mem_unique hx hy
    have hI' := hI.removeDraining hx hq hd
    refine ⟨hI',.draining,⟨he,hP.calm ?_ hI' hp⟩,x,hx,hq⟩
    exact ⟨rfl,fun hx => ⟨_,hx,rfl,id,id⟩,fun hx => ⟨_,hx⟩⟩
  · cases heq
    exact ⟨hI,.refl i _,h⟩

theorem holds_drain : Holds i (fun s => (Exit i s ∧ P s) ∧ Retired k s) (drain k)
    fun _ s => (Exit i s ∧ P s) ∧ Quiesced k s :=
  .bind (holds_quiesce hP) fun _ => holds_removeDraining hP

end
end NamiDB.Server
