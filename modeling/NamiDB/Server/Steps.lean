import NamiDB.Server.Invariant

/-! One lemma for each kind of change to the registry: what it needs to keep the invariant, and that
the other tasks may rely on it. -/
namespace NamiDB.Server
open Lib Registry Option Function

variable {s : Registry} {j : Task} {k : Incarnation} {n : SlotId}

theorem update_eq_some [DecidableEq κ] {f : κ → Option α} {a b : κ} {v z : α} (h : update f a (some v) b=some z) :
    b=a ∧ z=v ∨ b≠a ∧ f b=some z := by
  by_cases hb : b=a
  · subst hb
    rw [update_self,some.injEq] at h
    exact .inl ⟨rfl,h.symm⟩
  · rw [update_of_ne hb] at h
    exact .inr ⟨hb,h⟩

section
variable {x x' : NamespaceState}
variable {states : Incarnation → Option NamespaceState}

structure Moves (s : Registry) (k : Incarnation) (x x' : NamespaceState) : Prop where
  ns : x'.ns=x.ns
  retired : x'.retired=x.retired ∨
    x'.retired=true ∧ ∃ n, s.removed=some n ∧ (s.slots n).cell.value=some k
  quiesced : x.quiesced.value=some () → x'.quiesced.value=some ()
  quiesced_drained : x'.quiesced.value=some () → x'.drained=true
  drained_retired : x'.drained=true → x'.retired=true ∧ x'.cancelled=true
  drained_committer : ∀ {t y}, x'.drained=true → s.tasks t=some y → y.job = .committer k →
    y.done=true
  tracked : ∀ {t y}, s.tasks t=some y → y.job = .committer k → y.done=false →
    t∈x'.maintenanceTasks ∨ ∃ j z, x'.quiesced.permit=some j ∧ s.tasks j=some z ∧ t∈z.joining

theorem setState_eq_some (h : (s.setState k x').states k'=some z) : k'=k ∧ z=x' ∨ k'≠k ∧ s.states k'=some z :=
  update_eq_some h

theorem setState_self : (s.setState k x').states k=some x' := by simp [setState]

theorem setState_ne (h : k'≠k) : (s.setState k x').states k'=s.states k' := by simp [setState,h]

theorem Inv.changeStates (h : Inv s) (hold : ∀ {k x}, s.states k=some x → ∃ x', states k=some x' ∧ Moves s k x x')
    (hnew : ∀ {k x'}, states k=some x' → ∃ x, s.states k=some x ∧ Moves s k x x') : Inv { s with states } :=
  { h with
    value_state := fun hv => by
      obtain ⟨x,hx,hns⟩ := h.value_state hv
      obtain ⟨x',hx',hm⟩ := hold hx
      exact ⟨x',hx',hm.ns.trans hns⟩
    state_slot := fun hx' => by
      obtain ⟨x,hx,hm⟩ := hnew hx'
      obtain ⟨n,hv,hlive⟩ := h.state_slot hx
      refine ⟨n,hv,fun hr => ?_⟩
      obtain hsame | ⟨hr',-⟩ := hm.retired
      · exact hm.ns ▸ hlive (hsame ▸ hr)
      · simp [hr'] at hr
    session_live := fun hl hv hx' => by
      obtain ⟨x,hx,hm⟩ := hnew hx'
      obtain hsame | ⟨-,n',hrem,hv'⟩ := hm.retired
      · exact hsame.trans (h.session_live hl hv hx)
      · -- the slot is out of the map already
        obtain rfl := h.value_inj hv hv'
        have hout := h.removed_session hrem
        rw [(h.session_slot hl).2,hl] at hout
        cases hout
    removed_last := fun hrem => by
      obtain ⟨k0,hv,hlast⟩ := h.removed_last hrem
      refine ⟨k0,hv,fun hx' hns hne => ?_⟩
      obtain ⟨x,hx,hm⟩ := hnew hx'
      exact hm.quiesced (hlast hx (hm.ns ▸ hns) hne)
    unquiesced := fun hx' hr hq => by
      obtain ⟨x,hx,hm⟩ := hnew hx'
      obtain hsame | ⟨-,hrem⟩ := hm.retired
      · rw [hm.ns]
        refine h.unquiesced hx (hsame ▸ hr) ?_
        cases hv : x.quiesced.value with
        | none => rfl
        | some u => rw [hm.quiesced hv] at hq; cases hq
      · exact .inr hrem
    draining_retired := fun hd => by
      obtain ⟨x,hx,hns,hr⟩ := h.draining_retired hd
      obtain ⟨x',hx',hm⟩ := hold hx
      exact ⟨x',hx',hm.ns.trans hns,hm.retired.elim (fun e => e.trans hr) (·.1)⟩
    opened := fun hx' => by
      obtain ⟨x,hx,hm⟩ := hnew hx'
      exact hm.ns ▸ h.opened hx
    superseded := fun hx' ho hlt => by
      obtain ⟨x,hx,hm⟩ := hnew hx'
      exact hm.quiesced (h.superseded hx (hm.ns ▸ ho) hlt)
    quiesced_drained := fun hx' => (hnew hx').choose_spec.2.quiesced_drained
    drained_retired := fun hx' => (hnew hx').choose_spec.2.drained_retired
    drained_committer := fun hx' => (hnew hx').choose_spec.2.drained_committer
    committer_tracked := fun ht hj hd => by
      obtain ⟨x,hx,-⟩ := h.committer_tracked ht hj hd
      obtain ⟨x',hx',hm⟩ := hold hx
      exact ⟨x',hx',hm.tracked ht hj hd⟩ }

theorem Rely.changeStates (hold : ∀ {k x}, s.states k=some x → ∃ x', states k=some x' ∧ x.Rely j x')
    (hnew : ∀ {k x'}, states k=some x' → ∃ x, s.states k=some x) : Rely j s { s with states } :=
  { Rely.refl j s with
    states := hold
    published := fun _ hx' hnone => by
      obtain ⟨x,hx⟩ := hnew hx'
      simp [hx] at hnone }

theorem Inv.moves (h : Inv s) (hx : s.states k=some x) (hns : x'.ns=x.ns)
    (hr : x'.retired=x.retired) (hc : x.cancelled=true → x'.cancelled=true)
    (hd : x'.drained=x.drained) (hq : x'.quiesced.value=x.quiesced.value)
    (htracked : ∀ {t y}, s.tasks t=some y → y.job = .committer k → y.done=false → t∈x'.maintenanceTasks ∨
        ∃ j z, x'.quiesced.permit=some j ∧ s.tasks j=some z ∧ t∈z.joining) : Moves s k x x' where
  ns := hns
  retired := .inl hr
  quiesced hv := hq.trans hv
  quiesced_drained hv := hd.trans (h.quiesced_drained hx (hq ▸ hv))
  drained_retired hv := by
    obtain ⟨h1,h2⟩ := h.drained_retired hx (hd ▸ hv)
    exact ⟨hr.trans h1,hc h2⟩
  drained_committer hv := h.drained_committer hx (hd ▸ hv)
  tracked := htracked

theorem Inv.tracked (h : Inv s) (hx : s.states k=some x) {t : Task} {y : TaskState}
    (ht : s.tasks t=some y) (hj : y.job = .committer k) (hd : y.done=false) : t∈x.maintenanceTasks ∨
      ∃ j z, x.quiesced.permit=some j ∧ s.tasks j=some z ∧ t∈z.joining := by
  obtain ⟨z,hz,htr⟩ := h.committer_tracked ht hj hd
  obtain rfl := mem_unique hx hz
  exact htr

theorem Inv.setState (h : Inv s) (hx : s.states k=some x) (hm : Moves s k x x') : Inv (s.setState k x') := by
  have hsame : ∀ {k z}, s.states k=some z → Moves s k z z := fun hz =>
    h.moves hz rfl rfl id rfl rfl (h.tracked hz)
  refine h.changeStates (fun {k' z} hz => ?_) fun hz' => ?_
  · by_cases hk : k'=k
    · subst hk
      obtain rfl := mem_unique hx hz
      exact ⟨x',setState_self,hm⟩
    · exact ⟨z,(setState_ne hk).trans hz,hsame hz⟩
  · obtain ⟨rfl,rfl⟩ | ⟨-,hz⟩ := setState_eq_some hz'
    · exact ⟨x,hx,hm⟩
    · exact ⟨_,hz,hsame hz⟩

theorem Rely.setState (hx : s.states k=some x) (h : x.Rely j x') : Rely j s (s.setState k x') := by
  refine .changeStates (fun {k' z} hz => ?_) fun hz' => ?_
  · by_cases hk : k'=k
    · subst hk
      obtain rfl := mem_unique hx hz
      exact ⟨x',setState_self,h⟩
    · exact ⟨z,(setState_ne hk).trans hz,.refl j z⟩
  · obtain ⟨rfl,-⟩ | ⟨-,hz⟩ := setState_eq_some hz'
    · exact ⟨x,hx⟩
    · exact ⟨_,hz⟩

theorem Guar.setState (hx : s.states k=some x) (h : ∀ j, j≠i → x.Rely j x') : Guar i s (s.setState k x') :=
  ⟨fun j hj => .setState hx (h j hj),fun hy => ⟨_,hy,rfl,rfl,id⟩⟩

end

section
variable {y y' : TaskState} {t : Task}
variable {z : TaskState}

theorem setTask_eq_some (h : (s.setTask t y').tasks t'=some z) : t'=t ∧ z=y' ∨ t'≠t ∧ s.tasks t'=some z :=
  update_eq_some h

theorem setTask_self : (s.setTask t y').tasks t=some y' := by simp [setTask]

theorem setTask_ne (h : t'≠t) : (s.setTask t y').tasks t'=s.tasks t' := by
  simp [setTask,h]

/-- A change of a task's record that keeps its job and lets it wait for no fewer handles. -/
structure Edits (y y' : TaskState) : Prop where
  job : y'.job=y.job
  done : y'.done=y.done
  started : y.started=true → y'.started=true
  joining : ∀ t ∈ y.joining, t∈y'.joining
  idle : y.started=false → y'.joining=y.joining

theorem Inv.changeTasks (h : Inv s) {tasks : Task → Option TaskState} {nextTask : Task}
    (hfresh : ∀ {t}, nextTask≤t → tasks t=none)
    (hold : ∀ {t y}, s.tasks t=some y → ∃ y', tasks t=some y' ∧ (y.started=true → y'.started=true) ∧
      ∀ t' ∈ y.joining, t'∈y'.joining)
    (hnew : ∀ {t y'}, tasks t=some y' → (∀ k, y'.job = .committer k → y'.done=false →
      ∃ y, s.tasks t=some y ∧ y.job = .committer k ∧ y.done=false) ∧
      (y'.started=false → y'.joining=[] ∧ y'.done=false))
    (hres : ∀ {t y ns}, tasks t=some y → y.reservation=some ns → s.restoring ns=true ∧
      ∀ {t' z}, tasks t'=some z → z.reservation=some ns → t'=t) : Inv { s with tasks, nextTask } :=
  { h with
    drained_committer := fun hx hd ht hj => by
      by_contra hdone
      obtain ⟨y,hy,hyj,hyd⟩ := (hnew ht).1 _ hj (Bool.eq_false_iff.mpr hdone)
      simp [h.drained_committer hx hd hy hyj] at hyd
    committer_tracked := fun ht hj hd => by
      obtain ⟨y,hy,hyj,hyd⟩ := (hnew ht).1 _ hj hd
      obtain ⟨x,hx,hm | ⟨j,z,hp,hz,hmem⟩⟩ := h.committer_tracked hy hyj hyd
      · exact ⟨x,hx,.inl hm⟩
      · obtain ⟨z',hz',-,hjoin⟩ := hold hz
        exact ⟨x,hx,.inr ⟨j,z',hp,hz',hjoin _ hmem⟩⟩
    reserved := fun ht hr => (hres ht hr).1
    reserved_once := fun h1 h2 hr1 hr2 => (hres h2 hr2).2 h1 hr1
    fresh_task := hfresh
    unstarted := fun ht => (hnew ht).2
    lock_started := fun hl => by
      obtain ⟨y,hy,hs⟩ := h.lock_started hl
      obtain ⟨y',hy',hs',-⟩ := hold hy
      exact ⟨y',hy',hs' hs⟩ }

theorem Inv.recordTask (h : Inv s) (ht : s.tasks t=some y) (hstarted : y.started=true → y'.started=true)
    (hjoining : ∀ t' ∈ y.joining, t'∈y'.joining)
    (hcommitter : ∀ k, y'.job = .committer k → y'.done=false → y.job = .committer k ∧ y.done=false)
    (hidle : y'.started=false → y'.joining=[] ∧ y'.done=false)
    (hres : ∀ ns, y'.reservation=some ns → s.restoring ns=true ∧
      ∀ t' z, t'≠t → s.tasks t'=some z → z.reservation≠some ns) : Inv (s.setTask t y') := by
  refine h.changeTasks (fun {t'} hf => ?_) (fun {t' z} hz => ?_) (fun {t' z} hz => ?_) fun {t' z ns} hz hr => ?_
  · have hne : t'≠t := by
      rintro rfl
      rw [h.fresh_task hf] at ht
      cases ht
    exact (setTask_ne hne).trans (h.fresh_task hf)
  · by_cases htt : t'=t
    · subst htt
      obtain rfl := mem_unique ht hz
      exact ⟨y',setTask_self,hstarted,hjoining⟩
    · exact ⟨z,(setTask_ne htt).trans hz,id,fun _ => id⟩
  · obtain ⟨rfl,rfl⟩ | ⟨-,hz⟩ := setTask_eq_some hz
    · exact ⟨fun k hj hd => ⟨y,ht,hcommitter k hj hd⟩,hidle⟩
    · exact ⟨fun k hj hd => ⟨z,hz,hj,hd⟩,h.unstarted hz⟩
  · obtain ⟨rfl,rfl⟩ | ⟨hne,hold⟩ := setTask_eq_some hz
    · refine ⟨(hres _ hr).1,fun hz' hr' => ?_⟩
      obtain ⟨rfl,-⟩ | ⟨hne,hz'⟩ := setTask_eq_some hz'
      · rfl
      · exact absurd hr' ((hres _ hr).2 _ _ hne hz')
    · refine ⟨h.reserved hold hr,fun hz' hr' => ?_⟩
      obtain ⟨rfl,rfl⟩ | ⟨-,hz'⟩ := setTask_eq_some hz'
      · exact absurd hr ((hres _ hr').2 _ _ hne hold)
      · exact h.reserved_once hz' hold hr' hr

theorem Inv.setTask (h : Inv s) (ht : s.tasks t=some y) (he : Edits y y')
    (hres : ∀ ns, y'.reservation=some ns → s.restoring ns=true ∧
      ∀ t' z, t'≠t → s.tasks t'=some z → z.reservation≠some ns) : Inv (s.setTask t y') := by
  refine h.recordTask ht he.started he.joining (fun k hj hd => ⟨he.job ▸ hj,he.done ▸ hd⟩) (fun hs => ?_) hres
  have hs' : y.started=false := Bool.eq_false_iff.mpr fun hy => by simp [he.started hy] at hs
  obtain ⟨hj,hd⟩ := h.unstarted ht hs'
  exact ⟨(he.idle hs').trans hj,he.done.trans hd⟩

theorem Inv.ownReservation (h : Inv s) (ht : s.tasks t=some y) {ns : String}
    (hr : y.reservation=some ns) : s.restoring ns=true ∧ ∀ t' z, t'≠t → s.tasks t'=some z → z.reservation≠some ns :=
  ⟨h.reserved ht hr,fun _ _ hne ht' hr' => hne (h.reserved_once ht' ht hr' hr)⟩

theorem isDone_setTask (ht : s.tasks t=some y) (he : Edits y y')
    (h : s.isDone t'=true) : (s.setTask t y').isDone t'=true := by
  by_cases htt : t'=t
  · subst htt
    simp only [isDone,ht,any_some] at h
    simp [isDone,setTask_self,he.done,h]
  · simpa [isDone,setTask_ne htt] using h

theorem Rely.setTask (ht : s.tasks t=some y) (he : Edits y y')
    (hown : j=t → y'.joining=y.joining) : Rely j s (s.setTask t y') where
  own {x} hx := by
    by_cases hjt : j=t
    · subst hjt
      obtain rfl := mem_unique ht hx
      exact ⟨y',setTask_self,he.job,he.done,he.started,hown rfl⟩
    · exact ⟨x,(setTask_ne hjt).trans hx,rfl,rfl,id,rfl⟩
  done := isDone_setTask ht he
  states hx := ⟨_,hx,.refl j _⟩
  slots _ := .refl j _
  locked hl := ⟨hl,rfl,rfl,id,id⟩
  unlocked := id
  published _ hz hnone := absurd hz (by
    have : (s.setTask t y').states=s.states := rfl
    rw [this,hnone]
    nofun)
  openings _ := id
  opened := id

theorem Guar.setTask (ht : s.tasks t=some y) (he : Edits y y')
    (hown : t≠i → y'.joining=y.joining) : Guar i s (s.setTask t y') where
  others j hj := .setTask ht he fun hjt => hown (hjt ▸ hj)
  own {x} hx := by
    by_cases hit : i=t
    · subst hit
      obtain rfl := mem_unique ht hx
      exact ⟨y',setTask_self,he.job,he.done,he.started⟩
    · exact ⟨x,(setTask_ne hit).trans hx,rfl,rfl,id⟩

theorem addTask_eq_some (h : (s.addTask y).tasks t'=some z) :
    t'=s.nextTask ∧ z=y ∨ t'≠s.nextTask ∧ s.tasks t'=some z :=
  setTask_eq_some (t := s.nextTask) h

theorem addTask_ne (h : t'≠s.nextTask) : (s.addTask y).tasks t'=s.tasks t' :=
  setTask_ne (t := s.nextTask) h

theorem addTask_old (h : Inv s) (hz : s.tasks t'=some z) : (s.addTask y).tasks t'=some z := by
  have hne : t'≠s.nextTask := by
    rintro rfl
    rw [h.fresh_task le_rfl] at hz
    cases hz
  exact (addTask_ne hne).trans hz

theorem Inv.addTask (h : Inv s) (hj : ∀ k, y.job ≠ .committer k)
    (hres : ∀ ns, y.reservation=some ns → s.restoring ns=true ∧ ∀ t z, s.tasks t=some z → z.reservation≠some ns)
    (hidle : y.started=false → y.joining=[] ∧ y.done=false) : Inv (s.addTask y) := by
  refine h.changeTasks (fun ht => ?_) (fun hz => ⟨_,addTask_old h hz,id,fun _ => id⟩) (fun {t z} hz => ?_)
    fun {t z ns} hz hr => ?_
  · exact (addTask_ne (Nat.ne_of_gt ht)).trans (h.fresh_task (Nat.le_of_succ_le ht))
  · obtain ⟨rfl,rfl⟩ | ⟨-,hz⟩ := addTask_eq_some hz
    · exact ⟨fun k hjob _ => absurd hjob (hj k),hidle⟩
    · exact ⟨fun k hjob hd => ⟨z,hz,hjob,hd⟩,h.unstarted hz⟩
  · obtain ⟨rfl,rfl⟩ | ⟨-,hold⟩ := addTask_eq_some hz
    · refine ⟨(hres _ hr).1,fun hz' hr' => ?_⟩
      obtain ⟨rfl,-⟩ | ⟨-,hz'⟩ := addTask_eq_some hz'
      · rfl
      · exact absurd hr' ((hres _ hr).2 _ _ hz')
    · refine ⟨h.reserved hold hr,fun hz' hr' => ?_⟩
      obtain ⟨rfl,rfl⟩ | ⟨-,hz'⟩ := addTask_eq_some hz'
      · exact absurd hr ((hres _ hr').2 _ _ hold)
      · exact h.reserved_once hz' hold hr' hr

theorem Rely.addTask (h : Inv s) : Rely j s (s.addTask y) where
  own hx := ⟨_,addTask_old h hx,rfl,rfl,id,rfl⟩
  done {t} hd := by
    obtain ⟨z,hz,hdone⟩ := (any_eq_true _ _).mp hd
    exact (any_eq_true _ _).mpr ⟨z,addTask_old h hz,hdone⟩
  states hx := ⟨_,hx,.refl j _⟩
  slots _ := .refl j _
  locked hl := ⟨hl,rfl,rfl,id,id⟩
  unlocked := id
  published _ hz hnone := absurd hz (by
    have : (s.addTask y).states=s.states := rfl
    rw [this,hnone]
    nofun)
  openings _ := id
  opened := id

theorem Guar.addTask (h : Inv s) : Guar i s (s.addTask y) :=
  ⟨fun _ _ => .addTask h,fun hx => ⟨_,addTask_old h hx,rfl,rfl,id⟩⟩

end

section
variable {x' : Slot} {slots : SlotId → Slot}

theorem setSlot_self : (s.setSlot n x').slots n=x' := by simp [setSlot]

theorem setSlot_ne (h : n'≠n) : (s.setSlot n x').slots n'=s.slots n' := by
  simp [setSlot,h]

theorem Inv.changeSlots (h : Inv s) (hns : ∀ n, (slots n).ns=(s.slots n).ns)
    (hv : ∀ n, (slots n).cell.value=(s.slots n).cell.value)
    (hfresh : ∀ {n}, s.nextSlot≤n → (slots n).cell={} ∧ (slots n).clones=[])
    (hp : ∀ {n t}, (slots n).cell.permit=some t → t∈(slots n).clones)
    (hc : ∀ {n}, (s.slots n).cell.value=none → (slots n).clones≠[] →
      s.sessions.lookup (s.slots n).ns=some n) : Inv { s with slots } :=
  { h with
    session_slot := fun hl => hns _ ▸ h.session_slot hl
    fresh_slot := hfresh
    permit_clone := hp
    clone_session := fun hval hcl => hns _ ▸ hc (hv _ ▸ hval) hcl
    value_state := fun hval => hns _ ▸ h.value_state (hv _ ▸ hval)
    value_inj := fun h1 h2 => h.value_inj (hv _ ▸ h1) (hv _ ▸ h2)
    state_slot := fun hx => by
      obtain ⟨n,hval,hlive⟩ := h.state_slot hx
      exact ⟨n,(hv n).trans hval,hlive⟩
    session_live := fun hl hval => h.session_live hl (hv _ ▸ hval)
    removed_session := fun hrem => hns _ ▸ h.removed_session hrem
    removed_last := fun hrem => by
      simp only [hns,hv]
      exact h.removed_last hrem
    unquiesced := fun hx hr hq => by
      simp only [hv]
      exact h.unquiesced hx hr hq
    restoring_closed := fun hr => by
      simp only [hns]
      exact h.restoring_closed hr }

theorem Inv.setSlot (h : Inv s) (hn : n<s.nextSlot) (hns : x'.ns=(s.slots n).ns)
    (hv : x'.cell.value=(s.slots n).cell.value) (hp : ∀ t, x'.cell.permit=some t → t∈x'.clones)
    (hc : x'.cell.value=none → x'.clones≠[] → s.sessions.lookup x'.ns=some n) : Inv (s.setSlot n x') := by
  have hset : ∀ n', n'=n ∧ (s.setSlot n x').slots n'=x' ∨
      n'≠n ∧ (s.setSlot n x').slots n'=s.slots n' := fun n' => by
    by_cases hne : n'=n
    · exact .inl ⟨hne,hne ▸ setSlot_self⟩
    · exact .inr ⟨hne,setSlot_ne hne⟩
  refine h.changeSlots (fun n' => ?_) (fun n' => ?_) (fun {n'} hfresh => ?_) (fun {n' t} hperm => ?_)
    fun {n'} hval hcl => ?_ <;> obtain ⟨rfl,he⟩ | ⟨hne,he⟩ := hset n' <;>
    simp only [Registry.setSlot] at he
  · rw [he,hns]
  · rw [he]
  · rw [he,hv]
  · rw [he]
  · exact absurd hn (Nat.not_lt.mpr hfresh)
  · rw [he]
    exact h.fresh_slot hfresh
  · rw [he] at hperm ⊢
    exact hp t hperm
  · rw [he] at hperm ⊢
    exact h.permit_clone hperm
  · rw [he] at hcl
    exact hns ▸ hc (hv.trans hval) hcl
  · rw [he] at hcl
    exact h.clone_session hval hcl

theorem Rely.changeSlots (h : ∀ n, (s.slots n).Rely j (slots n))
    (hdead : ∀ {n}, s.sessionsLock=some j → s.dead n=true →
      (slots n).cell.value=none ∧ (slots n).clones=[]) : Rely j s { s with slots } :=
  { Rely.refl j s with
    slots := h
    locked := fun hl => ⟨hl,rfl,rfl,fun hd => by simp [dead,hdead hl hd],id⟩ }

theorem Rely.setSlot (hx : (s.slots n).Rely j x') (hdead : s.sessionsLock=some j →
    s.dead n=true → x'.cell.value=none ∧ x'.clones=[]) : Rely j s (s.setSlot n x') := by
  refine .changeSlots (fun n' => ?_) fun {n'} hl hd => ?_ <;> by_cases hne : n'=n
  · subst hne
    rw [update_self]
    exact hx
  · rw [update_of_ne hne]
    exact .refl j _
  · subst hne
    rw [update_self]
    exact hdead hl hd
  · rw [update_of_ne hne]
    simpa [dead] using hd

theorem Guar.setSlot (hx : ∀ j, j≠i → (s.slots n).Rely j x')
    (hdead : ∀ j, j≠i → s.sessionsLock=some j → s.dead n=true →
      x'.cell.value=none ∧ x'.clones=[]) : Guar i s (s.setSlot n x') :=
  ⟨fun j hj => .setSlot (hx j hj) (hdead j hj),fun hy => ⟨_,hy,rfl,rfl,id⟩⟩

end
end NamiDB.Server
