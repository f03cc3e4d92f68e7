import NamiDB.Server.Steps

/-! The changes that open, evict, restore and end: each keeps the invariant under what its caller
knows at that point. -/
namespace NamiDB.Server
open Lib Registry List Option Function AList

variable {s : Registry} {i : Task} {k : Incarnation} {n : SlotId} {ns : String}

theorem Inv.lockSessions (h : Inv s) (hi : ∃ y, s.tasks i=some y ∧ y.started=true) :
    Inv { s with sessionsLock := some i } :=
  { h with
    removed_lock := fun _ => nofun
    lock_started := fun hl => some.inj hl ▸ hi }

theorem Guar.lockSessions (hl : s.sessionsLock=none) : Guar i s { s with sessionsLock := some i } where
  others j hj := { Rely.refl j s with
    locked := fun hj' => by simp [hl] at hj'
    unlocked := fun _ he => hj (some.inj he).symm }
  own hx := ⟨_,hx,rfl,rfl,id⟩

theorem Inv.unlockSessions (h : Inv s) (hr : s.removed=none) : Inv { s with sessionsLock := none } :=
  { h with
    removed_lock := fun hne => absurd hr hne
    lock_started := nofun }

theorem Guar.unlockSessions (hl : s.sessionsLock=some i) : Guar i s { s with sessionsLock := none } where
  others j hj := { Rely.refl j s with
    locked := fun hj' => absurd (some.inj (hl.symm.trans hj')) hj.symm
    unlocked := fun _ => nofun }
  own hx := ⟨_,hx,rfl,rfl,id⟩

/-- Nobody else counts on the map while the lock is held. -/
theorem Guar.ofLocked {s' : Registry} (hl : s.sessionsLock=some i)
    (hlock : s'.sessionsLock=s.sessionsLock) (hslots : ∀ n, s'.slots n=s.slots n)
    (hstates : s'.states=s.states) (hopen : s'.openings=s.openings) (htasks : s'.tasks=s.tasks) : Guar i s s' where
  others j hj :=
    { own := fun hx => ⟨_,htasks ▸ hx,rfl,rfl,id,rfl⟩
      done := fun hd => by simpa [isDone,htasks] using hd
      states := fun hx => ⟨_,hstates ▸ hx,.refl j _⟩
      slots := fun n => hslots n ▸ .refl j _
      locked := fun hj' => absurd (some.inj (hl.symm.trans hj')) hj.symm
      unlocked := fun hj' => hlock ▸ hj'
      published := fun _ hz hnone => by rw [hstates,hnone] at hz; cases hz
      openings := fun _ hk => hopen ▸ hk
      opened := fun hk => hopen.symm ▸ hk }
  own hx := ⟨_,htasks ▸ hx,rfl,rfl,id⟩

theorem dead_iff : s.dead n=true ↔ (s.slots n).cell.value=none ∧ (s.slots n).clones=[] := by
  simp [dead]

theorem lookup_erase_some {m : AList (fun _ : String => SlotId)} (h : (m.erase ns).lookup ns'=some n) :
    ns'≠ns ∧ m.lookup ns'=some n := by
  have hne : ns'≠ns := by
    rintro rfl
    rw [lookup_erase] at h
    cases h
  exact ⟨hne,(lookup_erase_ne hne).symm.trans h⟩

/-- Taking a slot out of the map: a dead one is gone, a live one is remembered in `removed`. -/
theorem Inv.eraseSession (h : Inv s) (hlock : s.sessionsLock≠none) (hl : s.sessions.lookup ns=some n)
    (hr : s.removed=none ∧ r=some n ∧ (∃ k, (s.slots n).cell.value=some k) ∨ r=s.removed ∧ s.dead n=true) :
    Inv { s with sessions := s.sessions.erase ns, removed := r } := by
  obtain ⟨-,hns⟩ := h.session_slot hl
  have hvalue : ∀ {k}, (s.slots n).cell.value=some k → s.removed=none ∧ r=some n := by
    intro k hv
    obtain ⟨h1,h2,-⟩ | ⟨-,hd⟩ := hr
    · exact ⟨h1,h2⟩
    · simp [dead,hv] at hd
  have hrem : ∀ {m}, r=some m → m=n ∧ s.removed=none ∧ (∃ k, (s.slots n).cell.value=some k) ∨
      s.removed=some m := by
    intro m hm
    obtain ⟨h1,h2,h3⟩ | ⟨h1,-⟩ := hr
    · exact .inl ⟨(some.inj (h2.symm.trans hm)).symm,h1,h3⟩
    · exact .inr (h1 ▸ hm)
  have hkeeps : ∀ {ns'}, ns'≠ns → (s.sessions.erase ns).lookup ns'=s.sessions.lookup ns' :=
    fun hne => lookup_erase_ne hne
  exact { h with
    session_slot := fun hl' => h.session_slot (lookup_erase_some hl').2
    clone_session := fun {n'} hv hc => by
      have hl' := h.clone_session hv hc
      refine (hkeeps fun he => ?_).trans hl'
      obtain rfl : n=n' := some.inj (hl.symm.trans (he ▸ hl'))
      obtain ⟨-,-,k,hk⟩ | ⟨-,hd⟩ := hr
      · cases hv.symm.trans hk
      · exact hc (dead_iff.mp hd).2
    state_slot := fun {k x} hx => by
      obtain ⟨m,hv,hlive⟩ := h.state_slot hx
      refine ⟨m,hv,fun hret => ?_⟩
      obtain hl' | hrem' := hlive hret
      · by_cases he : x.ns=ns
        · obtain rfl : n=m := some.inj (hl.symm.trans (he ▸ hl'))
          exact .inr (hvalue hv).2
        · exact .inl ((hkeeps he).trans hl')
      · obtain ⟨h1,-⟩ | ⟨h1,-⟩ := hr
        · simp [h1] at hrem'
        · exact .inr (h1.trans hrem')
    session_live := fun hl' => h.session_live (lookup_erase_some hl').2
    removed_lock := fun _ => hlock
    removed_session := fun {m} hm => by
      obtain ⟨rfl,-⟩ | hm := hrem hm
      · rw [hns]
        exact lookup_erase _ _
      · by_cases he : (s.slots m).ns=ns
        · rw [he]
          exact lookup_erase _ _
        · exact (hkeeps he).trans (h.removed_session hm)
    removed_last := fun hm => by
      obtain ⟨rfl,-,k,hv⟩ | hm := hrem hm
      · refine ⟨k,hv,fun {k' x'} hx' hns' hne => ?_⟩
        obtain ⟨x,hx,hxns⟩ := h.value_state hv
        obtain hlt | hlt := Nat.lt_or_gt_of_ne hne
        · refine h.superseded hx' ?_ hlt
          rw [hns',← hxns]
          exact h.opened hx
        · -- a later incarnation would have needed the drain of the one in the map
          have hlater : s.openings[k']?=some x.ns := by
            rw [hxns,← hns']
            exact h.opened hx'
          have hq := h.superseded hx hlater hlt
          have hret := (h.drained_retired hx (h.quiesced_drained hx hq)).1
          simp [h.session_live hl hv hx] at hret
      · exact h.removed_last hm
    unquiesced := fun {k x} hx hret hq => by
      obtain hd | ⟨m,hm,hv⟩ := h.unquiesced hx hret hq
      · exact .inl hd
      · obtain ⟨h1,-⟩ | ⟨h1,-⟩ := hr
        · simp [h1] at hm
        · exact .inr ⟨m,h1.trans hm,hv⟩
    restoring_closed := fun {ns'} hres => by
      obtain ⟨hnone,hout⟩ := h.restoring_closed hres
      have hne : ns'≠ns := by
        rintro rfl
        simp [hl] at hnone
      refine ⟨(hkeeps hne).trans hnone,fun hm => ?_⟩
      obtain ⟨rfl,-⟩ | hm := hrem hm
      · exact hns ▸ hne.symm
      · exact hout hm }

theorem addSlot_self : (s.addSlot ns i).slots s.nextSlot={ ns, clones := [i] } := by
  simp [addSlot]

theorem addSlot_ne (h : n≠s.nextSlot) : (s.addSlot ns i).slots n=s.slots n := by
  simp [addSlot,h]

theorem addSlot_lookup (hnone : s.sessions.lookup ns=none) :
    (s.addSlot ns i).sessions.lookup ns'=some n ↔ ns'=ns ∧ n=s.nextSlot ∨ s.sessions.lookup ns'=some n := by
  simp only [addSlot]
  by_cases hne : ns'=ns
  · subst hne
    simp [hnone,eq_comm]
  · simp [hne]

theorem Inv.addSlot (h : Inv s) (hnone : s.sessions.lookup ns=none)
    (hres : s.restoring ns=false) (hrem : s.removed=none) : Inv (s.addSlot ns i) := by
  have hfresh := h.fresh_slot (n := s.nextSlot) le_rfl
  have hvalue : ∀ n, ((s.addSlot ns i).slots n).cell.value=(s.slots n).cell.value := by
    intro n
    by_cases hne : n=s.nextSlot
    · subst hne
      rw [addSlot_self,hfresh.1]
    · rw [addSlot_ne hne]
  have hlookup : ∀ {ns' n}, s.sessions.lookup ns'=some n →
      (s.addSlot ns i).sessions.lookup ns'=some n := fun hl =>
    (addSlot_lookup hnone).mpr (.inr hl)
  exact { h with
    session_slot := fun {ns' n} hl => by
      obtain ⟨rfl,rfl⟩ | hl := (addSlot_lookup hnone).mp hl
      · exact ⟨Nat.lt_succ_self _,by rw [addSlot_self]⟩
      · obtain ⟨hlt,hn⟩ := h.session_slot hl
        exact ⟨Nat.lt_succ_of_lt hlt,by rw [addSlot_ne (Nat.ne_of_lt hlt),hn]⟩
    fresh_slot := fun {n} hn => by
      rw [addSlot_ne (Nat.ne_of_gt hn)]
      exact h.fresh_slot (Nat.le_of_succ_le hn)
    permit_clone := fun {n t} hp => by
      by_cases hne : n=s.nextSlot
      · subst hne
        simp [addSlot_self] at hp
      · rw [addSlot_ne hne] at hp ⊢
        exact h.permit_clone hp
    clone_session := fun {n} hv hc => by
      by_cases hne : n=s.nextSlot
      · subst hne
        rw [addSlot_self]
        exact (addSlot_lookup hnone).mpr (.inl ⟨rfl,rfl⟩)
      · rw [addSlot_ne hne] at hv hc ⊢
        exact hlookup (h.clone_session hv hc)
    value_state := fun {n k} hv => by
      rw [hvalue] at hv
      have hne : n≠s.nextSlot := by
        rintro rfl
        simp [hfresh.1] at hv
      rw [addSlot_ne hne]
      exact h.value_state hv
    value_inj := fun h1 h2 => by
      rw [hvalue] at h1 h2
      exact h.value_inj h1 h2
    state_slot := fun hx => by
      obtain ⟨m,hv,hlive⟩ := h.state_slot hx
      exact ⟨m,(hvalue m).trans hv,fun hr => (hlive hr).imp hlookup id⟩
    session_live := fun {ns' n k x} hl hv hx => by
      rw [hvalue] at hv
      obtain ⟨rfl,rfl⟩ | hl := (addSlot_lookup hnone).mp hl
      · simp [hfresh.1] at hv
      · exact h.session_live hl hv hx
    removed_session := fun hm => absurd (hrem.symm.trans hm) nofun
    removed_last := fun hm => absurd (hrem.symm.trans hm) nofun
    unquiesced := fun hx hr hq => by
      obtain hd | ⟨m,hm,-⟩ := h.unquiesced hx hr hq
      · exact .inl hd
      · exact absurd (hrem.symm.trans hm) nofun
    restoring_closed := fun {ns'} hr => by
      have hne : ns'≠ns := by
        rintro rfl
        exact absurd (hres.symm.trans hr) nofun
      refine ⟨?_,fun hm => absurd (hrem.symm.trans hm) nofun⟩
      exact (lookup_insert_ne hne).trans (h.restoring_closed hr).1 }

theorem Guar.addSlot (h : Inv s) (hl : s.sessionsLock=some i) : Guar i s (s.addSlot ns i) where
  others j hj := { Rely.refl j s with
    slots := fun n => by
      by_cases hne : n=s.nextSlot
      · subst hne
        have hfresh := h.fresh_slot (n := s.nextSlot) le_rfl
        exact ⟨fun hv => by simp [hfresh.1] at hv,fun hc => by simp [hfresh.2] at hc,
          fun hp => by simp [hfresh.1] at hp⟩
      · rw [addSlot_ne hne]
        exact .refl j _
    locked := fun hl' => absurd (some.inj (hl.symm.trans hl')) hj.symm }
  own hx := ⟨_,hx,rfl,rfl,id⟩

section
variable {x : NamespaceState}

theorem Inv.insertDraining (h : Inv s) (hx : s.states k=some x) (hret : x.retired=true)
    (hrem : s.removed=some n) (hv : (s.slots n).cell.value=some k) :
    Inv { s with draining := Function.update s.draining x.ns (some k), removed := none } := by
  have hk : ∀ {m k'}, s.removed=some m → (s.slots m).cell.value=some k' → k'=k := by
    intro m k' hm hv'
    obtain rfl := mem_unique hrem hm
    exact some.inj (hv'.symm.trans hv)
  obtain ⟨x0,hx0,hns⟩ := h.value_state hv
  obtain rfl := mem_unique hx hx0
  exact { h with
    state_slot := fun {k' z} hz => by
      obtain ⟨m,hvm,hlive⟩ := h.state_slot hz
      refine ⟨m,hvm,fun hr => .inl ((hlive hr).resolve_right fun hm => ?_)⟩
      obtain rfl := hk hm hvm
      obtain rfl := mem_unique hx hz
      simp [hret] at hr
    removed_lock := fun hne => absurd rfl hne
    removed_session := nofun
    removed_last := nofun
    unquiesced := fun {k' z} hz hr hq => by
      refine .inl ?_
      by_cases hz' : z.ns=x.ns
      · -- every other incarnation of the namespace is through its drain
        have : k'=k := by
          by_contra hne
          obtain ⟨k0,hk0,hlast⟩ := h.removed_last hrem
          obtain rfl := mem_unique hk0 hv
          have := hlast hz (hz'.trans hns) hne
          simp [hq] at this
        subst this
        obtain rfl := mem_unique hx hz
        exact update_self _ _ _
      · obtain hd | ⟨m,hm,hvm⟩ := h.unquiesced hz hr hq
        · exact (update_of_ne hz' _ _).trans hd
        · obtain rfl := hk hm hvm
          obtain rfl := mem_unique hx hz
          exact absurd rfl hz'
    draining_retired := fun {ns' k'} hd => by
      by_cases hns' : ns'=x.ns
      · subst hns'
        simp only [update_self,some.injEq] at hd
        subst hd
        exact ⟨x,hx,rfl,hret⟩
      · simp only [update_of_ne hns'] at hd
        exact h.draining_retired hd
    restoring_closed := fun hr => ⟨(h.restoring_closed hr).1,nofun⟩ }

theorem Inv.removeDraining (h : Inv s) (hx : s.states k=some x)
    (hq : x.quiesced.value=some ()) (hd : s.draining x.ns=some k) :
    Inv { s with draining := Function.update s.draining x.ns none } :=
  { h with
    unquiesced := fun {k' z} hz hr hq' => by
      obtain hd' | hm := h.unquiesced hz hr hq'
      · refine .inl ((update_of_ne (fun he => ?_) _ _).trans hd')
        obtain rfl : k=k' := some.inj (hd.symm.trans (he ▸ hd'))
        obtain rfl := mem_unique hx hz
        simp [hq] at hq'
      · exact .inr hm
    draining_retired := fun {ns' k'} hd' => by
      by_cases hns : ns'=x.ns
      · subst hns
        simp at hd'
      · simp only [update_of_ne hns] at hd'
        exact h.draining_retired hd' }

theorem Guar.draining : Guar i s { s with draining := d } :=
  ⟨fun j _ => { Rely.refl j s with },fun hx => ⟨_,hx,rfl,rfl,id⟩⟩

end

theorem Inv.initialises_unique (h : Inv s) (hn : s.Initialises i n) (hn' : s.Initialises j n')
    (hns : (s.slots n).ns=(s.slots n').ns) : i=j := by
  have hl := h.clone_session hn.2.1 (ne_nil_of_mem hn.2.2)
  have hl' := h.clone_session hn'.2.1 (ne_nil_of_mem hn'.2.2)
  obtain rfl : n=n' := some.inj (hl.symm.trans (hns ▸ hl'))
  exact some.inj (hn.1.symm.trans hn'.1)

def AllQuiesced (s : Registry) (ns : String) : Prop :=
  ∀ k x, s.states k=some x → x.ns=ns → x.quiesced.value=some ()

theorem getElem?_snoc {k : Nat} (h : (l++[ns])[k]?=some ns') : l[k]?=some ns' ∨ k=l.length ∧ ns=ns' := by
  rw [getElem?_append] at h
  split at h
  · exact .inl h
  · rename_i hk
    obtain ⟨h0,hns⟩ := List.getElem?_eq_some_iff.mp h
    simp only [length_cons,length_nil] at h0
    refine .inr ⟨by omega,?_⟩
    simpa using hns

theorem Inv.openWriter (h : Inv s) (hn : s.Initialises i n) (hq : AllQuiesced s (s.slots n).ns) :
    Inv { s with openings := s.openings++[(s.slots n).ns]
                 log := .opening s.openings.length (s.slots n).ns (s.restoring (s.slots n).ns) ::
                   s.log } := by
  have hl := h.clone_session hn.2.1 (ne_nil_of_mem hn.2.2)
  have hrest : s.restoring (s.slots n).ns=false := by
    by_contra hr
    have hnone := (h.restoring_closed (Bool.not_eq_false _ ▸ hr)).1
    simp [hl] at hnone
  have hold : ∀ {k : Nat} {ns}, s.openings[k]?=some ns →
      (s.openings++[(s.slots n).ns])[k]?=some ns := fun hk =>
    (List.getElem?_append_left (List.getElem?_eq_some_iff.mp hk).1).trans hk
  exact { h with
    opened := fun hx => hold (h.opened hx)
    superseded := fun {k k' x} hx ho hlt => by
      obtain ho | ⟨-,hns⟩ := getElem?_snoc ho
      · exact h.superseded hx ho hlt
      · exact hq k x hx hns.symm
    opening_logged := fun hm => by
      obtain he | hm := mem_cons.mp hm
      · cases he
        exact ⟨by simp,hrest⟩
      · obtain ⟨ho,hb⟩ := h.opening_logged hm
        exact ⟨hold ho,hb⟩
    follows := pairwise_cons.mpr ⟨fun _ _ => .inr trivial,h.follows⟩ }

theorem Guar.openWriter (h : Inv s) (hn : s.Initialises i n) {log : List Event} :
    Guar i s { s with openings := s.openings++[(s.slots n).ns], log } where
  others j hj := { Rely.refl j s with
    openings := fun {n' k} hn' hk => by
      obtain hk | ⟨-,hns⟩ := getElem?_snoc hk
      · exact hk
      · exact absurd (h.initialises_unique hn hn' hns) hj.symm
    opened := fun hk => (List.getElem?_append_left (List.getElem?_eq_some_iff.mp hk).1).trans hk }
  own hx := ⟨_,hx,rfl,rfl,id⟩

/-- No later incarnation of its namespace has been opened before an incarnation is drained. -/
theorem Inv.operation_follows (h : Inv s) (hx : s.states k=some x) (hq : x.quiesced.value=none) (op : Operation)
    (path : Path) : ∀ e ∈ s.log, (Event.operation k x.ns op path).Follows e := by
  intro e he
  cases e with
  | operation k' ns' op' path' => trivial
  | opening k' ns' b =>
    rintro rfl
    by_contra hlt
    have := h.superseded hx (h.opening_logged he).1 (Nat.lt_of_not_le hlt)
    simp [hq] at this

theorem Inv.operate (h : Inv s) (hx : s.states k=some x) (hq : path.unchecked=true ∨ x.quiesced.value=none)
    (op : Operation) : Inv { s with log := .operation k x.ns op path::s.log } :=
  { h with
    opening_logged := fun hm => by
      obtain he | hm := mem_cons.mp hm
      · cases he
      · exact h.opening_logged hm
    follows := pairwise_cons.mpr ⟨fun e he => hq.imp id fun hq => h.operation_follows hx hq op path e he,h.follows⟩ }

theorem Guar.log {log : List Event} : Guar i s { s with log } :=
  ⟨fun j _ => { Rely.refl j s with },fun hx => ⟨_,hx,rfl,rfl,id⟩⟩

section

/-- The spawned tasks are new, and their handles are those that are returned. -/
structure Spawned (s s' : Registry) (jobs : List Job) (handles : List Task) : Prop where
  old : ∀ {t z}, s.tasks t=some z → s'.tasks t=some z
  new : ∀ {t z}, s'.tasks t=some z → s.tasks t=some z ∨
    t∈handles ∧ z.job∈jobs ∧ z.reservation=none ∧ z.joining=[] ∧ z.done=false
  fresh : ∀ {t}, s'.nextTask≤t → s'.tasks t=none

theorem spawned (jobs : List Job) (s : Registry) (h : ∀ {t}, s.nextTask≤t → s.tasks t=none) :
    Spawned s (s.spawnAll jobs).2 jobs (s.spawnAll jobs).1 := by
  induction jobs generalizing s with
  | nil => exact ⟨id,.inl,h⟩
  | cons job rest ih =>
    have hfresh : ∀ {t}, (s.addTask { job }).nextTask≤t → (s.addTask { job }).tasks t=none :=
      fun ht => (addTask_ne (Nat.ne_of_gt ht)).trans (h (Nat.le_of_succ_le ht))
    obtain ⟨hold,hnew,hfr⟩ := ih _ hfresh
    refine ⟨fun {t z} hz => hold ?_,fun {t z} hz => ?_,hfr⟩
    · have hne : t≠s.nextTask := by
        rintro rfl
        rw [h le_rfl] at hz
        cases hz
      exact (addTask_ne hne).trans hz
    · simp only [spawnAll,mem_cons]
      obtain hz | ⟨ht,hj,hd⟩ := hnew hz
      · obtain ⟨rfl,rfl⟩ | ⟨-,hz⟩ := addTask_eq_some hz
        · exact .inr ⟨.inl rfl,.inl rfl,rfl,rfl,rfl⟩
        · exact .inl hz
      · exact .inr ⟨.inr ht,.inr hj,hd⟩

theorem committer_of_maintenanceJobs (h : Job.committer k'∈s.maintenanceJobs k) : k'=k := by
  simp only [maintenanceJobs,mem_append] at h
  obtain (h | h) | h := h <;> split at h <;> simp_all

theorem publish_slot_self : (s.publish n k).slots n =
    { s.slots n with cell := { value := some k, permit := none } } := by
  simp [Registry.publish]

theorem publish_slot_ne (h : n'≠n) : (s.publish n k).slots n'=s.slots n' := by
  simp [Registry.publish,h]

theorem publish_slot_ns (n' : SlotId) : ((s.publish n k).slots n').ns=(s.slots n').ns := by
  by_cases h : n'=n
  · subst h
    rw [publish_slot_self]
  · rw [publish_slot_ne h]

theorem publish_state_self : (s.publish n k).states k=some
    { ns := (s.slots n).ns, maintenanceTasks := (s.spawnAll (s.maintenanceJobs k)).1 } := by
  simp [Registry.publish]

theorem publish_state_ne (h : k'≠k) : (s.publish n k).states k'=s.states k' := by
  simp [Registry.publish,h]

theorem publish_eq_some (h : (s.publish n k).states k'=some x) :
    k'=k ∧ x={ ns := (s.slots n).ns, maintenanceTasks := (s.spawnAll (s.maintenanceJobs k)).1 } ∨
      k'≠k ∧ s.states k'=some x :=
  update_eq_some h

theorem publish_value (hn : (s.slots n).cell.value=none) : ((s.publish n k).slots n').cell.value=some k' ↔
      n'=n ∧ k'=k ∨ (s.slots n').cell.value=some k' := by
  by_cases h : n'=n
  · subst h
    simp [publish_slot_self,hn,eq_comm]
  · simp [publish_slot_ne h,h]

theorem Inv.publish (h : Inv s) (hn : s.Initialises i n) (hk : s.states k=none)
    (ho : s.openings[k]?=some (s.slots n).ns)
    (hlast : ∀ {k' : Incarnation}, s.openings[k']?=some (s.slots n).ns → k'≤k) : Inv (s.publish n k) := by
  have hl := h.clone_session hn.2.1 (ne_nil_of_mem hn.2.2)
  have hspawn := spawned (s.maintenanceJobs k) s h.fresh_task
  have hne : ∀ {k' x}, s.states k'=some x → k'≠k := by
    rintro k' x hx rfl
    simp [hk] at hx
  have hstate : ∀ {k' x}, s.states k'=some x → (s.publish n k).states k'=some x :=
    fun hx => (publish_state_ne (hne hx)).trans hx
  have hvalue : ∀ {n' k'}, (s.slots n').cell.value=some k' →
      ((s.publish n k).slots n').cell.value=some k' := fun hv =>
    (publish_value hn.2.1).mpr (.inr hv)
  exact { h with
    session_slot := fun hl' => by
      rw [publish_slot_ns]
      exact h.session_slot hl'
    fresh_slot := fun {n'} hf => by
      have hne' : n'≠n := by
        rintro rfl
        exact absurd (h.session_slot hl).1 (Nat.not_lt.mpr hf)
      rw [publish_slot_ne hne']
      exact h.fresh_slot hf
    permit_clone := fun {n' t} hp => by
      by_cases hne' : n'=n
      · subst hne'
        simp [publish_slot_self] at hp
      · rw [publish_slot_ne hne'] at hp ⊢
        exact h.permit_clone hp
    clone_session := fun {n'} hv hc => by
      have hne' : n'≠n := by
        rintro rfl
        simp [publish_slot_self] at hv
      rw [publish_slot_ne hne'] at hv hc ⊢
      exact h.clone_session hv hc
    value_state := fun {n' k'} hv => by
      rw [publish_slot_ns]
      obtain ⟨rfl,rfl⟩ | hv := (publish_value hn.2.1).mp hv
      · exact ⟨_,publish_state_self,rfl⟩
      · obtain ⟨x,hx,hns⟩ := h.value_state hv
        exact ⟨x,hstate hx,hns⟩
    value_inj := fun {n1 n2 k'} h1 h2 => by
      have hnone : ∀ {m}, (s.slots m).cell.value≠some k := by
        intro m hm
        obtain ⟨x,hx,-⟩ := h.value_state hm
        exact hne hx rfl
      obtain ⟨rfl,rfl⟩ | h1' := (publish_value hn.2.1).mp h1 <;>
        obtain ⟨rfl,hk'⟩ | h2' := (publish_value hn.2.1).mp h2
      · rfl
      · exact absurd h2' hnone
      · exact absurd (hk' ▸ h1') hnone
      · exact h.value_inj h1' h2'
    state_slot := fun hx => by
      obtain ⟨rfl,rfl⟩ | ⟨-,hx⟩ := publish_eq_some hx
      · exact ⟨n,(publish_value hn.2.1).mpr (.inl ⟨rfl,rfl⟩),fun _ => .inl hl⟩
      · obtain ⟨m,hv,hlive⟩ := h.state_slot hx
        exact ⟨m,hvalue hv,hlive⟩
    session_live := fun hl' hv hx => by
      obtain ⟨rfl,rfl⟩ | ⟨hk',hx⟩ := publish_eq_some hx
      · rfl
      · obtain ⟨-,rfl⟩ | hv := (publish_value hn.2.1).mp hv
        · exact absurd rfl hk'
        · exact h.session_live hl' hv hx
    removed_session := fun hm => by
      rw [publish_slot_ns]
      exact h.removed_session hm
    removed_last := fun hm => by
      obtain ⟨k0,hv,hother⟩ := h.removed_last hm
      refine ⟨k0,hvalue hv,fun hx hns hk' => ?_⟩
      rw [publish_slot_ns] at hns
      obtain ⟨rfl,rfl⟩ | ⟨-,hx⟩ := publish_eq_some hx
      · have hout := h.removed_session hm
        rw [← hns,hl] at hout
        cases hout
      · exact hother hx hns hk'
    unquiesced := fun hx hr hq => by
      obtain ⟨rfl,rfl⟩ | ⟨-,hx⟩ := publish_eq_some hx
      · cases hr
      · obtain hd | ⟨m,hm,hv⟩ := h.unquiesced hx hr hq
        · exact .inl hd
        · exact .inr ⟨m,hm,hvalue hv⟩
    draining_retired := fun hd => by
      obtain ⟨x,hx,hx'⟩ := h.draining_retired hd
      exact ⟨x,hstate hx,hx'⟩
    opened := fun hx => by
      obtain ⟨rfl,rfl⟩ | ⟨-,hx⟩ := publish_eq_some hx
      · exact ho
      · exact h.opened hx
    superseded := fun hx ho' hlt => by
      obtain ⟨rfl,rfl⟩ | ⟨-,hx⟩ := publish_eq_some hx
      · exact absurd (hlast ho') (Nat.not_le.mpr hlt)
      · exact h.superseded hx ho' hlt
    quiesced_drained := fun hx hq => by
      obtain ⟨rfl,rfl⟩ | ⟨-,hx⟩ := publish_eq_some hx
      · cases hq
      · exact h.quiesced_drained hx hq
    drained_retired := fun hx hd => by
      obtain ⟨rfl,rfl⟩ | ⟨-,hx⟩ := publish_eq_some hx
      · cases hd
      · exact h.drained_retired hx hd
    drained_committer := fun hx hd ht hj => by
      obtain ⟨rfl,rfl⟩ | ⟨hk',hx⟩ := publish_eq_some hx
      · cases hd
      · obtain ht | ⟨-,hjob,-⟩ := hspawn.new ht
        · exact h.drained_committer hx hd ht hj
        · exact absurd (committer_of_maintenanceJobs (hj ▸ hjob)) hk'
    committer_tracked := fun {k' t y} ht hj hd => by
      obtain ht | ⟨hmem,hjob,-⟩ := hspawn.new ht
      · obtain ⟨x,hx,hm | ⟨j,z,hp,hz,hmem⟩⟩ := h.committer_tracked ht hj hd
        · exact ⟨x,hstate hx,.inl hm⟩
        · exact ⟨x,hstate hx,.inr ⟨j,z,hp,hspawn.old hz,hmem⟩⟩
      · obtain rfl := committer_of_maintenanceJobs (hj ▸ hjob)
        exact ⟨_,publish_state_self,.inl hmem⟩
    restoring_closed := fun hr => by
      refine ⟨(h.restoring_closed hr).1,fun hm => ?_⟩
      rw [publish_slot_ns]
      exact (h.restoring_closed hr).2 hm
    reserved := fun ht hr => by
      obtain ht | ⟨-,-,hnone,-⟩ := hspawn.new ht
      · exact h.reserved ht hr
      · simp [hnone] at hr
    reserved_once := fun h1 h2 hr1 hr2 => by
      obtain h1 | ⟨-,-,hnone,-⟩ := hspawn.new h1
      · obtain h2 | ⟨-,-,hnone,-⟩ := hspawn.new h2
        · exact h.reserved_once h1 h2 hr1 hr2
        · simp [hnone] at hr2
      · simp [hnone] at hr1
    fresh_task := fun ht => hspawn.fresh ht
    unstarted := fun ht hs => by
      obtain ht | ⟨-,-,-,hidle⟩ := hspawn.new ht
      · exact h.unstarted ht hs
      · exact hidle
    lock_started := fun hl => by
      obtain ⟨y,hy,hs⟩ := h.lock_started hl
      exact ⟨y,hspawn.old hy,hs⟩ }

theorem Guar.publish (h : Inv s) (hn : s.Initialises i n) (hk : s.states k=none) : Guar i s (s.publish n k) where
  others j hj := by
    have hspawn := spawned (s.maintenanceJobs k) s h.fresh_task
    refine
      { own := fun hx => ⟨_,hspawn.old hx,rfl,rfl,id,rfl⟩
        done := fun {t} hd => ?_
        states := fun {k' x} hx => ⟨x,?_,.refl j x⟩
        slots := fun n' => ?_
        locked := fun hl => ⟨hl,rfl,rfl,fun {n'} hd => ?_,id⟩
        unlocked := id
        published := fun {n' k' x} hn' hx hnone hns => ?_
        openings := fun _ => id
        opened := id }
    · obtain ⟨z,hz,hdone⟩ := (any_eq_true _ _).mp hd
      exact (any_eq_true _ _).mpr ⟨z,hspawn.old hz,hdone⟩
    · rw [publish_state_ne,hx]
      rintro rfl
      simp [hk] at hx
    · by_cases hne : n'=n
      · subst hne
        rw [publish_slot_self]
        exact ⟨fun hv => by simp [hn.2.1] at hv,fun hc => ⟨hc,rfl⟩,
          fun hp => absurd (some.inj (hn.1.symm.trans hp)) hj.symm⟩
      · rw [publish_slot_ne hne]
        exact .refl j _
    · have hne : n'≠n := by
        rintro rfl
        have := hn.2.2
        simp_all [dead]
      simpa [dead,publish_slot_ne hne] using hd
    · obtain ⟨rfl,rfl⟩ | ⟨-,hx⟩ := publish_eq_some hx
      · exact hj (h.initialises_unique hn hn' hns).symm
      · simp [hnone] at hx
  own hx := ⟨_,(spawned (s.maintenanceJobs k) s h.fresh_task).old hx,rfl,rfl,id⟩

end

section

theorem Inv.restoring (h : Inv s) (hnone : s.sessions.lookup ns=none) (hrem : s.removed=none) :
    Inv { s with restoring := Function.update s.restoring ns true } :=
  { h with
    restoring_closed := fun {ns'} hr => by
      by_cases hne : ns'=ns
      · subst hne
        exact ⟨hnone,fun hm => absurd (hrem.symm.trans hm) nofun⟩
      · simp only [update_of_ne hne] at hr
        exact h.restoring_closed hr
    reserved := fun {t y ns'} ht hr => by
      by_cases hne : ns'=ns
      · subst hne
        exact update_self _ _ _
      · exact (update_of_ne hne _ _).trans (h.reserved ht hr) }

theorem Inv.reserve (h : Inv s) (hnone : s.sessions.lookup ns=none) (hrem : s.removed=none)
    (hres : s.restoring ns=false) (hme : s.tasks i=some me) :
    Inv { s.setTask i { me with reservation := some ns } with
      restoring := Function.update s.restoring ns true } := by
  refine (h.restoring hnone hrem).setTask (t := i) hme ⟨rfl,rfl,id,fun _ => id,fun _ => rfl⟩ fun ns' hns => ?_
  obtain rfl : ns=ns' := some.inj hns
  refine ⟨update_self _ _ _,fun t' z _ hz hr => ?_⟩
  have := h.reserved hz hr
  simp [hres] at this

theorem Guar.reserve (hl : s.sessionsLock=some i) (hme : s.tasks i=some me) {restoring : String → Bool} :
    Guar i s { s.setTask i { me with reservation := some ns } with restoring } := by
  obtain ⟨hothers,hown⟩ : Guar i s (s.setTask i { me with reservation := some ns }) :=
    .setTask hme ⟨rfl,rfl,id,fun _ => id,fun _ => rfl⟩ fun hne => absurd rfl hne
  exact ⟨fun j hj => { hothers j hj with
    locked := fun hj' => absurd (some.inj (hl.symm.trans hj')) hj.symm },hown⟩

theorem Inv.spawnCopy (h : Inv s) (hme : s.tasks i=some me) :
    Inv ((s.setTask i { me with reservation := none }).addTask
      { job := .restoreCopy, reservation := me.reservation }) := by
  have h₀ : Inv (s.setTask i { me with reservation := none }) :=
    h.setTask hme ⟨rfl,rfl,id,fun _ => id,fun _ => rfl⟩ nofun
  refine h₀.addTask nofun (fun ns hns => ?_) fun _ => ⟨rfl,rfl⟩
  obtain ⟨hr,hother⟩ := h.ownReservation hme hns
  refine ⟨hr,fun t z hz => ?_⟩
  obtain ⟨rfl,rfl⟩ | ⟨hne,hz⟩ := setTask_eq_some hz
  · nofun
  · exact hother t z hne hz

theorem Guar.spawnCopy (h : Inv s) (hme : s.tasks i=some me) :
    Guar i s ((s.setTask i { me with reservation := none }).addTask
      { job := .restoreCopy, reservation := me.reservation }) := by
  have he : Edits me { me with reservation := none } := ⟨rfl,rfl,id,fun _ => id,fun _ => rfl⟩
  have h₀ : Inv (s.setTask i { me with reservation := none }) := h.setTask hme he nofun
  have hg : Guar i s (s.setTask i { me with reservation := none }) :=
    .setTask hme he fun hne => absurd rfl hne
  refine ⟨fun j hj => (hg.others j hj).trans (.addTask h₀),fun {x} hx => ?_⟩
  obtain ⟨x',hx',hx''⟩ := hg.own hx
  exact ⟨x',addTask_old h₀ hx',hx''⟩

end

section

/-- What a task owes when it ends: it is not inside the session lock, and the handles it took to
wait for have ended. -/
def Exit (i : Task) (s : Registry) : Prop :=
  s.sessionsLock≠some i ∧ ∃ x, s.tasks i=some x ∧ x.started=true ∧
    ∀ t ∈ x.joining, s.isDone t=true

theorem Exit.stable (hr : Rely i s s') (h : Exit i s) : Exit i s' := by
  obtain ⟨hl,x,hx,hs,hdone⟩ := h
  obtain ⟨x',hx',-,-,hs',hj⟩ := hr.own hx
  exact ⟨hr.unlocked hl,x',hx',hs' hs,fun t ht => hr.done (hdone t (hj ▸ ht))⟩

theorem release_value (c : OnceCell α) : (c.release i).value=c.value := by
  simp only [OnceCell.release]
  split <;> rfl

theorem release_permit {c : OnceCell α} : (c.release i).permit=some j ↔ j≠i ∧ c.permit=some j := by
  simp only [OnceCell.release]
  split
  · rename_i h
    simp only [h,some.injEq,reduceCtorEq,false_iff,not_and]
    exact fun hne he => hne he.symm
  · rename_i h
    constructor
    · rintro hp
      exact ⟨fun he => h (he ▸ hp),hp⟩
    · exact And.right

theorem release_moves (h : Inv s) (he : Exit i s) (hx : s.states k=some x) (lease : Bool) :
    Moves s k x (x.release i lease) := by
  refine h.moves hx rfl rfl id rfl (release_value _) fun {t y} ht hj hd => ?_
  obtain hm | ⟨j,z,hp,hz,hmem⟩ := h.tracked hx ht hj hd
  · exact .inl hm
  · have hji : j≠i := by
      -- the leaving task has waited for every handle it took
      rintro rfl
      obtain ⟨-,me,hme,-,hjoined⟩ := he
      obtain rfl := mem_unique hme hz
      have := hjoined t hmem
      simp [isDone,ht,hd] at this
    exact .inr ⟨j,z,release_permit.mpr ⟨hji,hp⟩,hz,hmem⟩

/-- The permits, mutexes and clones that a leaving task gives back, with the states of the incarnations it leaves. -/
def Registry.released (s : Registry) (i : Task) (lease : Option Incarnation) : Registry :=
  { s with
    slots := fun n => (s.slots n).release i
    states := fun k => (s.states k).map (·.release i (lease=some k)) }

theorem Inv.released (h : Inv s) (he : Exit i s) (lease : Option Incarnation) : Inv (s.released i lease) := by
  have hstates : Inv { s with states := fun k => (s.states k).map (·.release i (lease=some k)) } := by
    refine h.changeStates (fun hx => ⟨_,by rw [hx]; rfl,release_moves h he hx _⟩) fun hx' => ?_
    obtain ⟨x,hx,rfl⟩ := map_eq_some_iff.mp hx'
    exact ⟨x,hx,release_moves h he hx _⟩
  refine hstates.changeSlots (fun _ => rfl) (fun _ => release_value _) (fun hn => ?_) (fun hp => ?_)
    fun hv hc => h.clone_session hv fun hnil => hc ?_
  · obtain ⟨hc,hcl⟩ := h.fresh_slot hn
    simp [Slot.release,OnceCell.release,hc,hcl]
  · obtain ⟨hne,hp⟩ := release_permit.mp hp
    simpa [Slot.release,hne] using h.permit_clone hp
  · simp [Slot.release,hnil]

theorem unreserve_eq_true {restoring : String → Bool} :
    unreserve restoring reservation ns=true ↔ restoring ns=true ∧ reservation≠some ns := by
  cases reservation with
  | none => simp [unreserve]
  | some ns' =>
    by_cases hne : ns=ns'
    · subst hne
      simp [unreserve]
    · simp [unreserve,update_of_ne hne,Ne.symm hne]

theorem dropTask_eq (he : Exit i s) (hme : s.tasks i=some me) : s.dropTask i =
    { (s.released i me.lease).setTask i { me with done := true, reservation := none, lease := none } with
      restoring := unreserve s.restoring me.reservation } := by
  simp only [dropTask,hme,if_neg he.1]
  rfl

theorem Inv.dropTask (h : Inv s) (he : Exit i s) : Inv (s.dropTask i) := by
  have hreleased := fun lease => h.released he lease
  have he' := he
  obtain ⟨-,me,hme,hstarted,-⟩ := he'
  rw [dropTask_eq he hme]
  have hI : Inv ((s.released i me.lease).setTask i { me with done := true, reservation := none, lease := none }) :=
    (hreleased _).recordTask hme id (fun _ => id) (fun _ _ => nofun)
      (fun hs => absurd (hstarted.symm.trans hs) nofun) nofun
  exact { hI with
    restoring_closed := fun hr => h.restoring_closed (unreserve_eq_true.mp hr).1
    reserved := fun ht hr => by
      obtain ⟨rfl,rfl⟩ | ⟨hti,ht⟩ := setTask_eq_some ht
      · cases hr
      · exact unreserve_eq_true.mpr ⟨h.reserved ht hr,fun hmine => hti (h.reserved_once ht hme hr hmine)⟩ }

theorem release_rely (hj : j≠i) (x : NamespaceState) (lease : Bool) : x.Rely j (x.release i lease) :=
  { NamespaceState.Rely.refl j x with
    quiesced := fun hq => (release_value _).trans hq
    writer := fun hw => by simp [NamespaceState.release,hw,hj]
    permit := fun hp => ⟨release_permit.mpr ⟨hj,hp⟩,release_value _⟩ }

theorem Rely.released (hj : j≠i) (lease : Option Incarnation) : Rely j s (s.released i lease) := by
  have hslots : Rely j s { s with slots := fun n => (s.slots n).release i } := by
    refine .changeSlots (fun n => ?_) fun _ hd => ?_
    · refine ⟨fun hv => (release_value _).trans hv,fun hc => ⟨?_,rfl⟩,
        fun hp => ⟨release_permit.mpr ⟨hj,hp⟩,release_value _⟩⟩
      simpa [Slot.release,hj] using hc
    · obtain ⟨hv,hc⟩ := dead_iff.mp hd
      exact ⟨(release_value _).trans hv,by simp [Slot.release,hc]⟩
  refine hslots.trans (.changeStates (fun hx => ⟨_,by rw [hx]; rfl,release_rely hj _ _⟩) fun hx' => ?_)
  obtain ⟨x,hx,-⟩ := map_eq_some_iff.mp hx'
  exact ⟨x,hx⟩

theorem Rely.dropTask (he : Exit i s) (hj : j≠i) : Rely j s (s.dropTask i) := by
  have he' := he
  obtain ⟨-,me,hme,-⟩ := he'
  rw [dropTask_eq he hme]
  refine (Rely.released (s := s) hj me.lease).trans
    { Rely.refl j (s.released i me.lease) with
      own := fun {x} hx => ⟨x,(setTask_ne hj).trans hx,rfl,rfl,id,rfl⟩
      done := fun {t} hd => ?_
      locked := fun hl => ⟨hl,rfl,rfl,id,fun {ns} hr => ?_⟩ }
  · by_cases ht : t=i
    · subst ht
      simp [isDone,setTask_self]
    · simpa [isDone,setTask_ne ht] using hd
  · refine Bool.eq_false_iff.mpr fun hr' => ?_
    cases hr.symm.trans (unreserve_eq_true.mp hr').1

end
end NamiDB.Server
