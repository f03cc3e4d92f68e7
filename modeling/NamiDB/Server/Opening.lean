import NamiDB.Server.Draining

/-! Evicting, opening and reserving namespaces: the map is changed under the session lock only, and
an opener has seen every earlier incarnation of the namespace through its drain. -/
namespace NamiDB.Server
open Lib Registry Option

variable {i : Task} {k : Incarnation} {n : SlotId} {ns : String} {s : Registry}

def Locked (i : Task) (removed : Option SlotId) (s : Registry) : Prop :=
  s.sessionsLock=some i ∧ s.removed=removed ∧ Joined i s

theorem Locked.stable {removed : Option SlotId} (hr : Rely i s s') (h : Locked i removed s) :
    Locked i removed s' := by
  obtain ⟨hl,hm,hj⟩ := h
  obtain ⟨hl',-,hm',-⟩ := hr.locked hl
  exact ⟨hl',hm'.trans hm,hj.stable hr⟩

theorem Locked.vacant (hr : Rely i s s') (h : Locked i none s ∧ s.sessions.lookup ns=none) :
    Locked i none s' ∧ s'.sessions.lookup ns=none := by
  obtain ⟨-,hs,-⟩ := hr.locked h.1.1
  exact ⟨h.1.stable hr,hs ▸ h.2⟩

theorem holds_lockSessions : Holds i (Exit i) (send .lockSessions) fun _ => Locked i none := by
  refine .send (fun hr _ h => h.stable hr) (fun _ _ h => ⟨h.1,h.started⟩)
    fun {s c r s'} hI h hc => ?_
  simp only [handle] at hc
  split at hc
  · cases hc
  · rename_i hfree
    cases hc
    have hnone : s.sessionsLock=none := by simpa using hfree
    refine ⟨hI.lockSessions h.started,.lockSessions hnone,rfl,?_,h.2⟩
    by_contra hm
    exact hI.removed_lock hm hnone

theorem holds_unlockSessions {P : Registry → Prop}
    (hrely : ∀ {s s'}, Rely i s s' → Inv s' → Locked i none s ∧ P s → P s')
    (hunlock : ∀ {s}, P s → P { s with sessionsLock := none }) :
    Holds i (fun s => Locked i none s ∧ P s) (send .unlockSessions) fun _ s => Exit i s ∧ P s := by
  refine .send (fun hr hI h => ⟨h.1.stable hr,hrely hr hI h⟩) nofun
    fun {s c r s'} hI h hc => ?_
  cases hc
  obtain ⟨⟨hl,hm,hj⟩,hp⟩ := h
  exact ⟨hI.unlockSessions hm,.unlockSessions hl,⟨nofun,hj⟩,hunlock hp⟩

def Cloned (i : Task) (n : SlotId) (ns : String) (s : Registry) : Prop :=
  i∈(s.slots n).clones ∧ (s.slots n).ns=ns

theorem Cloned.stable (hr : Rely i s s') (h : Cloned i n ns s) : Cloned i n ns s' := by
  obtain ⟨hc,hns⟩ := (hr.slots n).clones h.1
  exact ⟨hc,hns.trans h.2⟩

theorem clone_step (hI : Inv s) (hl : s.sessions.lookup ns=some n) (hlock : ∀ j, j≠i → s.sessionsLock≠some j) :
    Inv (s.cloneSlot n i) ∧ Guar i s (s.cloneSlot n i) ∧ Cloned i n ns (s.cloneSlot n i) := by
  obtain ⟨hlt,hns⟩ := hI.session_slot hl
  refine ⟨hI.setSlot hlt rfl rfl (fun t ht => ?_) fun _ _ => ?_,
    .setSlot (fun j _ => ?_) fun j hj hl' => absurd hl' (hlock j hj),?_⟩
  · exact .tail _ (hI.permit_clone ht)
  · exact hns.symm ▸ hl
  · exact ⟨id,fun hc => ⟨.tail _ hc,rfl⟩,fun hp => ⟨hp,rfl⟩⟩
  · simp [Cloned,cloneSlot,setSlot_self,hns]

section

/-- Inside `insert_slot`: the namespace has no slot and is not being restored, and the victims so
far are retired. -/
def Evicting (i : Task) (ns : String) (victims : List Incarnation) (removed : Option SlotId) (s : Registry) : Prop :=
  Locked i removed s ∧ s.sessions.lookup ns=none ∧ s.restoring ns=false ∧
    ∀ k ∈ victims, Retired k s

variable {victims : List Incarnation} {removed : Option SlotId} {v : String}

theorem Evicting.stable (hr : Rely i s s') (h : Evicting i ns victims removed s) :
    Evicting i ns victims removed s' := by
  obtain ⟨hl,hnone,hres,hv⟩ := h
  obtain ⟨-,hs,-,-,hres'⟩ := hr.locked hl.1
  exact ⟨hl.stable hr,hs ▸ hnone,hres' hres,fun k hk => (hv k hk).stable hr⟩

theorem Evicting.read (hw : o.waits=false) (hread : ∀ {s c r s'}, handle i s o c=some (r,s') → s'=s)
    (h : ∀ {s c r}, Inv s → Evicting i ns victims removed s → handle i s o c=some (r,s) → Q r s) :
    Holds i (Evicting i ns victims removed) (send o) Q :=
  Holds.read (fun hr _ h => h.stable hr) (fun hw' => absurd (hw.symm.trans hw') nofun) hread h

def Victim (v : String) (s : Registry) : Prop :=
  ∃ n, s.sessions.lookup v=some n ∧
    ((∃ k, (s.slots n).cell.value=some k) ∨ s.dead n=true)

theorem Victim.stable (hr : Rely i s s') (hl : s.sessionsLock=some i) (h : Victim v s) : Victim v s' := by
  obtain ⟨n,hn,hv⟩ := h
  obtain ⟨-,hs,-,hd,-⟩ := hr.locked hl
  exact ⟨n,hs ▸ hn,hv.imp (fun ⟨k,hk⟩ => ⟨k,(hr.slots n).value hk⟩) hd⟩

theorem handle_findIdleOldest (hc : handle i s .findIdleOldest c=some (r,s')) :
    s'=s ∧ ∀ v, r=some v → Victim v s := by
  obtain ⟨v,rfl⟩ : ∃ v, c = .victim v := by cases c <;> first | exact ⟨_,rfl⟩ | cases hc
  cases v <;> simp only [handle] at hc
  · split at hc <;> cases hc
    exact ⟨rfl,fun _ hv => by cases hv⟩
  · split at hc <;> [cases hc; split at hc] <;> cases hc
    rename_i n hn hidle
    refine ⟨rfl,fun v hv => ⟨n,some.inj hv ▸ hn,?_⟩⟩
    cases hval : (s.slots n).cell.value with
    | some k => exact .inl ⟨k,rfl⟩
    | none => exact .inr (by simpa [dead,hval] using hidle)

theorem holds_findIdleOldest : Holds i (Evicting i ns victims none) (send .findIdleOldest)
    fun r s => Evicting i ns victims none s ∧ ∀ v, r=some v → Victim v s :=
  Evicting.read rfl (fun hc => (handle_findIdleOldest hc).1) fun _ h hc => ⟨h,(handle_findIdleOldest hc).2⟩

/-- The initialised slot of incarnation `k` is out of the map and `k` is not yet in the draining map. -/
def Removing (i : Task) (ns : String) (victims : List Incarnation) (k : Incarnation) (s : Registry) : Prop :=
  ∃ n, Evicting i ns victims (some n) s ∧ (s.slots n).cell.value=some k

theorem Removing.stable (hr : Rely i s s') : Removing i ns victims k s → Removing i ns victims k s' :=
  fun ⟨n,h,hv⟩ => ⟨n,h.stable hr,(hr.slots n).value hv⟩

theorem holds_removeSlot : Holds i (fun s => Evicting i ns victims none s ∧ Victim v s) (send (.removeSlot v))
      fun r s => match r with
        | none => Evicting i ns victims none s
        | some k => Removing i ns victims k s := by
  refine .send (fun hr _ h => ⟨h.1.stable hr,h.2.stable hr h.1.1.1⟩) nofun
    fun {s c r s'} hI h hc => ?_
  obtain ⟨⟨⟨hl,hrem,hj⟩,hnone,hres,hvict⟩,m,hm,hval⟩ := h
  simp only [handle,hm] at hc
  have hlock : s.sessionsLock≠none := by simp [hl]
  have hstill : (s.sessions.erase v).lookup ns=none := by
    by_contra hne
    obtain ⟨m',hm'⟩ := ne_none_iff_exists'.mp hne
    have := (lookup_erase_some hm').2
    simp [hnone] at this
  cases hv : (s.slots m).cell.value with
  | none =>
    simp only [hv,isSome_none,some.injEq] at hc
    cases hc
    have hdead := hval.resolve_left (by simp [hv])
    refine ⟨hI.eraseSession hlock hm (.inr ⟨rfl,hdead⟩),.ofLocked hl rfl (fun _ => rfl) rfl rfl rfl,
      ⟨hl,hrem,hj⟩,hstill,hres,hvict⟩
  | some k =>
    simp only [hv,some.injEq] at hc
    cases hc
    refine ⟨hI.eraseSession hlock hm (.inl ⟨hrem,rfl,k,hv⟩),
      .ofLocked hl rfl (fun _ => rfl) rfl rfl rfl,m,⟨⟨hl,rfl,hj⟩,hstill,hres,hvict⟩,hv⟩

theorem evicting_setState (hx : s.states k=some x) (hr : x.retired=true → x'.retired=true)
    (h : Evicting i ns victims removed s) : Evicting i ns victims removed (s.setState k x') := by
  obtain ⟨hl,hnone,hres,hv⟩ := h
  refine ⟨hl,hnone,hres,fun k' hk' => ?_⟩
  obtain ⟨y,hy,hret⟩ := hv k' hk'
  by_cases hk : k'=k
  · subst hk
    obtain rfl := mem_unique hx hy
    exact ⟨x',setState_self,hr hret⟩
  · exact ⟨y,(setState_ne hk).trans hy,hret⟩

theorem holds_markRetired : Holds i (Removing i ns victims k) (markRetired k) fun _ s =>
    Removing i ns victims k s ∧ Retired k s := by
  refine .bind (Q := fun _ s => Removing i ns victims k s ∧ Retired k s) ?_ fun _ => ?_
  · refine Holds.send (fun hr _ h => h.stable hr) nofun fun {s c r s'} hI h hc => ?_
    obtain ⟨m,hev,hv⟩ := h
    obtain ⟨x,hx,⟨⟩⟩ := map_eq_some_iff.mp hc
    have hm : Moves s k x { x with retired := true } :=
      { ns := rfl
        retired := .inr ⟨rfl,m,hev.1.2.1,hv⟩
        quiesced := id
        quiesced_drained := hI.quiesced_drained (x := x) hx
        drained_retired := fun hd => ⟨rfl,(hI.drained_retired (x := x) hx hd).2⟩
        drained_committer := hI.drained_committer (x := x) hx
        tracked := hI.tracked hx }
    refine ⟨hI.setState hx hm,.setState hx fun j _ => ?_,
      ⟨m,evicting_setState hx (fun _ => rfl) hev,hv⟩,_,setState_self,rfl⟩
    exact { NamespaceState.Rely.refl j x with retired := fun _ => rfl }
  · refine Holds.send (fun hr _ h => ⟨h.1.stable hr,h.2.stable hr⟩) nofun
      fun {s c r s'} hI h hc => ?_
    obtain ⟨⟨m,hev,hv⟩,y,hy,hret⟩ := h
    obtain ⟨x,hx,⟨⟩⟩ := map_eq_some_iff.mp hc
    obtain rfl := mem_unique hx hy
    have hm : Moves s k x { x with cancelled := true } :=
      hI.moves hx rfl rfl (fun _ => rfl) rfl rfl (hI.tracked hx)
    refine ⟨hI.setState hx hm,.setState hx fun j _ => ?_,⟨m,evicting_setState hx id hev,hv⟩,_,setState_self,hret⟩
    exact { NamespaceState.Rely.refl j x with cancelled := fun _ => rfl }

theorem holds_insertDraining :
    Holds i (fun s => Removing i ns victims k s ∧ Retired k s) (send (.insertDraining k)) fun _ =>
      Evicting i ns (victims++[k]) none := by
  refine .send (fun hr _ h => ⟨h.1.stable hr,h.2.stable hr⟩) nofun fun {s c r s'} hI h hc => ?_
  obtain ⟨⟨m,⟨⟨hl,hrem,hj⟩,hnone,hres,hvict⟩,hv⟩,y,hy,hret⟩ := h
  obtain ⟨x,hx,⟨⟩⟩ := map_eq_some_iff.mp hc
  obtain rfl := mem_unique hx hy
  refine ⟨hI.insertDraining hx hret hrem hv,.ofLocked hl rfl (fun _ => rfl) rfl rfl rfl,
    ⟨hl,rfl,hj⟩,hnone,hres,List.forall_mem_append.mpr ⟨hvict,fun k' hk' => ?_⟩⟩
  obtain rfl := List.mem_singleton.mp hk'
  exact ⟨x,hx,hret⟩

theorem holds_evictIdle (fuel : Nat) : Holds i (Evicting i ns victims none) (evictIdle fuel victims)
      fun r => Evicting i ns r.2 none := by
  induction fuel generalizing victims with
  | zero => exact .ret fun _ => id
  | succ fuel ih =>
    refine .bind (Q := fun _ => Evicting i ns victims none) ?_ fun full => ?_
    · refine Evicting.read rfl (fun hc => ?_) fun _ h _ => h
      cases hc
      rfl
    cases full with
    | false => exact .ret fun _ => id
    | true =>
      refine .bind holds_findIdleOldest fun v => ?_
      cases v with
      | none => exact .ret fun _ h => h.1
      | some v =>
        refine .bind (holds_removeSlot.mono (fun s h => ⟨h.1,h.2 v rfl⟩) fun _ _ => id)
          fun evicted => ?_
        cases evicted with
        | none => exact ih
        | some k =>
          exact .bind holds_markRetired fun _ => .bind holds_insertDraining fun _ => ih

end

section
variable {victims : List Incarnation} {slot : Option SlotId}

def Claimed (i : Task) (ns : String) (claim : Option SlotId × List Incarnation) (s : Registry) : Prop :=
  (∀ n, claim.1=some n → Cloned i n ns s) ∧ ∀ k ∈ claim.2, Retired k s

theorem Claimed.stable (hr : Rely i s s') (h : Claimed i ns claim s) : Claimed i ns claim s' :=
  ⟨fun n hn => (h.1 n hn).stable hr,fun k hk => (h.2 k hk).stable hr⟩

theorem holds_findSlot : Holds i (Locked i none) (send (.findSlot ns)) fun r s =>
    Locked i none s ∧ (∀ n, r=some n → Cloned i n ns s) ∧ (r=none → s.sessions.lookup ns=none) := by
  refine .send (fun hr _ h => h.stable hr) nofun fun {s c r s'} hI h hc => ?_
  simp only [handle] at hc
  split at hc
  · rename_i hnone
    cases hc
    exact ⟨hI,.refl i _,h,(fun _ hn => by cases hn),fun _ => hnone⟩
  · rename_i n hn
    cases hc
    have hlock : ∀ j, j≠i → s.sessionsLock≠some j := by
      rintro j hj hl
      exact hj (some.inj (hl.symm.trans h.1))
    obtain ⟨hI',hg,hcl⟩ := clone_step hI hn hlock
    refine ⟨hI',hg,h,fun n' hn' => ?_,fun hn' => by cases hn'⟩
    cases hn'
    exact hcl

theorem holds_newSlot : Holds i (Evicting i ns victims none) (send (.newSlot ns)) fun n s =>
    Locked i none s ∧ Claimed i ns (some n,victims) s := by
  refine .send (fun hr _ h => h.stable hr) nofun fun {s c r s'} hI h hc => ?_
  cases hc
  obtain ⟨⟨hl,hrem,hj⟩,hnone,hres,hv⟩ := h
  refine ⟨hI.addSlot hnone hres hrem,.addSlot hI hl,⟨hl,hrem,hj⟩,fun n hn => ?_,hv⟩
  obtain rfl := some.inj hn
  simp [Cloned,addSlot_self]

theorem holds_claimSlot : Holds i (Locked i none) (claimSlot ns) fun claim s =>
    Locked i none s ∧ Claimed i ns claim s := by
  refine .bind holds_findSlot fun found => ?_
  cases found with
  | some n => exact .ret fun s h => ⟨h.1,h.2.1,nofun⟩
  | none =>
    refine .bind (Q := fun r s => (Locked i none s ∧ s.sessions.lookup ns=none) ∧
      (r=false → s.restoring ns=false)) ?_ fun restoring => ?_
    · refine (Holds.read (fun hr _ => Locked.vacant hr) (fun hw => by cases hw) (fun hc => ?_)
        fun _ h hc => ⟨h,fun hr => ?_⟩).mono
        (fun s h => ⟨h.1,h.2.2 rfl⟩) fun _ _ => id
      · cases hc
        rfl
      · cases hc
        exact hr
    cases restoring with
    | true => exact .ret fun s h => ⟨h.1.1,nofun,nofun⟩
    | false =>
      refine .bind (Q := fun _ => Evicting i ns [] none) ?_ fun count =>
        .bind (holds_evictIdle count) fun evicted => ?_
      · refine (Evicting.read (Q := fun _ => Evicting i ns [] none) rfl (fun hc => ?_)
          fun _ h _ => h).mono (fun s h => ⟨h.1.1,h.1.2,h.2 rfl,nofun⟩) fun _ _ => id
        cases hc
        rfl
      · obtain ⟨room,victims⟩ := evicted
        cases room with
        | true => exact .bind holds_newSlot fun n => .ret fun _ => id
        | false => exact .ret fun s h => ⟨h.1,nofun,h.2.2.2⟩

theorem frame_claimed : Frame i fun s => Claimed i ns (slot,victims) s where
  rely hr _ h := h.stable hr
  calm hc _ h := by
    refine ⟨fun n hn => ?_,fun k hk => ?_⟩
    · have := h.1 n hn
      simpa [Cloned,hc.slots] using this
    · obtain ⟨x,hx,hret⟩ := h.2 k hk
      obtain ⟨x',hx',-,hret',-⟩ := hc.states hx
      exact ⟨x',hx',hret' hret⟩

theorem holds_drainAll : Holds i (fun s => Exit i s ∧ Claimed i ns (slot,victims) s) (victims.forM drain)
      fun _ s => Exit i s ∧ ∀ n, slot=some n → Cloned i n ns s := by
  induction victims with
  | nil => exact .ret fun s h => ⟨h.1,h.2.1⟩
  | cons k rest ih =>
    have hframe : Frame i (Claimed i ns (slot,rest)) := frame_claimed
    refine .bind ((holds_drain hframe).mono (fun s h => ⟨⟨h.1,h.2.1,fun k' hk' => h.2.2 k' (.tail _ hk')⟩,
        h.2.2 k (.head _)⟩) fun _ s h => h.1) fun _ => ih

theorem holds_insertSlot : Holds i (Exit i) (insertSlot ns) fun slot s =>
    Exit i s ∧ ∀ n, slot=some n → Cloned i n ns s := by
  simp only [insertSlot]
  split
  · refine .bind holds_lockSessions fun _ => .bind holds_claimSlot fun claim => ?_
    obtain ⟨slot,victims⟩ := claim
    refine .bind (holds_unlockSessions (P := Claimed i ns (slot,victims))
      (fun hr _ h => h.2.stable hr) id) fun _ => .bind holds_drainAll fun _ => .ret fun _ => id
  · exact .ret fun s h => ⟨h,nofun⟩

end

def Opening (i : Task) (n : SlotId) (ns : String) (s : Registry) : Prop :=
  s.Initialises i n ∧ (s.slots n).ns=ns

theorem Opening.stable (hr : Rely i s s') (h : Opening i n ns s) : Opening i n ns s' := by
  obtain ⟨hn,hns⟩ := hr.initialises h.1
  exact ⟨hn,hns.trans h.2⟩

theorem holds_enterSlot : Holds i (fun s => Exit i s ∧ Cloned i n ns s) (send (.enterSlot n))
    fun r s => Exit i s ∧ (r=none → Opening i n ns s) := by
  refine .send (fun hr _ h => ⟨h.1.stable hr,h.2.stable hr⟩) (fun _ _ h => ⟨h.1.1,h.1.started⟩)
    fun {s c r s'} hI h hc => ?_
  obtain ⟨he,hcl,hns⟩ := h
  simp only [handle] at hc
  split at hc
  · cases hc
    exact ⟨hI,.refl i _,he,fun hr => by cases hr⟩
  · cases hc
  · rename_i hv hp
    cases hc
    have hl := hI.clone_session hv (List.ne_nil_of_mem hcl)
    refine ⟨hI.setSlot (hI.session_slot hl).1 rfl hv.symm ?_ fun _ _ => hl,
      .setSlot (fun j _ => ?_) fun j _ _ hd => ?_,he,fun _ => ?_⟩
    · rintro t ht
      obtain rfl := some.inj ht
      exact hcl
    · exact ⟨fun h => by simp [hv] at h,fun h => ⟨h,rfl⟩,fun h => by simp [hp] at h⟩
    · exact absurd (dead_iff.mp hd).2 (List.ne_nil_of_mem hcl)
    · simp [Opening,Initialises,setSlot_self,hcl,hns]

/-- While a task opens a namespace, only the incarnation in the draining map can have its drain
before it. -/
theorem quiesced_of_opening (hI : Inv s) (h : Opening i n ns s) (hx : s.states k=some x) (hns : x.ns=ns)
    (hd : s.draining ns≠some k) : x.quiesced.value=some () := by
  obtain ⟨⟨-,hv,hc⟩,hslot⟩ := h
  have hl := hI.clone_session hv (List.ne_nil_of_mem hc)
  rw [hslot] at hl
  have hremoved : ∀ {m}, s.removed=some m → (s.slots m).cell.value≠some k := by
    intro m hm hvm
    obtain ⟨y,hy,hyns⟩ := hI.value_state hvm
    obtain rfl := mem_unique hx hy
    have hout := hI.removed_session hm
    rw [← hyns,hns,hl] at hout
    cases hout
  have hret : x.retired=true := by
    by_contra hlive
    obtain ⟨m,hvm,hplace⟩ := hI.state_slot hx
    obtain hm | hm := hplace (Bool.eq_false_iff.mpr hlive)
    · obtain rfl : n=m := some.inj (hl.symm.trans (hns ▸ hm))
      simp [hv] at hvm
    · exact hremoved hm hvm
  by_contra hq
  have hnone : x.quiesced.value=none := eq_none_iff_forall_ne_some.mpr fun _ => hq
  obtain hd' | ⟨m,hm,hvm⟩ := hI.unquiesced hx hret hnone
  · exact hd (hns ▸ hd')
  · exact hremoved hm hvm

def OthersQuiesced (k : Option Incarnation) (ns : String) (s : Registry) : Prop :=
  ∀ k' x, s.states k'=some x → x.ns=ns → k≠some k' → x.quiesced.value=some ()

theorem frame_opening {k : Option Incarnation} : Frame i fun s => Opening i n ns s ∧ OthersQuiesced k ns s where
  rely {s s'} hr _ h := by
    refine ⟨h.1.stable hr,fun k' x' hx' hns hne => ?_⟩
    cases hx : s.states k' with
    | none => exact absurd hns (h.1.2 ▸ hr.published h.1.1 hx' hx)
    | some x =>
      obtain ⟨y,hy,hrel⟩ := hr.states hx
      obtain rfl := mem_unique hy hx'
      exact hrel.quiesced (h.2 k' x hx (hrel.ns.symm.trans hns) hne)
  calm {s s'} hc _ h := by
    refine ⟨?_,fun k' x' hx' hns hne => ?_⟩
    · have := h.1
      simpa [Opening,Initialises,hc.slots] using this
    · obtain ⟨x,hx⟩ := hc.old hx'
      obtain ⟨y,hy,hyns,-,hq⟩ := hc.states hx
      obtain rfl := mem_unique hy hx'
      exact hq (h.2 k' x hx (hyns.symm.trans hns) hne)

theorem holds_getDraining : Holds i (fun s => Exit i s ∧ Opening i n ns s) (send (.getDraining ns))
    fun r s => (Exit i s ∧ Opening i n ns s ∧ OthersQuiesced r ns s) ∧ ∀ k, r=some k → Retired k s := by
  refine .read (fun hr _ h => ⟨h.1.stable hr,h.2.stable hr⟩) nofun (fun hc => ?_)
    fun {s c r} hI h hc => ?_
  · cases hc
    rfl
  · have hr : s.draining ns=r := (Prod.mk.inj (some.inj hc)).1
    refine ⟨⟨h.1,h.2,fun k' x hx hns hne => ?_⟩,fun k hk => ?_⟩
    · exact quiesced_of_opening hI h.2 hx hns (hr ▸ hne)
    · obtain ⟨x,hx,-,hret⟩ := hI.draining_retired (hr.trans hk)
      exact ⟨x,hx,hret⟩

theorem holds_drainPrevious : Holds i (fun s => Exit i s ∧ Opening i n ns s) (drainPrevious ns)
    fun _ s => Exit i s ∧ Opening i n ns s ∧ OthersQuiesced none ns s := by
  refine .bind holds_getDraining fun previous => ?_
  cases previous with
  | none => exact .ret fun s h => h.1
  | some k =>
    have hframe : Frame i fun s => Opening i n ns s ∧ OthersQuiesced (some k) ns s := frame_opening
    refine (holds_drain hframe).mono
      (fun s h => ⟨⟨h.1.1,h.1.2⟩,h.2 k rfl⟩) fun _ s h => ⟨h.1.1,h.1.2.1,fun k' x hx hns _ => ?_⟩
    by_cases hk : k=k'
    · subst hk
      obtain ⟨y,hy,hq⟩ := h.2
      obtain rfl := mem_unique hx hy
      exact hq
    · exact h.1.2.2 k' x hx hns fun he => hk (some.inj he)

/-- Attempt `k` is the latest one of the namespace and has not produced a state. -/
def Attempt (k : Incarnation) (ns : String) (s : Registry) : Prop :=
  s.openings[k]?=some ns ∧ (∀ k', s.openings[k']?=some ns → k'≤k) ∧ s.states k=none

theorem Attempt.stable (hr : Rely i s s') (hI : Inv s') (ho : Opening i n ns s)
    (h : Attempt k ns s) : Attempt k ns s' := by
  obtain ⟨hk,hlast,hnone⟩ := h
  have hk' := hr.opened hk
  refine ⟨hk',fun k' hk'' => hlast k' ?_,?_⟩
  · have := hr.openings (k := k') ho.1
    rw [ho.2] at this
    exact this hk''
  · by_contra hne
    obtain ⟨x,hx⟩ := ne_none_iff_exists'.mp hne
    refine hr.published ho.1 hx hnone ?_
    rw [ho.2]
    exact some.inj ((hI.opened hx).symm.trans hk')

theorem holds_openWriter : Holds i (fun s => Exit i s ∧ Opening i n ns s ∧ OthersQuiesced none ns s)
      (send (.openWriter ns)) fun k s => Exit i s ∧ Opening i n ns s ∧ Attempt k ns s := by
  refine .send (fun hr hI h => ⟨h.1.stable hr,frame_opening.rely hr hI h.2⟩) nofun
    fun {s c r s'} hI h hc => ?_
  cases hc
  obtain ⟨he,⟨hn,rfl⟩,hq⟩ := h
  have hall : AllQuiesced s (s.slots n).ns := fun k x hx hns => hq k x hx hns nofun
  refine ⟨hI.openWriter hn hall,.openWriter hI hn,he,⟨hn,rfl⟩,by simp,fun k' hk' => ?_,?_⟩
  · obtain hk' | ⟨rfl,-⟩ := getElem?_snoc hk'
    · exact Nat.le_of_lt (List.getElem?_eq_some_iff.mp hk').1
    · exact le_rfl
  · by_contra hne
    obtain ⟨x,hx⟩ := ne_none_iff_exists'.mp hne
    have := (List.getElem?_eq_some_iff.mp (hI.opened hx)).1
    omega

theorem stable_attempt (hr : Rely i s s') (hI : Inv s') (h : Exit i s ∧ Opening i n ns s ∧ Attempt k ns s) :
    Exit i s' ∧ Opening i n ns s' ∧ Attempt k ns s' :=
  ⟨h.1.stable hr,h.2.1.stable hr,h.2.2.stable hr hI h.2.1⟩

theorem holds_publish : Holds i (fun s => Exit i s ∧ Opening i n ns s ∧ Attempt k ns s)
    (send (.publish n k)) fun _ => Exit i := by
  refine .send stable_attempt nofun fun {s c r s'} hI h hc => ?_
  cases hc
  obtain ⟨he,⟨hn,rfl⟩,hk,hlast,hnone⟩ := h
  have hspawn := spawned (s.maintenanceJobs k) s hI.fresh_task
  have hg : Guar i s (s.publish n k) := .publish hI hn hnone
  refine ⟨hI.publish hn hnone hk (hlast _),hg,he.of rfl (fun hx => ⟨_,hspawn.old hx,id,rfl⟩)
    fun hd => ?_⟩
  obtain ⟨z,hz,hdone⟩ := (any_eq_true _ _).mp hd
  exact (any_eq_true _ _).mpr ⟨z,hspawn.old hz,hdone⟩

theorem holds_leaveSlot : Holds i (fun s => Exit i s ∧ Opening i n ns s ∧ Attempt k ns s)
    (send (.leaveSlot n)) fun _ => Exit i := by
  refine .send stable_attempt nofun fun {s c r s'} hI h hc => ?_
  cases hc
  obtain ⟨he,⟨⟨hp,hv,hcl⟩,rfl⟩,-⟩ := h
  have hl := hI.clone_session hv (List.ne_nil_of_mem hcl)
  refine ⟨hI.setSlot (hI.session_slot hl).1 rfl rfl nofun fun _ _ => hl,
    .setSlot (fun j hj => ?_) fun j _ _ hd => ?_,he⟩
  · exact ⟨id,fun h => ⟨h,rfl⟩,fun h => absurd (some.inj (hp.symm.trans h)) hj.symm⟩
  · exact absurd (dead_iff.mp hd).2 (List.ne_nil_of_mem hcl)

theorem holds_choose (hP : ∀ {s s'}, Rely i s s' → Inv s' → P s → P s') (he : ∀ {s}, P s → Exit i s) :
    Holds i P (send .choose) fun _ => P := by
  refine .read hP (fun _ _ h => ⟨(he h).1,(he h).started⟩) (fun {s c r s'} hc => ?_)
    fun _ h _ => h
  cases c <;> cases hc
  rfl

theorem holds_openNamespace : Holds i (fun s => Exit i s ∧ Opening i n ns s) (openNamespace ns n)
    fun _ => Exit i := by
  refine .bind holds_drainPrevious fun _ => .bind holds_openWriter fun k =>
    .bind (holds_choose stable_attempt fun h => h.1) fun opened => ?_
  cases opened with
  | true => exact .bind holds_publish fun _ => .ret fun _ => id
  | false => exact .bind holds_leaveSlot fun _ => .ret fun _ => id

theorem holds_initSlot : Holds i (fun s => Exit i s ∧ Cloned i n ns s) (initSlot ns n) fun _ => Exit i := by
  refine .bind holds_enterSlot fun value => ?_
  cases value with
  | some k => exact .ret fun s h => h.1
  | none => exact holds_openNamespace.mono (fun s h => ⟨h.1,h.2 rfl⟩) fun _ _ => id

theorem holds_getSlot : Holds i (Exit i) (send (.getSlot ns)) fun r s =>
    Exit i s ∧ ∀ n, r=some n → Cloned i n ns s := by
  refine .send (fun hr _ h => h.stable hr) (fun _ _ h => ⟨h.1,h.started⟩)
    fun {s c r s'} hI he hc => ?_
  simp only [handle] at hc
  split at hc
  · cases hc
  · rename_i hfree
    split at hc
    · cases hc
      exact ⟨hI,.refl i _,he,fun _ hr => by cases hr⟩
    · rename_i n hn
      cases hc
      have hlock : ∀ j, j≠i → s.sessionsLock≠some j := by
        rintro j - hl
        simp [hl] at hfree
      obtain ⟨hI',hg,hcl⟩ := clone_step hI hn hlock
      refine ⟨hI',hg,he,fun n' hn' => ?_⟩
      cases hn'
      exact hcl

theorem holds_getOrOpen : Serves i (getOrOpen ns) := by
  refine .bind holds_getSlot fun found => ?_
  cases found with
  | some n => exact holds_initSlot.mono (fun s h => ⟨h.1,h.2 n rfl⟩) fun _ _ => id
  | none =>
    refine .bind (holds_insertSlot.mono (fun s h => h.1) fun _ _ => id) fun inserted => ?_
    cases inserted with
    | some n => exact holds_initSlot.mono (fun s h => ⟨h.1,h.2 n rfl⟩) fun _ _ => id
    | none => exact .ret fun s h => h.1

theorem holds_getForAdmin (overLimit : Bool) : Serves i (getForAdmin ns overLimit) := by
  cases overLimit with
  | true => exact holds_plain trivial
  | false => exact holds_getOrOpen

theorem holds_removeDead : Holds i (Locked i none) (send (.removeDead ns)) fun _ => Locked i none := by
  refine .send (fun hr _ h => h.stable hr) nofun fun {s c r s'} hI h hc => ?_
  simp only [handle] at hc
  split at hc
  · cases hc
    exact ⟨hI,.refl i _,h⟩
  · rename_i n hn
    split at hc
    · rename_i hd
      cases hc
      have hlock : s.sessionsLock≠none := by simp [h.1]
      exact ⟨hI.eraseSession hlock hn (.inr ⟨rfl,hd⟩),.ofLocked h.1 rfl (fun _ => rfl) rfl rfl rfl,h⟩
    · cases hc
      exact ⟨hI,.refl i _,h⟩

theorem holds_hasSlot : Holds i (Locked i none) (send (.hasSlot ns)) fun r s =>
    Locked i none s ∧ (r=false → s.sessions.lookup ns=none) := by
  refine .read (fun hr _ h => h.stable hr) nofun (fun hc => ?_) fun {s c r} _ h hc => ⟨h,?_⟩
  · cases hc
    rfl
  · intro hr
    have hsome : (s.sessions.lookup ns).isSome=r := (Prod.mk.inj (some.inj hc)).1
    simpa [hr] using hsome

theorem holds_reserve : Holds i (fun s => Locked i none s ∧ s.sessions.lookup ns=none)
    (send (.reserve ns)) fun _ => Locked i none := by
  refine .send (fun hr _ => Locked.vacant hr) nofun fun {s c r s'} hI h hc => ?_
  obtain ⟨⟨hl,hrem,me0,hme0,hstart,hjoin⟩,hnone⟩ := h
  obtain ⟨me,hme,heq⟩ := map_eq_some_iff.mp hc
  obtain rfl := mem_unique hme0 hme
  split at heq <;> cases heq
  · exact ⟨hI,.refl i _,hl,hrem,me0,hme,hstart,hjoin⟩
  · rename_i hres
    refine ⟨hI.reserve hnone hrem (Bool.eq_false_iff.mpr hres) hme,.reserve hl hme,hl,hrem,_,
      setTask_self,hstart,fun t ht => ?_⟩
    have he : Edits me0 { me0 with reservation := some ns } := ⟨rfl,rfl,id,fun _ => id,fun _ => rfl⟩
    exact isDone_setTask hme he (hjoin t ht)

theorem holds_unlockOnly : Holds i (Locked i none) (send .unlockSessions) fun _ => Exit i :=
  (holds_unlockSessions (P := fun _ => True) (fun _ _ _ => trivial) id).mono
    (fun _ h => ⟨h,trivial⟩) fun _ _ h => h.1

theorem holds_beginRestore : Serves i (beginRestore ns) := by
  simp only [beginRestore]
  split
  · refine .bind holds_lockSessions fun _ => .bind holds_removeDead fun _ =>
      .bind (Q := fun _ => Locked i none) ?_ fun draining => .bind holds_hasSlot fun inUse => ?_
    · refine Holds.read (fun hr _ h => h.stable hr) nofun (fun hc => ?_) fun _ h _ => h
      cases hc
      rfl
    split
    · refine .bind (holds_unlockOnly.mono (fun s h => h.1) fun _ _ => id) fun _ => .ret fun _ => id
    · rename_i hfree
      refine .bind (holds_reserve.mono (fun s h => ⟨h.1,h.2 ?_⟩) fun _ _ => id) fun reserved =>
        .bind holds_unlockOnly fun _ => .ret fun _ => id
      simp_all
  · exact .ret fun _ => id

end NamiDB.Server
