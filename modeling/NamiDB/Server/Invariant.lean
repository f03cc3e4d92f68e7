import NamiDB.Server.Handlers

/-! What holds of the registry at every moment, and what a task may count on while others run: the
things it owns stay as they are, and retirement, cancellation and the end of a drain are final. -/
namespace NamiDB.Server
open Lib Registry

/-- An operation does not follow the opening of a later incarnation of its namespace. -/
def Event.Follows : Event → Event → Prop
  | .operation k ns _ _, .opening k' ns' _ => ns'=ns → k'≤k
  | _, _ => True

def Path.unchecked : Path → Bool
  | .bolt | .adminCompact | .worker false => true
  | _ => false

def Event.unchecked : Event → Bool
  | .operation _ _ _ path => path.unchecked
  | .opening _ _ _ => false

structure Inv (s : Registry) : Prop where
  session_slot : ∀ {ns n}, s.sessions.lookup ns=some n → n<s.nextSlot ∧ (s.slots n).ns=ns
  fresh_slot : ∀ {n}, s.nextSlot≤n → (s.slots n).cell={} ∧ (s.slots n).clones=[]
  permit_clone : ∀ {n t}, (s.slots n).cell.permit=some t → t∈(s.slots n).clones
  clone_session : ∀ {n}, (s.slots n).cell.value=none → (s.slots n).clones≠[] →
    s.sessions.lookup (s.slots n).ns=some n
  value_state : ∀ {n k}, (s.slots n).cell.value=some k →
    ∃ x, s.states k=some x ∧ x.ns=(s.slots n).ns
  value_inj : ∀ {n n' k}, (s.slots n).cell.value=some k → (s.slots n').cell.value=some k →
    n=n'
  state_slot : ∀ {k x}, s.states k=some x → ∃ n, (s.slots n).cell.value=some k ∧
    (x.retired=false → s.sessions.lookup x.ns=some n ∨ s.removed=some n)
  session_live : ∀ {ns n k x}, s.sessions.lookup ns=some n → (s.slots n).cell.value=some k →
    s.states k=some x → x.retired=false
  removed_lock : s.removed≠none → s.sessionsLock≠none
  removed_session : ∀ {n}, s.removed=some n → s.sessions.lookup (s.slots n).ns=none
  removed_last : ∀ {n}, s.removed=some n → ∃ k, (s.slots n).cell.value=some k ∧
    ∀ {k' x}, s.states k'=some x → x.ns=(s.slots n).ns → k'≠k → x.quiesced.value=some ()
  unquiesced : ∀ {k x}, s.states k=some x → x.retired=true → x.quiesced.value=none →
    s.draining x.ns=some k ∨ ∃ n, s.removed=some n ∧ (s.slots n).cell.value=some k
  draining_retired : ∀ {ns k}, s.draining ns=some k →
    ∃ x, s.states k=some x ∧ x.ns=ns ∧ x.retired=true
  opened : ∀ {k x}, s.states k=some x → s.openings[k]?=some x.ns
  superseded : ∀ {k k' x}, s.states k=some x → s.openings[k']?=some x.ns → k<k' →
    x.quiesced.value=some ()
  quiesced_drained : ∀ {k x}, s.states k=some x → x.quiesced.value=some () → x.drained=true
  drained_retired : ∀ {k x}, s.states k=some x → x.drained=true →
    x.retired=true ∧ x.cancelled=true
  drained_committer : ∀ {k x t y}, s.states k=some x → x.drained=true → s.tasks t=some y →
    y.job = .committer k → y.done=true
  committer_tracked : ∀ {k t y}, s.tasks t=some y → y.job = .committer k → y.done=false →
    ∃ x, s.states k=some x ∧ (t∈x.maintenanceTasks ∨ ∃ j z, x.quiesced.permit=some j ∧ s.tasks j=some z ∧ t∈z.joining)
  restoring_closed : ∀ {ns}, s.restoring ns=true → s.sessions.lookup ns=none ∧
    ∀ {n}, s.removed=some n → (s.slots n).ns≠ns
  reserved : ∀ {t y ns}, s.tasks t=some y → y.reservation=some ns → s.restoring ns=true
  reserved_once : ∀ {t t' y y' ns}, s.tasks t=some y → s.tasks t'=some y' →
    y.reservation=some ns → y'.reservation=some ns → t=t'
  fresh_task : ∀ {t}, s.nextTask≤t → s.tasks t=none
  unstarted : ∀ {t y}, s.tasks t=some y → y.started=false → y.joining=[] ∧ y.done=false
  lock_started : ∀ {t}, s.sessionsLock=some t → ∃ y, s.tasks t=some y ∧ y.started=true
  opening_logged : ∀ {k ns b}, Event.opening k ns b∈s.log → s.openings[k]?=some ns ∧ b=false
  follows : s.log.Pairwise fun e e' => e.unchecked=true ∨ e.Follows e'

theorem inv_new (maxNamespaces : Nat) (maintenance : MaintenanceConfig) :
    Inv (Registry.new maxNamespaces maintenance) := by
  constructor <;> simp [Registry.new]

/-- What task `j` may count on in a step of another task that changes an incarnation. -/
structure NamespaceState.Rely (j : Task) (x x' : NamespaceState) : Prop where
  ns : x'.ns=x.ns
  retired : x.retired=true → x'.retired=true
  cancelled : x.cancelled=true → x'.cancelled=true
  quiesced : x.quiesced.value=some () → x'.quiesced.value=some ()
  drained : x.drained=true → x'.drained=true
  writer : x.writer=some j → x'.writer=some j ∧ x'.drained=x.drained
  permit : x.quiesced.permit=some j →
    x'.quiesced.permit=some j ∧ x'.quiesced.value=x.quiesced.value
  untracked : x.cancelled=true → x.maintenanceTasks=[] → x'.maintenanceTasks=[]

variable (j : Task)

theorem NamespaceState.Rely.refl (x : NamespaceState) : x.Rely j x :=
  ⟨rfl,id,id,id,id,fun h => ⟨h,rfl⟩,fun h => ⟨h,rfl⟩,fun _ => id⟩

theorem NamespaceState.Rely.trans {j : Task} {x y z : NamespaceState} (h : x.Rely j y)
    (h' : y.Rely j z) : x.Rely j z where
  ns := h'.ns.trans h.ns
  retired hx := h'.retired (h.retired hx)
  cancelled hx := h'.cancelled (h.cancelled hx)
  quiesced hx := h'.quiesced (h.quiesced hx)
  drained hx := h'.drained (h.drained hx)
  writer hx := by
    obtain ⟨hy,hd⟩ := h.writer hx
    obtain ⟨hz,hd'⟩ := h'.writer hy
    exact ⟨hz,hd'.trans hd⟩
  permit hx := by
    obtain ⟨hy,hd⟩ := h.permit hx
    obtain ⟨hz,hd'⟩ := h'.permit hy
    exact ⟨hz,hd'.trans hd⟩
  untracked hc hm := h'.untracked (h.cancelled hc) (h.untracked hc hm)

structure Slot.Rely (j : Task) (x x' : Slot) : Prop where
  value : ∀ {k}, x.cell.value=some k → x'.cell.value=some k
  clones : j∈x.clones → j∈x'.clones ∧ x'.ns=x.ns
  permit : x.cell.permit=some j → x'.cell.permit=some j ∧ x'.cell.value=x.cell.value

theorem Slot.Rely.refl (x : Slot) : x.Rely j x :=
  ⟨id,fun h => ⟨h,rfl⟩,fun h => ⟨h,rfl⟩⟩

theorem Slot.Rely.trans {j : Task} {x y z : Slot} (h : x.Rely j y) (h' : y.Rely j z) : x.Rely j z where
  value hx := h'.value (h.value hx)
  clones hx := by
    obtain ⟨hy,hn⟩ := h.clones hx
    obtain ⟨hz,hn'⟩ := h'.clones hy
    exact ⟨hz,hn'.trans hn⟩
  permit hx := by
    obtain ⟨hy,hv⟩ := h.permit hx
    obtain ⟨hz,hv'⟩ := h'.permit hy
    exact ⟨hz,hv'.trans hv⟩

def Registry.Initialises (s : Registry) (j : Task) (n : SlotId) : Prop :=
  (s.slots n).cell.permit=some j ∧ (s.slots n).cell.value=none ∧ j∈(s.slots n).clones

/-- What task `j` may count on in a step of another task. While it initialises a slot nobody else
opens the namespace, and while it holds the session lock nobody else changes the map. -/
structure Rely (j : Task) (s s' : Registry) : Prop where
  own : ∀ {x}, s.tasks j=some x → ∃ x', s'.tasks j=some x' ∧ x'.job=x.job ∧
    x'.done=x.done ∧ (x.started=true → x'.started=true) ∧ x'.joining=x.joining
  done : ∀ {t}, s.isDone t=true → s'.isDone t=true
  states : ∀ {k x}, s.states k=some x → ∃ x', s'.states k=some x' ∧ x.Rely j x'
  slots : ∀ n, (s.slots n).Rely j (s'.slots n)
  locked : s.sessionsLock=some j → s'.sessionsLock=some j ∧ s'.sessions=s.sessions ∧
    s'.removed=s.removed ∧ (∀ {n}, s.dead n=true → s'.dead n=true) ∧
      ∀ {ns}, s.restoring ns=false → s'.restoring ns=false
  unlocked : s.sessionsLock≠some j → s'.sessionsLock≠some j
  published : ∀ {n k x}, s.Initialises j n → s'.states k=some x → s.states k=none →
    x.ns≠(s.slots n).ns
  openings : ∀ {n} {k : Incarnation}, s.Initialises j n → s'.openings[k]?=some (s.slots n).ns →
    s.openings[k]?=some (s.slots n).ns
  opened : ∀ {k : Incarnation} {ns : String}, s.openings[k]?=some ns → s'.openings[k]?=some ns

theorem Rely.refl (s : Registry) : Rely j s s where
  own hx := ⟨_,hx,rfl,rfl,id,rfl⟩
  done := id
  states hx := ⟨_,hx,.refl j _⟩
  slots _ := .refl j _
  locked h := ⟨h,rfl,rfl,id,id⟩
  unlocked := id
  published _ hx hn := by simp [hn] at hx
  openings _ := id
  opened := id

theorem Rely.initialises {j : Task} {s s' : Registry} (h : Rely j s s') {n : SlotId}
    (hn : s.Initialises j n) : s'.Initialises j n ∧ (s'.slots n).ns=(s.slots n).ns := by
  obtain ⟨hp,hv,hc⟩ := hn
  obtain ⟨hp',hv'⟩ := (h.slots n).permit hp
  obtain ⟨hc',hns⟩ := (h.slots n).clones hc
  exact ⟨⟨hp',hv'.trans hv,hc'⟩,hns⟩

theorem Rely.trans {j : Task} {a b c : Registry} (h : Rely j a b) (h' : Rely j b c) : Rely j a c where
  own hx := by
    obtain ⟨y,hy,h1,h2,h3,h4⟩ := h.own hx
    obtain ⟨z,hz,h1',h2',h3',h4'⟩ := h'.own hy
    exact ⟨z,hz,h1'.trans h1,h2'.trans h2,fun hs => h3' (h3 hs),h4'.trans h4⟩
  done hx := h'.done (h.done hx)
  states hx := by
    obtain ⟨y,hy,hxy⟩ := h.states hx
    obtain ⟨z,hz,hyz⟩ := h'.states hy
    exact ⟨z,hz,hxy.trans hyz⟩
  slots n := (h.slots n).trans (h'.slots n)
  locked hl := by
    obtain ⟨hl1,hs1,hr1,hd1,hn1⟩ := h.locked hl
    obtain ⟨hl2,hs2,hr2,hd2,hn2⟩ := h'.locked hl1
    exact ⟨hl2,hs2.trans hs1,hr2.trans hr1,fun hn => hd2 (hd1 hn),fun hn => hn2 (hn1 hn)⟩
  unlocked hl := h'.unlocked (h.unlocked hl)
  published {n k x} hn hx hk := by
    obtain ⟨hn',hns⟩ := h.initialises hn
    cases hb : b.states k with
    | none => exact hns ▸ h'.published hn' hx hb
    | some y =>
      obtain ⟨z,hz,hyz⟩ := h'.states hb
      obtain rfl := Option.mem_unique hz hx
      exact hyz.ns ▸ h.published hn hb hk
  openings {n k} hn hk := by
    obtain ⟨hn',hns⟩ := h.initialises hn
    exact h.openings hn (hns ▸ h'.openings hn' (hns.symm ▸ hk))
  opened hk := h'.opened (h.opened hk)

structure Guar (i : Task) (s s' : Registry) : Prop where
  others : ∀ j, j≠i → Rely j s s'
  own : ∀ {x}, s.tasks i=some x → ∃ x', s'.tasks i=some x' ∧ x'.job=x.job ∧
    x'.done=x.done ∧ (x.started=true → x'.started=true)

theorem Guar.refl (i : Task) (s : Registry) : Guar i s s :=
  ⟨fun j _ => .refl j s,fun hx => ⟨_,hx,rfl,rfl,id⟩⟩

def contract (i : Task) : Contract Registry := ⟨Rely i,Guar i⟩

end NamiDB.Server
