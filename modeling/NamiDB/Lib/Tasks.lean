import NamiDB.Lib.Lift

/-! Tasks of a cooperative runtime over one shared state. A task runs its program to the end or is
cancelled on the way; it can be cancelled only at a request it may have to wait for, and in both
cases what it owns is given back. -/
namespace NamiDB.Lib
open Option

variable {Op : Type} {Res : Op → Type} {σ ι χ γ : Type}

/-- `launch s i p s'` says that task `i` may begin with the program `p`; `cancels i s` that somebody
may cancel it now. -/
structure Runtime (σ ι : Type) {Op : Type} (Res : Op → Type) where
  sem : ι → Semantics σ Res
  launch : σ → ι → Prog Res Unit → σ → Prop
  waits : Op → Prop
  cancels : ι → σ → Prop
  drop : ι → σ → σ

structure Running (σ ι : Type) {Op : Type} (Res : Op → Type) where
  world : σ
  task : ι → Option (Prog Res Unit)

namespace Runtime

/-- The runs in which every request meets `ok` and every cancellation `okDrop`. -/
def restrict (R : Runtime σ ι Res) (ok : σ → Op → Prop) (okDrop : ι → σ → Prop) : Runtime σ ι Res where
  sem i s o r s' := ok s o ∧ R.sem i s o r s'
  launch := R.launch
  waits := R.waits
  cancels i s := R.cancels i s ∧ okDrop i s
  drop := R.drop

variable [DecidableEq ι] (R : Runtime σ ι Res)

inductive Step : Running σ ι Res → Running σ ι Res → Prop
  | launch {cfg} (i : ι) (p : Prog Res Unit) (s' : σ) (hi : cfg.task i=none)
      (hl : R.launch cfg.world i p s') :
      Step cfg ⟨s',Function.update cfg.task i (some p)⟩
  | call {cfg} (i : ι) (o : Op) (next : Res o → Prog Res Unit) (r : Res o) (s' : σ)
      (hi : cfg.task i=some (.call o next)) (hs : R.sem i cfg.world o r s') :
      Step cfg ⟨s',Function.update cfg.task i (some (next r))⟩
  | finish {cfg} (i : ι) (hi : cfg.task i=some (.ret ())) :
      Step cfg ⟨R.drop i cfg.world,Function.update cfg.task i none⟩
  | cancel {cfg} (i : ι) (o : Op) (next : Res o → Prog Res Unit)
      (hi : cfg.task i=some (.call o next)) (hw : R.waits o) (hc : R.cancels i cfg.world) :
      Step cfg ⟨R.drop i cfg.world,Function.update cfg.task i none⟩

/-- The configurations a run from the idle runtime in the state `s₀` can reach. -/
inductive Reachable (s₀ : σ) : Running σ ι Res → Prop
  | idle : Reachable s₀ ⟨s₀,fun _ => none⟩
  | step {cfg cfg'} (h : Reachable s₀ cfg) (hs : R.Step cfg cfg') : Reachable s₀ cfg'

variable {R} in
theorem Reachable.mono {ok ok' : σ → Op → Prop} (hok : ∀ s o, ok s o → ok' s o)
    (h : (R.restrict ok okDrop).Reachable s₀ cfg) : (R.restrict ok' okDrop).Reachable s₀ cfg := by
  induction h with
  | idle => exact .idle
  | step _ hs ih =>
    refine ih.step ?_
    cases hs with
    | launch i p s' hi hl => exact .launch i p s' hi hl
    | call i o next r s' hi hs => exact .call i o next r s' hi ⟨hok _ _ hs.1,hs.2⟩
    | finish i hi => exact .finish i hi
    | cancel i o next hi hw hc => exact .cancel i o next hi hw hc

/-- Weakest precondition of task `i`: as under interference, and wherever the task may be cancelled
it already has what it owes at its end. -/
def safe (I : σ → Prop) (C : ι → Contract σ) (exit : ι → σ → Prop) (i : ι) {α : Type} :
    Prog Res α → (α → σ → Prop) → σ → Prop
  | .ret a, Q, s => Q a s
  | .call o next, Q, s => ∀ s₁, (C i).rely s s₁ → I s₁ →
      (R.waits o → R.cancels i s₁ → exit i s₁) ∧ ∀ r s₂, R.sem i s₁ o r s₂ →
        I s₂ ∧ (C i).guar s₁ s₂ ∧ safe I C exit i (next r) Q s₂

/-- From `P` the program of task `i` runs as it should and ends in `Q`. -/
def Triple (I : σ → Prop) (C : ι → Contract σ) (exit : ι → σ → Prop) (i : ι) {α : Type}
    (P : σ → Prop) (p : Prog Res α) (Q : α → σ → Prop) : Prop :=
  ∀ s, P s → R.safe I C exit i p Q s

/-- Every task keeps its contract while it runs, and `exit i` is what it owes when it ends. -/
structure Respects (I : σ → Prop) (C : ι → Contract σ) (exit : ι → σ → Prop) : Prop where
  rely_trans : ∀ i {a b c}, (C i).rely a b → (C i).rely b c → (C i).rely a c
  rely_refl : ∀ i s, (C i).rely s s
  compatible : ∀ {i j s s'}, j≠i → (C i).guar s s' → (C j).rely s s'
  exit_stable : ∀ {i s s'}, (C i).rely s s' → exit i s → exit i s'
  launch_safe : ∀ {i p s s'}, R.launch s i p s' → I s →
    I s' ∧ (∀ j, j≠i → (C j).rely s s') ∧ R.safe I C exit i p (fun _ => exit i) s'
  drop_keeps : ∀ {i s}, I s → exit i s → I (R.drop i s) ∧ ∀ j, j≠i → (C j).rely s (R.drop i s)

def RunningOk (I : σ → Prop) (C : ι → Contract σ) (exit : ι → σ → Prop) (cfg : Running σ ι Res) : Prop :=
  I cfg.world ∧
    ∀ i p, cfg.task i=some p → R.safe I C exit i p (fun _ => exit i) cfg.world

variable {R} {I : σ → Prop} {C : ι → Contract σ} {exit : ι → σ → Prop} {cfg : Running σ ι Res}

section
omit [DecidableEq ι]
variable {α : Type} {i : ι}

theorem safe_bind (p : Prog Res α) (f : α → Prog Res β) (Q : β → σ → Prop) (s : σ) : R.safe I C exit i (p >>= f) Q s ↔
      R.safe I C exit i p (fun a s' => R.safe I C exit i (f a) Q s') s := by
  induction p generalizing s with
  | ret a => rfl
  | call o next ih => simp [safe,ih]

theorem safe_mono (hQ : ∀ a s, Q a s → Q' a s) (h : R.safe I C exit i p Q s) : R.safe I C exit i p Q' s := by
  induction p generalizing s with
  | ret a => exact hQ a s h
  | call o next ih =>
    intro s1 hR hI
    obtain ⟨hw,hn⟩ := h s1 hR hI
    refine ⟨hw,fun r s2 hs => ?_⟩
    obtain ⟨hI2,hG,hnext⟩ := hn r s2 hs
    exact ⟨hI2,hG,ih r hnext⟩

theorem safe_stable (htrans : ∀ {a b c}, (C i).rely a b → (C i).rely b c → (C i).rely a c)
    (hQ : ∀ a s s', (C i).rely s s' → Q a s → Q a s') (hR : (C i).rely s s') (h : R.safe I C exit i p Q s) :
    R.safe I C exit i p Q s' := by
  cases p with
  | ret a => exact hQ a s s' hR h
  | call o next => exact fun s1 hR1 => h s1 (htrans hR hR1)

variable {P : σ → Prop} {Q : α → σ → Prop} {p : Prog Res α}

theorem Triple.ret (h : ∀ s, P s → Q a s) : R.Triple I C exit i P (pure a) Q := h

theorem Triple.bind {Q' : β → σ → Prop} (hp : R.Triple I C exit i P p Q)
    (hf : ∀ a, R.Triple I C exit i (Q a) (f a) Q') : R.Triple I C exit i P (p >>= f) Q' := by
  intro s hs
  rw [safe_bind]
  exact safe_mono (fun a s' => hf a s') (hp s hs)

theorem Triple.mono (h : R.Triple I C exit i P p Q) (hP : ∀ s, P' s → P s)
    (hQ : ∀ a s, Q a s → Q' a s) : R.Triple I C exit i P' p Q' :=
  fun s hs => safe_mono hQ (h s (hP s hs))

theorem Triple.request {Q : Res o → σ → Prop} (hP : ∀ {s s'}, (C i).rely s s' → I s' → P s → P s')
    (hwait : R.waits o → ∀ {s}, I s → P s → R.cancels i s → exit i s)
    (h : ∀ {s r s'}, I s → P s → R.sem i s o r s' → I s' ∧ (C i).guar s s' ∧ Q r s') :
    R.Triple I C exit i P (Prog.request o) Q := by
  intro s hs s1 hR hI
  have hs1 := hP hR hI hs
  exact ⟨fun hw => hwait hw hI hs1,fun r s2 hsem => h hI hs1 hsem⟩

theorem Triple.only (hK : ∀ o, K o → R.Triple I C exit i P (Prog.request o) fun _ => P) (hp : p.Only K) :
    R.Triple I C exit i P p fun _ => P := by
  induction p with
  | ret a => exact fun s hs => hs
  | call o next ih =>
    intro s hs s1 hR hI
    obtain ⟨hw,hn⟩ := hK o hp.1 s hs s1 hR hI
    refine ⟨hw,fun r s2 hsem => ?_⟩
    obtain ⟨hI2,hG,hP2⟩ := hn r s2 hsem
    exact ⟨hI2,hG,ih r (hp.2 r) s2 hP2⟩

theorem Triple.frame {F : σ → Prop} (hrely : ∀ {s s'}, (C i).rely s s' → F s → F s')
    (hguar : ∀ {s s'}, (C i).guar s s' → F s → F s') (h : R.Triple I C exit i P p Q) :
    R.Triple I C exit i (fun s => P s ∧ F s) p fun a s => Q a s ∧ F s := by
  rintro s ⟨hs,hF⟩
  have hsafe := h s hs
  clear hs h
  induction p generalizing s with
  | ret a => exact ⟨hsafe,hF⟩
  | call o next ih =>
    intro s1 hR hI
    obtain ⟨hw,hn⟩ := hsafe s1 hR hI
    refine ⟨hw,fun r s2 hsem => ?_⟩
    obtain ⟨hI2,hG,hnext⟩ := hn r s2 hsem
    exact ⟨hI2,hG,ih r s2 (hguar hG (hrely hR hF)) hnext⟩

end

section
variable (h : R.Respects I C exit)
include h

theorem Respects.runningOk_update (hc : R.RunningOk I C exit cfg) (hI : I s')
    (hothers : ∀ j, j≠i → (C j).rely cfg.world s') (hp : ∀ q, p=some q → R.safe I C exit i q (fun _ => exit i) s') :
    R.RunningOk I C exit ⟨s',Function.update cfg.task i p⟩ := by
  refine ⟨hI,fun j q hj => ?_⟩
  by_cases hji : j=i
  · subst hji
    exact hp q (by simpa using hj)
  · simp only [Function.update_of_ne hji] at hj
    exact safe_stable (h.rely_trans j) (fun _ _ _ hR => h.exit_stable hR) (hothers j hji)
      (hc.2 j q hj)

theorem Respects.runningOk_drop (hc : R.RunningOk I C exit cfg) (he : exit i cfg.world) :
    R.RunningOk I C exit ⟨R.drop i cfg.world,Function.update cfg.task i none⟩ := by
  obtain ⟨hI,hothers⟩ := h.drop_keeps hc.1 he
  exact h.runningOk_update hc hI hothers nofun

theorem Respects.step (hc : R.RunningOk I C exit cfg) (hs : R.Step cfg cfg') : R.RunningOk I C exit cfg' := by
  cases hs with
  | launch i p s' hi hl =>
    obtain ⟨hI,hothers,hp⟩ := h.launch_safe hl hc.1
    exact h.runningOk_update hc hI hothers fun q hq => some.inj hq ▸ hp
  | call i o next r s' hi hs =>
    obtain ⟨hI,hG,hn⟩ := (hc.2 i _ hi cfg.world (h.rely_refl i _) hc.1).2 r s' hs
    exact h.runningOk_update hc hI (fun j hj => h.compatible hj hG)
      fun q hq => some.inj hq ▸ hn
  | finish i hi => exact h.runningOk_drop hc (hc.2 i _ hi)
  | cancel i o next hi hw hcancel =>
    exact h.runningOk_drop hc ((hc.2 i _ hi cfg.world (h.rely_refl i _) hc.1).1 hw hcancel)

/-- Soundness: the invariant holds in every configuration a run reaches. -/
theorem Respects.sound (h0 : I s0) (hr : R.Reachable s0 cfg) : R.RunningOk I C exit cfg := by
  induction hr with
  | idle => exact ⟨h0,nofun⟩
  | step _ hs ih => exact h.step ih hs

end

end Runtime

/-- One entry of a schedule: `γ` says what a task is launched with, `χ` how its next request is
answered. -/
inductive Turn (ι χ γ : Type) where
  | launch (i : ι) (what : γ)
  | step (i : ι) (choice : χ)
  | finish (i : ι)

structure Dispatcher (R : Runtime σ ι Res) (χ γ : Type) where
  exec : ι → σ → (o : Op) → χ → Option (Res o × σ)
  begins : ι → σ → γ → Option (Prog Res Unit × σ)
  exec_sound : ∀ {i s o c r s'}, exec i s o c=some (r,s') → R.sem i s o r s'
  begins_sound : ∀ {i s g p s'}, begins i s g=some (p,s') → R.launch s i p s'

namespace Dispatcher
variable {R : Runtime σ ι Res} (D : Dispatcher R χ γ)

def restrict (ok : σ → Op → Prop) (okDrop : ι → σ → Prop) [∀ s o, Decidable (ok s o)] :
    Dispatcher (R.restrict ok okDrop) χ γ where
  exec i s o c := if ok s o then D.exec i s o c else none
  begins := D.begins
  exec_sound {i s o c r s'} h := by
    split at h
    · rename_i hok
      exact ⟨hok,D.exec_sound h⟩
    · cases h
  begins_sound := D.begins_sound

variable [DecidableEq ι] {cfg cfg' : Running σ ι Res}

def stepTask (cfg : Running σ ι Res) (i : ι) (choice : χ) : Prog Res Unit → Option (Running σ ι Res)
  | .ret _ => none
  | .call o next =>
    (D.exec i cfg.world o choice).map fun x => ⟨x.2,Function.update cfg.task i (some (next x.1))⟩

def turn (cfg : Running σ ι Res) : Turn ι χ γ → Option (Running σ ι Res)
  | .launch i g =>
    match cfg.task i with
    | none => (D.begins i cfg.world g).map fun x => ⟨x.2,Function.update cfg.task i (some x.1)⟩
    | some _ => none
  | .step i choice => (cfg.task i).bind (D.stepTask cfg i choice)
  | .finish i =>
    match cfg.task i with
    | some (.ret ()) => some ⟨R.drop i cfg.world,Function.update cfg.task i none⟩
    | _ => none

def run : List (Turn ι χ γ) → Running σ ι Res → Option (Running σ ι Res)
  | [], cfg => some cfg
  | t::rest, cfg => (D.turn cfg t).bind (run rest)

theorem turn_step (h : D.turn cfg t=some cfg') : R.Step cfg cfg' := by
  cases t with
  | launch i g =>
    cases hi : cfg.task i with
    | some p => simp [turn,hi] at h
    | none =>
      simp only [turn,hi,map_eq_some_iff] at h
      obtain ⟨x,hx,rfl⟩ := h
      exact .launch i x.1 x.2 hi (D.begins_sound hx)
  | step i choice =>
    obtain ⟨p,hi,hp⟩ := bind_eq_some_iff.mp h
    cases p with
    | ret u => simp [stepTask] at hp
    | call o next =>
      simp only [stepTask,map_eq_some_iff] at hp
      obtain ⟨x,hx,rfl⟩ := hp
      exact .call i o next x.1 x.2 hi (D.exec_sound hx)
  | finish i =>
    cases hi : cfg.task i with
    | none => simp [turn,hi] at h
    | some p =>
      cases p with
      | call o next => simp [turn,hi] at h
      | ret u =>
        simp only [turn,hi,some.injEq] at h
        subst h
        exact .finish i hi

theorem run_reachable (hr : R.Reachable s0 cfg) (h : D.run turns cfg=some cfg') : R.Reachable s0 cfg' := by
  induction turns generalizing cfg with
  | nil =>
    cases h
    exact hr
  | cons t rest ih =>
    obtain ⟨cfg1,ht,hrest⟩ := bind_eq_some_iff.mp h
    exact ih (hr.step (D.turn_step ht)) hrest

end Dispatcher
end NamiDB.Lib
