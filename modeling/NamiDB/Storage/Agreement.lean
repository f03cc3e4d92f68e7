import NamiDB.Storage.ChainSpecs

/-! Agreement on the manifest chain: any number of writers open, claim, write bodies and publish
pointers over a store where every request may fail, land unreported or read a stale listing, and
nothing is deleted. -/
namespace NamiDB.Storage.Agreement
open Lib ManifestStore

/-- A writer between two calls: its fence and current manifest once it has opened the namespace,
and the manifest whose body it has written on top of it. -/
structure Writer where
  session : Option (WriterFence × LoadedManifest)
  staged : Option Manifest

/-- The calls of the manifest protocol. The rounds of a claim are bounded by `fuel`, which is
arbitrary. -/
inductive WriterCall where
  | open (yieldAbove : Option Epoch) (fuel : Nat)
  | putBody (newManifest : Manifest)
  | casPointer

variable [ContentHash]

def program (wr : Writer) : WriterCall → Option (Prog Reply Writer)
  | .open yieldAbove fuel => some do
    match ← (claimOrBootstrap yieldAbove fuel).run with
    | .ok (loaded,fence) => return ⟨some (fence,loaded),none⟩
    | .error _ => return wr
  | .putBody newManifest =>
    match wr.session with
    | none => none
    | some (fence,base) => some do
      match ← (ManifestStore.putBody fence base newManifest).run with
      | .ok _ => return { wr with staged := some newManifest }
      | .error _ => return wr
  | .casPointer =>
    match wr.session, wr.staged with
    | some (fence,base), some newManifest => some do
      match ← (ManifestStore.casPointer fence base newManifest (pointerOf newManifest)).run with
      | .ok loaded => return ⟨some (fence,loaded),none⟩
      | .error _ => return wr
    | _, _ => none

variable {ι : Type} {wr : Writer}

def writers : System World ι Writer Reply where
  sem := fun _ => sem
  start := fun _ wr p => ∃ c, program wr c=some p
  drop := fun _ w => w

def Initial (cfg : Config World ι Writer Reply) : Prop :=
  cfg.world=⟨∅,[],[],[]⟩ ∧ ∀ i, cfg.proc i = .idle ⟨none,none⟩

def WriterOk (_ : ι) (wr : Writer) (w : World) : Prop :=
  ∀ fence base, wr.session=some (fence,base) →
    Loaded w base ∧ ∀ new, wr.staged=some new → Staged w fence base new

omit [ContentHash] in
theorem writerOk_stable (hg : Grows w w') (h : WriterOk i wr w) : WriterOk i wr w' := fun fence base hs =>
  ⟨hg.loaded (h fence base hs).1,fun new hn => hg.staged ((h fence base hs).2 new hn)⟩

theorem program_wp (hp : program wr c=some p) (hok : WriterOk i wr w) : wp sem Chain growing p (WriterOk i) w := by
  have hstable : ∀ w w', Grows w w' → WriterOk i wr w → WriterOk i wr w' :=
    fun _ _ hg => writerOk_stable hg
  cases c with
  | «open» yieldAbove fuel =>
    cases hp
    rw [wp_bind]
    refine wp_mono (fun r w' hr => ?_)
      (wp_frame hstable hstable hok (spec_claimOrBootstrap yieldAbove fuel w))
    match r with
    | .error _ => exact hr.2
    | .ok (loaded,fence) =>
      intro f b hs
      cases hs
      exact ⟨hr.1,fun new hn => by cases hn⟩
  | putBody new =>
    obtain ⟨session,staged⟩ := wr
    cases session with
    | none => cases hp
    | some s =>
      obtain ⟨fence,base⟩ := s
      cases hp
      rw [wp_bind]
      refine wp_mono (fun r w' hr => ?_)
        (wp_frame hstable hstable hok (spec_putBody (hok fence base rfl).1))
      match r with
      | .error _ => exact hr.2
      | .ok _ =>
        obtain ⟨⟨_,hl,hst⟩,_⟩ := hr
        intro f b hs
        cases hs
        exact ⟨hl,fun n hn => by cases hn; exact hst⟩
  | casPointer =>
    obtain ⟨session,staged⟩ := wr
    cases session with
    | none => cases hp
    | some s =>
      obtain ⟨fence,base⟩ := s
      cases staged with
      | none => cases hp
      | some new =>
        cases hp
        obtain ⟨hl,hst⟩ := hok fence base rfl
        rw [wp_bind]
        refine wp_mono (fun r w' hr => ?_)
          (wp_frame hstable hstable hok (spec_casPointer hl (hst new rfl)))
        match r with
        | .error _ => exact hr.2
        | .ok loaded =>
          intro f b hs
          cases hs
          exact ⟨hr.1.1,fun n hn => by cases hn⟩

theorem writers_respects : (writers (ι := ι)).Respects Chain (fun _ => growing) WriterOk where
  rely_trans := fun _ _ _ _ => .trans
  rely_refl := fun _ => .refl
  compatible := fun _ h => h
  ok_stable := fun hg h => writerOk_stable hg h
  start_wp := fun ⟨_,hp⟩ _ hok => program_wp hp hok
  drop_guar := fun h => ⟨h,.refl _⟩
  drop_ok := fun _ h => h
  guar_ok := fun _ hg h => writerOk_stable hg h

omit [ContentHash] in
theorem initial_chain : Chain ⟨∅,[],[],[]⟩ := by
  have hnone : ∀ p, World.body ⟨∅,[],[],[]⟩ p=none := fun p => rfl
  refine ⟨fun h => ?_,fun h => ?_,fun h => ?_,fun h => ?_,fun h => ?_,fun h => ?_,fun h => ?_,
    fun n => Nat.zero_le 1⟩
  · rw [hnone] at h
    cases h
  · rw [hnone] at h
    cases h
  · rw [hnone] at h
    cases h
  · unfold HasBody at h
    cases h
  · cases h
  · exact absurd (hnone _) h
  · cases h

variable [DecidableEq ι]

theorem reachable_chain {cfg : Config World ι Writer Reply}
    (h : writers.Reachable Initial cfg) : Chain cfg.world := by
  refine (writers_respects.sound (fun cfg0 h0 => ⟨?_,fun i => ?_⟩) h).1
  · rw [h0.1]
    exact initial_chain
  · rw [h0.2 i]
    intro fence base hs
    cases hs

/-- However claims, body writes and pointer creates interleave and fail: a pointer is created at most once per
version and never changed; every published manifest after the first was written by a `put_body` call on the one
published just before; epochs never decrease along the chain; and no fence of a published body or of an attempt to
publish is below the epoch of an earlier published manifest. -/
theorem writers_agree {cfg : Config World ι Writer Reply} (h : writers.Reachable Initial cfg) :
    (∀ n, (cfg.world.history.filter fun e => e.1 = .pointerVersion n).length ≤ 1) ∧
    (∀ n b, (Path.pointerVersion n, b) ∈ cfg.world.history → cfg.world.body (.pointerVersion n) = some b ∧
        ∃ m, m.version = n ∧ b = .pointer (pointerOf m) ∧ Published cfg.world m) ∧
    (∀ m, Published cfg.world m → m.version ≠ 0 → ∃ m₀, Published cfg.world m₀ ∧ m₀.version + 1 = m.version ∧
        ∃ fence base, Call.putBody fence base m ∈ cfg.world.calls ∧ base.manifest.EqUpToTime m₀ ∧
          ∀ e, Published cfg.world e → e.version < m.version → e.epoch ≤ fence.epoch) ∧
    (∀ m m', Published cfg.world m → Published cfg.world m' → m.version ≤ m'.version → m.epoch ≤ m'.epoch) ∧
    (∀ fence base new, Call.casPointer fence base new ∈ cfg.world.calls →
      ∀ e, Published cfg.world e → e.version < new.version → e.epoch ≤ fence.epoch) ∧
    (∀ m, Published cfg.world m → m.version ≠ 0 →
      (∃ fence base new, Call.casPointer fence base new ∈ cfg.world.calls ∧
        new.version = m.version) ∨ Call.repairStalledCommit m.version ∈ cfg.world.calls) := by
  have hI := reachable_chain h
  have hmono : ∀ {m m'}, Published cfg.world m → Published cfg.world m' →
      m.version ≤ m'.version → m.epoch ≤ m'.epoch := fun hm hm' => hI.epoch_mono hm hm'
  refine ⟨hI.once,fun n b hb => ?_,fun m hm hv => ?_,fun m m' => hmono,fun f base new hc e he hlt => ?_,
    fun m hm hv => ?_⟩
  · have hbody := hI.kept hb rfl
    obtain ⟨m,hv,he,hp⟩ := hI.pointer hbody
    exact ⟨hbody,m,hv,he,hp⟩
  · obtain ⟨m₀,hp,hn,-,fence,base,hc,heq,halive⟩ := hI.built hm.1 hv
    refine ⟨m₀,hp,hn,fence,base,hc,heq,fun e he hlt => ?_⟩
    have hle : e.epoch ≤ m₀.epoch := hmono he hp (by omega)
    rw [← heq.epoch_eq] at hle
    exact le_trans hle halive
  · obtain ⟨hn,halive,m₀,hp,heq⟩ := hI.attempts hc
    have hle : e.epoch ≤ m₀.epoch := hmono he hp (by rw [← heq.version_eq]; omega)
    rw [← heq.epoch_eq] at hle
    exact le_trans hle halive
  · obtain ⟨n,hn⟩ := Nat.exists_eq_succ_of_ne_zero hv
    rw [hn]
    refine hI.publisher ?_
    have hp := hm.2
    rw [hn] at hp
    rw [hp]
    simp

def runner : Runner (writers (ι := ι)) Choice WriterCall where
  exec := fun _ w o c => if o.isDelete then none else exec .all w o c
  program := fun _ wr c => program wr c
  exec_sound := fun {i s o c r s'} h => by
    split at h <;> rename_i hd
    · cases h
    · exact ⟨by simpa using hd,exec_sound h⟩
  program_sound := fun h => ⟨_,h⟩

@[reducible] def lengthHash : ContentHash := ⟨List.length,fun _ _ => 0⟩

def doing (i : Bool) (call : WriterCall) (choices : List Choice) : List (Act Bool Choice WriterCall) :=
  [.start i call] ++ choices.map (.step i) ++ [.finish i]

/-- One writer opens the namespace and commits, another one takes it over, and both go on. -/
def takeover : List (Act Bool Choice WriterCall) :=
  let first : Manifest := (Manifest.empty 0 1 0).nextVersion 2 0
  let claimed : Manifest := { first.nextVersion 11 0 with epoch := 1 }
  let ok (n : Nat) := List.replicate n (Choice.ok 0)
  doing false (.open none 1) (ok 4 ++ [.fresh 1] ++ ok 4 ++ [.fresh 2]) ++
    doing false (.putBody first) (ok 2) ++ doing false .casPointer (ok 3) ++
    doing true (.open none 1) (ok 8 ++ [.fresh 10,.ok 0,.fresh 11] ++ ok 5) ++
    doing false (.putBody (first.nextVersion 2 0)) (ok 7) ++
    doing true (.putBody (claimed.nextVersion 11 0)) (ok 2) ++ doing true .casPointer (ok 3)

def publishes (epoch version : Nat) : Call → Bool
  | .casPointer fence _ new => fence.epoch=epoch&&new.version=version
  | _ => false

omit [ContentHash] in
theorem writers_agree_after_takeover : letI := lengthHash
    ∃ cfg : Config World Bool Writer Reply, writers.Reachable Initial cfg ∧
      (cfg.world.calls.any (publishes 0 1) = true ∧ cfg.world.calls.any (publishes 1 3) = true ∧
        (cfg.world.body (.pointerVersion 3)).isSome = true) ∧
      (∀ n, (cfg.world.history.filter fun e => e.1 = .pointerVersion n).length ≤ 1) ∧
      (∀ m m', Published cfg.world m → Published cfg.world m' → m.version ≤ m'.version → m.epoch ≤ m'.epoch) ∧
      ∀ fence base new, Call.casPointer fence base new ∈ cfg.world.calls →
        ∀ e, Published cfg.world e → e.version < new.version → e.epoch ≤ fence.epoch := by
  let := lengthHash
  let start : Config World Bool Writer Reply := ⟨⟨∅,[],[],[]⟩,fun _ => .idle ⟨none,none⟩⟩
  have hran : (runner.run takeover start).any (fun cfg => cfg.world.calls.any (publishes 0 1) &&
      cfg.world.calls.any (publishes 1 3) && (cfg.world.body (.pointerVersion 3)).isSome)=true := by
    decide +kernel
  obtain ⟨cfg,hrun,hp⟩ := (Option.any_eq_true _ _).mp hran
  simp only [Bool.and_eq_true,and_assoc] at hp
  have hr : writers.Reachable Initial cfg := runner.run_reachable (.init ⟨rfl,fun _ => rfl⟩) hrun
  obtain ⟨honce,-,-,hmono,hfenced,-⟩ := writers_agree hr
  exact ⟨cfg,hr,hp,honce,hmono,hfenced⟩

end NamiDB.Storage.Agreement
