import NamiDB.Storage.ManifestStore

/-! The chain of published manifests as an invariant of a store from which nothing is deleted: what
each landing write does to it, and what it says about versions and epochs. -/
namespace NamiDB.Storage.Agreement
open Lib ManifestStore

variable {w : World} {m : Manifest}
variable {w' : World} {p : Path} {b : Blob}

/-- The keys that are only ever written with `PutMode::Create` by the manifest protocol. -/
def createOnly : Path → Bool
  | .manifestVersion _ => true
  | .pointerVersion _ => true
  | _ => false

def HasBody (w : World) (m : Manifest) : Prop :=
  w.body (.manifestVersion m.version)=some (.manifest m)

def Published (w : World) (m : Manifest) : Prop :=
  HasBody w m ∧ w.body (.pointerVersion m.version)=some (.pointer (pointerOf m))

/-- Some `put_body` call wrote `m` on a base that is `m₀` up to its creation time, under a fence that
was alive for that base. -/
def BuiltOn (w : World) (m₀ m : Manifest) : Prop :=
  ∃ fence base, Call.putBody fence base m∈w.calls ∧ base.manifest.EqUpToTime m₀ ∧
    base.manifest.epoch≤fence.epoch

/-- What the protocol keeps true of the store and of the calls made on it. -/
structure Chain (w : World) : Prop where
  body : ∀ {n b}, w.body (.manifestVersion n)=some b → ∃ m, b = .manifest m ∧ m.version=n
  pointer : ∀ {n b}, w.body (.pointerVersion n)=some b →
    ∃ m, m.version=n ∧ b = .pointer (pointerOf m) ∧ Published w m
  advisory : ∀ {b}, w.body .currentPointer=some b → ∃ m, b = .pointer (pointerOf m) ∧ Published w m
  built : ∀ {m}, HasBody w m → m.version≠0 →
    ∃ m₀, Published w m₀ ∧ m₀.version+1=m.version ∧ m₀.epoch ≤ m.epoch ∧ BuiltOn w m₀ m
  attempts : ∀ {fence base new}, Call.casPointer fence base new∈w.calls →
    new.version=base.manifest.version+1 ∧ base.manifest.epoch≤fence.epoch ∧
      ∃ m₀, Published w m₀ ∧ base.manifest.EqUpToTime m₀
  publisher : ∀ {n}, w.body (.pointerVersion (n+1))≠none →
    (∃ fence base new, Call.casPointer fence base new∈w.calls ∧ new.version=n+1) ∨
      Call.repairStalledCommit (n+1)∈w.calls
  kept : ∀ {p b}, (p,b)∈w.history → createOnly p → w.body p=some b
  once : ∀ n, (w.history.filter fun e => e.1 = .pointerVersion n).length≤1

/-- The steps of every client: create-only slots keep their content and calls are only added. -/
structure Grows (w w' : World) : Prop where
  slots : ∀ {p b}, createOnly p → w.body p=some b → w'.body p=some b
  calls : w.calls ⊆ w'.calls
  history : w.history ⊆ w'.history

theorem Grows.refl (w : World) : Grows w w := ⟨fun _ h => h,fun _ h => h,fun _ h => h⟩

theorem Grows.trans {a b c : World} (h : Grows a b) (h' : Grows b c) : Grows a c :=
  ⟨fun hp hb => h'.slots hp (h.slots hp hb),fun _ hc => h'.calls (h.calls hc),
    fun _ hc => h'.history (h.history hc)⟩

theorem Grows.hasBody (h : Grows w w') (hb : HasBody w m) : HasBody w' m := h.slots rfl hb

theorem Grows.published (h : Grows w w') (hp : Published w m) : Published w' m := ⟨h.hasBody hp.1,h.slots rfl hp.2⟩

theorem Grows.builtOn (h : Grows w w') (hb : BuiltOn w m0 m) : BuiltOn w' m0 m := by
  obtain ⟨fence,base,hc,he⟩ := hb
  exact ⟨fence,base,h.calls hc,he⟩

/-- A write that lands in an empty slot, or outside the create-only slots, only adds. -/
theorem grows_set (t : Time) (h : createOnly p=true → w.body p=none) : Grows w (w.set p b t) := by
  refine ⟨fun {q c} hq hb => ?_,fun _ hc => hc,fun _ hc => .tail _ hc⟩
  have hne : q≠p := by
    rintro rfl
    rw [h hq] at hb
    cases hb
  rw [World.body_set_of_ne _ _ _ hne,hb]

theorem published_unique (h : Published w m) (h' : Published w m') (hv : m.version=m'.version) : m=m' := by
  have h1 := h.1
  unfold HasBody at h1
  rw [hv,h'.1] at h1
  simpa using h1.symm

/-- Requests that leave the objects alone keep the chain, whatever they record, provided a new
`cas_pointer` call is one of a writer that is alive on a published base. -/
theorem Chain.of_objects_eq (h : Chain w) (ho : w'.objects=w.objects)
    (hh : w'.history=w.history) (hc : w.calls ⊆ w'.calls)
    (hnew : ∀ {fence base new}, Call.casPointer fence base new∈w'.calls → Call.casPointer fence base new∉w.calls →
      new.version=base.manifest.version+1 ∧ base.manifest.epoch≤fence.epoch ∧
        ∃ m0, Published w m0 ∧ base.manifest.EqUpToTime m0) : Chain w' := by
  have hb : ∀ p, w'.body p=w.body p := fun p => by unfold World.body; rw [ho]
  have hg : Grows w w' := ⟨fun {p b} _ h => by rw [hb,h],hc,by rw [hh]; exact fun _ h => h⟩
  have hbody : ∀ {m}, HasBody w' m → HasBody w m := fun {m} h => by
    unfold HasBody at h ⊢; rwa [← hb]
  refine ⟨fun h' => h.body (by rwa [← hb]),fun h' => ?_,fun h' => ?_,fun h' hv => ?_,
    fun {fence base new} h' => ?_,fun {n} h' => ?_,fun h' hp => ?_,fun n => ?_⟩
  · obtain ⟨m,hv,he,hp⟩ := h.pointer (by rwa [← hb])
    exact ⟨m,hv,he,hg.published hp⟩
  · obtain ⟨m,he,hp⟩ := h.advisory (by rwa [← hb])
    exact ⟨m,he,hg.published hp⟩
  · obtain ⟨m0,hp,hn,he,hbt⟩ := h.built (hbody h') hv
    exact ⟨m0,hg.published hp,hn,he,hg.builtOn hbt⟩
  · by_cases hold : Call.casPointer fence base new∈w.calls
    · obtain ⟨hn,he,m0,hp,hm⟩ := h.attempts hold
      exact ⟨hn,he,m0,hg.published hp,hm⟩
    · obtain ⟨hn,he,m0,hp,hm⟩ := hnew h' hold
      exact ⟨hn,he,m0,hg.published hp,hm⟩
  · rcases h.publisher (by rwa [← hb]) with ⟨f,b,n',hm,hn⟩ | hr
    · exact .inl ⟨f,b,n',hc hm,hn⟩
    · exact .inr (hc hr)
  · rw [hb]
    exact h.kept (hh ▸ h') hp
  · rw [hh]
    exact h.once n

theorem Chain.set (h : Chain w) (t : Time) (hnone : createOnly p=true → w.body p=none)
    (hbody : ∀ {n}, p = .manifestVersion n → ∃ m, b = .manifest m ∧ m.version=n ∧ (m.version≠0 →
      ∃ m₀, Published w m₀ ∧ m₀.version+1=m.version ∧ m₀.epoch ≤ m.epoch ∧ BuiltOn w m₀ m))
    (hpointer : ∀ {n}, p = .pointerVersion n → ∃ m, m.version=n ∧ b = .pointer (pointerOf m) ∧ HasBody w m ∧ (n≠0 →
      (∃ fence base new, Call.casPointer fence base new∈w.calls ∧ new.version=n) ∨ Call.repairStalledCommit n∈w.calls))
    (hadv : p = .currentPointer → ∃ m, b = .pointer (pointerOf m) ∧ Published w m) : Chain (w.set p b t) := by
  have hg : Grows w (w.set p b t) := grows_set t hnone
  have hset : ∀ {q c}, (w.set p b t).body q=some c → p=q ∧ b=c ∨ w.body q=some c := by
    intro q c hq
    rw [World.body_set] at hq
    split at hq <;> rename_i hqp
    · exact .inl ⟨hqp.symm,Option.some.inj hq⟩
    · exact .inr hq
  refine ⟨fun h' => ?_,fun h' => ?_,fun {c} h' => ?_,fun {m} h' hv => ?_,fun h' => ?_,fun {n} h' => ?_,
    fun {q c} h' hq => ?_,fun n => ?_⟩
  · obtain ⟨rfl,rfl⟩ | h' := hset h'
    · obtain ⟨m,hm,hn,-⟩ := hbody rfl
      exact ⟨m,hm,hn⟩
    · exact h.body h'
  · obtain ⟨rfl,rfl⟩ | h' := hset h'
    · obtain ⟨m,rfl,rfl,hm,-⟩ := hpointer rfl
      exact ⟨m,rfl,rfl,hg.hasBody hm,World.body_set_same _ _ _ _⟩
    · obtain ⟨m,hv,he,hp⟩ := h.pointer h'
      exact ⟨m,hv,he,hg.published hp⟩
  · have hold : ∃ m, c = .pointer (pointerOf m) ∧ Published w m := by
      obtain ⟨rfl,rfl⟩ | h' := hset h'
      · exact hadv rfl
      · exact h.advisory h'
    obtain ⟨m,he,hp⟩ := hold
    exact ⟨m,he,hg.published hp⟩
  · have hold : ∃ m₀, Published w m₀ ∧ m₀.version+1=m.version ∧ m₀.epoch ≤ m.epoch ∧ BuiltOn w m₀ m := by
      obtain ⟨rfl,rfl⟩ | h' := hset h'
      · obtain ⟨m',⟨⟩,-,hb⟩ := hbody rfl
        exact hb hv
      · exact h.built h' hv
    obtain ⟨m0,hp,hn,he,hb⟩ := hold
    exact ⟨m0,hg.published hp,hn,he,hg.builtOn hb⟩
  · obtain ⟨hn,he,m0,hp,hm⟩ := h.attempts h'
    exact ⟨hn,he,m0,hg.published hp,hm⟩
  · obtain ⟨c,hc⟩ := Option.ne_none_iff_exists'.mp h'
    obtain ⟨rfl,rfl⟩ | hc := hset hc
    · obtain ⟨m,-,-,-,hby⟩ := hpointer rfl
      exact hby (Nat.succ_ne_zero n)
    · exact h.publisher (by simp [hc])
  · rcases List.mem_cons.mp h' with he | he
    · cases he
      exact World.body_set_same _ _ _ _
    · exact hg.slots hq (h.kept he hq)
  · by_cases hn : p = .pointerVersion n
    · subst hn
      -- the slot was empty, so no earlier write to it can have landed
      have hempty : (w.history.filter fun e => e.1 = .pointerVersion n)=[] := by
        refine List.filter_eq_nil_iff.mpr fun e he hp => ?_
        have hk := h.kept (p := .pointerVersion n) (b := e.2) (by rw [← of_decide_eq_true hp]; exact he) rfl
        rw [hnone rfl] at hk
        cases hk
      rw [World.set_history,List.filter_cons,hempty]
      split <;> simp
    · simpa [hn] using h.once n

theorem Chain.set_body (h : Chain w) (t : Time) (hnone : w.body (.manifestVersion m.version)=none)
    (hbuilt : m.version≠0 → ∃ m0, Published w m0 ∧ m0.version+1=m.version ∧ m0.epoch ≤ m.epoch ∧ BuiltOn w m0 m) :
    Chain (w.set (.manifestVersion m.version) (.manifest m) t) := by
  refine h.set t (fun _ => hnone) (fun hp => ?_) nofun nofun
  cases hp
  exact ⟨m,rfl,rfl,hbuilt⟩

theorem Chain.set_pointer (h : Chain w) (t : Time)
    (hnone : w.body (.pointerVersion m.version)=none) (hbody : HasBody w m) (hby : m.version≠0 →
      (∃ fence base new, Call.casPointer fence base new∈w.calls ∧ new.version=m.version) ∨
        Call.repairStalledCommit m.version∈w.calls) :
    Chain (w.set (.pointerVersion m.version) (.pointer (pointerOf m)) t) := by
  refine h.set t (fun _ => hnone) nofun (fun hp => ?_) nofun
  cases hp
  exact ⟨m,rfl,rfl,hbody,hby⟩

/-- A write outside the create-only slots; the advisory file must name a published manifest. -/
theorem Chain.set_other (h : Chain w) (t : Time) (hp : createOnly p=false)
    (hadv : p = .currentPointer → ∃ m, b = .pointer (pointerOf m) ∧ Published w m) : Chain (w.set p b t) := by
  refine h.set t (by simp [hp]) ?_ ?_ hadv
  · rintro n rfl
    cases hp
  · rintro n rfl
    cases hp

theorem Chain.published_below (h : Chain w) (hm : Published w m) (hn : n ≤ m.version) :
    ∃ m₀, Published w m₀ ∧ m₀.version=n := by
  obtain ⟨d,hd⟩ := Nat.exists_eq_add_of_le hn
  induction d generalizing m with
  | zero => exact ⟨m,hm,hd⟩
  | succ d ih =>
    obtain ⟨m0,hp,hv,-⟩ := h.built hm.1 (by omega)
    exact ih hp (by omega) (by omega)

theorem Chain.version_le (h : Chain w) (hnone : w.body (.pointerVersion (n+1))=none) (hm : Published w m) :
    m.version≤n := by
  by_contra hlt
  obtain ⟨m0,hp,hv⟩ := h.published_below hm (by omega : n+1 ≤ m.version)
  rw [← hv,hp.2] at hnone
  cases hnone

theorem Chain.epoch_mono (h : Chain w) (hm : Published w m)
    (hm' : Published w m') (hle : m.version ≤ m'.version) : m.epoch ≤ m'.epoch := by
  obtain ⟨d,hd⟩ := Nat.exists_eq_add_of_le hle
  induction d generalizing m' with
  | zero => rw [published_unique hm hm' (by omega)]
  | succ d ih =>
    obtain ⟨m0,hp,hn,he,-⟩ := h.built hm'.1 (by omega)
    exact le_trans (ih hp (by omega) (by omega)) he

end NamiDB.Storage.Agreement
