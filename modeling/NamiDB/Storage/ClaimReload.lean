import NamiDB.Storage.Alone
import NamiDB.Storage.ChainSpecs

/-! What becomes of a claim of the writer epoch that loses a race. A claim whose create is refused re-reads the current
manifest, and gives up if its epoch is above the one it started from. That is so when the version it competed for has
been published meanwhile; otherwise it sets out again from what is then the current manifest. -/
namespace NamiDB.Storage.Claimers
open Lib ManifestStore Agreement

/-- Where a claimer stands with its attempt to publish a version. -/
inductive Phase where
  | none
  | trying (version : Nat)
  /-- A create of the attempt found its slot taken. -/
  | refused (version : Nat)
  /-- The re-read that follows has read a pointer. -/
  | resolved (version : Nat)
  deriving DecidableEq

def isPointerPath : Path → Bool
  | .pointerVersion _ => true
  | .currentPointer => true
  | _ => false

/-- What a request and its reply make of it. -/
def Phase.after (self : Phase) : (o : Request) → Reply o → Phase
  | .enter (.putBody _ _ new), _ => .trying new.version
  | .putCreate _ _, r =>
    match self with
    | .trying v => if r = .error .alreadyExists then .refused v else .trying v
    | ph => ph
  | .get p, _ =>
    match self with
    | .refused v => if isPointerPath p then .resolved v else .refused v
    | .resolved v => if isPointerPath p then .resolved v else .trying v
    | ph => ph
  | _, _ => self

def beginsLoad : Request → Bool
  | .list .pointers => true
  | _ => false

def attemptBase : Request → Option LoadedManifest
  | .enter (.putBody _ base _) => some base
  | _ => none

/-- A claimer as its requests show it: the store when it last began to look for the current manifest, and for each of
its attempts the manifest it set out to succeed and the store when it began to look for it. -/
structure Stand where
  phase : Phase
  began : World
  bases : List (World × LoadedManifest)

def Stand.after (self : Stand) (w : World) (o : Request) (r : Reply o) : Stand where
  phase := self.phase.after o r
  began := if beginsLoad o then w else self.began
  bases := match attemptBase o with
    | some base => self.bases++[(self.began,base)]
    | none => self.bases

/-- The version that a claimer competed for is not published before the claimer has re-read the manifest. -/
def unraced (ph : Phase) (w : World) : Request → Bool
  | .get _ =>
    match ph with
    | .resolved v => (w.body (.pointerVersion v)).isNone
    | _ => true
  | _ => true

/-- A step of a claimer in a store that keeps its chain of manifests. -/
structure Step (F : Faults) (s : World × Stand) (o : Request) (r : Reply o) (s' : World × Stand) : Prop where
  answered : answers F s.1 o r s'.1
  stand : s'.2=s.2.after s.1 o r
  chain : Chain s'.1
  grows : Grows s.1 s'.1
  unraced : unraced s.2.phase s.1 o=true

def own : Contract (World × Stand) := ⟨fun s s' => Grows s.1 s'.1 ∧ s'.2=s.2,fun s s' => Grows s.1 s'.1⟩

/-- Every attempt set out from a manifest at least as new as any that was published when the claimer began to look
for it. -/
def Fresh (F : Faults) (st : Stand) : Prop :=
  F.reads=false → ∀ e ∈ st.bases, ∀ m, Published e.1 m → m.version≤e.2.manifest.version

def noFaults : Faults := ⟨false,false,false,false⟩

/-- More manifests were published than a claimer probes for, while it looked for the newest. -/
def Outrun (s : World × Stand) : Prop :=
  ∃ m, Published s.1 m ∧ ∀ m', Published s.2.began m' → m'.version+maxProbe ≤ m.version

/-- More than `maxStalledRounds` attempts in a row set out to succeed one version. -/
def Stalled (bases : List (World × LoadedManifest)) : Prop :=
  ∃ v l, l <:+: bases ∧ maxStalledRounds<l.length ∧ ∀ a ∈ l, a.2.pointer.version=v

/-- `p` ends in no error outside `G` and, when it succeeds, establishes `P`. -/
def Calm (F : Faults) (G : Error → World × Stand → Prop) {α : Type} (p : StoreM α) (P : α → World × Stand → Prop)
    (s : World × Stand) : Prop :=
  wp (Step F) (fun s => Fresh F s.2) own p.run (fun r s' => (∀ e, r = .error e → G e s') ∧ onOk P r s') s

/-- A step after the others have taken theirs. -/
def Moved (F : Faults) (s : World × Stand) (o : Request) (r : Reply o) (s' : World × Stand) : Prop :=
  ∃ w, Grows s.1 w ∧ Step F (w,s.2) o r s'

section
variable {F : Faults} {G : Error → World × Stand → Prop} {s s' : World × Stand} {α : Type}
  {P : α → World × Stand → Prop}
  {p : StoreM α} {e : Error} {o : Request}

theorem Moved.grows {r : Reply o} (h : Moved F s o r s') : Grows s.1 s'.1 := by
  obtain ⟨w,hg,hs⟩ := h
  exact hg.trans hs.grows

theorem Moved.phase {r : Reply o} (h : Moved F s o r s') : s'.2.phase=s.2.phase.after o r := by
  obtain ⟨w,-,hs⟩ := h
  rw [hs.stand]
  rfl

theorem Moved.began {r : Reply o} (h : Moved F s o r s') (ho : beginsLoad o=false) : s'.2.began=s.2.began := by
  obtain ⟨w,-,hs⟩ := h
  rw [hs.stand,Stand.after,ho]
  rfl

theorem Moved.bases {r : Reply o} (h : Moved F s o r s') (ho : attemptBase o=none) : s'.2.bases=s.2.bases := by
  obtain ⟨w,-,hs⟩ := h
  rw [hs.stand,Stand.after,ho]

theorem Moved.chain {r : Reply o} (h : Moved F s o r s') : Chain s'.1 := by
  obtain ⟨w,-,hs⟩ := h
  exact hs.chain

theorem Moved.get {path : Path} {r : Reply (.get path)} (h : Moved F s (.get path) r s') (hb : r = .ok b) :
    s'.1.body path=some b := by
  obtain ⟨w,-,hs⟩ := h
  exact body_of_get (hb ▸ hs.answered)

theorem Fresh.after {st : Stand} (h : Fresh F st) (w : World) (o : Request) (r : Reply o)
    (hbase : ∀ base, attemptBase o=some base → F.reads=false →
      ∀ m, Published st.began m → m.version≤base.manifest.version) : Fresh F (st.after w o r) := by
  intro hreads e he
  rw [Stand.after] at he
  cases hb : attemptBase o with
  | none =>
    rw [hb] at he
    exact h hreads e he
  | some base =>
    rw [hb] at he
    rcases List.mem_append.mp he with he | he
    · exact h hreads e he
    · rw [List.mem_singleton.mp he]
      exact hbase base hb hreads

theorem Calm.bind {f : α → StoreM β} {Q : β → World × Stand → Prop} (hp : Calm F G p P s)
    (hf : ∀ a s', P a s' → Calm F G (f a) Q s') : Calm F G (p >>= f) Q s := by
  unfold Calm
  rw [wp_exceptBind]
  refine wp_mono (fun r s' h => ?_) hp
  cases r with
  | ok a => exact hf a s' h.2
  | error e => exact ⟨fun e' he => h.1 e' (by cases he; rfl),trivial⟩

theorem Calm.mono {Q : α → World × Stand → Prop} (h : Calm F G p P s) (himp : ∀ a s', P a s' → Q a s') :
    Calm F G p Q s := by
  refine wp_mono (fun r s' hr => ⟨hr.1,?_⟩) h
  cases r with
  | ok a => exact himp a s' hr.2
  | error e => trivial

theorem Calm.weaken {G' : Error → World × Stand → Prop} (h : Calm F G p P s) (hG : ∀ e s', G e s' → G' e s') :
    Calm F G' p P s := wp_mono (fun _ s' hr => ⟨fun e he => hG e s' (hr.1 e he),hr.2⟩) h

/-- What only grows with the store is kept. -/
theorem Calm.frame {J : World → Prop} (hJ : ∀ w w', Grows w w' → J w → J w') (hs : J s.1) (h : Calm F G p P s) :
    Calm F G p (fun a s' => P a s' ∧ J s'.1) s := by
  refine wp_mono (fun r s' hr => ?_) (wp_frame (F := fun s : World × Stand => J s.1) (fun _ _ hR => hJ _ _ hR.1)
    (fun _ _ hG => hJ _ _ hG) hs h)
  refine ⟨hr.1.1,?_⟩
  cases r with
  | ok a => exact ⟨hr.1.2,hr.2⟩
  | error e => trivial

theorem Calm.ret (h : P a s) : Calm F G (pure a) P s := ⟨nofun,h⟩

theorem Calm.fail (he : G e s) : Calm F G (throw e) P s := by
  refine ⟨fun e' h => ?_,trivial⟩
  cases h
  exact he

theorem Calm.request_bind {f : Reply o → StoreM β} {P : β → World × Stand → Prop}
    (hbase : ∀ base, attemptBase o=some base → F.reads=false →
      ∀ m, Published s.2.began m → m.version≤base.manifest.version)
    (h : ∀ r s', Moved F s o r s' → Calm F G (f r) P s') : Calm F G (ask o >>= f) P s := by
  rintro ⟨w1,st⟩ ⟨hg,hst⟩ hfresh r s2 hs
  obtain rfl : st=s.2 := hst
  refine ⟨?_,hs.grows,h r s2 ⟨w1,hg,hs⟩⟩
  change Fresh F s2.2
  rw [hs.stand]
  exact hfresh.after w1 o r hbase

theorem Calm.ask_bind {f : Reply o → StoreM β} {P : β → World × Stand → Prop} (ho : attemptBase o=none)
    (h : ∀ r s', Moved F s o r s' → Calm F G (f r) P s') : Calm F G (ask o >>= f) P s :=
  .request_bind (fun base hb => by rw [ho] at hb; cases hb) h

theorem Calm.ofStore_bind {r : Except StoreError β} {f : β → StoreM α} (hG : ∀ e, r = .error e → G (.objectStore e) s)
    (h : ∀ a, r = .ok a → Calm F G (f a) P s) :
    Calm F G (ofStore r >>= f) P s := by
  cases r with
  | ok a => exact h a rfl
  | error e => exact .fail (hG e rfl)

theorem Calm.require_bind [Decidable c] {f : Unit → StoreM β} {P : β → World × Stand → Prop} (he : c ∨ G e s)
    (h : c → Calm F G (f ()) P s) : Calm F G (require c e >>= f) P s :=
  of_require_bind (motive := (Calm F G · P s)) h fun hc => .fail (he.resolve_left hc)

theorem Calm.attempt_bind {f : Except Error α → StoreM β} {P : Except Error α → World × Stand → Prop}
    (hp : wp (Step F) (fun s => Fresh F s.2) own p.run P s) (hf : ∀ r s', P r s' → Calm F G (f r) Q s') :
    Calm F G (attempt p >>= f) Q s := by
  unfold Calm
  rw [wp_attempt]
  exact wp_mono hf hp

/-- What no attempt changes is the same after a program that makes none. -/
theorem Calm.keep (hp : p.run.Only (attemptBase ·=none)) (h : Calm F G p P s) :
    Calm F (fun e s' => G e s' ∧ s'.2.bases=s.2.bases) p (fun a s' => P a s' ∧ s'.2.bases=s.2.bases) s := by
  refine wp_mono (fun r s' hr => ⟨fun e he => ⟨hr.1.1 e he,hr.2⟩,?_⟩) (wp_frame_only
    (J := fun s' : World × Stand => s'.2.bases=s.2.bases) (fun hR hJ => ?_) (fun ho hJ hs => ?_) hp rfl h)
  · cases r with
    | ok a => exact ⟨hr.1.2,hr.2⟩
    | error e => trivial
  · rw [hR.2]
    exact hJ
  · rw [hs.stand,Stand.after,ho]
    exact hJ

theorem Calm.of_sends (hp : Sends (attemptBase ·=none) E p) (hG : ∀ e s', E e → s'.2.bases=s.2.bases → G e s') :
    Calm F G p (fun _ s' => s'.2.bases=s.2.bases) s := by
  refine wp_mono (fun r s' hr => ⟨fun e he => hG e s' (hr.1 e he) hr.2,?_⟩)
    (wp_of_ends (J := fun s' : World × Stand => s'.2.bases=s.2.bases) ?_ ?_ hp rfl)
  · cases r with
    | ok a => exact hr.2
    | error e => trivial
  · rintro ⟨w1,st1⟩ ⟨w2,st2⟩ ⟨-,rfl⟩ hj
    exact hj
  · intro s1 o r s2 ho hfresh hj hs
    rw [hs.stand]
    refine ⟨hfresh.after s1.1 o r fun base hb => ?_,hs.grows,?_⟩
    · rw [ho] at hb
      cases hb
    · rw [Stand.after,ho]
      exact hj

end

section
variable {F : Faults} {G : Error → World × Stand → Prop} {s s' : World × Stand} {fence : WriterFence}
  {base : LoadedManifest}
  {new : Manifest}

/-- The re-read of a refused attempt: it has, or has not yet, read a pointer. -/
def Reading (v : Nat) (ph : Phase) : Prop := ph = .refused v ∨ ph = .resolved v

/-- In a re-read only what reads a body may end it. -/
theorem Reading.get (h : Reading v ph) {p : Path} (hp : isPointerPath p=true) (r : Reply (.get p)) :
    ph.after (.get p) r = .resolved v := by
  rcases h with rfl | rfl <;> simp [Phase.after,hp]

/-- The phase in which a load is made is kept by the requests that find the pointer. -/
def SamePhase (ph ph' : Phase) : Prop := ∀ v, Reading v ph → Reading v ph'

/-- The replies with which a store fails a request. -/
def failed : (o : Request) → Reply o → Bool
  | .list _, .error _ => true
  | .put _ _, .error _ => true
  | .get _, .error e => e≠.notFound
  | .head _, .error e => e≠.notFound
  | .putCreate _ _, .error e => e≠.alreadyExists
  | _, _ => false

theorem Moved.faulty {r : Reply o} (h : Moved F s o r s') (hr : failed o r=true) : F≠noFaults := by
  rintro rfl
  obtain ⟨w,-,hs⟩ := h
  have hanswered := hs.answered
  cases o <;> simp only [answers,noFaults,Bool.false_eq_true,false_and,and_false,or_false] at hanswered
  case get p => cases hb : w.body p <;> simp [hanswered.2,hb,found,failed] at hr
  case head p => cases hb : w.stat p <;> simp [hanswered.2,hb,found,failed] at hr
  case putCreate p b =>
    rcases hanswered with ⟨-,-,rfl⟩ | ⟨-,-,rfl⟩ <;> cases hr
  case put p b =>
    obtain ⟨-,rfl⟩ := hanswered
    cases hr
  case list d =>
    obtain ⟨-,l,-,rfl⟩ := hanswered
    cases hr
  all_goals cases hr

theorem Moved.head {path : Path} {r : Reply (.head path)} (h : Moved F s (.head path) r s') :
    (r = .error .notFound → s'.1.body path=none) ∧ ∀ info, r = .ok info → ∃ b, s'.1.body path=some b := by
  obtain ⟨w,-,hs⟩ := h
  obtain ⟨hw,rfl | ⟨-,rfl⟩⟩ := hs.answered
  · rw [hw,World.stat,World.body]
    cases w.objects.lookup path with
    | none => exact ⟨fun _ => rfl,by rintro _ ⟨⟩⟩
    | some obj => exact ⟨by rintro ⟨⟩,fun _ _ => ⟨_,rfl⟩⟩
  · exact ⟨by rintro ⟨⟩,by rintro _ ⟨⟩⟩

/-- A create-only key that was there is not missed. -/
theorem Moved.get_error {path : Path} (h : Moved F s (.get path) (.error e) s') (hp : createOnly path)
    (hb : s.1.body path=some b) : F≠noFaults := by
  rintro rfl
  obtain ⟨w,hg,hs⟩ := h
  obtain ⟨-,hr | ⟨hr,-⟩⟩ := hs.answered
  · rw [hg.slots hp hb] at hr
    cases hr
  · cases hr

/-- A published manifest of that version. -/
def At (w : World) (n : Nat) : Prop := ∃ m, Published w m ∧ m.version=n

theorem at_of_pointer (h : Chain w) (hb : ∃ b, w.body (.pointerVersion n)=some b) : At w n := by
  obtain ⟨b,hb⟩ := hb
  obtain ⟨m,hv,-,hp⟩ := h.pointer hb
  exact ⟨m,hp,hv⟩

theorem Moved.at_of_isOk (hs : Moved F s (.head (.pointerVersion n)) r s') (hok : isOk r=true) : At s'.1 n := by
  cases r with
  | ok info => exact at_of_pointer hs.chain (hs.head.2 info rfl)
  | error e => cases hok

theorem Moved.not_published (hs : Moved F s (.head (.pointerVersion 0)) r s') (hmissing : ¬ isOk r=true)
    (hgrows : Grows s'.2.began s'.1) (hreads : F.reads=false) (m : Manifest) : ¬ Published s'.2.began m := by
  intro hm
  obtain ⟨m0,hp0,hv0⟩ := hs.chain.published_below (hgrows.published hm) (Nat.zero_le _)
  have hbody := hp0.2
  rw [hv0] at hbody
  obtain ⟨w,-,hs⟩ := hs
  obtain ⟨hw,hfound | ⟨hfault,-⟩⟩ := hs.answered
  · rw [hw] at hbody
    obtain ⟨o,ho,-⟩ := body_eq_some.mp hbody
    rw [World.stat,ho] at hfound
    rw [hfound] at hmissing
    exact hmissing rfl
  · rw [hreads] at hfault
    cases hfault

theorem At.grows (hg : Grows w w') (h : At w n) : At w' n := by
  obtain ⟨m,hp,hv⟩ := h
  exact ⟨m,hg.published hp,hv⟩

theorem published_listed (hm : Published w m) : m.version∈listedVersions (w.listing .pointers) := by
  obtain ⟨o,ho,-⟩ := body_eq_some.mp hm.2
  exact mem_listedVersions.mpr ⟨o,ho⟩

theorem le_topPointer (h : topPointer w=some v) (hm : Published w m) : m.version≤v := by
  rw [topPointer,maxListed_eq_max?,List.max?_eq_some_iff] at h
  exact h.2 _ (published_listed hm)

theorem at_topPointer (hc : Chain w) (h : topPointer w=some v) : At w v := by
  rw [topPointer,maxListed_eq_max?,List.max?_eq_some_iff] at h
  obtain ⟨o,ho⟩ := mem_listedVersions.mp h.1
  exact at_of_pointer hc ⟨_,body_eq_some.mpr ⟨o,ho,rfl⟩⟩

theorem not_published (h : topPointer w=none) (m : Manifest) : ¬ Published w m := by
  intro hm
  rw [topPointer,maxListed_eq_max?,List.max?_eq_none_iff] at h
  have hmem := published_listed hm
  rw [h] at hmem
  cases hmem

/-- What a load is sure of that sets out from the pointer `n`. -/
structure Below (s : World × Stand) (n : Nat) : Prop where
  at_n : At s.1 n
  newest : ∀ m, Published s.2.began m → m.version≤n

variable (hG : ∀ e s, e.isLostRace=false → (F=noFaults → Outrun s) → G e s)
include hG

theorem calm_probeLoop (n fuel : Nat) (hbegan : Grows s.2.began s.1)
    (hn : F=noFaults → At s.1 n ∧ ∀ m, Published s.2.began m → m.version+maxProbe≤n+fuel) :
    Calm F G (probeLoop n fuel) (fun n' s' => s'.2.phase=s.2.phase ∧ s'.2.began=s.2.began ∧ (F=noFaults → At s'.1 n') ∧
      ∀ m, Published s'.2.began m → m.version≤n') s := by
  induction fuel generalizing n s with
  | zero =>
    refine .fail (hG _ _ rfl fun hF => ?_)
    obtain ⟨⟨m,hp,hv⟩,hbound⟩ := hn hF
    exact ⟨m,hp,fun m' hm' => hv.symm ▸ hbound m' hm'⟩
  | succ fuel ih =>
    refine .ask_bind rfl fun r s1 hs => ?_
    have hbegan1 : s1.2.began=s.2.began := hs.began rfl
    match r with
    | .ok info =>
      have hnext : At s1.1 (n+1) := hs.at_of_isOk rfl
      refine (ih (n+1) (hbegan1 ▸ hbegan.trans hs.grows) fun hF => ⟨hnext,fun m hm => ?_⟩).mono fun n' s' h => ?_
      · rw [hbegan1] at hm
        have := (hn hF).2 m hm
        omega
      · rw [h.1,h.2.1]
        exact ⟨hs.phase,hbegan1,h.2.2.1,h.2.1 ▸ h.2.2.2⟩
    | .error .notFound =>
      refine .ret ⟨hs.phase,hbegan1,fun hF => (hn hF).1.grows hs.grows,fun m hm => ?_⟩
      rw [hbegan1] at hm
      exact hs.chain.version_le (hs.head.1 rfl) ((hbegan.trans hs.grows).published hm)
    | .error .alreadyExists | .error .other => exact .fail (hG _ _ rfl fun hF => absurd hF (hs.faulty rfl))

/-- Without a pointer to start from nothing was published. -/
theorem calm_maxPointerVersion (s : World × Stand) :
    Calm F G maxPointerVersion (fun r s' => SamePhase s.2.phase s'.2.phase ∧ Grows s.1 s'.2.began ∧
      Grows s'.2.began s'.1 ∧ (r=none → F.reads=false → ∀ m, ¬ Published s'.2.began m) ∧
      ∀ n, r=some n → F=noFaults → Below s' n) s := by
  refine .ask_bind rfl fun r s1 hs1 =>
    .ofStore_bind (fun e he => hG _ _ rfl fun hF => absurd hF (hs1.faulty (by rw [he]; rfl))) fun metas hmetas => ?_
  have hphase1 : s1.2.phase=s.2.phase := hs1.phase
  have hlisted : F=noFaults → maxListed metas=topPointer s1.2.began := by
    rintro rfl
    obtain ⟨w,-,hs⟩ := hs1
    obtain ⟨-,⟨l,hl,hr⟩ | ⟨h,-⟩ | ⟨h,-⟩⟩ := hs.answered
    · rw [hmetas] at hr
      cases hr
      rw [hs.stand]
      exact maxListed_perm hl
    · cases h
    · cases h
  have hbegan1 : Grows s.1 s1.2.began ∧ Grows s1.2.began s1.1 ∧ Chain s1.2.began := by
    obtain ⟨w,hg,hs⟩ := hs1
    rw [hs.stand]
    have hw : s1.1=w := hs.answered.1
    exact ⟨hg,hs.grows,hw ▸ hs.chain⟩
  split
  · rename_i v hv
    refine .ret ⟨fun v h => hphase1 ▸ h,hbegan1.1,hbegan1.2.1,by rintro ⟨⟩,fun n hn hF => ?_⟩
    cases hn
    rw [hlisted hF] at hv
    exact ⟨(at_topPointer hbegan1.2.2 hv).grows hbegan1.2.1,fun m hm => le_topPointer hv hm⟩
  rename_i hnone
  have hnothing : F=noFaults → ∀ m, ¬ Published s1.2.began m := fun hF => not_published (hlisted hF ▸ hnone)
  refine .ask_bind rfl fun r0 s2 hs2 => ?_
  have hphase2 : s2.2.phase=s.2.phase := hs2.phase.trans hphase1
  have hbegan2 : s2.2.began=s1.2.began := hs2.began rfl
  have hgrows2 : Grows s2.2.began s2.1 := hbegan2 ▸ hbegan1.2.1.trans hs2.grows
  split
  · rename_i hok
    refine .ret ⟨fun v h => hphase2 ▸ h,hbegan2 ▸ hbegan1.1,hgrows2,by rintro ⟨⟩,fun n hn hF => ?_⟩
    cases hn
    exact ⟨hs2.at_of_isOk hok,fun m hm => absurd (hbegan2 ▸ hm) (hnothing hF m)⟩
  rename_i hmissing
  have hempty := hs2.not_published hmissing hgrows2
  refine .ask_bind rfl fun r1 s3 hs3 => ?_
  have hphase3 : SamePhase s.2.phase s3.2.phase := by
    intro v h
    rw [hs3.phase]
    exact .inr (Reading.get (hphase2 ▸ h) rfl r1)
  have hbegan3 : s3.2.began=s1.2.began := (hs3.began rfl).trans hbegan2
  have hgrows3 : Grows s3.2.began s3.1 := hbegan3 ▸ hbegan2 ▸ hgrows2.trans hs3.grows
  rw [hbegan2] at hempty
  split
  · refine .ask_bind rfl fun r2 s4 hs4 => ?_
    have hphase4 : s4.2.phase=s3.2.phase := hs4.phase
    have hbegan4 : s4.2.began=s1.2.began := (hs4.began rfl).trans hbegan3
    have hgrows4 : Grows s4.2.began s4.1 := hbegan4 ▸ hbegan3 ▸ hgrows3.trans hs4.grows
    split
    · rename_i hok
      refine .ret ⟨hphase4 ▸ hphase3,hbegan4 ▸ hbegan1.1,hgrows4,by rintro ⟨⟩,fun n hn hF => ?_⟩
      cases hn
      exact ⟨hs4.at_of_isOk hok,fun m hm => absurd (hbegan4 ▸ hm) (hnothing hF m)⟩
    · exact .ret ⟨hphase4 ▸ hphase3,hbegan4 ▸ hbegan1.1,hgrows4,fun _ => hbegan4 ▸ hempty,by rintro _ ⟨⟩⟩
  · exact .ret ⟨hphase3,hbegan3 ▸ hbegan1.1,hgrows3,fun _ => hbegan3 ▸ hempty,by rintro _ ⟨⟩⟩

variable (hboot : F=noFaults → ∃ m, Published s.1 m)
include hboot

theorem calm_loadPointer :
    Calm F G loadPointer (fun pointer s' => (∃ m, pointer=pointerOf m ∧ Published s'.1 m) ∧
      (∀ v, Reading v s.2.phase → s'.2.phase = .resolved v) ∧
      (F.reads=false → ∀ m, Published s'.2.began m → m.version≤pointer.version)) s := by
  refine .bind (calm_maxPointerVersion hG s) fun r s1 h1 => ?_
  obtain ⟨hphase,hgrown,hgrows,hnone,hbelow⟩ := h1
  cases r with
  | none =>
    refine .ask_bind rfl fun r s2 hs => .ofStore_bind (fun e _ => hG _ _ rfl fun hF => ?_) fun body hbody => ?_
    · obtain ⟨m,hm⟩ := hboot hF
      exact absurd (hgrown.published hm) (hnone rfl (by rw [hF]; rfl) m)
    obtain ⟨m,rfl,hp⟩ := hs.chain.advisory (hs.get hbody)
    refine .ret ⟨⟨m,rfl,hp⟩,fun v h => hs.phase.trans ((hphase v h).get rfl r),fun hreads m hm => ?_⟩
    rw [hs.began rfl] at hm
    exact absurd hm (hnone rfl hreads m)
  | some maxN =>
    refine .bind (calm_probeLoop hG maxN maxProbe hgrows fun hF => ?_) fun n s2 h2 => ?_
    · have hb := hbelow maxN rfl hF
      exact ⟨hb.at_n,fun m hm => Nat.add_le_add_right (hb.newest m hm) _⟩
    obtain ⟨hphase2,-,hat,hnewest⟩ := h2
    refine .ask_bind rfl fun r s3 hs => .ofStore_bind (fun e he => hG _ _ rfl fun hF => ?_) fun body hbody => ?_
    · obtain ⟨m,hp,rfl⟩ := hat hF
      exact absurd hF (Moved.get_error (he ▸ hs) rfl hp.2)
    obtain ⟨m,hv,rfl,hp⟩ := hs.chain.pointer (hs.get hbody)
    refine .ret ⟨⟨m,rfl,hp⟩,fun v h => ?_,fun _ m' hm => ?_⟩
    · rw [hs.phase]
      exact Reading.get (hphase2 ▸ hphase v h) rfl r
    · rw [hs.began rfl] at hm
      exact (hnewest m' hm).trans_eq hv.symm

theorem calm_loadCurrent :
    Calm F G loadCurrent (fun l s' => Loaded s'.1 l ∧ Chain s'.1 ∧
      (∀ v, Reading v s.2.phase → s'.1.body (.pointerVersion v)=none) ∧
      (F.reads=false → ∀ m, Published s'.2.began m → m.version≤l.manifest.version)) s := by
  refine .bind (calm_loadPointer hG hboot) fun pointer s1 h1 => ?_
  obtain ⟨⟨m,rfl,hp⟩,hphase,hnewest⟩ := h1
  refine .ask_bind rfl fun r s2 hs => .ofStore_bind (fun e he => hG _ _ rfl fun hF => ?_) fun body hbody => ?_
  · exact absurd hF (Moved.get_error (he ▸ hs) rfl hp.1)
  have hp2 := hs.grows.published hp
  have hstored : s2.1.body (.manifestVersion m.version)=some body := hs.get hbody
  rw [hp2.1] at hstored
  cases hstored
  refine .require_bind (.inl rfl) fun _ => .ret ⟨⟨rfl,m,hp2,.refl m⟩,hs.chain,fun v h => ?_,fun hreads m' hm => ?_⟩
  · obtain ⟨w,-,hs⟩ := hs
    have hunraced := hs.unraced
    rw [hphase v h] at hunraced
    rw [hs.answered.1]
    simpa [unraced] using hunraced
  · rw [hs.began rfl] at hm
    exact hnewest hreads m' hm

end

section
variable {F : Faults} {s s' : World × Stand} {fence : WriterFence} {base : LoadedManifest} {new : Manifest}
  {pointer : ManifestPointer}

/-- The errors of an attempt: it has lost its race, or the store failed, or the claimer was outrun. -/
def OfAttempt (F : Faults) (e : Error) (s : World × Stand) : Prop :=
  e.isFenced=false ∧ (e.isManifestCommitCas=false → F=noFaults → Outrun s)

theorem ofAttempt (e : Error) (s : World × Stand) (h : e.isLostRace=false) (hF : F=noFaults → Outrun s) :
    OfAttempt F e s := ⟨(Bool.or_eq_false_iff.mp h).1,fun _ => hF⟩

/-- As long as the version is not published the re-read finds no epoch above that of the base. -/
theorem calm_lostTo {P : Unit → World × Stand → Prop} (hread : Reading (base.manifest.version+1) s.2.phase)
    (hbase : Loaded s.1 base) (hepoch : fence.epoch=base.manifest.epoch) (expected : Nat)
    (found : LoadedManifest → Nat) : Calm F (OfAttempt F) (lostTo fence expected found) P s := by
  have hboot : F=noFaults → ∃ m, Published s.1 m := fun _ => hbase.2.imp fun _ h => h.1
  refine .bind ((calm_loadCurrent ofAttempt hboot).frame (fun _ _ hg => hg.loaded) hbase) fun reloaded s1 h1 => ?_
  obtain ⟨⟨⟨-,m,hm,hreloaded⟩,hchain,hunraced,-⟩,-,m0,hm0,hbase0⟩ := h1
  have hle : m.version ≤ m0.version := by
    rw [← hbase0.version_eq]
    exact hchain.version_le (hunraced _ hread) hm
  have hnot : ¬ reloaded.manifest.epoch>fence.epoch := by
    rw [hepoch,hreloaded.epoch_eq,hbase0.epoch_eq]
    exact Nat.not_lt.mpr (hchain.epoch_mono hm hm0 hle)
  rw [if_neg hnot]
  exact .fail ⟨rfl,nofun⟩

/-- An attempt at the version `v` in which nothing has been re-read. -/
def InAttempt (v : Nat) (ph : Phase) : Prop := ph = .trying v ∨ ph = .refused v

/-- What is known after a create of the attempt. -/
structure Created (F : Faults) (base : LoadedManifest) (r : Except Error Unit) (s : World × Stand) : Prop where
  error : ∀ e, r = .error e → e≠.objectStore .alreadyExists → OfAttempt F e s
  loaded : Loaded s.1 base
  inAttempt : InAttempt (base.manifest.version+1) s.2.phase
  refused : r = .error (.objectStore .alreadyExists) → s.2.phase = .refused (base.manifest.version+1)

theorem created_putCreate (h : InAttempt (base.manifest.version+1) s.2.phase) (p : Path) (b : Blob)
    (hbase : Loaded s.1 base) :
    wp (Step F) (fun s => Fresh F s.2) own (putCreate p b).run (Created F base) s := by
  rintro ⟨w1,st⟩ ⟨hg,hst⟩ hfresh r s2 hs
  obtain rfl : st=s.2 := hst
  have hmoved : Moved F s (.putCreate p b) r s2 := ⟨w1,hg,hs⟩
  have hphase := hmoved.phase
  refine ⟨?_,hs.grows,?_⟩
  · change Fresh F s2.2
    rw [hs.stand]
    exact hfresh.after w1 _ r nofun
  have hloaded := hmoved.grows.loaded hbase
  have hin : r≠.error .alreadyExists → InAttempt (base.manifest.version+1) s2.2.phase := by
    intro hr
    rw [hphase]
    rcases h with h | h <;> simp [h,Phase.after,hr,InAttempt]
  match r with
  | .error .alreadyExists =>
    have href : s2.2.phase = .refused (base.manifest.version+1) := by
      rw [hphase]
      rcases h with h | h <;> rw [h] <;> rfl
    exact ⟨fun e he hne => absurd (by cases he; rfl) hne,hloaded,.inr href,fun _ => href⟩
  | .ok () => exact ⟨nofun,hloaded,hin nofun,nofun⟩
  | .error .notFound | .error .other =>
    refine ⟨fun e he _ => ?_,hloaded,hin nofun,nofun⟩
    cases he
    exact ofAttempt _ _ rfl fun hF => absurd hF (hmoved.faulty rfl)

theorem calm_settleBody (h : Created F base r s) (hepoch : fence.epoch=base.manifest.epoch) :
    Calm F (OfAttempt F) (settleBody fence base new r)
      (fun _ s' => InAttempt (base.manifest.version+1) s'.2.phase ∧ Loaded s'.1 base) s := by
  cases r with
  | ok u => exact .ret ⟨h.inAttempt,h.loaded⟩
  | error e =>
    by_cases he : e = .objectStore .alreadyExists
    · subst he
      refine .bind (P := fun _ s' => s'.2.phase = .refused (base.manifest.version+1) ∧ Loaded s'.1 base) ?_
        fun ours s1 h1 => ?_
      · refine .ask_bind rfl fun r s1 hs => ?_
        have hkept : s1.2.phase = .refused (base.manifest.version+1) ∧ Loaded s1.1 base := by
          refine ⟨?_,hs.grows.loaded h.loaded⟩
          rw [hs.phase,h.refused rfl]
          rfl
        match r with
        | .error .notFound => exact .ret hkept
        | .error .alreadyExists | .error .other => exact .fail (ofAttempt _ _ rfl fun hF => absurd hF (hs.faulty rfl))
        | .ok existing =>
          dsimp only
          split
          · exact .ret hkept
          · cases existing <;> exact .ret hkept
      · cases ours with
        | true => exact .ret ⟨.inr h1.1,h1.2⟩
        | false => exact calm_lostTo (.inl h1.1) h1.2 hepoch _ _
    · simp only [settleBody,he]
      exact .fail (h.error e rfl he)

theorem settles_attemptBase (o : Request) (h : settles o=true) : attemptBase o=none := by
  unfold settles at h
  split at h <;> first | rfl | cases h

/-- The attempt is entered in the list of bases once. -/
theorem calm_commit (hepoch : fence.epoch=base.manifest.epoch) (hv : new.version=base.manifest.version+1)
    (hnew : base.manifest.epoch≤new.epoch) (hbase : Loaded s.1 base)
    (hnewest : F.reads=false → ∀ m, Published s.2.began m → m.version≤base.manifest.version) :
    Calm F (fun e s' => OfAttempt F e s' ∧ s'.2.bases=s.2.bases++[(s.2.began,base)]) (commit fence base new)
      (fun _ _ => True) s := by
  refine .bind (P := fun _ s' => (InAttempt (base.manifest.version+1) s'.2.phase ∧ Loaded s'.1 base) ∧
    s'.2.bases=s.2.bases++[(s.2.began,base)]) ?_ fun p s1 h1 => ?_
  · refine .request_bind (fun b hb => by cases hb; exact hnewest) fun _ s1 hs => ?_
    have hin : InAttempt (base.manifest.version+1) s1.2.phase := .inl (by rw [hs.phase,← hv]; rfl)
    have hbases : s1.2.bases=s.2.bases++[(s.2.began,base)] := by
      obtain ⟨w,-,hs⟩ := hs
      rw [hs.stand]
      rfl
    rw [← hbases]
    refine .keep (.bind (.require trivial) fun _ => .bind (.require trivial) fun _ => .bind (.require trivial)
      fun _ => .attempt_bind (.ask_bind rfl (sends_ofStore fun _ _ => trivial)) fun r _ =>
        .bind (sends_settleBody (fun _ => trivial) settles_attemptBase _ _ _ r) fun _ => .ret _ :
      Sends (attemptBase ·=none) (fun _ => True) _).only ?_
    refine .require_bind (.inl hepoch.ge) fun _ => .require_bind (.inl hv) fun _ => .require_bind (.inl hnew)
      fun _ => ?_
    refine .attempt_bind (created_putCreate hin _ _ (hs.grows.loaded hbase)) fun r s2 h2 => ?_
    exact .bind (calm_settleBody h2 hepoch) fun _ s3 h => .ret h
  · obtain ⟨⟨hin,hloaded⟩,hbases⟩ := h1
    rw [← hbases]
    have honly := (sends_casPointer (G := fun _ => True) (fun _ => trivial) settles_attemptBase fence base new p).only
    refine .mono (.keep (P := fun _ _ => True) honly ?_) fun _ _ _ => trivial
    refine .ask_bind rfl fun _ s2 hs => ?_
    have hin2 : InAttempt (base.manifest.version+1) s2.2.phase := by
      rw [hs.phase]
      exact hin
    refine .attempt_bind (created_putCreate hin2 _ _ (hs.grows.loaded hloaded)) fun r s3 h3 => ?_
    refine .bind (P := fun _ _ => True) ?_ fun _ s4 _ => ?_
    · cases r with
      | ok u => exact .ret trivial
      | error e =>
        by_cases he : e = .objectStore .alreadyExists
        · subst he
          exact calm_lostTo (.inl (h3.refused rfl)) h3.loaded hepoch _ _
        · simp only [settlePointer,he]
          exact .fail (h3.error e rfl he)
    · refine .bind (P := fun _ _ => True) (.ask_bind rfl fun r s5 hs => ?_) fun _ _ _ => .ret trivial
      cases r with
      | ok u => exact .ret trivial
      | error e => exact .fail (ofAttempt _ _ rfl fun hF => absurd hF (hs.faulty rfl))

section
variable [ContentHash] (base : LoadedManifest)

theorem sends_repairVersion (version fuel : Nat) :
    Sends (attemptBase ·=none) (·.isLostRace=false) (repairVersion base version fuel) := by
  have hjudges : ∀ o, judges o=true → attemptBase o=none := fun o h => by cases o <;> first | rfl | cases h
  refine .ask_bind rfl fun r => ?_
  match r with
  | .ok _ => exact .ret ()
  | .error .alreadyExists | .error .other => exact .fail rfl
  | .error .notFound =>
    refine .ask_bind rfl fun r => ?_
    match r with
    | .error .notFound => exact .ret ()
    | .error .alreadyExists | .error .other => exact .fail rfl
    | .ok body =>
      refine .bind ?_ fun o => ?_
      · cases body with
        | manifest orphan =>
          unfold orphanReadyToPublish
          dsimp only
          split
          · refine .bind (sends_sstsDurable (fun _ h => h) hjudges _) fun ssts => ?_
            cases ssts with
            | false => exact .ret _
            | true =>
              exact .bind (sends_walSegmentsDurable (fun _ h => h) hjudges _ _) fun _ => .ret _
          · exact .ret _
        | _ => exact .ret _
      · cases o with
        | some orphan => exact sends_publishOrphan (fun _ h => h) (fun _ => rfl) fun _ => rfl
        | none =>
          refine .ask_bind rfl fun r => ?_
          match r with
          | .ok () | .error .notFound => exact .ret ()
          | .error .alreadyExists | .error .other => exact .fail rfl

theorem sends_repairStalledCommit (fuel : Nat) :
    Sends (attemptBase ·=none) (·.isLostRace=false) (repairStalledCommit base fuel) := by
  refine .ask_bind rfl fun _ => .attempt_bind (sends_repairVersion base _ fuel) fun r hr => ?_
  refine .ask_bind rfl fun _ => ?_
  cases r with
  | ok u => exact .ret u
  | error e => exact .fail (hr e rfl)

omit [ContentHash] in
/-- The rounds that a claimer counts are its last attempts, all from the version it has noted. -/
def Counted (stall : Stall) (bases : List (World × LoadedManifest)) : Prop :=
  ∀ v, stall.lastVersion=some v →
    ∃ l, l <:+ bases ∧ stall.stalledRounds<l.length ∧ ∀ a ∈ l, a.2.pointer.version=v

omit [ContentHash] in
theorem Counted.again {stall : Stall} (h : Counted stall bases) (hv : stall.lastVersion=some base.pointer.version)
    (w : World) : Counted { stall with stalledRounds := stall.stalledRounds+1 } (bases++[(w,base)]) := by
  intro v hlast
  obtain rfl : base.pointer.version=v := Option.some.inj (hv.symm.trans hlast)
  obtain ⟨l,hl,hlen,hall⟩ := h _ hv
  refine ⟨l++[(w,base)],?_,by simpa using hlen,fun a ha => ?_⟩
  · obtain ⟨pre,rfl⟩ := hl
    exact ⟨pre,by simp⟩
  · rcases List.mem_append.mp ha with ha | ha
    · exact hall a ha
    · rw [List.mem_singleton.mp ha]

omit [ContentHash] in
theorem Counted.stalled {stall : Stall} (h : Counted stall bases) (hv : stall.lastVersion=some v)
    (hmany : maxStalledRounds ≤ stall.stalledRounds) : Stalled bases := by
  obtain ⟨l,hl,hlen,hall⟩ := h v hv
  exact ⟨v,l,hl.isInfix,by omega,hall⟩

omit [ContentHash] in
theorem Stalled.append (h : Stalled bases) (more : List (World × LoadedManifest)) : Stalled (bases++more) := by
  obtain ⟨v,l,hl,hlen,hall⟩ := h
  exact ⟨v,l,hl.trans (List.prefix_append _ _).isInfix,hlen,hall⟩

omit [ContentHash] in
/-- The errors of a claim: no lost race, and when the store does not fail the claimer was outrun or stalled. -/
def OfClaim (F : Faults) (e : Error) (s : World × Stand) : Prop :=
  e.isLostRace=false ∧ (F=noFaults → Outrun s ∨ Stalled s.2.bases)

/-- A lost race is not what a claim ends with. -/
theorem calm_claimLoop (stall : Stall) (fuel : Nat) (s : World × Stand) (hboot : F=noFaults → ∃ m, Published s.1 m)
    (hcount : Counted stall s.2.bases ∨ Stalled s.2.bases) :
    Calm F (OfClaim F) (claimLoop none stall fuel) (fun _ _ => True) s := by
  induction fuel generalizing stall s with
  | zero => exact .ask_bind (o := .never) rfl fun r _ _ => nomatch r
  | succ fuel ih =>
    have honly := (sends_loadCurrent (G := fun _ => True) (fun _ => trivial) settles_attemptBase).only
    have hload := calm_loadCurrent (G := OfClaim F) (fun e s h hF => ⟨h,fun h => .inl (hF h)⟩) hboot
    refine .bind ((hload.keep honly).weaken fun _ _ h => h.1) fun base s1 h1 => ?_
    obtain ⟨⟨hbase,-,-,hnewest⟩,hbases⟩ := h1
    refine .ask_bind (o := .uuid) rfl fun id s2 hs2 => .ask_bind (o := .now) rfl fun now s3 hs3 => ?_
    refine .ask_bind (o := .uuid) rfl fun id' s4 hs4 => ?_
    have hloaded : Loaded s4.1 base := (hs2.grows.trans (hs3.grows.trans hs4.grows)).loaded hbase
    have hbegan : s4.2.began=s1.2.began := (hs4.began rfl).trans ((hs3.began rfl).trans (hs2.began rfl))
    have hbases4 : s4.2.bases=s.2.bases :=
      (hs4.bases rfl).trans ((hs3.bases rfl).trans ((hs2.bases rfl).trans hbases))
    refine .attempt_bind (wp_frame (F := fun s : World × Stand => Loaded s.1 base) (fun _ _ hR => hR.1.loaded)
      (fun _ _ hR => hR.loaded) hloaded (calm_commit rfl rfl (Nat.le_succ _) hloaded (by rw [hbegan]; exact hnewest)))
      fun r s5 hr => ?_
    obtain ⟨hr,hloaded5⟩ := hr
    have hboot5 : F=noFaults → ∃ m, Published s5.1 m := fun _ => hloaded5.2.imp fun _ h => h.1
    cases r with
    | ok loaded => exact .ret trivial
    | error e =>
      obtain ⟨⟨hfenced,hother⟩,hbases5⟩ := hr.1 e rfl
      rw [hbases4] at hbases5
      dsimp only
      split
      · split
        · rename_i hlast
          have hcount5 : Counted { stall with stalledRounds := stall.stalledRounds+1 } s5.2.bases ∨
              Stalled s5.2.bases := by
            rw [hbases5]
            exact hcount.imp (fun h => h.again base hlast _) fun h => h.append _
          split
          · rename_i hmany
            have hstalled : Stalled s5.2.bases := hcount5.elim (fun h => h.stalled hlast hmany) fun h => h
            split
            · exact .fail ⟨rfl,fun _ => .inr hstalled⟩
            · refine .bind (.frame (J := fun w => F=noFaults → ∃ m, Published w m) (fun _ _ hg h hF =>
                (h hF).imp fun _ => hg.published) hboot5 (.of_sends (sends_repairStalledCommit base fuel)
                  fun e s' he hb => ⟨he,fun _ => .inr (hb ▸ hstalled)⟩)) fun _ s6 h6 => ?_
              exact ih _ s6 h6.2 (.inr (h6.1 ▸ hstalled))
          · exact ih _ s5 hboot5 hcount5
        · refine ih _ s5 hboot5 (.inl fun v hv => ⟨[(s4.2.began,base)],?_,Nat.one_pos,fun a ha => ?_⟩)
          · rw [hbases5]
            exact List.suffix_append _ _
          · rw [List.mem_singleton.mp ha]
            exact Option.some.inj hv
      · rename_i hcas
        have hcas : e.isManifestCommitCas=false := by simpa using hcas
        exact .fail ⟨Bool.or_eq_false_iff.mpr ⟨hfenced,hcas⟩,fun hF => .inl (hother hcas hF)⟩

end
end
end NamiDB.Storage.Claimers
