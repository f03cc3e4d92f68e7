import Mathlib.Logic.Function.Basic
import NamiDB.Lib.Prog

/-! Any number of clients that share one store. A client between two calls is idle; a call is a
program whose requests interleave with those of the other clients, one request a step. -/
namespace NamiDB.Lib

variable {Op : Type} {Res : Op → Type} {σ ι κ : Type}

/-- A busy client remembers the state it had before the call, to which it returns when the call
is abandoned. -/
inductive Proc (Res : Op → Type) (κ : Type) where
  | idle (c : κ)
  | busy (back : κ) (p : Prog Res κ)

/-- The clients' common store and the calls each of them may make. `drop i` is what the store
forgets when client `i` abandons a call. -/
structure System (σ ι κ : Type) {Op : Type} (Res : Op → Type) where
  sem : ι → Semantics σ Res
  start : ι → κ → Prog Res κ → Prop
  drop : ι → σ → σ

structure Config (σ ι κ : Type) {Op : Type} (Res : Op → Type) where
  world : σ
  proc : ι → Proc Res κ

namespace System
variable [DecidableEq ι] (S : System σ ι κ Res)

/-- One step of one client: begin a call, send the next request, take the result of a finished
call, or abandon the call (a crash, or a caller that cancels). -/
inductive Step : Config σ ι κ Res → Config σ ι κ Res → Prop
  | start {cfg} (i : ι) (c : κ) (p : Prog Res κ) (hi : cfg.proc i = .idle c)
      (hp : S.start i c p) :
      Step cfg ⟨cfg.world,Function.update cfg.proc i (.busy c p)⟩
  | call {cfg} (i : ι) (c : κ) (o : Op) (next : Res o → Prog Res κ) (r : Res o) (s' : σ)
      (hi : cfg.proc i = .busy c (.call o next)) (hs : S.sem i cfg.world o r s') :
      Step cfg ⟨s',Function.update cfg.proc i (.busy c (next r))⟩
  | finish {cfg} (i : ι) (c c' : κ) (hi : cfg.proc i = .busy c (.ret c')) :
      Step cfg ⟨cfg.world,Function.update cfg.proc i (.idle c')⟩
  | abandon {cfg} (i : ι) (c : κ) (p : Prog Res κ) (hi : cfg.proc i = .busy c p) :
      Step cfg ⟨S.drop i cfg.world,Function.update cfg.proc i (.idle c)⟩

inductive Reachable (init : Config σ ι κ Res → Prop) : Config σ ι κ Res → Prop
  | init {cfg} (h : init cfg) : Reachable init cfg
  | step {cfg cfg'} (h : Reachable init cfg) (hs : S.Step cfg cfg') : Reachable init cfg'

/-- Every call of every client keeps its contract, and each contract expects of the others no
more than they promise. `ok i c` is what client `i` knows of the store while it is idle. -/
structure Respects (I : σ → Prop) (C : ι → Contract σ) (ok : ι → κ → σ → Prop) : Prop where
  rely_trans : ∀ i {a b c}, (C i).rely a b → (C i).rely b c → (C i).rely a c
  rely_refl : ∀ i s, (C i).rely s s
  compatible : ∀ {i j s s'}, i≠j → (C i).guar s s' → (C j).rely s s'
  ok_stable : ∀ {i c s s'}, (C i).rely s s' → ok i c s → ok i c s'
  start_wp : ∀ {i c p s}, S.start i c p → I s → ok i c s → wp (S.sem i) I (C i) p (ok i) s
  drop_guar : ∀ {i s}, I s → I (S.drop i s) ∧ (C i).guar s (S.drop i s)
  drop_ok : ∀ {i c p s}, S.start i c p → ok i c s → ok i c (S.drop i s)
  guar_ok : ∀ {i c p s s'}, S.start i c p → (C i).guar s s' → ok i c s → ok i c s'

def ProcOk (I : σ → Prop) (C : ι → Contract σ) (ok : ι → κ → σ → Prop) (s : σ) (i : ι) : Proc Res κ → Prop
  | .idle c => ok i c s
  | .busy c p => (∃ begun, S.start i c begun) ∧ ok i c s ∧ wp (S.sem i) I (C i) p (ok i) s

def ConfigOk (I : σ → Prop) (C : ι → Contract σ) (ok : ι → κ → σ → Prop) (cfg : Config σ ι κ Res) : Prop :=
  I cfg.world ∧ ∀ i, S.ProcOk I C ok cfg.world i (cfg.proc i)

variable {S} {I : σ → Prop} {C : ι → Contract σ} {ok : ι → κ → σ → Prop} {cfg : Config σ ι κ Res} {p : Proc Res κ}
  {i : ι}

omit [DecidableEq ι] in
theorem Respects.procOk_stable (h : S.Respects I C ok) (hR : (C i).rely s s') (hp : S.ProcOk I C ok s i p) :
    S.ProcOk I C ok s' i p := by
  cases p with
  | idle c => exact h.ok_stable hR hp
  | busy c p =>
    refine ⟨hp.1,h.ok_stable hR hp.2.1,?_⟩
    exact wp_stable (h.rely_trans i) (fun c _ _ hR => h.ok_stable (c := c) hR) hR hp.2.2

theorem Respects.configOk_update (h : S.Respects I C ok) (hc : S.ConfigOk I C ok cfg) (hI : I s')
    (hG : (C i).guar cfg.world s') (hp : S.ProcOk I C ok s' i p) :
    S.ConfigOk I C ok ⟨s',Function.update cfg.proc i p⟩ := by
  refine ⟨hI,fun j => ?_⟩
  by_cases hj : j=i
  · subst hj
    simpa using hp
  · simp only [Function.update_of_ne hj]
    exact h.procOk_stable (h.compatible (.symm hj) hG) (hc.2 j)

theorem configOk_local (hc : S.ConfigOk I C ok cfg) (hp : S.ProcOk I C ok cfg.world i p) :
    S.ConfigOk I C ok ⟨cfg.world,Function.update cfg.proc i p⟩ := by
  refine ⟨hc.1,fun j => ?_⟩
  by_cases hj : j=i
  · subst hj
    simpa using hp
  · simpa only [Function.update_of_ne hj] using hc.2 j

theorem Respects.step (h : S.Respects I C ok) (hc : S.ConfigOk I C ok cfg) (hs : S.Step cfg cfg') :
    S.ConfigOk I C ok cfg' := by
  cases hs with
  | start i c p hi hp =>
    have hok : S.ProcOk I C ok cfg.world i (.idle c) := hi ▸ hc.2 i
    exact configOk_local hc ⟨⟨p,hp⟩,hok,h.start_wp hp hc.1 hok⟩
  | call i c o next r s' hi hs =>
    obtain ⟨⟨begun,hb⟩,hok,hw⟩ : S.ProcOk I C ok cfg.world i (.busy c (.call o next)) := hi ▸ hc.2 i
    obtain ⟨hI,hG,hn⟩ := hw cfg.world (h.rely_refl i _) hc.1 r s' hs
    exact h.configOk_update hc hI hG ⟨⟨begun,hb⟩,h.guar_ok hb hG hok,hn⟩
  | finish i c c' hi =>
    obtain ⟨-,hok,hw⟩ : S.ProcOk I C ok cfg.world i (.busy c (.ret c')) := hi ▸ hc.2 i
    exact configOk_local hc hw
  | abandon i c p hi =>
    obtain ⟨⟨begun,hb⟩,hok,hw⟩ : S.ProcOk I C ok cfg.world i (.busy c p) := hi ▸ hc.2 i
    obtain ⟨hI,hG⟩ := h.drop_guar (i := i) hc.1
    exact h.configOk_update hc hI hG (h.drop_ok hb hok)

/-- Soundness: in every reachable configuration the invariant holds and every client is as its
contract says. -/
theorem Respects.sound (h : S.Respects I C ok) (hinit : ∀ cfg, init cfg → S.ConfigOk I C ok cfg)
    (hr : S.Reachable init cfg) : S.ConfigOk I C ok cfg := by
  induction hr with
  | init h0 => exact hinit _ h0
  | step _ hs ih => exact h.step ih hs

end System
end NamiDB.Lib
