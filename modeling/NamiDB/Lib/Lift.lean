import NamiDB.Lib.Schedule

/-! Moving what is proved about a program to a richer store: one with ghost state beside it, or one
that answers requests the program does not send. -/
namespace NamiDB.Lib

variable {Op : Type} {Res : Op → Type} {α β σ ι κ : Type}

namespace Prog

/-- Whatever the replies, the program sends only requests in `K`. -/
def Only (K : Op → Prop) : Prog Res α → Prop
  | .ret _ => True
  | .call o next => K o ∧ ∀ r, (next r).Only K

theorem only_true (p : Prog Res α) : p.Only fun _ => True := by
  induction p with
  | ret a => trivial
  | call o next ih => exact ⟨trivial,ih⟩

variable {K : Op → Prop}

theorem Only.bind {f : α → Prog Res β} (hp : p.Only K) (hf : ∀ a, (f a).Only K) : (p >>= f).Only K := by
  induction p with
  | ret a => exact hf a
  | call o next ih => exact ⟨hp.1,fun r => ih r (hp.2 r)⟩

/-- Whatever the replies, the program sends only requests in `K` and ends with a value in `E`. -/
def Ends (K : Op → Prop) (E : α → Prop) : Prog Res α → Prop
  | .ret a => E a
  | .call o next => K o ∧ ∀ r, (next r).Ends K E

variable {E : α → Prop} {p : Prog Res α}

theorem Ends.bind {E' : β → Prop} (hp : p.Ends K E) (hf : ∀ a, E a → (f a).Ends K E') : (p >>= f).Ends K E' := by
  induction p with
  | ret a => exact hf a hp
  | call o next ih => exact ⟨hp.1,fun r => ih r (hp.2 r)⟩

theorem Ends.only (hp : p.Ends K E) : p.Only K := by
  induction p with
  | ret a => trivial
  | call o next ih => exact ⟨hp.1,fun r => ih r (hp.2 r)⟩

end Prog

section
variable {sem : Semantics σ Res} {p : Prog Res α}

/-- What holds over `τ` holds over `σ` if every step of `σ` is one of `τ` seen through `π`, for the
requests the program sends, and keeps what `σ` has more. -/
theorem wp_lift (π : σ → τ) (hrely : ∀ {s s'}, C.rely s s' → C'.rely (π s) (π s')) (hinv : ∀ {s}, I s → I' (π s))
    (hstep : ∀ {s o r s'}, K o → I s → sem s o r s' → sem' (π s) o r (π s') ∧
      (I' (π s') → C'.guar (π s) (π s') → I s' ∧ C.guar s s'))
    (hp : p.Only K) (h : wp sem' I' C' p Q (π s)) : wp sem I C p (fun a s' => Q a (π s')) s := by
  induction p generalizing s with
  | ret a => exact h
  | call o next ih =>
    intro s1 hR hI r s2 hs
    obtain ⟨hs',hkeep⟩ := hstep hp.1 hI hs
    obtain ⟨hI',hG',hn⟩ := h (π s1) (hrely hR) (hinv hI) r (π s2) hs'
    obtain ⟨hI2,hG⟩ := hkeep hI' hG'
    exact ⟨hI2,hG,ih r (hp.2 r) hn⟩

/-- What requests in `K` and the others keep outlives a program of such requests. -/
theorem wp_of_ends {J : σ → Prop} (hrely : ∀ {s s'}, C.rely s s' → J s → J s')
    (hstep : ∀ {s o r s'}, K o → I s → J s → sem s o r s' → I s' ∧ C.guar s s' ∧ J s') (hp : p.Ends K E) (hs : J s) :
    wp sem I C p (fun a s' => E a ∧ J s') s := by
  induction p generalizing s with
  | ret a => exact ⟨hp,hs⟩
  | call o next ih =>
    intro s1 hR hI r s2 hr
    obtain ⟨hI2,hG,hJ⟩ := hstep hp.1 hI (hrely hR hs) hr
    exact ⟨hI2,hG,ih r (hp.2 r) hJ⟩

/-- What requests in `K` and the others keep is kept by a program of such requests. -/
theorem wp_frame_only {J : σ → Prop} (hrely : ∀ {s s'}, C.rely s s' → J s → J s')
    (hstep : ∀ {s o r s'}, K o → J s → sem s o r s' → J s') (hp : p.Only K) (hs : J s) (h : wp sem I C p Q s) :
    wp sem I C p (fun a s' => Q a s' ∧ J s') s := by
  induction p generalizing s with
  | ret a => exact ⟨h,hs⟩
  | call o next ih =>
    intro s1 hR hI r s2 hr
    obtain ⟨hI2,hG,hn⟩ := h s1 hR hI r s2 hr
    exact ⟨hI2,hG,ih r (hp.2 r) (hstep hp.1 (hrely hR hs) hr) hn⟩

/-- Two facts about the outcome. The second may take what the first keeps true for granted. -/
theorem wp_and (hrely : ∀ {s s'}, C.rely s s' → C'.rely s s')
    (hstep : ∀ {s o r s'}, I s → I s' → C.guar s s' → sem s o r s' → sem' s o r s') (h : wp sem I C p Q s)
    (h' : wp sem' I' C' p Q' s) :
    wp sem (fun s => I s ∧ I' s) C p (fun a s' => Q a s' ∧ Q' a s') s := by
  induction p generalizing s with
  | ret a => exact ⟨h,h'⟩
  | call o next ih =>
    intro s1 hR hI r s2 hs
    obtain ⟨hI2,hG,hn⟩ := h s1 hR hI.1 r s2 hs
    obtain ⟨hI2',-,hn'⟩ := h' s1 (hrely hR) hI.2 r s2 (hstep hI.1 hI2 hG hs)
    exact ⟨⟨hI2,hI2'⟩,hG,ih r hn hn'⟩

end

namespace System

/-- The runs in which every request is sent in a state that `allow` admits. -/
def restrict (S : System σ ι κ Res) (allow : ι → σ → Op → Prop) : System σ ι κ Res :=
  { S with sem := fun i s o r s' => allow i s o ∧ S.sem i s o r s' }

theorem Reachable.from_init [DecidableEq ι] {S : System σ ι κ Res} {init : Config σ ι κ Res → Prop}
    (h : S.Reachable init cfg) : ∃ cfg0, init cfg0 ∧ S.Reachable (·=cfg0) cfg := by
  induction h with
  | init h0 => exact ⟨_,h0,.init rfl⟩
  | step _ hs ih =>
    obtain ⟨cfg0,h0,hr⟩ := ih
    exact ⟨cfg0,h0,hr.step hs⟩

end System

def Runner.restrict {χ γ : Type} {S : System σ ι κ Res} (R : Runner S χ γ)
    (allow : ι → σ → Op → Bool) : Runner (S.restrict fun i s o => allow i s o=true) χ γ where
  exec := fun i s o c => if allow i s o then R.exec i s o c else none
  program := R.program
  exec_sound := fun h => by
    split at h <;> rename_i ha
    · exact ⟨ha,R.exec_sound h⟩
    · cases h
  program_sound := R.program_sound

end NamiDB.Lib
