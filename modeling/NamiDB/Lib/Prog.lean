import Mathlib.Logic.Relation

/-! Programs that talk to a shared store one request at a time. A program is the tree of its
requests; what a request does to the store is a relation given from outside, so that failures,
lost replies and stale answers are choices of the store and not of the program. -/
namespace NamiDB.Lib

variable {Op : Type} {Res : Op → Type} {α β σ ε : Type}

/-- `call o next` sends the request `o` and goes on with its reply. -/
inductive Prog (Res : Op → Type) (α : Type) where
  | ret : α → Prog Res α
  | call (o : Op) (next : Res o → Prog Res α) : Prog Res α

namespace Prog

def bind : Prog Res α → (α → Prog Res β) → Prog Res β
  | .ret a, f => f a
  | .call o next, f => .call o fun r => (next r).bind f

instance : Monad (Prog Res) where
  pure := .ret
  bind := bind

def request (o : Op) : Prog Res (Res o) := .call o .ret

@[simp] theorem ret_bind (a : α) (f : α → Prog Res β) : (.ret a : Prog Res α) >>= f=f a := rfl

@[simp] theorem pure_bind (a : α) (f : α → Prog Res β) : (pure a : Prog Res α) >>= f=f a := rfl

@[simp] theorem call_bind (o : Op) (next : Res o → Prog Res α) (f : α → Prog Res β) :
    (.call o next : Prog Res α) >>= f = .call o fun r => next r >>= f := rfl

@[simp] theorem request_bind (o : Op) (f : Res o → Prog Res β) : request o >>= f = .call o f := rfl

theorem bind_assoc (p : Prog Res α) (f : α → Prog Res β) (g : β → Prog Res γ) :
    p >>= f >>= g=p >>= fun a => f a >>= g := by
  induction p with
  | ret a => rfl
  | call o next ih =>
    simp only [call_bind]
    congr 1
    funext r
    exact ih r

end Prog

/-- What a request does: `sem s o r s'` holds when the store may answer `o` with `r` in the state
`s` and go to `s'`. -/
abbrev Semantics (σ : Type) {Op : Type} (Res : Op → Type) := σ → (o : Op) → Res o → σ → Prop

/-- What a process expects of the steps of everybody else, and what it promises of its own. -/
structure Contract (σ : Type) where
  rely : σ → σ → Prop
  guar : σ → σ → Prop

/-- Weakest precondition under interference: before each request the others may have taken any
number of steps the contract relies on. The invariant `I` is common to all processes; it may be
used before a request and has to hold again after it. -/
def wp (sem : Semantics σ Res) (I : σ → Prop) (C : Contract σ) : Prog Res α → (α → σ → Prop) → σ → Prop
  | .ret a, Q, s => Q a s
  | .call o next, Q, s => ∀ s₁, C.rely s s₁ → I s₁ → ∀ r s₂, sem s₁ o r s₂ →
      I s₂ ∧ C.guar s₁ s₂ ∧ wp sem I C (next r) Q s₂

section
variable {sem : Semantics σ Res} {I : σ → Prop} {C : Contract σ} {Q : α → σ → Prop} {s : σ}

@[simp] theorem wp_ret (a : α) (Q : α → σ → Prop) (s : σ) : wp sem I C (.ret a) Q s ↔ Q a s := Iff.rfl

@[simp] theorem wp_pure (a : α) (Q : α → σ → Prop) (s : σ) : wp sem I C (pure a : Prog Res α) Q s ↔ Q a s := Iff.rfl

theorem wp_bind (p : Prog Res α) (f : α → Prog Res β) (Q : β → σ → Prop) (s : σ) :
    wp sem I C (p >>= f) Q s ↔ wp sem I C p (fun a s' => wp sem I C (f a) Q s') s := by
  induction p generalizing s with
  | ret a => rfl
  | call o next ih =>
    simp [wp,ih]

theorem wp_mono (hQ : ∀ a s, Q a s → Q' a s) (h : wp sem I C p Q s) : wp sem I C p Q' s := by
  induction p generalizing s with
  | ret a => exact hQ a s h
  | call o next ih =>
    intro s1 hR hI r s2 hs
    obtain ⟨hI2,hG,hn⟩ := h s1 hR hI r s2 hs
    exact ⟨hI2,hG,ih r hn⟩

theorem wp_stable (htrans : ∀ {a b c}, C.rely a b → C.rely b c → C.rely a c)
    (hQ : ∀ a s s', C.rely s s' → Q a s → Q a s') (hR : C.rely s s') (h : wp sem I C p Q s) : wp sem I C p Q s' := by
  cases p with
  | ret a => exact hQ a s s' hR h
  | call o next => exact fun s1 hR1 => h s1 (htrans hR hR1)

variable (p : ExceptT ε (Prog Res) α)

theorem wp_exceptBind (f : α → ExceptT ε (Prog Res) β) (Q : Except ε β → σ → Prop) (s : σ) :
    wp sem I C (p >>= f).run Q s ↔ wp sem I C p.run (fun r s' => match r with
        | .ok a => wp sem I C (f a).run Q s'
        | .error e => Q (.error e) s') s := by
  rw [ExceptT.run_bind,wp_bind]
  constructor <;>
  · refine wp_mono fun r s' h => ?_
    cases r <;> exact h

def onOk (P : α → σ → Prop) : Except ε α → σ → Prop
  | .ok a, s => P a s
  | .error _, _ => True

theorem wp_onOk_bind {p : ExceptT ε (Prog Res) α} {f : α → ExceptT ε (Prog Res) β}
    {P : α → σ → Prop} {Q : β → σ → Prop} (hp : wp sem I C p.run (onOk P) s)
    (hf : ∀ a s', P a s' → wp sem I C (f a).run (onOk Q) s') : wp sem I C (p >>= f).run (onOk Q) s := by
  rw [wp_exceptBind]
  refine wp_mono (fun r s' h => ?_) hp
  cases r with
  | ok a => exact hf a s' h
  | error e => trivial

theorem wp_frame {p : Prog Res α} {F : σ → Prop}
    (hrely : ∀ s s', C.rely s s' → F s → F s') (hguar : ∀ s s', C.guar s s' → F s → F s') (hF : F s)
    (h : wp sem I C p Q s) : wp sem I C p (fun a s' => Q a s' ∧ F s') s := by
  induction p generalizing s with
  | ret a => exact ⟨h,hF⟩
  | call o next ih =>
    intro s1 hR hI r s2 hs
    obtain ⟨hI2,hG,hn⟩ := h s1 hR hI r s2 hs
    exact ⟨hI2,hG,ih r (hguar s1 s2 hG (hrely s s1 hR hF)) hn⟩

/-- Runs `p` and hands its outcome on as a value, error or not. -/
def attempt (p : ExceptT ε (Prog Res) α) : ExceptT ε (Prog Res) (Except ε α) := ExceptT.lift p.run

theorem run_attempt_bind (f : Except ε α → ExceptT ε (Prog Res) β) :
    (attempt p >>= f).run=p.run >>= fun r => (f r).run := by
  change (p.run >>= fun r => pure (Except.ok r)) >>= _ = _
  rw [Prog.bind_assoc]
  rfl

theorem wp_attempt (f : Except ε α → ExceptT ε (Prog Res) β) (Q : Except ε β → σ → Prop) (s : σ) :
    wp sem I C (attempt p >>= f).run Q s ↔ wp sem I C p.run (fun r s' => wp sem I C (f r).run Q s') s := by
  rw [run_attempt_bind,wp_bind]

end
end NamiDB.Lib
