import NamiDB.Lib.Prog

/-! A program that has the store to itself: what its runs leave behind, also when they stop halfway. -/
namespace NamiDB.Lib

variable {Op : Type} {Res : Op → Type} {α β σ ε : Type}

/-- `Runs sem p s q s'`: from `s`, the program `p` gets to `s'` with `q` still to do. -/
inductive Runs (sem : Semantics σ Res) : Prog Res α → σ → Prog Res α → σ → Prop
  | here (p : Prog Res α) (s : σ) : Runs sem p s p s
  | step {o : Op} {next : Res o → Prog Res α} {r : Res o} {s s₁ s' : σ} {q : Prog Res α}
      (hs : sem s o r s₁) (h : Runs sem (next r) s₁ q s') : Runs sem (.call o next) s q s'

/-- What a program comes to when each request has at most one reply. -/
def Prog.eval (reply : (o : Op) → Option (Res o)) : Prog Res α → Option α
  | .ret a => some a
  | .call o next => (reply o).bind fun r => (next r).eval reply

variable (reply : (o : Op) → Option (Res o))

theorem eval_bind (p : Prog Res α) (f : α → Prog Res β) :
    (p >>= f).eval reply=(p.eval reply).bind fun a => (f a).eval reply := by
  induction p with
  | ret a => rfl
  | call o next ih => simp [Prog.eval,ih,Option.bind_assoc]

theorem eval_exceptBind (p : ExceptT ε (Prog Res) α)
    (f : α → ExceptT ε (Prog Res) β) : (p >>= f).run.eval reply=(p.run.eval reply).bind fun
      | .ok a => (f a).run.eval reply
      | .error e => some (.error e) := by
  rw [ExceptT.run_bind,eval_bind]
  congr 1
  funext r
  cases r <;> rfl

def alone : Contract σ := ⟨Eq,fun _ _ => True⟩

/-- Run alone from `s`, `p` keeps `I` at every request, ends in `P` when it succeeds and in `E` when it fails. -/
def Does (sem : Semantics σ Res) (I : σ → Prop) (p : ExceptT ε (Prog Res) α) (P : α → σ → Prop)
    (E : ε → σ → Prop) (s : σ) : Prop :=
  wp sem I alone p.run (fun r s' => match r with
    | .ok a => P a s'
    | .error e => E e s') s

section

variable {sem : Semantics σ Res} {I : σ → Prop} {p : ExceptT ε (Prog Res) α} {P : α → σ → Prop} {E : ε → σ → Prop}
  {s s' : σ}

theorem wp_runs {p q : Prog Res α} {Q : α → σ → Prop} (h : wp sem I alone p Q s) (hI : I s)
    (hr : Runs sem p s q s') : I s' ∧ wp sem I alone q Q s' := by
  induction hr with
  | here p s => exact ⟨hI,h⟩
  | step hs _ ih =>
    obtain ⟨hI',-,hw⟩ := h _ rfl hI _ _ hs
    exact ih hw hI'

theorem Does.invariant (h : Does sem I p P E s) (hI : I s) (hr : Runs sem p.run s q s') : I s' := (wp_runs h hI hr).1

theorem Does.ret (h : P a s) : Does sem I (pure a : ExceptT ε (Prog Res) α) P E s := h

theorem Does.fail (h : E e s) : Does sem I (throw e : ExceptT ε (Prog Res) α) P E s := h

theorem Does.bind (hp : Does sem I p P E s) (hf : ∀ a s', P a s' → Does sem I (f a) Q E s') :
    Does sem I (p >>= f) Q E s := by
  unfold Does at hp ⊢
  rw [wp_exceptBind]
  refine wp_mono (fun r s' h => ?_) hp
  cases r with
  | ok a => exact hf a s' h
  | error e => exact h

theorem Does.mono (h : Does sem I p P E s) (hP : ∀ a s', P a s' → P' a s') (hE : ∀ e s', E e s' → E' e s') :
    Does sem I p P' E' s := by
  refine wp_mono (fun r s' hr => ?_) h
  cases r with
  | ok a => exact hP a s' hr
  | error e => exact hE e s' hr

theorem Does.request {P : Res o → σ → Prop} (h : I s → ∀ r s', sem s o r s' → I s' ∧ P r s') :
    Does sem I (ExceptT.lift (Prog.request o) : ExceptT ε (Prog Res) (Res o)) P E s := by
  rintro s1 rfl hI r s2 hs
  obtain ⟨hI',hP⟩ := h hI r s2 hs
  exact ⟨hI',trivial,hP⟩

theorem Does.attempt_bind (hp : Does sem I p P E' s) (hok : ∀ a s', P a s' → Does sem I (f (.ok a)) Q E s')
    (herr : ∀ e s', E' e s' → Does sem I (f (.error e)) Q E s') : Does sem I (attempt p >>= f) Q E s := by
  unfold Does
  rw [wp_attempt]
  refine wp_mono (fun r s' h => ?_) hp
  cases r with
  | ok a => exact hok a s' h
  | error e => exact herr e s' h

/-- A loop: `P done` holds after the elements of `done`. -/
theorem Does.forM (P : List ι → σ → Prop)
    (hf : ∀ done x s', P done s' → Does sem I (f x) (fun _ s'' => P (done++[x]) s'') E s') (l : List ι)
    (h : P done s) : Does sem I (l.forM f) (fun _ s' => P (done++l) s') E s := by
  induction l generalizing done s with
  | nil => exact .ret (by rwa [List.append_nil])
  | cons x l ih =>
    refine .bind (hf done x s h) fun _ s' h' => ?_
    have := ih h'
    rwa [List.append_assoc] at this

theorem Does.forM_keep {f : ι → ExceptT ε (Prog Res) Unit} (P : σ → Prop)
    (hf : ∀ x s', P s' → Does sem I (f x) (fun _ => P) E s') (l : List ι) (h : P s) :
    Does sem I (l.forM f) (fun _ => P) E s := by
  induction l generalizing s with
  | nil => exact .ret h
  | cons x l ih => exact .bind (hf x s h) fun _ s' => ih

end

section

variable {p q : Prog Res α} {s s' : σ}

theorem Runs.mono (himp : ∀ {s o r s'}, sem s o r s' → sem' s o r s') (h : Runs sem p s q s') :
    Runs sem' p s q s' := by
  induction h with
  | here p s => exact .here p s
  | step hs _ ih => exact .step (himp hs) ih

def guarded (ok : σ → Op → Prop) (sem : Semantics σ Res) : Semantics σ Res :=
  fun s o r s' => ok s o ∧ sem s o r s'

theorem Runs.unguard (h : Runs (guarded ok sem) p s q s') : Runs sem p s q s' := h.mono fun hs => hs.2

def Safe (sem : Semantics σ Res) (I : σ → Prop) (p : ExceptT ε (Prog Res) α) : Prop :=
  ∀ s, Does sem I p (fun _ _ => True) (fun _ _ => True) s

namespace Safe

variable {ι : Type} {sem : Semantics σ Res} {I : σ → Prop} {p : ExceptT ε (Prog Res) α}

theorem ret (a : α) : Safe sem I (pure a : ExceptT ε (Prog Res) α) := fun _ => trivial

theorem fail (e : ε) : Safe sem I (throw e : ExceptT ε (Prog Res) α) := fun _ => trivial

theorem bind (hp : Safe sem I p) (hf : ∀ a, Safe sem I (f a)) :
    Safe sem I (p >>= f) := fun s => (hp s).bind fun a s' _ => hf a s'

theorem request (h : ∀ s r s', I s → sem s o r s' → I s') :
    Safe sem I (ExceptT.lift (Prog.request o) : ExceptT ε (Prog Res) (Res o)) := fun _ =>
  Does.request fun hI r s' hs => ⟨h _ r s' hI hs,trivial⟩

theorem attempt (hp : Safe sem I p) : Safe sem I (attempt p) := by
  intro s
  show wp sem I alone (p.run >>= fun r => pure (Except.ok r)) _ s
  rw [wp_bind]
  exact wp_mono (fun _ _ _ => trivial) (hp s)

theorem forM (hf : ∀ x, Safe sem I (f x)) (l : List ι) : Safe sem I (l.forM f) := by
  induction l with
  | nil => exact ret _
  | cons x l ih => exact bind (hf x) fun _ => ih

theorem foldlM (hf : ∀ b x, Safe sem I (f b x)) (l : List ι) (b : β) : Safe sem I (l.foldlM f b) := by
  induction l generalizing b with
  | nil => exact ret b
  | cons x l ih => exact bind (hf b x) ih

theorem mapM (hf : ∀ x, Safe sem I (f x)) (l : List ι) : Safe sem I (l.mapM' f) := by
  induction l with
  | nil => exact ret _
  | cons x l ih => exact bind (hf x) fun _ => bind ih fun _ => ret _

end Safe
end

section

variable {χ : Type} {sem : Semantics σ Res}

/-- Follows a program along the choices that say how each request is answered. -/
def follow (exec : σ → (o : Op) → χ → Option (Res o × σ)) : List χ → Prog Res α → σ → Option (Prog Res α × σ)
  | [], p, s => some (p,s)
  | _ :: _, .ret _, _ => none
  | c::cs, .call o next, s => (exec s o c).bind fun x => follow exec cs (next x.1) x.2

theorem follow_runs (hexec : ∀ {s o c r s'}, exec s o c=some (r,s') → sem s o r s')
    (h : follow exec cs p s=some (q,s')) : Runs sem p s q s' := by
  induction cs generalizing p s with
  | nil =>
    cases h
    exact .here _ _
  | cons c cs ih =>
    cases p with
    | ret a => cases h
    | call o next =>
      obtain ⟨x,hx,h⟩ := Option.bind_eq_some_iff.mp h
      exact .step (hexec hx) (ih h)

end

section

def Ends (sem : Semantics σ Res) (p : ExceptT ε (Prog Res) α) (s : σ) (r : Except ε α) (s' : σ) : Prop :=
  Runs sem p.run s (.ret r) s'

end
end NamiDB.Lib
