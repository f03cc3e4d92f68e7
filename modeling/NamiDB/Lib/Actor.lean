import NamiDB.Lib.Solo

/-! Programs with a state of their own that stop at the first error. The state outlives the error, as
the fields of an object do when one of its methods fails. What such a program did is the trace of its
requests with their replies. -/
namespace NamiDB.Lib

variable {Op : Type} {Res : Op → Type} {α σ ε S : Type}

abbrev Actor (Res : Op → Type) (S ε : Type) := ExceptT ε (StateT S (Prog Res))

namespace Actor

def ask (o : Op) : Actor Res S ε (Res o) := fun s => Prog.call o fun r => .ret (.ok r,s)

def ofExcept : Except ε α → Actor Res S ε α
  | .ok a => pure a
  | .error e => throw e

/-- Runs `m` and hands its outcome on as a value, error or not. -/
def attempt (m : Actor Res S ε α) : Actor Res S ε (Except ε α) := fun s =>
  m s >>= fun x => pure (.ok x.1,x.2)

end Actor

/-- Run alone with the own state `s`, `m` keeps `I` at every request, ends in `P` when it succeeds and
in `E` when it fails. -/
def Acts (sem : Semantics σ Res) (I : σ → Prop) (m : Actor Res S ε α) (P : α → S → σ → Prop)
    (E : ε → S → σ → Prop) (s : S) (w : σ) : Prop :=
  wp sem I alone (m s) (fun x w' => match x.1 with
    | .ok a => P a x.2 w'
    | .error e => E e x.2 w') w

namespace Acts

variable {sem : Semantics σ Res} {I : σ → Prop} {m : Actor Res S ε α} {P : α → S → σ → Prop} {E : ε → S → σ → Prop}
  {s : S} {w : σ}
variable {Q : β → S → σ → Prop} {f : α → Actor Res S ε β}

theorem ret (h : P a s w) : Acts sem I (pure a : Actor Res S ε α) P E s w := h

theorem fail (h : E e s w) : Acts sem I (throw e : Actor Res S ε α) P E s w := h

theorem bind (hm : Acts sem I m P E s w)
    (hf : ∀ a s' w', P a s' w' → Acts sem I (f a) Q E s' w') : Acts sem I (m >>= f) Q E s w := by
  have hrun : (m >>= f : Actor Res S ε β) s=m s >>= fun x => ExceptT.bindCont f x.1 x.2 := rfl
  unfold Acts
  rw [hrun,wp_bind]
  refine wp_mono (fun x w' h => ?_) hm
  obtain ⟨r,s'⟩ := x
  cases r with
  | ok a => exact hf a s' w' h
  | error e => exact h

theorem mono (h : Acts sem I m P E s w) (hP : ∀ a s' w', P a s' w' → P' a s' w')
    (hE : ∀ e s' w', E e s' w' → E' e s' w') : Acts sem I m P' E' s w := by
  refine wp_mono (fun x w' hx => ?_) h
  obtain ⟨r,s'⟩ := x
  cases r with
  | ok a => exact hP a s' w' hx
  | error e => exact hE e s' w' hx

theorem ask {P : Res o → S → σ → Prop} (h : I w → ∀ r w', sem w o r w' → I w' ∧ P r s w') :
    Acts sem I (Actor.ask o : Actor Res S ε (Res o)) P E s w := by
  rintro w1 rfl hI r w2 hs
  obtain ⟨hI',hP⟩ := h hI r w2 hs
  exact ⟨hI',trivial,hP⟩

/-- The rest of the program stands in the postcondition. -/
theorem seq (h : Acts sem I m (fun a s' w' => Acts sem I (f a) Q E s' w') E s w) : Acts sem I (m >>= f) Q E s w :=
  h.bind fun _ _ _ hf => hf

theorem get_bind {f : S → Actor Res S ε β} (h : Acts sem I (f s) Q E s w) : Acts sem I (get >>= f) Q E s w := h

theorem modifying {P : PUnit → S → σ → Prop} (h : P ⟨⟩ (g s) w) :
    Acts sem I (modify g : Actor Res S ε PUnit) P E s w := h

theorem modify_bind {f : PUnit → Actor Res S ε β} (h : Acts sem I (f ⟨⟩) Q E (g s) w) :
    Acts sem I (modify g >>= f) Q E s w := h

theorem ofExcept (hok : ∀ a, x = .ok a → P a s w) (herr : ∀ e, x = .error e → E e s w) :
    Acts sem I (Actor.ofExcept x : Actor Res S ε α) P E s w := by
  cases x with
  | ok a => exact hok a rfl
  | error e => exact herr e rfl

theorem attempt {P : Except ε α → S → σ → Prop} (h : Acts sem I m (fun a => P (.ok a)) (fun e => P (.error e)) s w) :
    Acts sem I (Actor.attempt m) P E s w := by
  have hrun : Actor.attempt m s=m s >>= fun x => pure (.ok x.1,x.2) := rfl
  unfold Acts
  rw [hrun,wp_bind]
  refine wp_mono (fun x w' hx => ?_) h
  obtain ⟨r,s'⟩ := x
  cases r <;> exact hx

theorem invariant (h : Acts sem I m P E s w) (hI : I w) (hr : Runs sem (m s) w q w') : I w' := (wp_runs h hI hr).1

theorem finished (h : Acts sem I m P E s w) (hI : I w) (hr : Runs sem (m s) w (.ret x) w') :
    (∀ a, x.1 = .ok a → P a x.2 w') ∧ ∀ e, x.1 = .error e → E e x.2 w' := by
  have hx := (wp_runs h hI hr).2
  obtain ⟨r,s'⟩ := x
  cases r with
  | ok a => exact ⟨fun _ ha => by cases ha; exact hx,nofun⟩
  | error e => exact ⟨nofun,fun _ he => by cases he; exact hx⟩

end Acts

abbrev Event (Res : Op → Type) := (o : Op) × Res o

/-- Every event stands behind a trace that allows it. -/
def Always (P : List (Event Res) → Event Res → Prop) (t : List (Event Res)) : Prop :=
  ∀ pre e post, t=pre++e::post → P pre e

theorem Always.nil (P : List (Event Res) → Event Res → Prop) : Always P [] := by
  intro pre e post h
  simp at h

theorem always_snoc : Always P (t++[e]) ↔ Always P t ∧ P t e := by
  constructor
  · intro h
    refine ⟨fun pre e' post he => h pre e' (post++[e]) (by simp [he]),h t e [] rfl⟩
  · rintro ⟨h,he⟩ pre e' post heq
    rcases List.eq_nil_or_concat post with rfl | ⟨post',x,rfl⟩
    · obtain ⟨rfl,⟨⟩⟩ := List.append_inj' heq rfl
      exact he
    · rw [List.concat_eq_append,← List.cons_append,← List.append_assoc] at heq
      exact h pre e' post' (List.append_inj' heq rfl).1

def recording (ok : (o : Op) → Res o → Prop) : Semantics (List (Event Res)) Res :=
  fun t o r t' => t'=t++[⟨o,r⟩] ∧ ok o r

end NamiDB.Lib
