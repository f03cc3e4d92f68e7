import NamiDB.Lib.Pool

/-! Concrete runs of a system: a schedule says which client moves and how the store answers, and is
evaluated to the configuration it leads to. -/
namespace NamiDB.Lib
open Option

variable {Op : Type} {Res : Op → Type} {σ ι κ χ γ : Type}

/-- One entry of a schedule: `χ` chooses among the answers of the store, `γ` among the calls a
client may make. -/
inductive Act (ι χ γ : Type) where
  | start (i : ι) (call : γ)
  | step (i : ι) (choice : χ)
  | finish (i : ι)
  | abandon (i : ι)

structure Runner (S : System σ ι κ Res) (χ γ : Type) where
  exec : ι → σ → (o : Op) → χ → Option (Res o × σ)
  program : ι → κ → γ → Option (Prog Res κ)
  exec_sound : ∀ {i s o c r s'}, exec i s o c=some (r,s') → S.sem i s o r s'
  program_sound : ∀ {i k g p}, program i k g=some p → S.start i k p

namespace Runner
variable [DecidableEq ι] {S : System σ ι κ Res} (R : Runner S χ γ) {cfg cfg' : Config σ ι κ Res}

def stepProc (cfg : Config σ ι κ Res) (i : ι) (back : κ) (choice : χ) : Prog Res κ → Option (Config σ ι κ Res)
  | .ret _ => none
  | .call o next =>
    (R.exec i cfg.world o choice).map fun x =>
      ⟨x.2,Function.update cfg.proc i (.busy back (next x.1))⟩

def act (cfg : Config σ ι κ Res) : Act ι χ γ → Option (Config σ ι κ Res)
  | .start i call =>
    match cfg.proc i with
    | .idle k => (R.program i k call).map fun p =>
        ⟨cfg.world,Function.update cfg.proc i (.busy k p)⟩
    | .busy _ _ => none
  | .step i choice =>
    match cfg.proc i with
    | .idle _ => none
    | .busy back p => R.stepProc cfg i back choice p
  | .finish i =>
    match cfg.proc i with
    | .busy _ (.ret k) => some ⟨cfg.world,Function.update cfg.proc i (.idle k)⟩
    | _ => none
  | .abandon i =>
    match cfg.proc i with
    | .busy back _ => some ⟨S.drop i cfg.world,Function.update cfg.proc i (.idle back)⟩
    | .idle _ => none

/-- Follows a schedule to its end; `none` when an entry is not possible where it stands. -/
def run : List (Act ι χ γ) → Config σ ι κ Res → Option (Config σ ι κ Res)
  | [], cfg => some cfg
  | a::rest, cfg => (R.act cfg a).bind (run rest)

theorem act_step (h : R.act cfg a=some cfg') : S.Step cfg cfg' := by
  cases a with
  | start i call =>
    cases hi : cfg.proc i with
    | busy back p => simp [act,hi] at h
    | idle k =>
      simp only [act,hi,map_eq_some_iff] at h
      obtain ⟨p,hp,rfl⟩ := h
      exact .start i k p hi (R.program_sound hp)
  | step i choice =>
    cases hi : cfg.proc i with
    | idle k => simp [act,hi] at h
    | busy back p =>
      cases p with
      | ret k => simp [act,hi,stepProc] at h
      | call o next =>
        simp only [act,hi,stepProc,map_eq_some_iff] at h
        obtain ⟨x,hx,rfl⟩ := h
        exact .call i back o next x.1 x.2 hi (R.exec_sound hx)
  | finish i =>
    cases hi : cfg.proc i with
    | idle k => simp [act,hi] at h
    | busy back p =>
      cases p with
      | call o next => simp [act,hi] at h
      | ret k =>
        simp only [act,hi,some.injEq] at h
        subst h
        exact .finish i back k hi
  | abandon i =>
    cases hi : cfg.proc i with
    | idle k => simp [act,hi] at h
    | busy back p =>
      simp only [act,hi,some.injEq] at h
      subst h
      exact .abandon i back p hi

theorem run_reachable (hr : S.Reachable init cfg) (h : R.run acts cfg=some cfg') : S.Reachable init cfg' := by
  induction acts generalizing cfg with
  | nil =>
    cases h
    exact hr
  | cons a rest ih =>
    obtain ⟨cfg1,ha,hrest⟩ := bind_eq_some_iff.mp h
    exact ih (hr.step (R.act_step ha)) hrest

end Runner
end NamiDB.Lib
