import Mathlib.Data.Set.Lattice
import Mathlib.Order.CompletePartialOrder

/-! Leveled sorted runs. Every level but the first holds one run, and a shallower run is newer than
a deeper one. A merge is planned on one state and installed on a later one: what makes it safe there
is stated about the runs it leaves alone, and is kept by everything that may happen in between. -/
namespace NamiDB.Lib

variable {τ : Type*} (level : τ → ℕ) (newer : τ → τ → Prop)

structure Leveled (S : Set τ) : Prop where
  one_per_level : ∀ x ∈ S, ∀ y ∈ S, 1≤level x → level x=level y → x=y
  newer_of_lt : ∀ x ∈ S, ∀ y ∈ S, level x<level y → newer x y
  comparable : ∀ x ∈ S, ∀ y ∈ S, x≠y → newer x y ∨ newer y x

/-- Merge `inputs` into one run at level `target`; `gc` drops what only hides older versions. -/
structure MergePlan (τ : Type*) where
  inputs : Set τ
  target : ℕ
  gc : Bool

/-- Some input, and none below the target, which is not the first level. -/
structure MergePlan.Proper (p : MergePlan τ) : Prop where
  nonempty : p.inputs.Nonempty
  target_pos : 1≤p.target
  level_le : ∀ x ∈ p.inputs, level x≤p.target

/-- How the runs outside a plan lie to the ones inside it. -/
structure MergePlan.Safe (p : MergePlan τ) (S : Set τ) : Prop where
  ne_target : ∀ y ∈ S, y∉p.inputs → level y≠p.target
  newer_of_lt : ∀ y ∈ S, y∉p.inputs → level y<p.target → ∀ x ∈ p.inputs, newer y x
  older_of_gt : ∀ y ∈ S, y∉p.inputs → p.target<level y → ∀ x ∈ p.inputs, newer x y
  newer_of_gc : p.gc=true → ∀ y ∈ S, y∉p.inputs → ∀ x ∈ p.inputs, newer y x

/-- The run a merge writes: where a run is newer or older than all inputs, it is so of the output. -/
structure MergePlan.Output (p : MergePlan τ) (z : τ) : Prop where
  level_eq : level z=p.target
  newer_out : ∀ y, (∀ x ∈ p.inputs, newer y x) → newer y z
  out_newer : ∀ y, (∀ x ∈ p.inputs, newer x y) → newer z y

/-- The runs after the merge; there is no output when nothing is left to write. -/
def MergePlan.install (p : MergePlan τ) (S : Set τ) (out : Option τ) : Set τ :=
  {y | y∈S ∧ y∉p.inputs ∨ out=some y}

variable {level newer}
variable {S : Set τ} {p : MergePlan τ} {a b : MergePlan τ} {out : Option τ} {x z : τ}

/-- Planning takes every run down to the target, and every run there is when it drops anything. -/
theorem MergePlan.safe_of_planned (hS : Leveled level newer S)
    (hsub : p.inputs ⊆ S) (hle : ∀ x ∈ p.inputs, level x≤p.target) (hall : ∀ y ∈ S, level y≤p.target → y∈p.inputs)
    (hgc : p.gc=true → ∀ y ∈ S, y∈p.inputs) : p.Safe level newer S where
  ne_target y hy hout h := hout (hall y hy h.le)
  newer_of_lt y hy hout h := absurd (hall y hy h.le) hout
  older_of_gt y hy _ h x hx := hS.newer_of_lt x (hsub hx) y hy ((hle x hx).trans_lt h)
  newer_of_gc hg y hy hout := absurd (hgc hg y hy) hout

theorem Leveled.insert {y : τ} (hS : Leveled level newer S) (hy : level y=0)
    (hnew : ∀ x ∈ S, newer y x) : Leveled level newer (insert y S) where
  one_per_level a ha b hb h1 hab := by
    rcases ha with rfl | ha
    · omega
    rcases hb with rfl | hb
    · omega
    exact hS.one_per_level a ha b hb h1 hab
  newer_of_lt a ha b hb hab := by
    rcases hb with rfl | hb
    · omega
    rcases ha with rfl | ha
    · exact hnew b hb
    · exact hS.newer_of_lt a ha b hb hab
  comparable a ha b hb hne := by
    rcases ha with rfl | ha <;> rcases hb with rfl | hb
    · exact absurd rfl hne
    · exact .inl (hnew b hb)
    · exact .inr (hnew a ha)
    · exact hS.comparable a ha b hb hne

theorem MergePlan.Safe.insert {y : τ} (hp : p.Safe level newer S)
    (hpos : 1≤p.target) (hsub : p.inputs ⊆ S) (hy : level y=0) (hnew : ∀ x ∈ S, newer y x) :
    p.Safe level newer (insert y S) where
  ne_target a ha hout := by
    rcases ha with rfl | ha
    · omega
    · exact hp.ne_target a ha hout
  newer_of_lt a ha hout hlt x hx := by
    rcases ha with rfl | ha
    · exact hnew x (hsub hx)
    · exact hp.newer_of_lt a ha hout hlt x hx
  older_of_gt a ha hout hgt := by
    rcases ha with rfl | ha
    · omega
    · exact hp.older_of_gt a ha hout hgt
  newer_of_gc hg a ha hout x hx := by
    rcases ha with rfl | ha
    · exact hnew x (hsub hx)
    · exact hp.newer_of_gc hg a ha hout x hx

theorem MergePlan.Safe.comparable (hp : p.Safe level newer S) (hz : p.Output level newer z) (hy : y∈S)
    (hout : y∉p.inputs) : newer y z ∨ newer z y := by
  rcases lt_or_gt_of_ne (hp.ne_target y hy hout) with hlt | hgt
  · exact .inl (hz.newer_out y (hp.newer_of_lt y hy hout hlt))
  · exact .inr (hz.out_newer y (hp.older_of_gt y hy hout hgt))

theorem Leveled.install (hS : Leveled level newer S) (hp : p.Safe level newer S)
    (hout : ∀ z, out=some z → p.Output level newer z) : Leveled level newer (p.install S out) where
  one_per_level a ha b hb h1 hab := by
    rcases ha with ⟨ha,hai⟩ | ha <;> rcases hb with ⟨hb,hbi⟩ | hb
    · exact hS.one_per_level a ha b hb h1 hab
    · exact absurd (hab.trans (hout b hb).level_eq) (hp.ne_target a ha hai)
    · exact absurd (hab.symm.trans (hout a ha).level_eq) (hp.ne_target b hb hbi)
    · exact Option.some.inj (ha.symm.trans hb)
  newer_of_lt a ha b hb hab := by
    rcases ha with ⟨ha,hai⟩ | ha <;> rcases hb with ⟨hb,hbi⟩ | hb
    · exact hS.newer_of_lt a ha b hb hab
    · rw [(hout b hb).level_eq] at hab
      exact (hout b hb).newer_out a (hp.newer_of_lt a ha hai hab)
    · rw [(hout a ha).level_eq] at hab
      exact (hout a ha).out_newer b (hp.older_of_gt b hb hbi hab)
    · obtain rfl := Option.some.inj (ha.symm.trans hb)
      omega
  comparable a ha b hb hne := by
    rcases ha with ⟨ha,hai⟩ | ha <;> rcases hb with ⟨hb,hbi⟩ | hb
    · exact hS.comparable a ha b hb hne
    · exact hp.comparable (hout b hb) ha hai
    · exact (hp.comparable (hout a ha) hb hbi).symm
    · exact absurd (Option.some.inj (ha.symm.trans hb)) hne

/-- Two plans whose inputs are all still there do not share a target: each would have to be newer
than the other. -/
theorem MergePlan.target_ne (hasymm : ∀ x y, newer x y → ¬newer y x)
    (ha : a.Safe level newer S) (hb : b.Safe level newer S) (hap : a.Proper level)
    (hbp : b.Proper level) (hasub : a.inputs ⊆ S) (hbsub : b.inputs ⊆ S)
    (hdisj : Disjoint a.inputs b.inputs) : a.target≠b.target := by
  intro ht
  obtain ⟨x,hx⟩ := hap.nonempty
  obtain ⟨z,hz⟩ := hbp.nonempty
  have hxb : x∉b.inputs := Set.disjoint_left.mp hdisj hx
  have hza : z∉a.inputs := Set.disjoint_right.mp hdisj hz
  have hxl : level x<b.target :=
    lt_of_le_of_ne (ht ▸ hap.level_le x hx) (hb.ne_target x (hasub hx) hxb)
  have hzl : level z<a.target :=
    lt_of_le_of_ne (ht ▸ hbp.level_le z hz) (ha.ne_target z (hbsub hz) hza)
  exact hasymm x z (hb.newer_of_lt x (hasub hx) hxb hxl z hz)
    (ha.newer_of_lt z (hbsub hz) hza hzl x hx)

theorem MergePlan.Safe.install (hasymm : ∀ x y, newer x y → ¬newer y x)
    (ha : a.Safe level newer S) (hb : b.Safe level newer S) (hap : a.Proper level)
    (hbp : b.Proper level) (hasub : a.inputs ⊆ S) (hbsub : b.inputs ⊆ S) (hdisj : Disjoint a.inputs b.inputs)
    (hout : ∀ z, out=some z → b.Output level newer z) : a.Safe level newer (b.install S out) := by
  have hne := target_ne hasymm ha hb hap hbp hasub hbsub hdisj
  have hnotb : ∀ x ∈ a.inputs, x∉b.inputs := fun x hx => Set.disjoint_left.mp hdisj hx
  have hnota : ∀ z ∈ b.inputs, z∉a.inputs := fun z hz => Set.disjoint_right.mp hdisj hz
  -- below `a`'s target the output is newer than `a`, above it is older
  have hnewer : ∀ z, out=some z → b.target<a.target → ∀ x ∈ a.inputs, newer z x := by
    intro z hz hlt x hx
    refine (hout z hz).out_newer x fun i hi => ?_
    exact ha.newer_of_lt i (hbsub hi) (hnota i hi) ((hbp.level_le i hi).trans_lt hlt) x hx
  have holder : a.target<b.target → ∀ x ∈ a.inputs, ∀ i ∈ b.inputs, newer x i :=
    fun hlt x hx => hb.newer_of_lt x (hasub hx) (hnotb x hx) ((hap.level_le x hx).trans_lt hlt)
  refine ⟨?_,?_,?_,?_⟩
  · rintro y (⟨hy,-⟩ | hy) hya
    · exact ha.ne_target y hy hya
    · rw [(hout y hy).level_eq]
      exact hne.symm
  · rintro y (⟨hy,-⟩ | hy) hya hlt
    · exact ha.newer_of_lt y hy hya hlt
    · rw [(hout y hy).level_eq] at hlt
      exact hnewer y hy hlt
  · rintro y (⟨hy,-⟩ | hy) hya hgt
    · exact ha.older_of_gt y hy hya hgt
    · rw [(hout y hy).level_eq] at hgt
      exact fun x hx => (hout y hy).newer_out x (holder hgt x hx)
  · rintro hg y (⟨hy,-⟩ | hy) hya
    · exact ha.newer_of_gc hg y hy hya
    · rcases lt_or_gt_of_ne hne with hlt | hgt
      · -- all runs outside a dropping merge are newer than it, so none is merged below it
        obtain ⟨x,hx⟩ := hap.nonempty
        obtain ⟨i,hi⟩ := hbp.nonempty
        exact absurd (ha.newer_of_gc hg i (hbsub hi) (hnota i hi) x hx)
          (hasymm x i (holder hlt x hx i hi))
      · exact hnewer y hy hgt

/-- A run may be replaced by one that lies to all others as it did. -/
structure SameRun (level : τ → ℕ) (newer : τ → τ → Prop) (x z : τ) : Prop where
  level_eq : level z=level x
  newer_left : ∀ y, newer x y → newer z y
  newer_right : ∀ y, newer y x → newer y z

theorem Leveled.replace (hS : Leveled level newer S) (hx : x∈S)
    (h : SameRun level newer x z) : Leveled level newer {y | y∈S ∧ y≠x ∨ y=z} where
  one_per_level a ha b hb h1 hab := by
    rcases ha with ⟨ha,hax⟩ | rfl <;> rcases hb with ⟨hb,hbx⟩ | rfl
    · exact hS.one_per_level a ha b hb h1 hab
    · exact absurd (hS.one_per_level a ha x hx h1 (hab.trans h.level_eq)) hax
    · exact absurd (hS.one_per_level b hb x hx (hab ▸ h1) (hab.symm.trans h.level_eq)) hbx
    · rfl
  newer_of_lt a ha b hb hab := by
    rcases ha with ⟨ha,hax⟩ | rfl <;> rcases hb with ⟨hb,hbx⟩ | rfl
    · exact hS.newer_of_lt a ha b hb hab
    · exact h.newer_right a (hS.newer_of_lt a ha x hx (h.level_eq ▸ hab))
    · exact h.newer_left b (hS.newer_of_lt x hx b hb (h.level_eq ▸ hab))
    · omega
  comparable a ha b hb hne := by
    rcases ha with ⟨ha,hax⟩ | rfl <;> rcases hb with ⟨hb,hbx⟩ | rfl
    · exact hS.comparable a ha b hb hne
    · exact (hS.comparable a ha x hx hax).imp (h.newer_right a) (h.newer_left a)
    · exact (hS.comparable b hb x hx hbx).symm.imp (h.newer_left b) (h.newer_right b)
    · exact absurd rfl hne

theorem MergePlan.Safe.replace (hp : p.Safe level newer S) (hx : x∈S) (hxp : x∉p.inputs) (h : SameRun level newer x z) :
    p.Safe level newer {y | y∈S ∧ y≠x ∨ y=z} := by
  refine ⟨?_,?_,?_,?_⟩
  · rintro y (⟨hy,-⟩ | rfl) hyp
    · exact hp.ne_target y hy hyp
    · exact h.level_eq ▸ hp.ne_target x hx hxp
  · rintro y (⟨hy,-⟩ | rfl) hyp hlt i hi
    · exact hp.newer_of_lt y hy hyp hlt i hi
    · exact h.newer_left i (hp.newer_of_lt x hx hxp (h.level_eq ▸ hlt) i hi)
  · rintro y (⟨hy,-⟩ | rfl) hyp hgt i hi
    · exact hp.older_of_gt y hy hyp hgt i hi
    · exact h.newer_right i (hp.older_of_gt x hx hxp (h.level_eq ▸ hgt) i hi)
  · rintro hg y (⟨hy,-⟩ | rfl) hyp i hi
    · exact hp.newer_of_gc hg y hy hyp i hi
    · exact h.newer_left i (hp.newer_of_gc hg x hx hxp i hi)

end NamiDB.Lib
