import NamiDB.Lib.Leveled
import NamiDB.Storage.Compact
import NamiDB.Storage.Flush

/-! The SSTs of a namespace together with the merges that are prepared but not installed. The
invariant is kept by a flush, by planning a merge and by installing one that was planned earlier. -/
namespace NamiDB.Storage
open Lib List

def Sst.level (x : Sst) : ℕ := x.desc.level

def Sst.buildId (x : Sst) : Uuid :=
  match x.desc.nodeLocator with
  | some ⟨.sst _ (.named id _),_,_⟩ => id
  | _ => x.desc.id

def inBucket (ssts : List Sst) (b : Bucket) : Set Sst := {x | x∈ssts ∧ x.desc.bucket=b}

namespace BucketOutcome

def Ready (o : BucketOutcome) (ssts : List Sst) : Prop := ∀ x ∈ o.inputs, x∈ssts

def plan (o : BucketOutcome) (target : ℕ) (gc : Bool) : MergePlan Sst :=
  ⟨{x | x∈o.inputs},target,gc⟩

def mergedRows (o : BucketOutcome) (gc : Bool) : List WalEntry :=
  mergeSources o.bucket.kind gc (o.inputs.map (·.rows))

structure Merges (o : BucketOutcome) (target : ℕ) (gc : Bool) : Prop where
  target_pos : 1≤target
  level_le : ∀ x ∈ o.inputs, x.level≤target
  output_some : ∀ z, o.output=some z → z.rows=o.mergedRows gc ∧ z.level=target
  output_id : ∀ z, o.output=some z → z.desc.id=z.buildId
  output_none : o.output=none → o.mergedRows gc=[]

structure Migrates (o : BucketOutcome) (x z : Sst) : Prop where
  inputs_eq : o.inputs=[x]
  output_eq : o.output=some z
  id_eq : z.desc.id=x.desc.id
  path_eq : z.desc.path=x.desc.path
  rows_eq : z.rows=x.rows
  level_eq : z.level=x.level

/-- What is true of an outcome from the moment it is prepared. -/
structure Ok (o : BucketOutcome) : Prop where
  inputs_ne : o.inputs≠[]
  inputs_bucket : ∀ x ∈ o.inputs, x.desc.bucket=o.bucket
  output_bucket : ∀ z, o.output=some z → z.desc.bucket=o.bucket
  output_sound : ∀ z, o.output=some z → z.Sound
  merges : ∀ t gc, o.rewrite = .merge t gc → o.Merges t gc
  migrates : o.rewrite = .inPlace → ∃ x z, o.Migrates x z

end BucketOutcome

/-- Every SST that is, was or will be in the manifest as far as the pending merges tell. -/
def Known (ssts : List Sst) (pending : List BucketOutcome) (x : Sst) : Prop :=
  x∈ssts ∨ ∃ o ∈ pending, x∈o.inputs ∨ o.output=some x

structure TreeInv (used : List Uuid) (ssts : List Sst) (pending : List BucketOutcome) : Prop where
  nodup : (ssts.map (·.desc.id)).Nodup
  sound : ∀ x ∈ ssts, x.Sound
  leveled : ∀ b, Leveled Sst.level Sst.Newer (inBucket ssts b)
  used : ∀ x, Known ssts pending x → x.desc.id∈used ∧ x.buildId∈used
  same_id : ∀ x y, Known ssts pending x → Known ssts pending y → x.desc.id=y.desc.id →
    x.desc.bucket=y.desc.bucket ∧ (x.desc.kind ≠ .nodes → x=y)
  ok : ∀ o ∈ pending, o.Ok
  safe : ∀ o ∈ pending, ∀ t gc, o.rewrite = .merge t gc → o.Ready ssts →
    (o.plan t gc).Safe Sst.level Sst.Newer (inBucket ssts o.bucket)
  -- what can still be installed is something new
  fresh : ∀ o ∈ pending, o.Ready ssts → ∀ z, o.output=some z →
    z∉ssts ∧ ∀ o' ∈ pending, z∉o'.inputs
  fresh_id : ∀ o ∈ pending, ∀ t gc, o.rewrite = .merge t gc → o.Ready ssts →
    ∀ z, o.output=some z → ∀ x ∈ ssts, x.desc.id≠z.desc.id
  build_inj : ∀ o ∈ pending, ∀ o' ∈ pending, ∀ z z', o.output=some z → o'.output=some z' →
    z.buildId=z'.buildId → o.inputs=o'.inputs

theorem treeInv_nil (used : List Uuid) : TreeInv used [] [] where
  nodup := by simp
  sound := by simp
  leveled b := ⟨by simp [inBucket],by simp [inBucket],by simp [inBucket]⟩
  used := by simp [Known]
  same_id := by simp [Known]
  ok := by simp
  safe := by simp
  fresh := by simp
  fresh_id := by simp
  build_inj := by simp

namespace TreeInv

variable {used : List Uuid} {ssts : List Sst} {pending : List BucketOutcome}

theorem eq_of_id_eq (h : TreeInv used ssts pending) (hx : x∈ssts) (hy : y∈ssts) (hid : x.desc.id=y.desc.id) : x=y :=
  inj_on_of_nodup_map h.nodup hx hy hid

theorem distinct (h : TreeInv used ssts pending) (hrows : ∀ r ∈ rows, ∃ x ∈ ssts, x.desc.bucket=b ∧ r∈x.rows) :
    Distinct WalEntry.key WalEntry.lsn rows := by
  intro r hr r' hr' hk hl
  obtain ⟨x,hx,hxb,hrx⟩ := hrows r hr
  obtain ⟨y,hy,hyb,hry⟩ := hrows r' hr'
  by_cases hxy : x=y
  · subst hxy
    exact (h.sound x hx).unique r hrx r' hry hk
  · have hcomp := (h.leveled b).comparable x ⟨hx,hxb⟩ y ⟨hy,hyb⟩ hxy
    rcases hcomp with hn | hn
    · exact absurd hl (hn.2.2 r hrx r' hry).ne'
    · exact absurd hl (hn.2.2 r' hry r hrx).ne

end TreeInv

section

variable {used : List Uuid} {ssts new : List Sst} {pending : List BucketOutcome} {used' : List Uuid}

/-- What a flush adds: SSTs at level 0, at most one in each bucket, newer than all there are. -/
structure FlushAdds (used used' : List Uuid) (ssts new : List Sst) : Prop where
  sound : ∀ y ∈ new, y.Sound
  level_eq : ∀ y ∈ new, y.level=0
  one_per_bucket : ∀ y ∈ new, ∀ y' ∈ new, y.desc.bucket=y'.desc.bucket → y=y'
  nodup : (new.map (·.desc.id)).Nodup
  newer : ∀ y ∈ new, ∀ x ∈ ssts, y.Newer x
  id_fresh : ∀ y ∈ new, y.desc.id∉used
  build_fresh : ∀ y ∈ new, y.buildId∉used
  id_used : ∀ y ∈ new, y.desc.id∈used' ∧ y.buildId∈used'
  used_subset : used ⊆ used'

theorem inBucket_append_of_mem (hone : ∀ y ∈ new, ∀ y' ∈ new, y.desc.bucket=y'.desc.bucket → y=y') (hy : y∈new) :
    inBucket (ssts++new) y.desc.bucket=insert y (inBucket ssts y.desc.bucket) := by
  ext x
  simp only [inBucket,Set.mem_ofPred_eq,mem_append]
  constructor
  · rintro ⟨hx | hx,hb⟩
    · exact .inr ⟨hx,hb⟩
    · exact .inl (hone x hx y hy hb)
  · rintro (rfl | ⟨hx,hb⟩)
    · exact ⟨.inr hy,rfl⟩
    · exact ⟨.inl hx,hb⟩

theorem inBucket_append_of_not_mem (hno : ∀ y ∈ new, y.desc.bucket≠b) : inBucket (ssts++new) b=inBucket ssts b := by
  ext x
  simp only [inBucket,mem_append]
  constructor
  · rintro ⟨hx | hx,hb⟩
    · exact ⟨hx,hb⟩
    · exact absurd hb (hno x hx)
  · rintro ⟨hx,hb⟩
    exact ⟨.inl hx,hb⟩

theorem FlushAdds.not_mem (hf : FlushAdds used used' ssts new) (h : TreeInv used ssts pending)
    (hx : Known ssts pending x) : x∉new :=
  fun hn => hf.id_fresh x hn (h.used x hx).1

theorem TreeInv.flush (h : TreeInv used ssts pending)
    (hf : FlushAdds used used' ssts new) : TreeInv used' (ssts++new) pending := by
  have hknown : ∀ x, Known (ssts++new) pending x → Known ssts pending x ∨ x∈new := by
    rintro x (hx | hx)
    · exact (mem_append.mp hx).imp .inl fun hx => hx
    · exact .inl (.inr hx)
  have hready : ∀ o ∈ pending, o.Ready (ssts++new) → o.Ready ssts := by
    intro o ho hr x hx
    have hn := hf.not_mem h (.inr ⟨o,ho,.inl hx⟩)
    exact (mem_append.mp (hr x hx)).resolve_right hn
  refine
    { nodup := ?_, sound := ?_, leveled := ?_, used := ?_, same_id := ?_, ok := h.ok, safe := ?_,
      fresh := ?_, fresh_id := ?_, build_inj := h.build_inj }
  · rw [map_append]
    refine nodup_append.mpr ⟨h.nodup,hf.nodup,?_⟩
    intro i hi j hj hij
    obtain ⟨x,hx,rfl⟩ := mem_map.mp hi
    obtain ⟨y,hy,rfl⟩ := mem_map.mp hj
    exact hf.id_fresh y hy (hij ▸ (h.used x (.inl hx)).1)
  · intro x hx
    exact (mem_append.mp hx).elim (h.sound x) (hf.sound x)
  · intro b
    by_cases hb : ∃ y ∈ new, y.desc.bucket=b
    · obtain ⟨y,hy,rfl⟩ := hb
      rw [inBucket_append_of_mem hf.one_per_bucket hy]
      exact (h.leveled _).insert (hf.level_eq y hy) fun x hx => hf.newer y hy x hx.1
    · rw [inBucket_append_of_not_mem fun y hy hyb => hb ⟨y,hy,hyb⟩]
      exact h.leveled b
  · intro x hx
    rcases hknown x hx with hx | hx
    · exact ⟨hf.used_subset (h.used x hx).1,hf.used_subset (h.used x hx).2⟩
    · exact hf.id_used x hx
  · intro x y hx hy hid
    rcases hknown x hx with hx | hx <;> rcases hknown y hy with hy | hy
    · exact h.same_id x y hx hy hid
    · exact absurd (hid ▸ (h.used x hx).1) (hf.id_fresh y hy)
    · exact absurd (hid ▸ (h.used y hy).1) (hf.id_fresh x hx)
    · have hxy := inj_on_of_nodup_map hf.nodup hx hy hid
      exact ⟨by rw [hxy],fun _ => hxy⟩
  · intro o ho t gc hrw hr
    have hr := hready o ho hr
    have hs := h.safe o ho t gc hrw hr
    by_cases hb : ∃ y ∈ new, y.desc.bucket=o.bucket
    · obtain ⟨y,hy,hyb⟩ := hb
      rw [← hyb,inBucket_append_of_mem hf.one_per_bucket hy,hyb]
      refine hs.insert ((h.ok o ho).merges t gc hrw).target_pos ?_ (hf.level_eq y hy)
        fun x hx => hf.newer y hy x hx.1
      exact fun x hx => ⟨hr x hx,(h.ok o ho).inputs_bucket x hx⟩
    · rw [inBucket_append_of_not_mem fun y hy hyb => hb ⟨y,hy,hyb⟩]
      exact hs
  · intro o ho hr z hz
    obtain ⟨hz1,hz2⟩ := h.fresh o ho (hready o ho hr) z hz
    have hn := hf.not_mem h (.inr ⟨o,ho,.inr hz⟩)
    exact ⟨fun hmem => (mem_append.mp hmem).elim hz1 hn,hz2⟩
  · intro o ho t gc hrw hr z hz x hx
    rcases mem_append.mp hx with hx | hx
    · exact h.fresh_id o ho t gc hrw (hready o ho hr) z hz x hx
    · intro hid
      exact hf.id_fresh x hx (hid ▸ (h.used z (.inr ⟨o,ho,.inr hz⟩)).1)

end

section

variable {used : List Uuid} {ssts : List Sst} {pending os : List BucketOutcome}
variable {o : BucketOutcome}
variable {x z : Sst} {t : ℕ} {gc : Bool} {b : Bucket}

/-- Drops the inputs by their identifiers and adds the outputs. -/
def applyOutcomes (ssts : List Sst) (os : List BucketOutcome) : List Sst :=
  ssts.filter (fun x => x.desc.id∉os.flatMap fun o => o.inputs.map (·.desc.id)) ++
    os.filterMap (·.output)

theorem mem_applyOutcomes (h : TreeInv used ssts pending) (hready : ∀ o ∈ os, o.Ready ssts)
    : x∈applyOutcomes ssts os ↔ (x∈ssts ∧ ∀ o ∈ os, x∉o.inputs) ∨ ∃ o ∈ os, o.output=some x := by
  simp only [applyOutcomes,mem_append,mem_filter,mem_filterMap,
    mem_flatMap,mem_map,decide_eq_true_eq,not_exists,not_and]
  refine or_congr_left (and_congr_right fun hx => ?_)
  constructor
  · intro hno o ho hxo
    exact hno o ho x hxo rfl
  · intro hno o ho y hy hid
    obtain rfl := h.eq_of_id_eq (hready o ho y hy) hx hid
    exact hno o ho hy

/-- The outcomes of one pass are about different buckets. -/
def OnePerBucket (os : List BucketOutcome) : Prop := (os.map (·.bucket)).Nodup

theorem OnePerBucket.eq (h : OnePerBucket os) (ho : o∈os) (ho' : o'∈os) (hb : o.bucket=o'.bucket) : o=o' :=
  inj_on_of_nodup_map h ho ho' hb

theorem BucketOutcome.Ok.output (hok : o.Ok) (hrw : o.rewrite = .merge t gc) (hz : o.output=some z) :
    (o.plan t gc).Output Sst.level Sst.Newer z := by
  obtain ⟨hrows,hlevel⟩ := (hok.merges t gc hrw).output_some z hz
  have hne := (hok.output_sound z hz).rows_ne
  have hin : ∀ r ∈ z.rows, ∃ x ∈ o.inputs, r∈x.rows := by
    intro r hr
    rw [hrows] at hr
    obtain ⟨l,hl,hrl⟩ := mem_flatten.mp (mergeSources_subset _ _ hr)
    obtain ⟨x,hx,rfl⟩ := mem_map.mp hl
    exact ⟨x,hx,hrl⟩
  obtain ⟨i,hi⟩ := exists_mem_of_ne_nil _ hok.inputs_ne
  refine ⟨hlevel,fun y hy => ⟨(hy i hi).1,hne,?_⟩,fun y hy => ⟨hne,(hy i hi).2.1,?_⟩⟩
  · intro r hr r' hr'
    obtain ⟨x,hx,hrx⟩ := hin r' hr'
    exact (hy x hx).2.2 r hr r' hrx
  · intro r hr r' hr'
    obtain ⟨x,hx,hrx⟩ := hin r hr
    exact (hy x hx).2.2 r hrx r' hr'

theorem BucketOutcome.Ok.proper (hok : o.Ok) (hrw : o.rewrite = .merge t gc) : (o.plan t gc).Proper Sst.level :=
  ⟨exists_mem_of_ne_nil _ hok.inputs_ne,(hok.merges t gc hrw).target_pos,(hok.merges t gc hrw).level_le⟩

theorem BucketOutcome.Migrates.sameRun (h : o.Migrates x z) : SameRun Sst.level Sst.Newer x z where
  level_eq := h.level_eq
  newer_left y hy := by simpa only [Sst.Newer,h.rows_eq] using hy
  newer_right y hy := by simpa only [Sst.Newer,h.rows_eq] using hy

theorem BucketOutcome.Ok.ready_subset (hok : o.Ok) (hr : o.Ready ssts) : ∀ x ∈ o.inputs, x∈inBucket ssts o.bucket :=
  fun x hx => ⟨hr x hx,hok.inputs_bucket x hx⟩

variable (h : TreeInv used ssts pending) (hos : os ⊆ pending) (hready : ∀ o ∈ os, o.Ready ssts)
include h hos hready

theorem ready_before (ha : a∈pending) (hr : a.Ready (applyOutcomes ssts os)) :
    a.Ready ssts ∧ ∀ o ∈ os, ∀ x ∈ a.inputs, x∉o.inputs := by
  have hkeep : ∀ x ∈ a.inputs, x∈ssts ∧ ∀ o ∈ os, x∉o.inputs := by
    intro x hx
    rcases (mem_applyOutcomes h hready).mp (hr x hx) with hkeep | ⟨o,ho,hout⟩
    · exact hkeep
    · exact absurd hx ((h.fresh o (hos ho) (hready o ho) x hout).2 a ha)
  exact ⟨fun x hx => (hkeep x hx).1,fun o ho x hx => (hkeep x hx).2 o ho⟩

theorem mem_inBucket_apply : x∈inBucket (applyOutcomes ssts os) b ↔
      (x∈inBucket ssts b ∧ ∀ o ∈ os, o.bucket=b → x∉o.inputs) ∨ ∃ o ∈ os, o.bucket=b ∧ o.output=some x := by
  simp only [inBucket,mem_applyOutcomes h hready]
  constructor
  · rintro ⟨⟨hx,hno⟩ | ⟨o,ho,hout⟩,hb⟩
    · exact .inl ⟨⟨hx,hb⟩,fun o ho _ => hno o ho⟩
    · exact .inr ⟨o,ho,by rw [← (h.ok o (hos ho)).output_bucket x hout,hb],hout⟩
  · rintro (⟨⟨hx,hb⟩,hno⟩ | ⟨o,ho,hb,hout⟩)
    · refine ⟨.inl ⟨hx,fun o ho hin => ?_⟩,hb⟩
      have hbo := (h.ok o (hos ho)).inputs_bucket x hin
      exact hno o ho (hbo.symm.trans hb) hin
    · exact ⟨.inr ⟨o,ho,hout⟩,by rw [(h.ok o (hos ho)).output_bucket x hout,hb]⟩

theorem inBucket_apply_other (hb : ∀ o ∈ os, o.bucket≠b) : inBucket (applyOutcomes ssts os) b=inBucket ssts b := by
  ext x
  rw [mem_inBucket_apply h hos hready]
  constructor
  · rintro (⟨hx,-⟩ | ⟨o,ho,hob,-⟩)
    · exact hx
    · exact absurd hob (hb o ho)
  · exact fun hx => .inl ⟨hx,fun o ho hob => absurd hob (hb o ho)⟩

theorem id_ne_output (ho : o∈os) (hz : o.output=some z) (hx : x∈ssts) (hxo : x∉o.inputs) : x.desc.id≠z.desc.id := by
  cases hrw : o.rewrite with
  | merge t gc => exact h.fresh_id o (hos ho) t gc hrw (hready o ho) z hz x hx
  | inPlace =>
    obtain ⟨i,z',hm⟩ := (h.ok o (hos ho)).migrates hrw
    obtain rfl := Option.some.inj (hm.output_eq.symm.trans hz)
    have hi : i∈o.inputs := by simp [hm.inputs_eq]
    intro hid
    have hxi := h.eq_of_id_eq hx (hready o ho i hi) (hid.trans hm.id_eq)
    exact hxo (hxi ▸ hi)

theorem known_apply (hx : Known (applyOutcomes ssts os) pending x) : Known ssts pending x := by
  rcases hx with hx | hx
  · rcases (mem_applyOutcomes h hready).mp hx with hx | ⟨o,ho,hout⟩
    · exact .inl hx.1
    · exact .inr ⟨o,hos ho,.inr hout⟩
  · exact .inr hx

theorem build_ne_of_ready (ha : a∈pending) (har : a.Ready (applyOutcomes ssts os)) (ho : o∈os)
    (hz : a.output=some z) (hw : o.output=some w) : w.buildId≠z.buildId := by
  intro hb
  have hin := h.build_inj o (hos ho) a ha w z hw hz hb
  obtain ⟨x,hx⟩ := exists_mem_of_ne_nil _ (h.ok a ha).inputs_ne
  exact (ready_before h hos hready ha har).2 o ho x hx (hin ▸ hx)

variable (hone : OnePerBucket os)
include hone

theorem inBucket_apply_merge (ho : o∈os) (t : ℕ) (gc : Bool) : inBucket (applyOutcomes ssts os) o.bucket =
      (o.plan t gc).install (inBucket ssts o.bucket) o.output := by
  ext x
  rw [mem_inBucket_apply h hos hready]
  constructor
  · rintro (⟨hx,hno⟩ | ⟨o',ho',hb,hout⟩)
    · exact .inl ⟨hx,hno o ho rfl⟩
    · obtain rfl := hone.eq ho' ho hb
      exact .inr hout
  · rintro (⟨hx,hno⟩ | hout)
    · refine .inl ⟨hx,fun o' ho' hb => ?_⟩
      obtain rfl := hone.eq ho' ho hb
      exact hno
    · exact .inr ⟨o,ho,rfl,hout⟩

theorem inBucket_apply_inPlace (ho : o∈os) (hm : o.Migrates x z) : inBucket (applyOutcomes ssts os) o.bucket =
      {y | y∈inBucket ssts o.bucket ∧ y≠x ∨ y=z} := by
  rw [inBucket_apply_merge h hos hready hone ho 0 false]
  simp [MergePlan.install,BucketOutcome.plan,hm.inputs_eq,hm.output_eq,eq_comm]

theorem leveled_apply (b : Bucket) : Leveled Sst.level Sst.Newer (inBucket (applyOutcomes ssts os) b) := by
  by_cases hb : ∃ o ∈ os, o.bucket=b
  · obtain ⟨o,ho,rfl⟩ := hb
    have hok := h.ok o (hos ho)
    cases hrw : o.rewrite with
    | merge t gc =>
      rw [inBucket_apply_merge h hos hready hone ho t gc]
      exact (h.leveled _).install (h.safe o (hos ho) t gc hrw (hready o ho))
        fun z hz => hok.output hrw hz
    | inPlace =>
      obtain ⟨x,z,hm⟩ := hok.migrates hrw
      rw [inBucket_apply_inPlace h hos hready hone ho hm]
      have hx : x∈o.inputs := by simp [hm.inputs_eq]
      exact (h.leveled _).replace (hok.ready_subset (hready o ho) x hx) hm.sameRun
  · rw [inBucket_apply_other h hos hready fun o ho hob => hb ⟨o,ho,hob⟩]
    exact h.leveled b

theorem safe_apply (ha : a∈pending) (harw : a.rewrite = .merge t gc) (har : a.Ready (applyOutcomes ssts os)) :
    (a.plan t gc).Safe Sst.level Sst.Newer (inBucket (applyOutcomes ssts os) a.bucket) := by
  obtain ⟨hbefore,hdisj⟩ := ready_before h hos hready ha har
  have hsafe := h.safe a ha t gc harw hbefore
  have haok := h.ok a ha
  by_cases hb : ∃ o ∈ os, o.bucket=a.bucket
  · obtain ⟨o,ho,hob⟩ := hb
    have hok := h.ok o (hos ho)
    rw [← hob] at hsafe ⊢
    cases hrw : o.rewrite with
    | merge t' gc' =>
      rw [inBucket_apply_merge h hos hready hone ho t' gc']
      refine .install Sst.Newer.asymm hsafe
        (h.safe o (hos ho) t' gc' hrw (hready o ho)) (haok.proper harw) (hok.proper hrw) ?_
        (hok.ready_subset (hready o ho)) ?_ fun z hz => hok.output hrw hz
      · rw [hob]
        exact haok.ready_subset hbefore
      · exact Set.disjoint_left.mpr fun x hx => hdisj o ho x hx
    | inPlace =>
      obtain ⟨x,z,hm⟩ := hok.migrates hrw
      rw [inBucket_apply_inPlace h hos hready hone ho hm]
      have hx : x∈o.inputs := by simp [hm.inputs_eq]
      exact hsafe.replace (hok.ready_subset (hready o ho) x hx) (fun hxa => hdisj o ho x hxa hx)
        hm.sameRun
  · rw [inBucket_apply_other h hos hready fun o ho hob => hb ⟨o,ho,hob⟩]
    exact hsafe

theorem nodup_apply : ((applyOutcomes ssts os).map (·.desc.id)).Nodup := by
  rw [applyOutcomes,map_append]
  refine nodup_append.mpr ⟨?_,?_,?_⟩
  · exact h.nodup.sublist (Sublist.map _ filter_sublist)
  · refine pairwise_map.mpr (pairwise_filterMap.mpr ?_)
    refine (pairwise_map.mp hone).imp_of_mem fun {o o'} ho ho' hne z hz z' hz' hid => hne ?_
    have hsame := (h.same_id z z' (.inr ⟨o,hos ho,.inr hz⟩) (.inr ⟨o',hos ho',.inr hz'⟩) hid).1
    rw [← (h.ok o (hos ho)).output_bucket z hz,hsame,(h.ok o' (hos ho')).output_bucket z' hz']
  · intro i hi j hj hij
    obtain ⟨x,hx,rfl⟩ := mem_map.mp hi
    obtain ⟨z,hz,rfl⟩ := mem_map.mp hj
    obtain ⟨o,ho,hout⟩ := mem_filterMap.mp hz
    simp only [mem_filter,mem_flatMap,mem_map,decide_eq_true_eq,not_exists,not_and] at hx
    exact id_ne_output h hos hready ho hout hx.1 (fun hxo => hx.2 o ho x hxo rfl) hij

theorem TreeInv.install : TreeInv used (applyOutcomes ssts os) pending := by
  have hbefore := fun a (ha : a∈pending) har => (ready_before h hos hready ha har).1
  refine
    { nodup := nodup_apply h hos hready hone
      sound := ?_
      leveled := leveled_apply h hos hready hone
      used := fun x hx => h.used x (known_apply h hos hready hx)
      same_id := fun x y hx hy =>
        h.same_id x y (known_apply h hos hready hx) (known_apply h hos hready hy)
      ok := h.ok
      safe := fun a ha t gc harw har => safe_apply h hos hready hone ha harw har
      fresh := ?_
      fresh_id := ?_
      build_inj := h.build_inj }
  · intro x hx
    rcases (mem_applyOutcomes h hready).mp hx with hx | ⟨o,ho,hout⟩
    · exact h.sound x hx.1
    · exact (h.ok o (hos ho)).output_sound x hout
  · intro a ha har z hz
    obtain ⟨hz1,hz2⟩ := h.fresh a ha (hbefore a ha har) z hz
    refine ⟨fun hmem => ?_,hz2⟩
    rcases (mem_applyOutcomes h hready).mp hmem with hx | ⟨o,ho,hout⟩
    · exact hz1 hx.1
    · exact build_ne_of_ready h hos hready ha har ho hz hout rfl
  · intro a ha t gc harw har z hz x hx
    have hid := h.fresh_id a ha t gc harw (hbefore a ha har) z hz
    rcases (mem_applyOutcomes h hready).mp hx with hx | ⟨o,ho,hout⟩
    · exact hid x hx.1
    · cases hrw : o.rewrite with
      | merge t' gc' =>
        rw [((h.ok o (hos ho)).merges t' gc' hrw).output_id x hout,((h.ok a ha).merges t gc harw).output_id z hz]
        exact build_ne_of_ready h hos hready ha har ho hz hout
      | inPlace =>
        obtain ⟨i,z',hm⟩ := (h.ok o (hos ho)).migrates hrw
        obtain rfl := Option.some.inj (hm.output_eq.symm.trans hout)
        rw [hm.id_eq]
        exact hid i (hready o ho i (by simp [hm.inputs_eq]))

end

section

variable {used : List Uuid} {ssts : List Sst} {pending os : List BucketOutcome}
variable {o : BucketOutcome} {b : Bucket}

def versions (ssts : List Sst) (b : Bucket) : List WalEntry :=
  (ssts.filter fun x => x.desc.bucket=b).flatMap (·.rows)

def visible (ssts : List Sst) (b : Bucket) (k : MemKey) : Option WalEntry :=
  live WalEntry.key WalEntry.lsn WalEntry.isTombstone k (versions ssts b)

theorem mem_versions : r∈versions ssts b ↔ ∃ x ∈ inBucket ssts b, r∈x.rows := by
  simp only [versions,mem_flatMap,mem_filter,decide_eq_true_eq]
  rfl

theorem TreeInv.distinct_versions (h : TreeInv used ssts pending) (b : Bucket) :
    Distinct WalEntry.key WalEntry.lsn (versions ssts b) :=
  h.distinct fun _ hr => by
    obtain ⟨x,hx,hrx⟩ := mem_versions.mp hr
    exact ⟨x,hx.1,hx.2,hrx⟩

theorem visible_congr (h : TreeInv used ssts pending) (hb : inBucket ssts' b=inBucket ssts b) (k : MemKey) :
    visible ssts' b k=visible ssts b k :=
  (live_congr (h.distinct_versions b) fun r => by rw [mem_versions,mem_versions,hb]).symm

def restRows (ssts : List Sst) (o : BucketOutcome) : List WalEntry :=
  versions (ssts.filter fun x => x∉o.inputs) o.bucket

theorem mem_restRows : r∈restRows ssts o ↔ ∃ x ∈ inBucket ssts o.bucket, x∉o.inputs ∧ r∈x.rows := by
  rw [restRows,mem_versions]
  simp only [inBucket,mem_filter,decide_eq_true_eq]
  constructor
  · rintro ⟨x,⟨⟨hx,hno⟩,hb⟩,hr⟩
    exact ⟨x,⟨hx,hb⟩,hno,hr⟩
  · rintro ⟨x,⟨hx,hb⟩,hno,hr⟩
    exact ⟨x,⟨⟨hx,hno⟩,hb⟩,hr⟩

theorem mem_inputs_flatten : r∈(o.inputs.map (·.rows)).flatten ↔ ∃ x ∈ o.inputs, r∈x.rows := by
  simp

theorem visible_merge (h : TreeInv used ssts pending) (hos : os ⊆ pending) (hready : ∀ o ∈ os, o.Ready ssts)
    (hone : OnePerBucket os) (ho : o∈os) (hrw : o.rewrite = .merge t gc) (k : MemKey) :
    visible (applyOutcomes ssts os) o.bucket k=visible ssts o.bucket k := by
  have hok := h.ok o (hos ho)
  have hsafe := h.safe o (hos ho) t gc hrw (hready o ho)
  have hin := hok.ready_subset (hready o ho)
  have hbefore : ∀ r, r∈versions ssts o.bucket ↔
      r∈(o.inputs.map (·.rows)).flatten++restRows ssts o := by
    intro r
    rw [mem_versions,mem_append,mem_inputs_flatten,mem_restRows]
    constructor
    · rintro ⟨x,hx,hr⟩
      by_cases hxi : x∈o.inputs
      · exact .inl ⟨x,hxi,hr⟩
      · exact .inr ⟨x,hx,hxi,hr⟩
    · rintro (⟨x,hx,hr⟩ | ⟨x,hx,-,hr⟩)
      · exact ⟨x,hin x hx,hr⟩
      · exact ⟨x,hx,hr⟩
  have hafter : ∀ r, r∈versions (applyOutcomes ssts os) o.bucket ↔
      r∈o.mergedRows gc++restRows ssts o := by
    intro r
    rw [mem_versions,mem_append,mem_restRows,inBucket_apply_merge h hos hready hone ho t gc]
    constructor
    · rintro ⟨x,⟨hx,hno⟩ | hout,hr⟩
      · exact .inr ⟨x,hx,hno,hr⟩
      · exact .inl (((hok.merges t gc hrw).output_some x hout).1 ▸ hr)
    · rintro (hr | ⟨x,hx,hno,hr⟩)
      · cases hz : o.output with
        | none =>
          rw [(hok.merges t gc hrw).output_none hz] at hr
          cases hr
        | some z => exact ⟨z,.inr rfl,((hok.merges t gc hrw).output_some z hz).1 ▸ hr⟩
      · exact ⟨x,.inl ⟨hx,hno⟩,hr⟩
  have hd := (h.distinct_versions o.bucket).mono fun r hr => (hbefore r).mpr hr
  have hholds : ∀ r ∈ (o.inputs.map (·.rows)).flatten, o.bucket.holds r.key := by
    intro r hr
    obtain ⟨x,hx,hrx⟩ := mem_inputs_flatten.mp hr
    rw [← hok.inputs_bucket x hx]
    exact (h.sound x (hready o ho x hx)).holds r hrx
  have hcomp := compacts_mergeSources gc hholds (hd.mono (subset_append_left _ _))
  have hlive := hcomp.live_eq hd (fun hg r hr r' hr' _ => ?_) k
  · rw [visible,visible,live_congr (h.distinct_versions o.bucket) hbefore,← hlive]
    have hd' : Distinct WalEntry.key WalEntry.lsn (o.mergedRows gc++restRows ssts o) := by
      refine hd.mono (append_subset.mpr ⟨?_,subset_append_right _ _⟩)
      exact fun r hr => mem_append_left _ (hcomp.subset hr)
    exact (live_congr hd' fun r => (hafter r).symm).symm
  · obtain ⟨x,hx,hno,hrx⟩ := mem_restRows.mp hr
    obtain ⟨y,hy,hry⟩ := mem_inputs_flatten.mp hr'
    exact (hsafe.newer_of_gc hg x hx hno y hy).2.2 r hrx r' hry

theorem visible_apply (h : TreeInv used ssts pending) (hos : os ⊆ pending)
    (hready : ∀ o ∈ os, o.Ready ssts) (hone : OnePerBucket os) (b : Bucket) (k : MemKey) :
    visible (applyOutcomes ssts os) b k=visible ssts b k := by
  by_cases hb : ∃ o ∈ os, o.bucket=b
  · obtain ⟨o,ho,rfl⟩ := hb
    cases hrw : o.rewrite with
    | merge t gc => exact visible_merge h hos hready hone ho hrw k
    | inPlace =>
      obtain ⟨x,z,hm⟩ := (h.ok o (hos ho)).migrates hrw
      have hx := (h.ok o (hos ho)).ready_subset (hready o ho) x (by simp [hm.inputs_eq])
      refine (live_congr (h.distinct_versions o.bucket) fun r => ?_).symm
      rw [mem_versions,mem_versions,inBucket_apply_inPlace h hos hready hone ho hm]
      constructor
      · rintro ⟨y,hy,hr⟩
        by_cases hyx : y=x
        · subst hyx
          exact ⟨z,.inr rfl,hm.rows_eq ▸ hr⟩
        · exact ⟨y,.inl ⟨hy,hyx⟩,hr⟩
      · rintro ⟨y,⟨hy,-⟩ | rfl,hr⟩
        · exact ⟨y,hy,hr⟩
        · exact ⟨x,hx,hm.rows_eq ▸ hr⟩
  · exact visible_congr h (inBucket_apply_other h hos hready fun o ho hob => hb ⟨o,ho,hob⟩) k

end
end NamiDB.Storage
