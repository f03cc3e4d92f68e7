import NamiDB.Storage.Tree

/-! What one compaction pass prepares: each outcome takes whole levels of its bucket, reads the bodies
of that moment and writes a build of its own. -/
namespace NamiDB.Storage
open Lib List

/-- The output of a merge or of a migration, built under the identifier of `new`. -/
structure BucketOutcome.Builds (o : BucketOutcome) (plan : BucketPlan) (new : NewSst) : Prop where
  merge : ∀ t gc, o.rewrite = .merge t gc → t=plan.targetLevel ∧ (gc=true → plan.isDeepest=true) ∧
    (o.output=none → o.mergedRows gc=[]) ∧
    ∀ z, o.output=some z → z.rows=o.mergedRows gc ∧ z.rows≠[] ∧ ∃ d,
      d=sstDescriptor o.bucket plan.targetLevel new z.rows ∧
      (z.desc=d ∨ z.desc={ d with maxLsn := (plan.inputs.map (·.maxLsn)).max?.getD 0 })
  inPlace : o.rewrite = .inPlace → o.bucket.kind = .nodes ∧ ∃ x, o.inputs=[x] ∧ o.output=some
    { x with desc := { x.desc with
      nodeLocator := some (nodeAccess x.desc.level x.desc.id x.desc.rowCount new) } }

def BucketOutcome.Planned (o : BucketOutcome) (rows : RelPath → List WalEntry) (m : Manifest) (new : NewSst) : Prop :=
  ∃ plan : BucketPlan, plan.Covers (sourcesOf m o.bucket) ∧ o.inputs=plan.inputs.map (sstAt rows) ∧
    o.Builds plan new

section

variable {policy : CompactionPolicy} {rows : RelPath → List WalEntry} {m : Manifest}
  {fresh : Bucket → NewSst}
variable {new : NewSst} {o : BucketOutcome} {plan : BucketPlan} {scope : String}

theorem mergedRows_eq (gc : Bool) (h : o.inputs=plan.inputs.map (sstAt rows)) :
    o.mergedRows gc=mergeSources o.bucket.kind gc (plan.inputs.map fun d => rows d.path) := by
  simp [BucketOutcome.mergedRows,h,sstAt,Function.comp_def]

theorem mergeNodes_planned (hplan : plan.Covers (sourcesOf m ⟨.nodes,scope⟩)) (hgc : gc=true → plan.isDeepest=true) :
    (mergeNodes rows scope plan gc new).Planned rows m new := by
  refine ⟨plan,hplan,rfl,?_,by simp [mergeNodes]⟩
  intro t gc' hrw
  obtain ⟨rfl,rfl⟩ := hrw
  rw [mergedRows_eq _ rfl]
  refine ⟨rfl,hgc,?_,?_⟩
  · simp [mergeNodes]
  · intro z hz
    simp only [mergeNodes,Option.ite_none_left_eq_some,Option.some.injEq] at hz
    obtain ⟨hne,rfl⟩ := hz
    exact ⟨rfl,hne,_,rfl,.inr rfl⟩

theorem migrateLocator_planned (hplan : plan.Covers (sourcesOf m ⟨.nodes,scope⟩)) (hin : plan.inputs=[source]) :
    (migrateLocator rows scope source new).Planned rows m new := by
  refine ⟨plan,hplan,by simp [hin,migrateLocator],by simp [migrateLocator],?_⟩
  intro _
  exact ⟨rfl,sstAt rows source,rfl,rfl⟩

theorem compactNodes_planned (h : compactNodes policy rows m scope new = .ok (some o)) :
    o.bucket=⟨.nodes,scope⟩ ∧ o.Planned rows m new := by
  unfold compactNodes at h
  split at h
  · cases h
  rename_i plan hp
  have hplan := planNodeBucket_covers hp
  have hfinish : compactNodes.finish rows m scope new plan = .ok (some o) →
      o.bucket=⟨.nodes,scope⟩ ∧ o.Planned rows m new := by
    intro hf
    unfold compactNodes.finish at hf
    dsimp only at hf
    split at hf
    · cases hf
    · cases hf
      exact ⟨rfl,mergeNodes_planned hplan fun hgc => (Bool.and_eq_true_iff.mp hgc).2⟩
  split at h
  · rename_i source hin
    split at h
    · cases h
      exact ⟨rfl,migrateLocator_planned hplan hin⟩
    · exact hfinish h
  · exact hfinish h

theorem compactEdges_planned (h : compactEdges policy rows m kind edgeType new=some o) :
    o.bucket=⟨kind,edgeType⟩ ∧ o.Planned rows m new := by
  obtain ⟨plan,hp,rfl⟩ := Option.map_eq_some_iff.mp h
  refine ⟨rfl,plan,planBucketMerge_covers hp,rfl,?_,by simp⟩
  intro t gc hrw
  obtain ⟨rfl,rfl⟩ := hrw
  rw [mergedRows_eq _ rfl]
  refine ⟨rfl,fun hg => hg,by simp,?_⟩
  intro z hz
  simp only [Option.ite_none_left_eq_some,Option.some.injEq] at hz
  obtain ⟨hne,rfl⟩ := hz
  exact ⟨rfl,hne,_,rfl,.inl rfl⟩

theorem nodeOutcomes_spec (h : nodeOutcomes policy rows m fresh scopes = .ok os) :
    (os.map (·.bucket)).Sublist (scopes.map fun s => ⟨.nodes,s⟩) ∧ ∀ o ∈ os, o.Planned rows m (fresh o.bucket) := by
  induction scopes generalizing os with
  | nil =>
    cases h
    simp
  | cons scope scopes ih =>
    unfold nodeOutcomes at h
    cases hfirst : compactNodes policy rows m scope (fresh ⟨.nodes,scope⟩) with
    | error e => simp [hfirst,bind,Except.bind] at h
    | ok first =>
      cases hrest : nodeOutcomes policy rows m fresh scopes with
      | error e => simp [hfirst,hrest,bind,Except.bind] at h
      | ok rest =>
        simp only [hfirst,hrest,bind,Except.bind,pure,Except.pure,Except.ok.injEq] at h
        subst h
        obtain ⟨hsub,hall⟩ := ih hrest
        cases first with
        | none => exact ⟨by simpa using hsub.cons _,by simpa using hall⟩
        | some o =>
          obtain ⟨hb,hp⟩ := compactNodes_planned hfirst
          simp only [Option.toList_some,cons_append,map_cons,hb,mem_cons,forall_eq_or_imp]
          exact ⟨hsub.cons_cons _,hp,hall⟩

variable (policy rows m fresh) in
theorem edgeOutcomes_spec (kind : SstKind) : ((edgeOutcomes policy rows m fresh kind).map (·.bucket)).Sublist
        ((scopesOf m kind).map fun s => ⟨kind,s⟩) ∧
      ∀ o ∈ edgeOutcomes policy rows m fresh kind, o.Planned rows m (fresh o.bucket) := by
  unfold edgeOutcomes
  induction scopesOf m kind with
  | nil => simp
  | cons scope scopes ih =>
    obtain ⟨hsub,hall⟩ := ih
    cases hfirst : compactEdges policy rows m kind scope (fresh ⟨kind,scope⟩) with
    | none =>
      simp only [filterMap_cons,hfirst]
      exact ⟨hsub.cons _,hall⟩
    | some o =>
      obtain ⟨hb,hp⟩ := compactEdges_planned hfirst
      simp only [filterMap_cons,hfirst,map_cons,hb,mem_cons,forall_eq_or_imp]
      exact ⟨hsub.cons_cons _,hp,hall⟩

theorem nodup_scopesOf (kind : SstKind) : ((scopesOf m kind).map fun s => Bucket.mk kind s).Nodup :=
  ((perm_insertionSort _ _).nodup_iff.mpr (nodup_dedup _)).map fun s s' h => by
    simpa using h

theorem bucketOutcomes_spec (h : bucketOutcomes policy rows m fresh = .ok os) :
    OnePerBucket os ∧ ∀ o ∈ os, o.Planned rows m (fresh o.bucket) := by
  unfold bucketOutcomes at h
  cases hn : nodeOutcomes policy rows m fresh (scopesOf m .nodes) with
  | error e => simp [hn,bind,Except.bind] at h
  | ok nodes =>
    simp only [hn,bind,Except.bind,pure,Except.pure,Except.ok.injEq] at h
    subst h
    obtain ⟨hsub,hall⟩ := nodeOutcomes_spec hn
    obtain ⟨hsubF,hallF⟩ := edgeOutcomes_spec policy rows m fresh .edgesFwd
    obtain ⟨hsubI,hallI⟩ := edgeOutcomes_spec policy rows m fresh .edgesInv
    refine ⟨?_,?_⟩
    · have hsub' := (hsub.append hsubF).append hsubI
      rw [← map_append,← map_append] at hsub'
      refine .sublist hsub' ?_
      simp only [nodup_append,nodup_scopesOf,true_and,mem_append,mem_map]
      refine ⟨?_,?_⟩
      · rintro b ⟨s,-,rfl⟩ b' ⟨s',-,rfl⟩
        simp
      · rintro b (⟨s,-,rfl⟩ | ⟨s,-,rfl⟩) b' ⟨s',-,rfl⟩ <;> simp
    · intro o ho
      simp only [mem_append] at ho
      rcases ho with (ho | ho) | ho
      · exact hall o ho
      · exact hallF o ho
      · exact hallI o ho

end

section

variable {used : List Uuid} {pending : List BucketOutcome} {rows : RelPath → List WalEntry}
  {m : Manifest}
variable {o : BucketOutcome} {d : SstDescriptor} {new : NewSst} {gc : Bool}

def sstsOf (rows : RelPath → List WalEntry) (m : Manifest) : List Sst := m.ssts.map (sstAt rows)

theorem mem_sourcesOf : d∈sourcesOf m b ↔ d∈m.ssts ∧ d.bucket=b := by
  simp [sourcesOf]

theorem mem_inBucket_sstsOf : x∈inBucket (sstsOf rows m) b ↔ ∃ d ∈ sourcesOf m b, sstAt rows d=x := by
  simp only [inBucket,sstsOf,mem_map,mem_sourcesOf]
  constructor
  · rintro ⟨⟨d,hd,rfl⟩,hb⟩
    exact ⟨d,⟨hd,hb⟩,rfl⟩
  · rintro ⟨d,⟨hd,hb⟩,rfl⟩
    exact ⟨⟨d,hd,rfl⟩,hb⟩

theorem BucketOutcome.Planned.ready (h : o.Planned rows m new) :
    ∀ x ∈ o.inputs, x∈inBucket (sstsOf rows m) o.bucket := by
  obtain ⟨plan,hcov,hin,-⟩ := h
  intro x hx
  rw [hin,mem_map] at hx
  obtain ⟨d,hd,rfl⟩ := hx
  exact mem_inBucket_sstsOf.mpr ⟨d,((hcov.mem_iff d).mp hd).1,rfl⟩

/-- The level stored in a descriptor does not matter for what its rows are. -/
theorem Sst.Sound.withMaxLsn (h : Sst.Sound ⟨d,l⟩) (hn : ∀ r ∈ l, r.lsn≤n) : Sst.Sound ⟨{ d with maxLsn := n },l⟩ :=
  ⟨h.rows_ne,h.holds,h.unique,hn,h.minKey_le,h.le_maxKey⟩

theorem mem_mergedRows (h : r∈o.mergedRows gc) : ∃ x ∈ o.inputs, r∈x.rows := by
  obtain ⟨l,hl,hr⟩ := mem_flatten.mp (mergeSources_subset _ _ h)
  obtain ⟨x,hx,rfl⟩ := mem_map.mp hl
  exact ⟨x,hx,hr⟩

theorem sound_merged {plan : BucketPlan} (new : NewSst) (t : ℕ)
    (hsound : ∀ x ∈ o.inputs, x.Sound) (hbucket : ∀ x ∈ o.inputs, x.desc.bucket=o.bucket)
    (hin : o.inputs=plan.inputs.map (sstAt rows)) (hrows : o.mergedRows gc≠[]) :
    Sst.Sound ⟨sstDescriptor o.bucket t new (o.mergedRows gc),o.mergedRows gc⟩ ∧
      ∀ r ∈ o.mergedRows gc, r.lsn≤(plan.inputs.map (·.maxLsn)).max?.getD 0 := by
  refine ⟨sound_sstDescriptor t new hrows ?_ ?_,?_⟩
  · intro r hr
    obtain ⟨x,hx,hrx⟩ := mem_mergedRows hr
    rw [← hbucket x hx]
    exact (hsound x hx).holds r hrx
  · exact fun r hr r' hr' hk => mergeSources_unique _ _ hr hr' hk
  · intro r hr
    obtain ⟨x,hx,hrx⟩ := mem_mergedRows hr
    have hle := (hsound x hx).lsn_le r hrx
    rw [hin,mem_map] at hx
    obtain ⟨d,hd,rfl⟩ := hx
    exact hle.trans (le_max?_getD_of_mem (mem_map_of_mem hd))

theorem buildId_sstDescriptor (b : Bucket) (level : ℕ) (new : NewSst) (l l' : List WalEntry) (n : Lsn) :
    Sst.buildId ⟨sstDescriptor b level new l,l'⟩=new.id ∧
      Sst.buildId ⟨{ sstDescriptor b level new l with maxLsn := n },l'⟩=new.id := by
  by_cases hk : b.kind = .nodes
  · simp [Sst.buildId,sstDescriptor,hk,nodeAccess,relativeSstPath]
  · simp [Sst.buildId,sstDescriptor,hk]

section

variable {o : BucketOutcome} {new : NewSst} {gc : Bool}

/-- The output of a planned merge, its rows aside. -/
structure MergeOutput (o : BucketOutcome) (new : NewSst) (t : ℕ) (gc : Bool) (z : Sst) : Prop where
  rows_eq : z.rows=o.mergedRows gc
  level_eq : z.level=t
  bucket_eq : z.desc.bucket=o.bucket
  id_eq : z.desc.id=new.id
  build_eq : z.buildId=new.id
  path_eq : ∃ level rest, z.desc.path = .sst level (.named z.desc.id rest)
  sound : z.Sound

section
variable (h : o.Planned rows m new)
include h

theorem BucketOutcome.Planned.mergeOutput (hsound : ∀ x ∈ o.inputs, x.Sound) (hrw : o.rewrite = .merge t gc)
    (hz : o.output=some z) : MergeOutput o new t gc z := by
  have hbucket : ∀ x ∈ o.inputs, x.desc.bucket=o.bucket := fun x hx => (h.ready x hx).2
  obtain ⟨plan,-,hin,hb⟩ := h
  obtain ⟨rfl,-,-,hout⟩ := hb.merge t gc hrw
  obtain ⟨hrows,hne,d,rfl,hd⟩ := hout z hz
  obtain ⟨zd,zrows⟩ := z
  dsimp only at hrows hne hd
  subst hrows
  obtain ⟨hs,hle⟩ := sound_merged new plan.targetLevel hsound hbucket hin hne
  have hbuild := buildId_sstDescriptor o.bucket plan.targetLevel new (o.mergedRows gc)
    (o.mergedRows gc) ((plan.inputs.map (·.maxLsn)).max?.getD 0)
  rcases hd with rfl | rfl
  · exact ⟨rfl,rfl,rfl,rfl,hbuild.1,⟨_,_,rfl⟩,hs⟩
  · exact ⟨rfl,rfl,rfl,rfl,hbuild.2,⟨_,_,rfl⟩,hs.withMaxLsn hle⟩

theorem BucketOutcome.Planned.migration (hsound : ∀ x ∈ o.inputs, x.Sound) (hrw : o.rewrite = .inPlace) :
    ∃ x z, o.Migrates x z ∧ x∈o.inputs ∧ z.desc.bucket=x.desc.bucket ∧ z.buildId=new.id ∧
      z.desc.kind = .nodes ∧ z.Sound := by
  have hbucket : ∀ x ∈ o.inputs, x.desc.bucket=o.bucket := fun x hx => (h.ready x hx).2
  obtain ⟨plan,-,-,hb⟩ := h
  obtain ⟨hkind,x,hin,hout⟩ := hb.inPlace hrw
  have hx : x∈o.inputs := by simp [hin]
  have hs := hsound x hx
  refine ⟨x,_,⟨hin,hout,rfl,rfl,rfl,rfl⟩,hx,rfl,rfl,?_,?_⟩
  · rw [← hkind,← hbucket x hx]
    rfl
  · exact ⟨hs.rows_ne,hs.holds,hs.unique,hs.lsn_le,hs.minKey_le,hs.le_maxKey⟩

theorem BucketOutcome.Planned.buildId_eq (hsound : ∀ x ∈ o.inputs, x.Sound) (hz : o.output=some z) :
    z.buildId=new.id := by
  cases hrw : o.rewrite with
  | merge t gc => exact (h.mergeOutput hsound hrw hz).build_eq
  | inPlace =>
    obtain ⟨x,z',hm,-,-,hb,-⟩ := h.migration hsound hrw
    exact Option.some.inj (hm.output_eq.symm.trans hz) ▸ hb

theorem BucketOutcome.Planned.ok (hsound : ∀ x ∈ o.inputs, x.Sound) : o.Ok := by
  have hbucket : ∀ x ∈ o.inputs, x.desc.bucket=o.bucket := fun x hx => (h.ready x hx).2
  refine ⟨?_,hbucket,?_,?_,?_,?_⟩
  · obtain ⟨plan,hcov,hin,-⟩ := h
    simpa [hin] using hcov.inputs_ne
  · intro z hz
    cases hrw : o.rewrite with
    | merge t gc => exact (h.mergeOutput hsound hrw hz).bucket_eq
    | inPlace =>
      obtain ⟨x,z',hm,hx,hb,-⟩ := h.migration hsound hrw
      obtain rfl := Option.some.inj (hm.output_eq.symm.trans hz)
      rw [hb,hbucket x hx]
  · intro z hz
    cases hrw : o.rewrite with
    | merge t gc => exact (h.mergeOutput hsound hrw hz).sound
    | inPlace =>
      obtain ⟨x,z',hm,-,-,-,-,hs⟩ := h.migration hsound hrw
      exact Option.some.inj (hm.output_eq.symm.trans hz) ▸ hs
  · intro t gc hrw
    have hout : ∀ z, o.output=some z → MergeOutput o new t gc z :=
      fun z hz => h.mergeOutput hsound hrw hz
    obtain ⟨plan,hcov,hin,hb⟩ := h
    obtain ⟨rfl,-,hnone,-⟩ := hb.merge t gc hrw
    refine ⟨hcov.target_pos,?_,fun z hz => ⟨(hout z hz).rows_eq,(hout z hz).level_eq⟩,
      fun z hz => (hout z hz).id_eq.trans (hout z hz).build_eq.symm,hnone⟩
    intro x hx
    rw [hin,mem_map] at hx
    obtain ⟨d,hd,rfl⟩ := hx
    exact ((hcov.mem_iff d).mp hd).2
  · intro hrw
    obtain ⟨x,z,hm,-⟩ := h.migration hsound hrw
    exact ⟨x,z,hm⟩

theorem BucketOutcome.Planned.safe (hlev : Leveled Sst.level Sst.Newer (inBucket (sstsOf rows m) o.bucket))
    (hrw : o.rewrite = .merge t gc) :
    (o.plan t gc).Safe Sst.level Sst.Newer (inBucket (sstsOf rows m) o.bucket) := by
  have hready := h.ready
  obtain ⟨plan,hcov,hin,hb⟩ := h
  obtain ⟨rfl,hgc,-⟩ := hb.merge t gc hrw
  have hmem : ∀ d ∈ sourcesOf m o.bucket, d.level≤plan.targetLevel → sstAt rows d∈o.inputs := by
    intro d hd hle
    rw [hin]
    exact mem_map_of_mem ((hcov.mem_iff d).mpr ⟨hd,hle⟩)
  refine MergePlan.safe_of_planned hlev hready ?_ ?_ ?_
  · intro x hx
    simp only [BucketOutcome.plan,hin,mem_map] at hx
    obtain ⟨d,hd,rfl⟩ := hx
    exact ((hcov.mem_iff d).mp hd).2
  · intro y hy hle
    obtain ⟨d,hd,rfl⟩ := mem_inBucket_sstsOf.mp hy
    exact hmem d hd hle
  · intro hg y hy
    obtain ⟨d,hd,rfl⟩ := mem_inBucket_sstsOf.mp hy
    exact hmem d hd (hcov.deepest (hgc hg) d hd)

end

end

variable {fresh : Bucket → NewSst} {used' : List Uuid}

/-- What a planned output shares with what was known before: nothing, but a migrated body keeps the
identifier of the node SST it came from. -/
theorem BucketOutcome.Planned.output_id (h : TreeInv used (sstsOf rows m) pending) (hp : o.Planned rows m new)
    (hz : o.output=some z) :
    z.desc.id=new.id ∨ ∃ x ∈ sstsOf rows m, z.desc.id=x.desc.id ∧ z.desc.bucket=x.desc.bucket ∧
        z.desc.kind = .nodes := by
  have hsound : ∀ x ∈ o.inputs, x.Sound := fun x hx => h.sound x (hp.ready x hx).1
  cases hrw : o.rewrite with
  | merge t gc => exact .inl (hp.mergeOutput hsound hrw hz).id_eq
  | inPlace =>
    obtain ⟨x,z',hm,hx,hb,-,hk,-⟩ := hp.migration hsound hrw
    obtain rfl := Option.some.inj (hm.output_eq.symm.trans hz)
    exact .inr ⟨x,(hp.ready x hx).1,hm.id_eq,hb,hk⟩

theorem BucketOutcome.Planned.bucket_mem (hp : o.Planned rows m new) : o.bucket∈m.ssts.map (·.bucket) := by
  obtain ⟨plan,hcov,-⟩ := hp
  obtain ⟨d,hd⟩ := exists_mem_of_ne_nil _ hcov.inputs_ne
  obtain ⟨hd,hb⟩ := mem_sourcesOf.mp ((hcov.mem_iff d).mp hd).1
  exact mem_map.mpr ⟨d,hd,hb⟩

theorem TreeInv.prepare (h : TreeInv used (sstsOf rows m) pending)
    (hfresh : FreshFor used fresh (m.ssts.map (·.bucket)))
    (hone : OnePerBucket os) (hplan : ∀ o ∈ os, o.Planned rows m (fresh o.bucket))
    (hsub : used ⊆ used') (hused : ∀ o ∈ os, (fresh o.bucket).id∈used') :
    TreeInv used' (sstsOf rows m) (os++pending) := by
  have hready : ∀ o ∈ os, o.Ready (sstsOf rows m) := fun o ho x hx => ((hplan o ho).ready x hx).1
  have hnot : ∀ o ∈ os, (fresh o.bucket).id∉used :=
    fun o ho => hfresh.not_used o.bucket (hplan o ho).bucket_mem
  have hinj : ∀ o ∈ os, ∀ o' ∈ os, (fresh o.bucket).id=(fresh o'.bucket).id → o=o' :=
    fun o ho o' ho' hid => hone.eq ho ho'
      (hfresh.inj _ (hplan o ho).bucket_mem _ (hplan o' ho').bucket_mem hid)
  have hsound : ∀ o ∈ os, ∀ x ∈ o.inputs, x.Sound := fun o ho x hx => h.sound x (hready o ho x hx)
  have hbuild : ∀ o ∈ os, ∀ z, o.output=some z → z.buildId=(fresh o.bucket).id :=
    fun o ho z hz => (hplan o ho).buildId_eq (hsound o ho) hz
  have hknown : ∀ x, Known (sstsOf rows m) (os++pending) x →
      Known (sstsOf rows m) pending x ∨ ∃ o ∈ os, o.output=some x := by
    rintro x (hx | ⟨o,ho,hx⟩)
    · exact .inl (.inl hx)
    · rcases mem_append.mp ho with ho | ho
      · rcases hx with hx | hx
        · exact .inl (.inl (hready o ho x hx))
        · exact .inr ⟨o,ho,hx⟩
      · exact .inl (.inr ⟨o,ho,hx⟩)
  have hnew : ∀ o ∈ os, ∀ z, o.output=some z → ¬Known (sstsOf rows m) pending z := by
    intro o ho z hz hk
    exact hnot o ho (hbuild o ho z hz ▸ (h.used z hk).2)
  have hout := fun o (ho : o∈os) z (hz : o.output=some z) => (hplan o ho).output_id h hz
  -- an old SST shares an identifier with a new one only where that is a migrated node SST
  have hmixed : ∀ x, Known (sstsOf rows m) pending x → ∀ o ∈ os, ∀ z, o.output=some z →
      x.desc.id=z.desc.id → x.desc.bucket=z.desc.bucket ∧ z.desc.kind = .nodes := by
    intro x hx o ho z hz hid
    rcases hout o ho z hz with hz' | ⟨y,hy,hyid,hyb,hk⟩
    · exact absurd (hz' ▸ hid ▸ (h.used x hx).1) (hnot o ho)
    · have hs := h.same_id x y hx (.inl hy) (hid.trans hyid)
      exact ⟨hs.1.trans hyb.symm,hk⟩
  have hkind : ∀ x y : Sst, x.desc.bucket=y.desc.bucket → x.desc.kind=y.desc.kind :=
    fun x y hb => congrArg Bucket.kind hb
  refine
    { nodup := h.nodup, sound := h.sound, leveled := h.leveled, used := ?_, same_id := ?_, ok := ?_,
      safe := ?_, fresh := ?_, fresh_id := ?_, build_inj := ?_ }
  · intro x hx
    rcases hknown x hx with hx | ⟨o,ho,hz⟩
    · exact ⟨hsub (h.used x hx).1,hsub (h.used x hx).2⟩
    · refine ⟨?_,hbuild o ho x hz ▸ hused o ho⟩
      rcases hout o ho x hz with hid | ⟨y,hy,hid,-⟩
      · exact hid ▸ hused o ho
      · exact hid ▸ hsub (h.used y (.inl hy)).1
  · intro x y hx hy hid
    rcases hknown x hx with hx | ⟨o,ho,hz⟩ <;> rcases hknown y hy with hy | ⟨o',ho',hz'⟩
    · exact h.same_id x y hx hy hid
    · obtain ⟨hb,hk⟩ := hmixed x hx o' ho' y hz' hid
      exact ⟨hb,fun hne => absurd ((hkind x y hb).trans hk) hne⟩
    · obtain ⟨hb,hk⟩ := hmixed y hy o ho x hz hid.symm
      exact ⟨hb.symm,fun hne => absurd hk hne⟩
    · -- two outputs: either both are new or both keep the identifier of an old node SST
      rcases hout o ho x hz with hi | ⟨a,ha,hai,hab,hak⟩
      · rcases hout o' ho' y hz' with hi' | ⟨a',ha',hai',-⟩
        · obtain rfl := hinj o ho o' ho' (hi.symm.trans (hid.trans hi'))
          obtain rfl := Option.some.inj (hz.symm.trans hz')
          exact ⟨rfl,fun _ => rfl⟩
        · have hua := (h.used a' (.inl ha')).1
          rw [← hai',← hid,hi] at hua
          exact absurd hua (hnot o ho)
      · obtain ⟨hb,-⟩ := hmixed a (.inl ha) o' ho' y hz' (hai.symm.trans hid)
        exact ⟨hab.trans hb,fun hne => absurd hak hne⟩
  · exact forall_mem_append.mpr ⟨fun o ho => (hplan o ho).ok (hsound o ho),h.ok⟩
  · exact forall_mem_append.mpr ⟨fun o ho t gc hrw _ => (hplan o ho).safe (h.leveled o.bucket) hrw,h.safe⟩
  · refine forall_mem_append.mpr ⟨fun o ho _ z hz => ?_,fun o ho hr z hz => ?_⟩
    · exact ⟨fun hmem => hnew o ho z hz (.inl hmem),forall_mem_append.mpr
        ⟨fun o' ho' hin => hnew o ho z hz (.inl (hready o' ho' z hin)),
          fun o' ho' hin => hnew o ho z hz (.inr ⟨o',ho',.inl hin⟩)⟩⟩
    · obtain ⟨hz1,hz2⟩ := h.fresh o ho hr z hz
      exact ⟨hz1,forall_mem_append.mpr ⟨fun o' ho' hin => hz1 (hready o' ho' z hin),hz2⟩⟩
  · refine forall_mem_append.mpr ⟨fun o ho t gc hrw _ z hz x hx => ?_,h.fresh_id⟩
    rw [((hplan o ho).mergeOutput (hsound o ho) hrw hz).id_eq]
    exact fun hid => hnot o ho (hid ▸ (h.used x (.inl hx)).1)
  · intro o ho o' ho' z z' hz hz' hb
    rcases mem_append.mp ho with ho | ho <;> rcases mem_append.mp ho' with ho' | ho'
    · rw [hinj o ho o' ho' ((hbuild o ho z hz).symm.trans (hb.trans (hbuild o' ho' z' hz')))]
    · have hu := (h.used z' (.inr ⟨o',ho',.inr hz'⟩)).2
      rw [← hb,hbuild o ho z hz] at hu
      exact absurd hu (hnot o ho)
    · have hu := (h.used z (.inr ⟨o,ho,.inr hz⟩)).2
      rw [hb,hbuild o' ho' z' hz'] at hu
      exact absurd hu (hnot o' ho')
    · exact h.build_inj o ho o' ho' z z' hz hz' hb

end
end NamiDB.Storage
