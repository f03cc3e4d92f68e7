import NamiDB.Storage.Planned

/-! A manifest, the bodies of its SSTs and the compactions prepared for it. Bodies are immutable and
their names carry the identifier of the SST, so what is written later never changes one. -/
namespace NamiDB.Storage
open Lib List

/-- Every known SST has its body stored, under a name with its own identifier. -/
structure Stored (rows : RelPath → List WalEntry) (x : Sst) : Prop where
  rows_eq : rows x.desc.path=x.rows
  path_eq : ∃ level rest, x.desc.path = .sst level (.named x.desc.id rest)

structure Backed (used : List Uuid) (rows : RelPath → List WalEntry) (m : Manifest)
    (pending : List BucketOutcome) : Prop where
  tree : TreeInv used (sstsOf rows m) pending
  stored : ∀ x, Known (sstsOf rows m) pending x → Stored rows x

theorem sstsOf_congr (h : ∀ d ∈ m.ssts, rows' d.path=rows d.path) : sstsOf rows' m=sstsOf rows m := by
  refine map_congr_left fun d hd => ?_
  rw [sstAt,sstAt,h d hd]

section

variable {used used' : List Uuid} {rows rows' : RelPath → List WalEntry} {m : Manifest}
  {pending : List BucketOutcome}
variable {writerId : Uuid} {now : Time} {base : Manifest} {new : List Sst}

/-- `rows'` has grown over `rows` without touching a known body. -/
def Keeps (rows rows' : RelPath → List WalEntry) (m : Manifest) (pending : List BucketOutcome) : Prop :=
  ∀ x, Known (sstsOf rows m) pending x → rows' x.desc.path=rows x.desc.path

theorem Keeps.sstsOf_eq (h : Keeps rows rows' m pending) : sstsOf rows' m=sstsOf rows m :=
  sstsOf_congr fun d hd => h (sstAt rows d) (.inl (mem_map_of_mem hd))

theorem Backed.keeps (h : Backed used rows m pending) (hk : Keeps rows rows' m pending) :
    Backed used rows' m pending := by
  refine ⟨hk.sstsOf_eq ▸ h.tree,fun x hx => ?_⟩
  rw [hk.sstsOf_eq] at hx
  exact ⟨(hk x hx).trans (h.stored x hx).rows_eq,(h.stored x hx).path_eq⟩

theorem sstsOf_append (hm : m'.ssts=m.ssts++new.map (·.desc))
    (hnew : ∀ x ∈ new, Stored rows x) : sstsOf rows m'=sstsOf rows m++new := by
  have hmap : (new.map (·.desc)).map (sstAt rows)=new := by
    rw [map_map]
    conv_rhs => rw [← map_id new]
    refine map_congr_left fun x hx => ?_
    simp [sstAt,(hnew x hx).rows_eq]
  rw [sstsOf,sstsOf,hm,map_append,hmap]

theorem Backed.flush (h : Backed used rows m pending)
    (hm : m'.ssts=m.ssts++new.map (·.desc)) (hnew : ∀ x ∈ new, Stored rows x)
    (hadds : FlushAdds used used' (sstsOf rows m) new) : Backed used' rows m' pending := by
  have heq := sstsOf_append hm hnew
  refine ⟨heq ▸ h.tree.flush hadds,fun x hx => ?_⟩
  rw [heq] at hx
  rcases hx with hx | hx
  · rcases mem_append.mp hx with hx | hx
    · exact h.stored x (.inl hx)
    · exact hnew x hx
  · exact h.stored x (.inr hx)

theorem Backed.prepare (h : Backed used rows m pending) (hfresh : FreshFor used fresh (m.ssts.map (·.bucket)))
    (hone : OnePerBucket os) (hplan : ∀ o ∈ os, o.Planned rows m (fresh o.bucket)) (hsub : used ⊆ used')
    (hused : ∀ o ∈ os, (fresh o.bucket).id∈used') (hk : Keeps rows rows' m pending)
    (hout : ∀ o ∈ os, ∀ z, o.output=some z → Stored rows' z) : Backed used' rows' m (os++pending) := by
  have htree := h.tree.prepare hfresh hone hplan hsub hused
  have hb := h.keeps hk
  refine ⟨hk.sstsOf_eq ▸ htree,fun x hx => ?_⟩
  rcases hx with hx | ⟨o,ho,hx⟩
  · exact hb.stored x (.inl hx)
  rcases mem_append.mp ho with ho | ho
  · rcases hx with hx | hx
    · have hmem := ((hplan o ho).ready x hx).1
      rw [← hk.sstsOf_eq] at hmem
      exact hb.stored x (.inl hmem)
    · exact hout o ho x hx
  · exact hb.stored x (.inr ⟨o,ho,hx⟩)

theorem verifyNodeRewriteInputs_ok (h : verifyNodeRewriteInputs m rewrites version = .ok ()) :
    ∀ r ∈ rewrites, ∀ d ∈ r.inputs, d∈m.ssts := by
  unfold verifyNodeRewriteInputs at h
  split at h
  · cases h
  split at h
  · cases h
  split at h
  · rename_i hall
    intro r hr d hd
    have hun := all_eq_true.mp (all_eq_true.mp hall r hr) d hd
    have hmem : d∈m.ssts.filter fun e => e.id=d.id := by
      rw [of_decide_eq_true hun]
      exact mem_singleton_self d
    exact mem_of_mem_filter hmem
  · cases h

theorem installedManifest_ok (h : installedManifest m p writerId now = .ok (some m')) :
    (∀ r ∈ p.nodeRewrites, ∀ d ∈ r.inputs, d∈m.ssts) ∧ (∀ id ∈ p.removedIds, ∃ d ∈ m.ssts, d.id=id) ∧
      m'={ m.nextVersion writerId now with
        ssts := m.ssts.filter (fun d => d.id∉p.removedIds)++p.newSsts.map (·.desc)
        searchIndexBuilds := mergeMarkers m.searchIndexBuilds p.searchBuildStates } := by
  unfold installedManifest at h
  split at h
  · cases h
  split at h
  · cases h
  cases hv : verifyNodeRewriteInputs m p.nodeRewrites p.baseVersion with
  | error e => simp [hv,bind,Except.bind] at h
  | ok u =>
    simp only [hv,bind,Except.bind] at h
    split at h
    · rename_i hall
      simp only [pure,Except.pure,Except.ok.injEq,Option.some.injEq] at h
      refine ⟨verifyNodeRewriteInputs_ok hv,fun id hid => ?_,h.symm⟩
      have hany := all_eq_true.mp hall id hid
      obtain ⟨d,hd,hdid⟩ := any_eq_true.mp hany
      exact ⟨d,hd,of_decide_eq_true hdid⟩
    · cases h

section
variable (h : Backed used rows m pending) (hos : os ⊆ pending)
  (hi : installedManifest m (.ofOutcomes base os {}) writerId now = .ok (some m'))
include h hos hi

theorem Backed.ready_of_install : ∀ o ∈ os, o.Ready (sstsOf rows m) := by
  obtain ⟨hnodes,hlive,-⟩ := installedManifest_ok hi
  intro o ho x hx
  have hknown : Known (sstsOf rows m) pending x := .inr ⟨o,hos ho,.inl hx⟩
  have hxb := (h.tree.ok o (hos ho)).inputs_bucket x hx
  by_cases hkind : x.desc.kind = .nodes
  · -- node inputs are compared as a whole
    have hd : x.desc∈m.ssts := by
      refine hnodes ⟨o.inputs.map (·.desc),o.output.map (·.desc)⟩ ?_ _ (mem_map_of_mem hx)
      refine mem_map_of_mem (mem_filter.mpr ⟨ho,?_⟩)
      rw [← hxb]
      exact decide_eq_true hkind
    have hat : sstAt rows x.desc=x := by rw [sstAt,(h.stored x hknown).rows_eq]
    exact hat ▸ mem_map_of_mem hd
  · -- other inputs by identifier, which no other SST has
    have hid : x.desc.id∈(PreparedCompaction.ofOutcomes base os {}).removedIds :=
      mem_append_left _ (mem_flatMap.mpr ⟨o,ho,mem_map_of_mem hx⟩)
    obtain ⟨d,hd,hdid⟩ := hlive _ hid
    have hmem : sstAt rows d∈sstsOf rows m := mem_map_of_mem hd
    have hsame := (h.tree.same_id x (sstAt rows d) hknown (.inl hmem) hdid.symm).2 hkind
    exact hsame ▸ hmem

theorem Backed.installed_ssts : sstsOf rows m'=applyOutcomes (sstsOf rows m) os := by
  obtain ⟨-,-,rfl⟩ := installedManifest_ok hi
  have hkeep : (m.ssts.filter fun d => d.id∉(PreparedCompaction.ofOutcomes base os {}).removedIds).map
      (sstAt rows)=(sstsOf rows m).filter
        fun x => x.desc.id∉os.flatMap fun o => o.inputs.map (·.desc.id) := by
    rw [sstsOf,filter_map]
    refine congrArg _ (filter_congr fun d _ => ?_)
    rw [Function.comp_apply,decide_eq_decide]
    simp [PreparedCompaction.ofOutcomes,sstAt]
  have hout : ((os.filterMap (·.output)).map (·.desc)).map (sstAt rows)=os.filterMap (·.output) := by
    rw [map_map]
    conv_rhs => rw [← map_id (os.filterMap (·.output))]
    refine map_congr_left fun z hz => ?_
    obtain ⟨o,ho,hz⟩ := mem_filterMap.mp hz
    have hs := h.stored z (.inr ⟨o,hos ho,.inr hz⟩)
    simp only [Function.comp_apply,sstAt,hs.rows_eq,id_eq]
  rw [applyOutcomes,← hkeep]
  conv_rhs => rw [← hout]
  simp [sstsOf,PreparedCompaction.ofOutcomes]

theorem Backed.install (hone : OnePerBucket os) : Backed used rows m' pending := by
  have hready := h.ready_of_install hos hi
  have heq := h.installed_ssts hos hi
  refine ⟨heq ▸ h.tree.install hos hready hone,fun x hx => ?_⟩
  rw [heq] at hx
  exact h.stored x (known_apply h.tree hos hready hx)

theorem Backed.visible_install (hone : OnePerBucket os) (b : Bucket) (k : MemKey) :
    visible (sstsOf rows m') b k=visible (sstsOf rows m) b k := by
  rw [h.installed_ssts hos hi]
  exact visible_apply h.tree hos (h.ready_of_install hos hi) hone b k

end

end
end NamiDB.Storage
