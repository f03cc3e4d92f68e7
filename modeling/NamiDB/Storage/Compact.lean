import NamiDB.Storage.Sst
import NamiDB.Storage.ObjectStore

/-! Leveled compaction: which SSTs of a bucket are merged and into which level, the merge itself, and
how a prepared merge is folded into the manifest of a later moment. -/
namespace NamiDB.Storage
open Lib List

def u64Max : Nat := 2^64-1

def levelBudgetBytes (level base ratio : Nat) : Nat :=
  (fun budget => min (budget*ratio) u64Max)^[level-1] base

structure BucketPlan where
  inputs : List SstDescriptor
  targetLevel : Nat
  isDeepest : Bool
  deriving DecidableEq

/-- The loop of `planBucketMerge`. `room` is the number of levels between the target and the deepest
occupied one, so it is positive exactly when the merge may cascade further. -/
def cascade (leveled : List SstDescriptor) (base ratio deepestPresent : Nat) :
    (room target : Nat) → (inputs : List SstDescriptor) → (cum : Nat) → List SstDescriptor × Nat
  | room, target, inputs, cum =>
    let here := leveled.filter fun d => d.level=target
    let inputs := inputs++here
    let cum := cum+(here.map (·.sizeBytes)).sum
    if cum≤levelBudgetBytes target base ratio then (inputs,target)
    else match room with
      | room+1 => cascade leveled base ratio deepestPresent room (target+1) inputs cum
      -- spill one level past the deepest, but only past data that is leveled already
      | 0 => (inputs,if 1≤deepestPresent then target+1 else target)

def deepestPresent (sources : List SstDescriptor) : Nat :=
  ((sources.filter fun d => d.level≠0).map (·.level)).max?.getD 0

def planBucketMerge (sources : List SstDescriptor) (base ratio : Nat) : Option BucketPlan :=
  let l0 := sources.filter fun d => d.level=0
  let deepest := deepestPresent sources
  let r := cascade (sources.filter fun d => d.level≠0) base ratio deepest (deepest-1) 1 l0
    (l0.map (·.sizeBytes)).sum
  if r.1.length<2 then none
  else some ⟨r.1,r.2,decide (deepest≤r.2)⟩

/-- What the planner reads besides the descriptors: the budgets, the tests of the side-car formats of
a node descriptor against the schema, and whether a registered search index is out of date. -/
structure CompactionPolicy where
  baseBytes : Nat
  levelRatio : Nat
  nodeLocatorHasExactRecords : SstDescriptor → Bool
  nodeDescriptorHasPropertyPages : SstDescriptor → Bool
  nodeDescriptorNeedsNonRecordMigration : SstDescriptor → Bool
  searchIndexesNeedRebuild : Manifest → Bool

namespace CompactionPolicy

def nodeDescriptorNeedsMigration (self : CompactionPolicy) (desc : SstDescriptor) : Bool :=
  !self.nodeLocatorHasExactRecords desc || !self.nodeDescriptorHasPropertyPages desc ||
    self.nodeDescriptorNeedsNonRecordMigration desc

def needsAccessBundleOnly (self : CompactionPolicy) (desc : SstDescriptor) : Bool :=
  (!self.nodeLocatorHasExactRecords desc || !self.nodeDescriptorHasPropertyPages desc) &&
    !self.nodeDescriptorNeedsNonRecordMigration desc

end CompactionPolicy

/-- The whole bucket is rewritten at its deepest level when a format is out of date. -/
def planNodeBucket (policy : CompactionPolicy) (sources : List SstDescriptor)
    (forceSearchRebuild : Bool) : Option BucketPlan :=
  match planBucketMerge sources policy.baseBytes policy.levelRatio with
  | some plan => some plan
  | none =>
    if (forceSearchRebuild||sources.any policy.nodeDescriptorNeedsMigration) && !sources.isEmpty then
      some ⟨sources,max ((sources.map (·.level)).max?.getD 1) 1,true⟩
    else none

structure PreparedNodeRewrite where
  inputs : List SstDescriptor
  output : Option SstDescriptor
  deriving DecidableEq

/-- A merge into a level, or new side-cars for a body that stays. -/
inductive Rewrite where
  | merge (target : Nat) (gc : Bool)
  | inPlace
  deriving DecidableEq

/-- What becomes of one bucket: its inputs are replaced by the output, if there is one. -/
structure BucketOutcome where
  bucket : Bucket
  inputs : List Sst
  rewrite : Rewrite
  output : Option Sst
  deriving DecidableEq

/-- The part of a compaction that rebuilds search indexes: their new and retired bodies and the
markers that say up to which LSN of the nodes an index was built. -/
structure SearchBuild where
  newDescs : List SstDescriptor := []
  removedIds : List Uuid := []
  buildStates : List SearchIndexBuildState := []
  deriving DecidableEq

structure PreparedCompaction where
  newSsts : List Sst
  removedIds : List Uuid
  baseVersion : Nat
  baseSchema : Schema
  baseVectorIndexes : List VectorIndexDescriptor
  baseTextIndexes : List TextIndexDescriptor
  nodeRewrites : List PreparedNodeRewrite
  searchBuildStates : List SearchIndexBuildState
  deriving DecidableEq

def PreparedCompaction.ofOutcomes (base : Manifest) (outcomes : List BucketOutcome)
    (search : SearchBuild) : PreparedCompaction where
  newSsts := outcomes.filterMap (·.output)++search.newDescs.map fun d => ⟨d,[]⟩
  removedIds := outcomes.flatMap (fun o => o.inputs.map (·.desc.id))++search.removedIds
  baseVersion := base.version
  baseSchema := base.schema
  baseVectorIndexes := base.vectorIndexes
  baseTextIndexes := base.textIndexes
  nodeRewrites := (outcomes.filter fun o => o.bucket.kind = .nodes).map
    fun o => ⟨o.inputs.map (·.desc),o.output.map (·.desc)⟩
  searchBuildStates := search.buildStates

section

variable (policy : CompactionPolicy) (rows : RelPath → List WalEntry) (base : Manifest)

def sourcesOf (b : Bucket) : List SstDescriptor := base.ssts.filter fun d => d.bucket=b

def scopesOf (kind : SstKind) : List String :=
  (((base.ssts.filter fun d => d.kind=kind).map (·.scope)).dedup).insertionSort (·≤·)

def nodeGcSafe : Bool := decide ((scopesOf base .nodes).length≤1)

def rebuildSearch : Bool := nodeGcSafe base&&policy.searchIndexesNeedRebuild base

/-- The output of a node merge keeps the highest LSN of its inputs, also where the row that carried
it was collected. -/
def mergeNodes (scope : String) (plan : BucketPlan) (gc : Bool) (new : NewSst) : BucketOutcome :=
  let out := mergeSources .nodes gc (plan.inputs.map fun d => rows d.path)
  let finishMaxLsn := (plan.inputs.map (·.maxLsn)).max?.getD 0
  { bucket := ⟨.nodes,scope⟩
    inputs := plan.inputs.map (sstAt rows)
    rewrite := .merge plan.targetLevel gc
    output := if out=[] then none else
      some ⟨{ sstDescriptor ⟨.nodes,scope⟩ plan.targetLevel new out with maxLsn := finishMaxLsn },
        out⟩ }

/-- The lone input keeps its body and gets new access side-cars. -/
def migrateLocator (scope : String) (source : SstDescriptor) (new : NewSst) : BucketOutcome where
  bucket := ⟨.nodes,scope⟩
  inputs := [sstAt rows source]
  rewrite := .inPlace
  output := some
    ⟨{ source with nodeLocator := some (nodeAccess source.level source.id source.rowCount new) },
      rows source.path⟩

def compactNodes (scope : String) (new : NewSst) : Except Error (Option BucketOutcome) :=
  match planNodeBucket policy (sourcesOf base ⟨.nodes,scope⟩) (rebuildSearch policy base) with
  | none => .ok none
  | some plan =>
    match plan.inputs with
    | [source] =>
      if policy.needsAccessBundleOnly source && !rebuildSearch policy base then
        .ok (some (migrateLocator rows scope source new))
      else finish plan
    | _ => finish plan
where
  finish (plan : BucketPlan) : Except Error (Option BucketOutcome) :=
    let gc := nodeGcSafe base&&plan.isDeepest
    let outcome := mergeNodes rows scope plan gc new
    if outcome.output=none ∧ gc=false then
      .error (.invariant "non-authoritative node compaction produced an empty output")
    else .ok (some outcome)

/-- The output of an edge merge is described by the rows that survive. -/
def compactEdges (kind : SstKind) (edgeType : String) (new : NewSst) : Option BucketOutcome :=
  (planBucketMerge (sourcesOf base ⟨kind,edgeType⟩) policy.baseBytes policy.levelRatio).map
    fun plan =>
      let out := mergeSources kind plan.isDeepest (plan.inputs.map fun d => rows d.path)
      { bucket := ⟨kind,edgeType⟩
        inputs := plan.inputs.map (sstAt rows)
        rewrite := .merge plan.targetLevel plan.isDeepest
        output := if out=[] then none else
          some ⟨sstDescriptor ⟨kind,edgeType⟩ plan.targetLevel new out,out⟩ }

def nodeOutcomes (fresh : Bucket → NewSst) : List String → Except Error (List BucketOutcome)
  | [] => .ok []
  | scope::scopes => do
    let first ← compactNodes policy rows base scope (fresh ⟨.nodes,scope⟩)
    let rest ← nodeOutcomes fresh scopes
    return first.toList++rest

def edgeOutcomes (fresh : Bucket → NewSst) (kind : SstKind) : List BucketOutcome :=
  (scopesOf base kind).filterMap fun edgeType =>
    compactEdges policy rows base kind edgeType (fresh ⟨kind,edgeType⟩)

/-- The buckets one pass rewrites: nodes, then edges in both directions. `fresh` gives what the
builder of each output settles. -/
def bucketOutcomes (fresh : Bucket → NewSst) : Except Error (List BucketOutcome) := do
  let nodes ← nodeOutcomes policy rows base fresh (scopesOf base .nodes)
  return nodes++edgeOutcomes policy rows base fresh .edgesFwd ++
    edgeOutcomes policy rows base fresh .edgesInv

def prepareLeveled (fresh : Bucket → NewSst) (search : SearchBuild) : Except Error PreparedCompaction :=
  (bucketOutcomes policy rows base fresh).map
    fun outcomes => PreparedCompaction.ofOutcomes base outcomes search

end

/-- The captured descriptor is still the only one of its identifier. -/
def inputUnchanged (manifest : Manifest) (input : SstDescriptor) : Bool :=
  manifest.ssts.filter (fun d => d.id=input.id)=[input]

/-- Every input of a node rewrite is a node SST, is claimed once and is still what it was. -/
def verifyNodeRewriteInputs (manifest : Manifest) (rewrites : List PreparedNodeRewrite)
    (baseVersion : Nat) : Except Error Unit :=
  if rewrites.any fun r => r.inputs.isEmpty then
    .error (.invariant "prepared Nodes rewrite has no input descriptors")
  else if ¬(rewrites.flatMap fun r => r.inputs.map (·.id)).Nodup ∨
      rewrites.any (fun r => r.inputs.any fun d => d.kind ≠ .nodes) then
    .error (.invariant "prepared Nodes rewrite inputs are not unique Nodes descriptors")
  else if rewrites.all fun r => r.inputs.all (inputUnchanged manifest) then .ok ()
  else .error (.precondition (s!"abandoning prepared compaction (basis v{baseVersion}): "++
    "a Nodes input changed between prepare and install"))

def mergeMarkers (existing new : List SearchIndexBuildState) : List SearchIndexBuildState :=
  new.foldl (fun l s => l.filter (fun e => e.kind≠s.kind||e.name≠s.name)++[s]) existing

/-- The manifest an install commits; `none` when there is nothing to install. -/
def installedManifest (current : Manifest) (prepared : PreparedCompaction) (writerId : Uuid)
    (now : Time) : Except Error (Option Manifest) :=
  let base := prepared.baseVersion
  if prepared.removedIds=[] then .ok none
  else if current.schema≠prepared.baseSchema ∨ current.vectorIndexes≠prepared.baseVectorIndexes ∨
      current.textIndexes≠prepared.baseTextIndexes then
    .error (.precondition s!"abandoning prepared compaction (basis v{base}): catalog changed")
  else do
    verifyNodeRewriteInputs current prepared.nodeRewrites base
    if prepared.removedIds.all fun id => current.ssts.any fun d => d.id=id then
      let next := current.nextVersion writerId now
      return some { next with
        ssts := next.ssts.filter (fun d => d.id∉prepared.removedIds) ++ prepared.newSsts.map (·.desc)
        searchIndexBuilds := mergeMarkers next.searchIndexBuilds prepared.searchBuildStates }
    else
      throw (.precondition s!"abandoning prepared compaction (basis v{base}): an input SST is no longer referenced")

section

variable {sources : List SstDescriptor} {plan : BucketPlan}

structure BucketPlan.Covers (plan : BucketPlan) (sources : List SstDescriptor) : Prop where
  inputs_ne : plan.inputs≠[]
  target_pos : 1≤plan.targetLevel
  mem_iff : ∀ d, d∈plan.inputs ↔ d∈sources ∧ d.level≤plan.targetLevel
  deepest : plan.isDeepest=true → ∀ d ∈ sources, d.level≤plan.targetLevel

theorem cascade_spec (leveled : List SstDescriptor) (base ratio deepest : Nat)
    (room target : Nat) (inputs : List SstDescriptor) (cum : Nat)
    (hroom : target+room=max deepest target) (hdeep : ∀ d ∈ leveled, d.level≤deepest) :
    let r := cascade leveled base ratio deepest room target inputs cum
    target≤r.2 ∧ ∀ d, d∈r.1 ↔ d∈inputs ∨ d∈leveled ∧ target≤d.level ∧ d.level≤r.2 := by
  induction room generalizing target inputs cum with
  | zero =>
    unfold cascade
    dsimp only
    split
    · simp only [le_refl,true_and,mem_append,mem_filter,decide_eq_true_eq]
      intro d
      rw [eq_comm,le_antisymm_iff]
    · have hle : deepest≤target := by omega
      simp only [mem_append,mem_filter,decide_eq_true_eq]
      refine ⟨by split <;> omega,fun d => ?_⟩
      have hd := hdeep d
      constructor
      · rintro (h | ⟨h,he⟩)
        · exact .inl h
        · exact .inr ⟨h,by omega,by split <;> omega⟩
      · rintro (h | ⟨h,he,-⟩)
        · exact .inl h
        · have := hd h
          exact .inr ⟨h,by omega⟩
  | succ room ih =>
    unfold cascade
    dsimp only
    split
    · simp only [le_refl,true_and,mem_append,mem_filter,decide_eq_true_eq]
      intro d
      rw [eq_comm,le_antisymm_iff]
    · have ih := ih (target+1) (inputs++leveled.filter fun d => d.level=target)
        (cum+((leveled.filter fun d => d.level=target).map (·.sizeBytes)).sum) (by omega)
      obtain ⟨hle,hmem⟩ := ih
      refine ⟨by omega,fun d => ?_⟩
      rw [hmem d]
      simp only [mem_append,mem_filter,decide_eq_true_eq]
      constructor
      · rintro ((h | ⟨h,he⟩) | ⟨h,he,hr⟩)
        · exact .inl h
        · exact .inr ⟨h,by omega,by omega⟩
        · exact .inr ⟨h,by omega,hr⟩
      · rintro (h | ⟨h,he,hr⟩)
        · exact .inl (.inl h)
        · by_cases ht : d.level=target
          · exact .inl (.inr ⟨h,ht⟩)
          · exact .inr ⟨h,by omega,hr⟩

theorem level_le_deepestPresent (h : d∈sources) : d.level≤deepestPresent sources := by
  by_cases h0 : d.level=0
  · omega
  · exact le_max?_getD_of_mem
      (mem_map_of_mem (mem_filter.mpr ⟨h,by simpa using h0⟩))

theorem planBucketMerge_covers (h : planBucketMerge sources base ratio=some plan) : plan.Covers sources := by
  unfold planBucketMerge at h
  dsimp only at h
  split at h
  · cases h
  rename_i hlen
  cases h
  obtain ⟨hpos,hmem⟩ := cascade_spec (sources.filter fun d => d.level≠0) base ratio
    (deepestPresent sources) (deepestPresent sources-1) 1 (sources.filter fun d => d.level=0)
    ((sources.filter fun d => d.level=0).map (·.sizeBytes)).sum (by omega)
    fun d hd => level_le_deepestPresent (mem_of_mem_filter hd)
  refine ⟨?_,hpos,fun d => ?_,fun hdeep d hd => ?_⟩
  · intro hnil
    dsimp only at hnil
    rw [hnil] at hlen
    simp at hlen
  · rw [hmem d]
    simp only [mem_filter,decide_eq_true_eq]
    constructor
    · rintro (⟨hd,h0⟩ | ⟨⟨hd,-⟩,-,hle⟩)
      · exact ⟨hd,by omega⟩
      · exact ⟨hd,hle⟩
    · rintro ⟨hd,hle⟩
      by_cases h0 : d.level=0
      · exact .inl ⟨hd,h0⟩
      · exact .inr ⟨⟨hd,h0⟩,by omega,hle⟩
  · exact (level_le_deepestPresent hd).trans (of_decide_eq_true hdeep)

theorem planNodeBucket_covers (h : planNodeBucket policy sources force=some plan) : plan.Covers sources := by
  unfold planNodeBucket at h
  split at h
  · rename_i hp
    cases h
    exact planBucketMerge_covers hp
  · split at h
    · rename_i hcond
      cases h
      have hne : sources≠[] := by
        rintro rfl
        simp at hcond
      have hle : ∀ d ∈ sources, d.level ≤ max ((sources.map (·.level)).max?.getD 1) 1 :=
        fun d hd => (le_max?_getD_of_mem (mem_map_of_mem hd)).trans (le_max_left _ _)
      exact ⟨hne,le_max_right _ _,fun d => ⟨fun hd => ⟨hd,hle d hd⟩,fun hd => hd.1⟩,
        fun _ => hle⟩
    · cases h

end
end NamiDB.Storage
