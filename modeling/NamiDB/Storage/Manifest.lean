import Mathlib.Algebra.Order.Ring.Int
import Mathlib.Data.List.Basic

/-! The values a namespace keeps in object storage: the fence of a writer, the manifest with its
SST and WAL descriptors, the pointer that publishes a manifest, and the retention pins. -/
namespace NamiDB.Storage

/-- Identifiers are opaque; only their equality matters. -/
abbrev Uuid := Nat
abbrev Epoch := Nat
abbrev Lsn := Nat
/-- Wall-clock time in nanoseconds. -/
abbrev Time := Int
abbrev Bytes := List UInt8
/-- A 16-byte key read as a big-endian number, so that byte order is numeric order. -/
abbrev Key16 := Nat

/-- A file name: the 32 hex digits of an identifier and the rest, or any other text. -/
inductive FileName where
  | named (id : Uuid) (rest : String)
  | text (name : String)
  deriving DecidableEq

/-- A path relative to the namespace, split as the engine splits it: `sst/level<level>/<file>`,
where `level` is the text of the level, or anything else. -/
inductive RelPath where
  | sst (level : String) (file : FileName)
  | other (text : String)
  deriving DecidableEq

/-- The object keys of a namespace. `object` is every key the engine names by its path relative
to the namespace: SST bodies and their side-cars. -/
inductive Path where
  | currentPointer
  | manifestVersion (version : Nat)
  | pointerVersion (version : Nat)
  | pinObject (id : Uuid)
  | walSegment (seq : Nat)
  | memtableSnapshot
  | object (relative : RelPath)
  deriving DecidableEq

inductive DataType where
  | bool | int32 | int64 | float32 | float64 | utf8 | largeUtf8 | binary | date32
  | timestampMicrosUtc
  | floatVector (dim : Nat)
  | int8Vector (dim : Nat)
  | json
  deriving DecidableEq

structure PropertyDef where
  name : String
  dataType : DataType
  nullable : Bool
  unique : Bool := false
  indexed : Bool := false
  typePending : Bool := false
  deriving DecidableEq

structure LabelDef where
  name : String
  properties : List PropertyDef
  deriving DecidableEq

structure EdgeTypeDef where
  name : String
  srcLabel : String
  dstLabel : String
  properties : List PropertyDef
  deriving DecidableEq

/-- The only constraint kind of the source is uniqueness. -/
structure Constraint where
  name : String
  label : String
  properties : List String
  deriving DecidableEq

structure IndexDef where
  name : String
  label : String
  properties : List String
  deriving DecidableEq

/-- The maps of the source are listed in key order. -/
structure Schema where
  version : Nat := 0
  labels : List LabelDef := []
  edgeTypes : List EdgeTypeDef := []
  constraints : List Constraint := []
  indexes : List IndexDef := []
  deriving DecidableEq

inductive SstKind where
  | nodes | edgesFwd | edgesInv | vectorGraph | textIndex
  deriving DecidableEq

structure SideCar where
  path : RelPath
  sizeBytes : Nat
  deriving DecidableEq

/-- A property index of an SST: the side-car and, when it was built, its paged companion. -/
structure PropertyIndexDescriptor where
  properties : List String
  path : RelPath
  sizeBytes : Nat
  paged : Option SideCar := none
  deriving DecidableEq

structure NodePropertyPagesDescriptor where
  id : Uuid
  parentSstId : Uuid
  path : RelPath
  sizeBytes : Nat
  nodeCount : Nat
  deriving DecidableEq

structure NodeLocatorDescriptor where
  path : RelPath
  sizeBytes : Nat
  propertyPages : Option NodePropertyPagesDescriptor := none
  deriving DecidableEq

structure SstDescriptor where
  id : Uuid
  kind : SstKind
  scope : String
  level : Nat
  path : RelPath
  sizeBytes : Nat
  rowCount : Nat
  minKey : Key16
  maxKey : Key16
  minLsn : Lsn
  maxLsn : Lsn
  bloom : Option SideCar := none
  uniquePropertyIndices : List PropertyIndexDescriptor := []
  equalityPropertyIndices : List PropertyIndexDescriptor := []
  compositeEqualityIndices : List PropertyIndexDescriptor := []
  labelIndex : Option SideCar := none
  nodeLocator : Option NodeLocatorDescriptor := none
  deriving DecidableEq

/-- The property pages belong to this very SST. -/
def NodePropertyPagesDescriptor.isBoundTo (self : NodePropertyPagesDescriptor) (parent : SstDescriptor) : Bool :=
  parent.kind == .nodes&&self.id==parent.id&&self.parentSstId==parent.id &&
    self.nodeCount==parent.rowCount&&decide (272 ≤ self.sizeBytes)

def nodePropertyPagesSidecar (descriptor : SstDescriptor) : Option NodePropertyPagesDescriptor :=
  descriptor.nodeLocator.bind (·.propertyPages)

structure WalSegmentDescriptor where
  seq : Nat
  path : Path
  lastLsn : Lsn
  xxh3 : Option Nat
  deriving DecidableEq

inductive VectorMetric where
  | cosine | dot | euclidean
  deriving DecidableEq

inductive VectorQuantization where
  | none | int8
  deriving DecidableEq

/-- `alpha` is kept as the bits of the float. -/
structure VectorIndexDescriptor where
  name : String
  label : String
  property : String
  dim : Nat
  metric : VectorMetric
  r : Nat
  lBuild : Nat
  alpha : Nat
  quantization : VectorQuantization
  deriving DecidableEq

structure TextIndexDescriptor where
  name : String
  label : String
  properties : List String
  deriving DecidableEq

structure SearchIndexBuildState where
  kind : SstKind
  name : String
  catalogSignature : String
  maxNodeLsn : Lsn
  deriving DecidableEq

inductive SearchLsmKind where
  | vector | text
  deriving DecidableEq

inductive SearchLsmStatus where
  | building | active
  deriving DecidableEq

/-- The part of an incremental search generation that names objects and versions. -/
structure SearchLsmState where
  indexName : String
  kind : SearchLsmKind
  catalogSignature : String
  generationId : Uuid
  status : SearchLsmStatus
  nextEventSeq : Nat
  baseFrontier : Option Nat
  segments : List Uuid
  compatBarrierSstId : Option Uuid
  deriving DecidableEq

structure Manifest where
  version : Nat
  epoch : Epoch
  writerId : Uuid
  createdAt : Time
  schema : Schema := {}
  ssts : List SstDescriptor := []
  walSegments : List WalSegmentDescriptor := []
  labelDict : List String := []
  vectorIndexes : List VectorIndexDescriptor := []
  textIndexes : List TextIndexDescriptor := []
  searchIndexBuilds : List SearchIndexBuildState := []
  searchLsm : List SearchLsmState := []
  deriving DecidableEq

def Manifest.empty (epoch : Epoch) (writerId : Uuid) (now : Time) : Manifest :=
  { version := 0, epoch, writerId, createdAt := now }

def Manifest.nextVersion (self : Manifest) (writerId : Uuid) (now : Time) : Manifest :=
  { self with version := self.version+1, writerId, createdAt := now }

def Manifest.EqUpToTime (a b : Manifest) : Prop :=
  { a with createdAt := b.createdAt }=b

theorem Manifest.EqUpToTime.refl (a : Manifest) : a.EqUpToTime a := rfl

variable {a b : Manifest}

theorem Manifest.EqUpToTime.symm (h : a.EqUpToTime b) : b.EqUpToTime a := by
  unfold EqUpToTime at h ⊢
  rw [← h]

theorem Manifest.EqUpToTime.version_eq (h : a.EqUpToTime b) : a.version=b.version := by
  rw [← h]

theorem Manifest.EqUpToTime.epoch_eq (h : a.EqUpToTime b) : a.epoch=b.epoch := by
  rw [← h]

structure ManifestPointer where
  version : Nat
  epoch : Epoch
  manifestPath : Path
  deriving DecidableEq

/-- A manifest with the pointer that names it. The descriptor index, a search structure computed
from the descriptors, is left to the read path. -/
structure LoadedManifest where
  pointer : ManifestPointer
  manifest : Manifest
  deriving DecidableEq

structure WriterFence where
  epoch : Epoch
  writerId : Uuid
  deriving DecidableEq

inductive PinScope where
  | floor
  | point
  | window (since : Time)
  deriving DecidableEq

structure PinLease where
  version : Nat
  expiresAtUnix : Int
  scope : PinScope
  deriving DecidableEq

end NamiDB.Storage
