import Mathlib.Data.List.Dedup
import Mathlib.Data.Prod.Lex
import NamiDB.Lib.Newest
import NamiDB.Storage.Memtable

/-! Sorted string tables: the rows of a body, the descriptor a manifest keeps of it, and the k-way
merge of several bodies. -/
namespace NamiDB.Storage
open Lib List

/-- SSTs are planned, merged and read per kind and scope. -/
structure Bucket where
  kind : SstKind
  scope : String
  deriving DecidableEq

def SstDescriptor.bucket (self : SstDescriptor) : Bucket := ⟨self.kind,self.scope⟩

/-- The order of the rows of a body: nodes by id, forward edges by source, inverse edges by
destination. -/
def sortKey : SstKind → MemKey → ℕ ×ₗ ℕ
  | _, .node id => toLex (id,0)
  | .edgesInv, .edge _ src dst => toLex (dst,src)
  | _, .edge _ src dst => toLex (src,dst)

/-- Whether a bucket is where rows of this key are written. -/
def Bucket.holds (b : Bucket) : MemKey → Bool
  | .node _ => b.kind == .nodes
  | .edge t _ _ => (b.kind == .edgesFwd||b.kind == .edgesInv)&&b.scope==t

variable {b : Bucket}

theorem Bucket.key_eq_of_sortKey (h : b.holds k) (h' : b.holds k') (hs : sortKey b.kind k=sortKey b.kind k') :
    k=k' := by
  obtain ⟨kind,scope⟩ := b
  cases k <;> cases k' <;> cases kind <;> simp_all [Bucket.holds,sortKey]

def MemOp.isTombstone : MemOp → Bool
  | .upsert _ => false
  | .tombstone => true

def WalEntry.isTombstone (e : WalEntry) : Bool := e.op.isTombstone

/-- What a builder of an SST settles besides the rows: the identifier, the file name after it, the
encoded sizes and the side-cars. -/
structure NewSst where
  id : Uuid
  fileRest : String
  sizeBytes : Nat
  locatorBytes : Nat
  pagesBytes : Nat
  bloom : Option SideCar := none
  uniquePropertyIndices : List PropertyIndexDescriptor := []
  equalityPropertyIndices : List PropertyIndexDescriptor := []
  compositeEqualityIndices : List PropertyIndexDescriptor := []
  labelIndex : Option SideCar := none
  deriving DecidableEq

/-- Identifiers that are new, a different one for each of the buckets. -/
structure FreshFor (used : List Uuid) (fresh : Bucket → NewSst) (bs : List Bucket) : Prop where
  not_used : ∀ b ∈ bs, (fresh b).id∉used
  inj : ∀ b ∈ bs, ∀ b' ∈ bs, (fresh b).id=(fresh b').id → b=b'

def relativeSstPath (level : Nat) (file : FileName) : RelPath := .sst (toString level) file

/-- The access side-cars of a node SST; their names carry the identifier of the build. -/
def nodeAccess (level : Nat) (parent : Uuid) (nodeCount : Nat) (new : NewSst) : NodeLocatorDescriptor where
  path := relativeSstPath level (.named new.id "-nodes.nloc2")
  sizeBytes := new.locatorBytes
  propertyPages := some
    { id := parent
      parentSstId := parent
      path := relativeSstPath level (.named new.id "-nodes.npp")
      sizeBytes := new.pagesBytes
      nodeCount }

/-- The descriptor of a new body: the key range is over the first component of the sort key. -/
def sstDescriptor (b : Bucket) (level : Nat) (new : NewSst) (rows : List WalEntry) : SstDescriptor where
  id := new.id
  kind := b.kind
  scope := b.scope
  level := level
  path := relativeSstPath level (.named new.id new.fileRest)
  sizeBytes := new.sizeBytes
  rowCount := rows.length
  minKey := (rows.map fun r => (ofLex (sortKey b.kind r.key)).1).min?.getD 0
  maxKey := (rows.map fun r => (ofLex (sortKey b.kind r.key)).1).max?.getD 0
  minLsn := (rows.map (·.lsn)).min?.getD 0
  maxLsn := (rows.map (·.lsn)).max?.getD 0
  bloom := new.bloom
  uniquePropertyIndices := new.uniquePropertyIndices
  equalityPropertyIndices := new.equalityPropertyIndices
  compositeEqualityIndices := new.compositeEqualityIndices
  labelIndex := new.labelIndex
  nodeLocator := if b.kind = .nodes then some (nodeAccess level new.id rows.length new) else none

structure Sst where
  desc : SstDescriptor
  rows : List WalEntry
  deriving DecidableEq

/-- The SST a descriptor names, where `rows` decodes the bodies of the namespace. -/
def sstAt (rows : RelPath → List WalEntry) (d : SstDescriptor) : Sst := ⟨d,rows d.path⟩

/-- The rows belong to the bucket, one for each key, and the descriptor's ranges cover them. -/
structure Sst.Sound (x : Sst) : Prop where
  rows_ne : x.rows≠[]
  holds : ∀ r ∈ x.rows, x.desc.bucket.holds r.key
  unique : ∀ r ∈ x.rows, ∀ r' ∈ x.rows, r.key=r'.key → r=r'
  lsn_le : ∀ r ∈ x.rows, r.lsn≤x.desc.maxLsn
  minKey_le : ∀ r ∈ x.rows, x.desc.minKey≤(ofLex (sortKey x.desc.kind r.key)).1
  le_maxKey : ∀ r ∈ x.rows, (ofLex (sortKey x.desc.kind r.key)).1≤x.desc.maxKey

theorem sound_sstDescriptor {rows : List WalEntry} (level : Nat) (new : NewSst)
    (hne : rows≠[]) (hb : ∀ r ∈ rows, b.holds r.key) (hu : ∀ r ∈ rows, ∀ r' ∈ rows, r.key=r'.key → r=r') :
    Sst.Sound ⟨sstDescriptor b level new rows,rows⟩ where
  rows_ne := hne
  holds := hb
  unique := hu
  lsn_le _ hr := le_max?_getD_of_mem (mem_map_of_mem hr)
  minKey_le _ hr := min?_getD_le_of_mem (mem_map_of_mem hr)
  le_maxKey _ hr := le_max?_getD_of_mem (mem_map_of_mem hr)

/-- Every row of `x` was written after every row of `y`. -/
def Sst.Newer (x y : Sst) : Prop :=
  x.rows≠[] ∧ y.rows≠[] ∧ ∀ r ∈ x.rows, ∀ r' ∈ y.rows, r'.lsn<r.lsn

theorem Sst.Newer.asymm (x y : Sst) (h : x.Newer y) : ¬y.Newer x := by
  intro h'
  obtain ⟨r,hr⟩ := exists_mem_of_ne_nil _ h.1
  obtain ⟨r',hr'⟩ := exists_mem_of_ne_nil _ h.2.1
  exact absurd (h.2.2 r hr r' hr') (h'.2.2 r' hr' r hr).asymm

/-- The merge of a bucket: of each key the row with the highest LSN survives; a tombstone that
survives is dropped when the merge may collect garbage. The heap of the source yields rows by key,
highest LSN first. -/
def mergeSources (kind : SstKind) (gc : Bool) (sources : List (List WalEntry)) : List WalEntry :=
  (mergeNewest (fun r : WalEntry => sortKey kind r.key) WalEntry.lsn sources).filter
    fun r => !(gc&&r.isTombstone)

section

variable {b : Bucket} {sources : List (List WalEntry)}

theorem distinct_sortKey (hb : ∀ r ∈ sources.flatten, b.holds r.key)
    (hd : Distinct WalEntry.key WalEntry.lsn sources.flatten) :
    Distinct (fun r : WalEntry => sortKey b.kind r.key) WalEntry.lsn sources.flatten :=
  fun r hr r' hr' hk => hd r hr r' hr' (Bucket.key_eq_of_sortKey (hb r hr) (hb r' hr') hk)

theorem isNewest_sortKey (hb : ∀ r ∈ sources.flatten, b.holds r.key) (r : WalEntry) :
    IsNewest (fun r : WalEntry => sortKey b.kind r.key) WalEntry.lsn sources.flatten (sortKey b.kind r.key) r ↔
      IsNewest WalEntry.key WalEntry.lsn sources.flatten r.key r := by
  refine ⟨fun h => ⟨h.mem,rfl,fun x hx hk => h.stamp_le x hx (by rw [hk])⟩,
    fun h => ⟨h.mem,rfl,fun x hx hk => h.stamp_le x hx ?_⟩⟩
  exact Bucket.key_eq_of_sortKey (hb x hx) (hb r h.mem) hk

theorem compacts_mergeSources (gc : Bool) (hb : ∀ r ∈ sources.flatten, b.holds r.key)
    (hd : Distinct WalEntry.key WalEntry.lsn sources.flatten) :
    Compacts WalEntry.key WalEntry.lsn WalEntry.isTombstone gc sources.flatten (mergeSources b.kind gc sources) := by
  intro r
  rw [mergeSources,compacts_mergeNewest WalEntry.isTombstone gc (distinct_sortKey hb hd) r,
    isNewest_sortKey hb]

variable (kind : SstKind)

theorem mergeSources_subset (gc : Bool) (h : r∈mergeSources kind gc sources) : r∈sources.flatten :=
  (mem_mergeNewest (mem_of_mem_filter h)).mem

theorem mergeSources_unique (gc : Bool) (h : r∈mergeSources kind gc sources) (h' : r'∈mergeSources kind gc sources)
    (hk : r.key=r'.key) : r=r' :=
  mergeNewest_unique (mem_of_mem_filter h) (mem_of_mem_filter h') (by rw [hk])

end
end NamiDB.Storage
