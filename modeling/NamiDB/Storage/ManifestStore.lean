import NamiDB.Storage.ObjectStore

/-! The manifest store: how a manifest version is written, published, loaded, claimed and, when a
writer stopped between its body and its pointer, repaired. -/
namespace NamiDB.Storage
open Lib

/-- The content hash of encoded WAL segments, and the checksum of a memtable snapshot with its binding. -/
class ContentHash where
  xxh3 : List WalRecord → Nat
  snapshotXxh3 : MemtableSnapshotFile → Option (List WalSegmentDescriptor) → Nat

namespace WriterFence

/-- A fence dies when the namespace has reached a higher epoch. -/
def assertAlive (self : WriterFence) (current : Epoch) : StoreM Unit :=
  require (current ≤ self.epoch) (.fenced self.epoch current)

end WriterFence

namespace WalSegment

def encode (self : WalSegment) : Blob := .wal self.records

def decode (seq : Nat) : Blob → Except Error WalSegment
  | .wal records => .ok ⟨seq,records⟩
  | _ => .error (.corrupted (.walSegment seq) "footer magic mismatch")

end WalSegment

namespace ManifestStore

def putCreate (path : Path) (body : Blob) : StoreM Unit := do
  ofStore (← ask (.putCreate path body))

def writeAdvisoryCurrent (pointer : ManifestPointer) : StoreM Unit := do
  ofStore (← ask (.put .currentPointer (.pointer pointer)))

def parseManifest : Blob → StoreM Manifest
  | .manifest m => pure m
  | _ => throw .json

def parsePointer : Blob → StoreM ManifestPointer
  | .pointer p => pure p
  | _ => throw .json

def loadManifestAt (version : Nat) : StoreM Manifest := do
  let body ← ofStore (← ask (.get (.manifestVersion version)))
  parseManifest body

/-- The version in a pointer file name; no other key has one. -/
def parsePointerVersion : Path → Option Nat
  | .pointerVersion n => some n
  | _ => none

def maxListed (metas : List ObjectMeta) : Option Nat :=
  metas.foldl
    (fun max m => match parsePointerVersion m.location with
      | some v => some (match max with | some m => Nat.max m v | none => v)
      | none => max)
    none

def isOk {α : Type} : Except StoreError α → Bool
  | .ok _ => true
  | .error _ => false

/-- The highest pointer of the family, or a lower bound for it when the listing came back empty:
`p0`, or the version that `current.json` names, if that pointer exists. -/
def maxPointerVersion : StoreM (Option Nat) := do
  let metas ← ofStore (← ask (.list .pointers))
  match maxListed metas with
  | some v => return some v
  | none =>
    if isOk (← ask (.head (.pointerVersion 0))) then
      return some 0
    else
      match ← ask (.get .currentPointer) with
      | .ok (.pointer p) =>
        if isOk (← ask (.head (.pointerVersion p.version))) then return some p.version
        else return none
      | _ => return none

def maxProbe : Nat := 8192

/-- `fuel` is what is left of the probe window. A version is a number of any size; the source adds one with
saturation, so that it would probe version 2^64-1 as its own successor. -/
def probeLoop (n : Nat) : (fuel : Nat) → StoreM Nat
  | 0 => throw .pointerResolveStale
  | fuel+1 => do
    match ← ask (.head (.pointerVersion (n+1))) with
    | .ok _ => probeLoop (n+1) fuel
    | .error .notFound => return n
    | .error e => throw (.objectStore e)

/-- Gallops forward from a lower bound to the first missing pointer. -/
def probePointerForward (n : Nat) : StoreM Nat := probeLoop n maxProbe

def loadPointer : StoreM ManifestPointer := do
  let path ← match ← maxPointerVersion with
    | some maxN => do
      let n ← probePointerForward maxN
      pure (.pointerVersion n)
    | none => pure .currentPointer
  let body ← ofStore (← ask (.get path))
  parsePointer body

def loadCurrent : StoreM LoadedManifest := do
  let pointer ← loadPointer
  let body ← ofStore (← ask (.get pointer.manifestPath))
  let manifest ← parseManifest body
  let (found,expected) := (manifest.version,pointer.version)
  require (found=expected) (.corrupted pointer.manifestPath
    s!"manifest version {found} does not match pointer version {expected}")
  return ⟨pointer,manifest⟩

def pointerOf (m : Manifest) : ManifestPointer :=
  ⟨m.version,m.epoch,.manifestVersion m.version⟩

/-- The `v0` body a bootstrap goes on with: its own, or one that is already there, which is adopted
and never assumed empty. -/
def bootstrapBody (empty : Manifest) : StoreM Manifest := do
  match ← attempt (putCreate (.manifestVersion 0) (.manifest empty)) with
  | .ok () => return empty
  | .error e =>
    if e = .objectStore .alreadyExists then
      let existing ← loadManifestAt 0
      let found := existing.version
      require (found=0) (.corrupted (.manifestVersion 0) s!"manifest body holds version {found}, expected 0")
      return existing
    else throw e

def bootstrap (writerId : Uuid) : StoreM LoadedManifest := do
  let empty := Manifest.empty 0 writerId (← ask .now)
  let manifest ← bootstrapBody empty
  let pointer := pointerOf manifest
  match ← attempt (putCreate (.pointerVersion manifest.version) (.pointer pointer)) with
  | .ok () =>
    writeAdvisoryCurrent pointer
    return ⟨pointer,manifest⟩
  | .error e =>
    if e = .objectStore .alreadyExists then
      throw (.precondition "namespace already bootstrapped: pointer exists")
    else throw e

/-- The durable body at `path` is the one this writer attempted to write: the same bytes, or a
manifest that differs in its creation time only. -/
def existingBodyIsOurs (path : Path) (newManifest : Manifest) : StoreM Bool := do
  match ← ask (.get path) with
  | .ok existing =>
    if existing = .manifest newManifest then return true
    else match existing with
      | .manifest parsed => return { parsed with createdAt := newManifest.createdAt }==newManifest
      | _ => return false
  | .error .notFound => return false
  | .error e => throw (.objectStore e)

/-- The error of a writer that lost a version to somebody else: it is fenced if the epoch has moved
past its own, and otherwise has lost the race it reports. -/
def lostTo (fence : WriterFence) (expected : Nat) (found : LoadedManifest → Nat) : StoreM Unit := do
  let reloaded ← loadCurrent
  if reloaded.manifest.epoch>fence.epoch then
    throw (.fenced fence.epoch reloaded.manifest.epoch)
  else throw (.manifestCommitCas expected (found reloaded))

/-- What the create of a body came to: done, already done by this writer, or lost. -/
def settleBody (fence : WriterFence) (base : LoadedManifest) (newManifest : Manifest) :
    Except Error Unit → StoreM Unit
  | .ok () => pure ()
  | .error e =>
    if e = .objectStore .alreadyExists then do
      let ours ← existingBodyIsOurs (.manifestVersion newManifest.version) newManifest
      if ours then pure ()
      else lostTo fence base.pointer.version fun _ => newManifest.version
    else throw e

/-- Phase 1 of a commit: the immutable body. -/
def putBody (fence : WriterFence) (base : LoadedManifest) (newManifest : Manifest) :
    StoreM ManifestPointer := do
  enter (.putBody fence base newManifest)
  fence.assertAlive base.manifest.epoch
  let (found,expected) := (newManifest.version,base.manifest.version+1)
  require (found=expected)
    (.invariant s!"new manifest version {found} must be {expected} (base + 1)")
  let (epoch,floor) := (newManifest.epoch,base.manifest.epoch)
  require (floor≤epoch)
    (.invariant s!"new epoch {epoch} cannot regress below base epoch {floor}")
  let r ← attempt (putCreate (.manifestVersion newManifest.version) (.manifest newManifest))
  settleBody fence base newManifest r
  return pointerOf newManifest

def settlePointer (fence : WriterFence) (base : LoadedManifest) : Except Error Unit → StoreM Unit
  | .ok () => pure ()
  | .error e =>
    if e = .objectStore .alreadyExists then
      lostTo fence base.pointer.version fun reloaded => reloaded.pointer.version
    else throw e

/-- Phase 2 of a commit: the pointer, which is the linearization point. -/
def casPointer (fence : WriterFence) (base : LoadedManifest) (newManifest : Manifest)
    (pointer : ManifestPointer) : StoreM LoadedManifest := do
  enter (.casPointer fence base newManifest)
  let r ← attempt (putCreate (.pointerVersion pointer.version) (.pointer pointer))
  settlePointer fence base r
  writeAdvisoryCurrent pointer
  return ⟨pointer,newManifest⟩

def commit (fence : WriterFence) (base : LoadedManifest) (newManifest : Manifest) :
    StoreM LoadedManifest := do
  let pointer ← putBody fence base newManifest
  casPointer fence base newManifest pointer

section
variable [ContentHash]

/-- The WAL object at the slot holds exactly the records the descriptor declares. An empty slot is first fenced with
an empty segment, against the interrupted commit's own WAL PUT; a create that loses means the segment has just
landed, and it is read again. -/
def walSlotMatches (seq : Nat) (declaredLastLsn : Lsn) (declaredXxh3 : Option Nat) : (fuel : Nat) → StoreM Bool
  | 0 => outOfRounds
  | fuel+1 => do
    match ← ask (.get (.walSegment seq)) with
    | .error .notFound =>
      match ← ask (.putCreate (.walSegment seq) (WalSegment.new seq).encode) with
      | .ok () => return false
      | .error .alreadyExists => walSlotMatches seq declaredLastLsn declaredXxh3 fuel
      | .error e => throw (.objectStore e)
    | .error e => throw (.objectStore e)
    | .ok bytes =>
      match WalSegment.decode seq bytes with
      | .ok segment =>
        return !segment.records.isEmpty&&segment.lastLsn==declaredLastLsn &&
          declaredXxh3==some (ContentHash.xxh3 segment.records)
      | .error _ => return false

def sstsDurable : List SstDescriptor → StoreM Bool
  | [] => return true
  | sst::rest => do
    match ← ask (.head (.object sst.path)) with
    | .error .notFound => return false
    | .error e => throw (.objectStore e)
    | .ok _ =>
      match nodePropertyPagesSidecar sst with
      | none => sstsDurable rest
      | some properties =>
        if properties.isBoundTo sst then
          match ← ask (.head (.object properties.path)) with
          | .error .notFound => return false
          | .error e => throw (.objectStore e)
          | .ok info => if info.size=properties.sizeBytes then sstsDurable rest else return false
        else return false

def walSegmentsDurable (fuel : Nat) : List WalSegmentDescriptor → StoreM Bool
  | [] => return true
  | seg::rest => do
    if seg.path = .walSegment seg.seq then
      let durable ← walSlotMatches seg.seq seg.lastLsn seg.xxh3 fuel
      if durable then walSegmentsDurable fuel rest else return false
    else return false

def addedSsts (base orphan : Manifest) : List SstDescriptor :=
  orphan.ssts.filter fun s => !(base.ssts.map (·.path)).contains s.path

def addedWalSegments (base orphan : Manifest) : List WalSegmentDescriptor :=
  orphan.walSegments.filter fun s => !(base.walSegments.map (·.seq)).contains s.seq

/-- The orphan body at `version` when it is a complete commit that may be published. -/
def orphanReadyToPublish (base : LoadedManifest) (version : Nat) (body : Blob) (fuel : Nat) :
    StoreM (Option Manifest) := do
  match body with
  | .manifest orphan =>
    if orphan.version=version ∧ base.manifest.epoch≤orphan.epoch then
      let ssts ← sstsDurable (addedSsts base.manifest orphan)
      if ssts then
        let wal ← walSegmentsDurable fuel (addedWalSegments base.manifest orphan)
        return if wal then some orphan else none
      else return none
    else return none
  | _ => return none

/-- Publishes the pointer of a complete orphan; the interrupted writer itself may have been faster. -/
def publishOrphan (version : Nat) (orphan : Manifest) : StoreM Unit := do
  let pointer : ManifestPointer := ⟨version,orphan.epoch,.manifestVersion version⟩
  match ← attempt (putCreate (.pointerVersion version) (.pointer pointer)) with
  | .ok () => writeAdvisoryCurrent pointer
  | .error e => if e = .objectStore .alreadyExists then return () else throw e

def deleteIfPresent (path : Path) : StoreM Unit := do
  match ← ask (.delete path) with
  | .ok () => return ()
  | .error .notFound => return ()
  | .error e => throw (.objectStore e)

/-- Publishes the body at `version` if it is complete, deletes it otherwise. -/
def repairVersion (base : LoadedManifest) (version : Nat) (fuel : Nat) : StoreM Unit := do
  match ← ask (.head (.pointerVersion version)) with
  | .ok _ => return ()
  | .error .notFound =>
    match ← ask (.get (.manifestVersion version)) with
    | .error .notFound => return ()
    | .error e => throw (.objectStore e)
    | .ok body =>
      match ← orphanReadyToPublish base version body fuel with
      | some orphan => publishOrphan version orphan
      | none => deleteIfPresent (.manifestVersion version)
  | .error e => throw (.objectStore e)

def repairStalledCommit (base : LoadedManifest) (fuel : Nat) : StoreM Unit :=
  let version := base.pointer.version+1
  spanned (.repairStalledCommit version) (repairVersion base version fuel)

def maxStalledRounds : Nat := 8
def maxRepairPasses : Nat := 4

structure Stall where
  stalledRounds : Nat := 0
  repairPasses : Nat := 0
  lastVersion : Option Nat := none
  deriving DecidableEq

/-- Steps aside for a peer whose epoch is above `mine`. -/
def yieldTo (mine : Option Epoch) (current : Epoch) : StoreM Unit :=
  match mine with
  | some m => require (current ≤ m) (.fenced m current)
  | none => pure ()

/-- Bumps the epoch under CAS, fencing whoever was there before. A CAS loss is retried; when the
pointer stays where it is for too long, the body that blocks it is repaired. -/
def claimLoop (mine : Option Epoch) (stall : Stall) : (fuel : Nat) → StoreM (LoadedManifest × WriterFence)
  | 0 => outOfRounds
  | fuel+1 => do
    let base ← loadCurrent
    yieldTo mine base.manifest.epoch
    let next := base.manifest.nextVersion (← ask .uuid) (← ask .now)
    let newManifest := { next with epoch := base.manifest.epoch+1 }
    let fence : WriterFence := ⟨newManifest.epoch,← ask .uuid⟩
    let pretend : WriterFence := ⟨base.manifest.epoch,fence.writerId⟩
    match ← attempt (commit pretend base newManifest) with
    | .ok loaded => return (loaded,fence)
    | .error e =>
      if e.isManifestCommitCas then
        if stall.lastVersion=some base.pointer.version then
          if stall.stalledRounds+1≥maxStalledRounds then
            if stall.repairPasses≥maxRepairPasses then
              throw (.orphanManifestBody (base.pointer.version+1))
            else
              repairStalledCommit base fuel
              claimLoop mine ⟨0,stall.repairPasses+1,stall.lastVersion⟩ fuel
          else
            claimLoop mine { stall with stalledRounds := stall.stalledRounds+1 } fuel
        else
          claimLoop mine ⟨0,stall.repairPasses,some base.pointer.version⟩ fuel
      else throw e

def claimWriterUnlessNewer (mine : Option Epoch) (fuel : Nat) : StoreM (LoadedManifest × WriterFence) :=
  claimLoop mine {} fuel

def claimWriter (fuel : Nat) : StoreM (LoadedManifest × WriterFence) :=
  claimWriterUnlessNewer none fuel

/-- How a writer session gets its manifest and its fence: it claims a namespace that exists and
bootstraps one that does not. -/
def claimOrBootstrap (yieldAbove : Option Epoch) (fuel : Nat) :
    StoreM (LoadedManifest × WriterFence) := do
  match ← attempt loadCurrent with
  | .ok _ => claimWriterUnlessNewer yieldAbove fuel
  | .error e =>
    if e = .objectStore .notFound then
      let loaded ← bootstrap (← ask .uuid)
      return (loaded,⟨loaded.manifest.epoch,← ask .uuid⟩)
    else throw e

end
end ManifestStore
end NamiDB.Storage
