import NamiDB.Storage.ManifestStore

/-! The orphan sweep: which objects of a namespace it takes for dead, and the order in which it looks, re-checks
and deletes. -/
namespace NamiDB.Storage
open Lib ManifestStore

namespace WalStore

def parseSeq : Path → Option Nat
  | .walSegment seq => some seq
  | _ => none

end WalStore

namespace Recovery

def memtableSnapshotVersion : Nat := 3

structure DecodedMemtableSnapshot where
  snapshot : MemtableSnapshotFile
  walSegments : Option (List WalSegmentDescriptor)

def declaredLastLsn (segments : List WalSegmentDescriptor) : Lsn :=
  (segments.map (·.lastLsn)).foldl max 0

/-- The snapshot materialises exactly the WAL of this manifest. -/
def DecodedMemtableSnapshot.coversManifest (self : DecodedMemtableSnapshot) (manifest : Manifest) : Bool :=
  decide (self.snapshot.version=memtableSnapshotVersion) &&
    decide (self.walSegments=some manifest.walSegments) &&
    decide (self.snapshot.lastLsn=declaredLastLsn manifest.walSegments) &&
    self.snapshot.entries.all (fun e => decide (e.lsn ≤ self.snapshot.lastLsn)) &&
    (!manifest.walSegments.isEmpty||self.snapshot.entries.isEmpty)

section
variable [ContentHash]

/-- Anything but an intact snapshot of the supported version is a miss. -/
def decodeMemtableSnapshot : Blob → Option DecodedMemtableSnapshot
  | .snapshot file walSegments checksum =>
    if file.version=memtableSnapshotVersion ∧ checksum=ContentHash.snapshotXxh3 file walSegments then
      some ⟨file,walSegments⟩
    else none
  | _ => none

end
end Recovery

namespace Janitor

def u64Max : Nat := 2^64-1

def saturatingAdd (a b : Nat) : Nat := min (a+b) u64Max

def nanosPerSec : Nat := 10^9

def asI64 (n : Nat) : Int :=
  if n%2^64<2^63 then (n%2^64 : Nat) else (n%2^64 : Nat)-(2^64 : Nat)

structure JanitorReport where
  orphansFound : Nat := 0
  orphansDeleted : Nat := 0
  bytesFreed : Nat := 0
  skippedTooYoung : Nat := 0
  manifestSnapshotsReclaimed : Nat := 0
  manifestBytesFreed : Nat := 0
  pointerFilesReclaimed : Nat := 0
  pointerBytesFreed : Nat := 0
  walSegmentsReclaimed : Nat := 0
  walBytesFreed : Nat := 0
  memtableSnapshotsReclaimed : Nat := 0
  memtableSnapshotBytesFreed : Nat := 0
  pinsHonoured : Nat := 0
  expiredPinsReclaimed : Nat := 0
  abortedByPin : Bool := false
  restoreWindowRetained : Nat := 0
  restoreWindowBytes : Nat := 0
  deriving DecidableEq

structure RestoreWindow where
  version : Nat
  since : Time
  deriving DecidableEq

/-- The arguments of a sweep and its clock. `minAge` is in nanoseconds. -/
structure Sweep where
  retentionHorizon : Nat
  minAge : Nat
  delete : Bool
  now : Time

namespace Sweep

def nowUnix (self : Sweep) : Int := self.now/nanosPerSec

def minAgeSecs (self : Sweep) : Int := asI64 (self.minAge/nanosPerSec)

/-- Whole seconds on both sides. -/
def tooYoung (self : Sweep) (lastModified : Time) : Bool :=
  decide ((self.now-lastModified).tdiv nanosPerSec<self.minAgeSecs)

def expired (self : Sweep) (lease : PinLease) : Bool :=
  decide (lease.expiresAtUnix<self.nowUnix)

end Sweep

structure Pins where
  floor : Nat := u64Max
  pointVersions : List Nat := []
  window : Option RestoreWindow := none
  honoured : List (Path × PinLease) := []

def widen (window : Option RestoreWindow) (version : Nat) (since : Time) : RestoreWindow :=
  match window with
  | none => ⟨version,since⟩
  | some w => ⟨min w.version version,min w.since since⟩

def Pins.honour (self : Pins) (location : Path) (lease : PinLease) : Pins :=
  let pins := { self with honoured := self.honoured++[(location,lease)] }
  match lease.scope with
  | .floor => { pins with floor := min pins.floor lease.version }
  | .point => { pins with pointVersions := lease.version::pins.pointVersions }
  | .window since => { pins with window := some (widen pins.window lease.version since) }

def deleteWhen (delete : Bool) (path : Path) : StoreM Unit :=
  if delete then do ofStore (← ask (.delete path)) else pure ()

/-- Reads every lease once; an expired one is void and goes. -/
def surveyPins (s : Sweep) : List ObjectMeta → Pins → JanitorReport → StoreM (Pins × JanitorReport)
  | [], pins, report => return (pins,report)
  | info::rest, pins, report => do
    match ← ask (.get info.location) with
    | .error .notFound => surveyPins s rest pins report
    | .error e => throw (.objectStore e)
    | .ok (.pin lease) =>
      if s.expired lease then
        deleteWhen s.delete info.location
        surveyPins s rest pins { report with expiredPinsReclaimed := report.expiredPinsReclaimed+1 }
      else
        surveyPins s rest (pins.honour info.location lease)
          { report with pinsHonoured := report.pinsHonoured+1 }
    | .ok _ => surveyPins s rest pins report

/-- A lease found again asks for no more than it did. -/
def covered (seen lease : PinLease) : Bool :=
  match seen.scope, lease.scope with
  | .floor, _ => decide (seen.version≤lease.version)
  | .point, .point => decide (seen.version=lease.version)
  | .window a, .window b => decide (seen.version≤lease.version ∧ a≤b)
  | _, _ => false

def honouredAt (honoured : List (Path × PinLease)) (location : Path) : Option PinLease :=
  (honoured.reverse.find? fun h => h.1=location).map (·.2)

def anyPinChanged (s : Sweep) (honoured : List (Path × PinLease)) (horizon : Nat) : List ObjectMeta → StoreM Bool
  | [] => return false
  | info::rest => do
    match ← ask (.get info.location) with
    | .error .notFound => anyPinChanged s honoured horizon rest
    | .error e => throw (.objectStore e)
    | .ok (.pin lease) =>
      if s.expired lease||decide (horizon≤lease.version) ||
          ((honouredAt honoured info.location).map (covered · lease)).getD false then
        anyPinChanged s honoured horizon rest
      else return true
    | .ok _ => anyPinChanged s honoured horizon rest

/-- The re-check right before the deletions. -/
def pinsChangedBelowHorizon (s : Sweep) (honoured : List (Path × PinLease)) (horizon : Nat) : StoreM Bool := do
  let metas ← ofStore (← ask (.list .pins))
  anyPinChanged s honoured horizon metas

/-- The path with `suffix` taken off its end, and `new` in its place. -/
def replaceSuffix (text suffix new : String) : Option String :=
  if suffix.toList.isSuffixOf text.toList then
    some (String.ofList (text.toList.take (text.length-suffix.length))++new)
  else none

def edgePointSidecarPath (descriptor : SstDescriptor) : Option RelPath :=
  if descriptor.kind ≠ .edgesFwd then none
  else match descriptor.path with
    | .sst level (.named id rest) => (replaceSuffix rest ".ep.csr" ".epidx").map fun r => .sst level (.named id r)
    | .sst level (.text name) => (replaceSuffix name ".ep.csr" ".epidx").map fun r => .sst level (.text r)
    | .other text => (replaceSuffix text ".ep.csr" ".epidx").map .other

def indexPaths (index : PropertyIndexDescriptor) : List RelPath :=
  index.path::(index.paged.map (·.path)).toList

def descriptorPaths (desc : SstDescriptor) : List RelPath :=
  [desc.path]++(desc.bloom.map (·.path)).toList ++
    desc.uniquePropertyIndices.flatMap indexPaths ++
    desc.equalityPropertyIndices.flatMap indexPaths ++
    desc.compositeEqualityIndices.flatMap indexPaths ++
    (desc.labelIndex.map (·.path)).toList ++
    (match desc.nodeLocator with
      | none => []
      | some locator => locator.path::(locator.propertyPages.map (·.path)).toList) ++
    (edgePointSidecarPath desc).toList

structure Live where
  referenced : List RelPath := []
  referencedWal : List Nat := []

def markLive (live : Live) (manifest : Manifest) : Live where
  referenced := manifest.ssts.flatMap descriptorPaths++live.referenced
  referencedWal := manifest.walSegments.map (·.seq)++live.referencedWal

/-- The versions kept for readers; below `strictFloor` one may be gone already. -/
def markRetained (current : Manifest) (strictFloor : Nat) : List Nat → Live → StoreM Live
  | [], live => return live
  | version::rest, live => do
    if version=current.version then markRetained current strictFloor rest (markLive live current)
    else
      match ← attempt (loadManifestAt version) with
      | .ok manifest => markRetained current strictFloor rest (markLive live manifest)
      | .error e =>
        if e = .objectStore .notFound ∧ version<strictFloor then markRetained current strictFloor rest live
        else throw e

/-- The versions kept on their own below the horizon. -/
def markExtra : List Nat → Live → StoreM Live
  | [], live => return live
  | version::rest, live => do
    match ← attempt (loadManifestAt version) with
    | .ok manifest => markExtra rest (markLive live manifest)
    | .error e => if e = .objectStore .notFound then markExtra rest live else throw e

structure Plan where
  horizon : Nat
  pointVersions : List Nat
  window : Option RestoreWindow
  live : Live

namespace Plan

/-- Manifest bodies from here up are kept. -/
def bodyFloor (self : Plan) : Nat :=
  match self.window with
  | none => self.horizon
  | some w => min self.horizon w.version

/-- The largest span that a `chrono::Duration` holds, in nanoseconds. -/
def maxSpan : Nat := (2^63-1)*10^6

/-- The earliest instant of a `DateTime<Utc>`. -/
def minUtc : Time := -8334601228800*10^9

/-- The restore window keeps an object written since it opened, less `min_age`; when that instant is out of range
the window keeps everything. -/
def windowKeeps (self : Plan) (minAge : Nat) (lastModified : Time) : Bool :=
  match self.window with
  | none => false
  | some w =>
    if minAge ≤ maxSpan ∧ minUtc≤w.since-minAge then decide (w.since-minAge≤lastModified) else true

end Plan

section

def parseDigits : List Char → Option Nat
  | [] => none
  | cs => cs.foldl (fun acc c => acc.bind fun n =>
      if '0' ≤ c ∧ c ≤ '9' then some (10*n+(c.toNat - '0'.toNat)) else none) (some 0)

def parseU32 (text : String) : Option Nat :=
  (parseDigits (match text.toList with
    | '+' :: rest => rest
    | cs => cs)).bind fun n => if n<2^32 then some n else none

/-- A file name with something in it and no further directory. -/
def plainFile : FileName → Bool
  | .named _ rest => !rest.toList.contains '/'
  | .text name => !name.isEmpty && !name.toList.contains '/'

/-- The relative path of an object at a canonical place below `sst/`. -/
def canonicalSst : Path → Option RelPath
  | .object (.sst level file) =>
    if (parseU32 level).isSome&&plainFile file then some (.sst level file) else none
  | _ => none

def sweepSsts (s : Sweep) (plan : Plan) : List ObjectMeta → JanitorReport → StoreM JanitorReport
  | [], report => return report
  | info::rest, report =>
    match canonicalSst info.location with
    | none => sweepSsts s plan rest report
    | some relative =>
      if plan.live.referenced.contains relative then sweepSsts s plan rest report
      else if plan.windowKeeps s.minAge info.lastModified then
        sweepSsts s plan rest { report with
          restoreWindowRetained := report.restoreWindowRetained+1
          restoreWindowBytes := saturatingAdd report.restoreWindowBytes info.size }
      else if s.tooYoung info.lastModified then
        sweepSsts s plan rest { report with skippedTooYoung := report.skippedTooYoung+1 }
      else do
        deleteWhen s.delete info.location
        sweepSsts s plan rest { report with
          orphansFound := report.orphansFound+1
          bytesFreed := saturatingAdd report.bytesFreed info.size
          orphansDeleted := if s.delete then report.orphansDeleted+1 else report.orphansDeleted }

def manifestFile : Path → Option (Bool × Nat)
  | .manifestVersion version => some (false,version)
  | .pointerVersion version => some (true,version)
  | _ => none

def keepsManifest (plan : Plan) (isPointer : Bool) (version : Nat) : Bool :=
  decide (plan.horizon≤version) ||
    !isPointer&&(decide (plan.bodyFloor≤version)||plan.pointVersions.contains version)

def countManifest (report : JanitorReport) (isPointer : Bool) (size : Nat) : JanitorReport :=
  if isPointer then { report with
    pointerFilesReclaimed := report.pointerFilesReclaimed+1
    pointerBytesFreed := saturatingAdd report.pointerBytesFreed size }
  else { report with
    manifestSnapshotsReclaimed := report.manifestSnapshotsReclaimed+1
    manifestBytesFreed := saturatingAdd report.manifestBytesFreed size }

def sweepManifests (s : Sweep) (plan : Plan) : List ObjectMeta → JanitorReport → StoreM JanitorReport
  | [], report => return report
  | info::rest, report =>
    match manifestFile info.location with
    | none => sweepManifests s plan rest report
    | some (isPointer,version) =>
      if keepsManifest plan isPointer version then sweepManifests s plan rest report
      else if s.tooYoung info.lastModified then
        sweepManifests s plan rest { report with skippedTooYoung := report.skippedTooYoung+1 }
      else do
        deleteWhen s.delete info.location
        sweepManifests s plan rest (countManifest report isPointer info.size)

def sweepWal (s : Sweep) (plan : Plan) : List ObjectMeta → JanitorReport → StoreM JanitorReport
  | [], report => return report
  | info::rest, report =>
    match WalStore.parseSeq info.location with
    | none => sweepWal s plan rest report
    | some seq =>
      if plan.live.referencedWal.contains seq then sweepWal s plan rest report
      else if plan.windowKeeps s.minAge info.lastModified then
        sweepWal s plan rest { report with
          restoreWindowRetained := report.restoreWindowRetained+1
          restoreWindowBytes := saturatingAdd report.restoreWindowBytes info.size }
      else if s.tooYoung info.lastModified then
        sweepWal s plan rest { report with skippedTooYoung := report.skippedTooYoung+1 }
      else do
        deleteWhen s.delete info.location
        sweepWal s plan rest { report with
          walSegmentsReclaimed := report.walSegmentsReclaimed+1
          walBytesFreed := saturatingAdd report.walBytesFreed info.size }

variable [ContentHash]

/-- A snapshot that recovery could not use any more; when in doubt it stays. -/
def staleSnapshot (current : Manifest) (body : Blob) : Bool :=
  match Recovery.decodeMemtableSnapshot body with
  | some snapshot => !snapshot.coversManifest current
  | none => false

def sweepSnapshot (s : Sweep) (current : Manifest) (report : JanitorReport) : StoreM JanitorReport := do
  match ← ask (.getWithMeta .memtableSnapshot) with
  | .error .notFound => return report
  | .error e => throw (.objectStore e)
  | .ok (body,info) =>
    if staleSnapshot current body then
      if s.tooYoung info.lastModified then
        return { report with skippedTooYoung := report.skippedTooYoung+1 }
      else
        deleteWhen s.delete .memtableSnapshot
        return { report with
          memtableSnapshotsReclaimed := report.memtableSnapshotsReclaimed+1
          memtableSnapshotBytesFreed := saturatingAdd report.memtableSnapshotBytesFreed info.size }
    else return report

def deleteOrphans (s : Sweep) (current : Manifest) (plan : Plan) (report : JanitorReport) :
    StoreM JanitorReport := do
  enter (.sweep plan.horizon)
  let report ← sweepSsts s plan (← ofStore (← ask (.list .sst))) report
  let report ← sweepManifests s plan (← ofStore (← ask (.list .manifests))) report
  let report ← sweepWal s plan (← ofStore (← ask (.list .wal))) report
  sweepSnapshot s current report

def extraVersions (pins : Pins) (horizon : Nat) : List Nat :=
  (pins.pointVersions++(pins.window.map (·.version)).toList).filter (·<horizon)

def planSweep (s : Sweep) (current : Manifest) (pins : Pins) : StoreM Plan := do
  let horizon := min (min s.retentionHorizon pins.floor) current.version
  let strictFloor := min s.retentionHorizon current.version
  let live ← markRetained current strictFloor (List.range' horizon (current.version+1-horizon)) {}
  let live ← markExtra (extraVersions pins horizon) live
  return ⟨horizon,pins.pointVersions,pins.window,live⟩

def sweepOrphans (retentionHorizon minAge : Nat) (delete : Bool) : StoreM JanitorReport := do
  let current ← loadCurrent
  let s : Sweep := ⟨retentionHorizon,minAge,delete,← ask .now⟩
  let (pins,report) ← surveyPins s (← ofStore (← ask (.list .pins))) {} {}
  let plan ← planSweep s current.manifest pins
  let changed ← if delete then pinsChangedBelowHorizon s pins.honoured plan.horizon else pure false
  if changed then return { report with abortedByPin := true }
  else deleteOrphans s current.manifest plan report

end
end Janitor
end NamiDB.Storage
