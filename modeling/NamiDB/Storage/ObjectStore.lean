import NamiDB.Lib.Prog
import NamiDB.Storage.Memtable

/-! The object store of a namespace: typed object bodies, the requests the engine sends and what
the store may answer to each. Any request may fail; a write may land and still be reported as
failed; a LIST may answer anything. -/
namespace NamiDB.Storage
open Lib Option

structure MemtableSnapshotFile where
  version : Nat
  lastLsn : Lsn
  entries : List WalEntry
  deriving DecidableEq

/-- What the bytes of an object decode to. The encodings are self-describing (JSON, or a magic
number with checksums), so bytes of one kind never decode as another; `raw` is everything that
decodes as none. An encoded WAL segment does not hold its sequence number. Only the size of a
side-car decides anything. -/
inductive Blob where
  | manifest (m : Manifest)
  | pointer (p : ManifestPointer)
  | wal (records : List WalRecord)
  | sst (rows : List WalEntry)
  | sideCar (size : Nat)
  | snapshot (file : MemtableSnapshotFile) (walSegments : Option (List WalSegmentDescriptor))
      (checksum : Nat)
  | pin (lease : PinLease)
  | raw (bytes : Bytes)
  deriving DecidableEq

def Blob.size : Blob → Nat
  | .sideCar n => n
  | _ => 0

structure Object where
  body : Blob
  lastModified : Time
  deriving DecidableEq

structure ObjectMeta where
  location : Path
  size : Nat
  lastModified : Time
  deriving DecidableEq

inductive StoreError where
  | alreadyExists
  | notFound
  | other
  deriving DecidableEq

inductive Error where
  | objectStore (e : StoreError)
  | json
  | manifestCommitCas (expected found : Nat)
  | pointerResolveStale
  | precondition (message : String)
  | timeout
  | cancelled
  | fenced (mine current : Epoch)
  | orphanManifestBody (version : Nat)
  | corrupted (path : Path) (detail : String)
  | invariant (message : String)
  deriving DecidableEq

def Error.isManifestCommitCas : Error → Bool
  | .manifestCommitCas _ _ => true
  | _ => false

def Error.isFenced : Error → Bool
  | .fenced _ _ => true
  | _ => false

/-- The errors of a commit that lost its version to somebody else. -/
def Error.isLostRace (e : Error) : Bool := e.isFenced||e.isManifestCommitCas

inductive Dir where
  | pointers | pins | manifests | wal | sst
  deriving DecidableEq

/-- The calls that other results refer to; entering one is an event of the run and has no effect
on the store. -/
inductive Call where
  | putBody (fence : WriterFence) (base : LoadedManifest) (newManifest : Manifest)
  | casPointer (fence : WriterFence) (base : LoadedManifest) (newManifest : Manifest)
  | repairStalledCommit (version : Nat)
  | resolveFailedPointerCas (version : Nat)
  | sweep (horizon : Nat)
  | leave
  deriving DecidableEq

/-- `never` gets no answer: a loop of the source that is followed for a bounded number of rounds ends in it. -/
inductive Request where
  | get (path : Path)
  | getWithMeta (path : Path)
  | head (path : Path)
  | putCreate (path : Path) (body : Blob)
  | put (path : Path) (body : Blob)
  | delete (path : Path)
  | list (dir : Dir)
  | now
  | uuid
  | enter (call : Call)
  | never

def Request.isDelete : Request → Bool
  | .delete _ => true
  | _ => false

@[reducible] def Reply : Request → Type
  | .get _ => Except StoreError Blob
  | .getWithMeta _ => Except StoreError (Blob × ObjectMeta)
  | .head _ => Except StoreError ObjectMeta
  | .putCreate _ _ => Except StoreError Unit
  | .put _ _ => Except StoreError Unit
  | .delete _ => Except StoreError Unit
  | .list _ => Except StoreError (List ObjectMeta)
  | .now => Time
  | .uuid => Uuid
  | .enter _ => Unit
  | .never => Empty

/-- The objects now in the store; then, newest first, every write that ever landed, the identifiers
handed out and the calls entered so far. -/
structure World where
  objects : AList fun _ : Path => Object
  history : List (Path × Blob)
  used : List Uuid
  calls : List Call

/-- Which keys a directory listing covers; the listing of `manifest/` descends into `pointer/` and
`pins/`. -/
def Dir.covers : Dir → Path → Bool
  | .pointers, .pointerVersion _ => true
  | .pins, .pinObject _ => true
  | .manifests, .currentPointer => true
  | .manifests, .manifestVersion _ => true
  | .manifests, .pointerVersion _ => true
  | .manifests, .pinObject _ => true
  | .wal, .walSegment _ => true
  | .sst, .object (.sst _ _) => true
  | .sst, .object (.other text) => "sst/".isPrefixOf text
  | _, _ => false

namespace World

def body (w : World) (p : Path) : Option Blob := (w.objects.lookup p).map (·.body)

def stat (w : World) (p : Path) : Option ObjectMeta :=
  (w.objects.lookup p).map fun o => ⟨p,o.body.size,o.lastModified⟩

def objectWithMeta (w : World) (p : Path) : Option (Blob × ObjectMeta) :=
  (w.objects.lookup p).map fun o => (o.body,⟨p,o.body.size,o.lastModified⟩)

def set (w : World) (p : Path) (b : Blob) (t : Time) : World :=
  { w with objects := w.objects.insert p ⟨b,t⟩, history := (p,b)::w.history }

def erase (w : World) (p : Path) : World :=
  { w with objects := w.objects.erase p }

def listing (w : World) (d : Dir) : List ObjectMeta :=
  (w.objects.entries.filter fun e => d.covers e.1).map
    fun e => ⟨e.1,e.2.body.size,e.2.lastModified⟩

variable (w : World)

@[simp] theorem set_history (p : Path) (b : Blob) (t : Time) : (w.set p b t).history=(p,b)::w.history := rfl

theorem body_set (p q : Path) (b : Blob) (t : Time) : (w.set p b t).body q=if q=p then some b else w.body q := by
  by_cases h : q=p
  · subst h
    simp [set,body]
  · simp [set,body,h]

@[simp] theorem body_set_same (p : Path) (b : Blob) (t : Time) : (w.set p b t).body p=some b := by
  simp [body_set]

theorem body_set_of_ne (b : Blob) (t : Time) (h : q≠p) : (w.set p b t).body q=w.body q := by
  simp [body_set,h]

end World

structure Faults where
  reads : Bool
  writes : Bool
  deletes : Bool
  staleList : Bool

/-- Every request may fail, and a LIST may answer anything. -/
def Faults.all : Faults := ⟨true,true,true,true⟩

/-- What GET and HEAD answer when they reach the object. -/
def found {α : Type} : Option α → Except StoreError α
  | some a => .ok a
  | none => .error .notFound

/-- The answers of the object store. A create lands only in an empty slot; one that landed may be
reported as failed, also as `alreadyExists` when the client retried it on its own. -/
def answers (F : Faults) (w : World) : (o : Request) → Reply o → World → Prop
  | .get p, r, w' => w'=w ∧ (r=found (w.body p) ∨ F.reads ∧ r = .error .other)
  | .getWithMeta p, r, w' => w'=w ∧ (r=found (w.objectWithMeta p) ∨ F.reads ∧ r = .error .other)
  | .head p, r, w' => w'=w ∧ (r=found (w.stat p) ∨ F.reads ∧ r = .error .other)
  | .putCreate p b, r, w' =>
      (w.body p=none ∧ (∃ t, w'=w.set p b t) ∧
        (r = .ok () ∨ F.writes ∧ (r = .error .other ∨ r = .error .alreadyExists))) ∨
      (w'=w ∧ (w.body p≠none ∧ r = .error .alreadyExists ∨ F.writes ∧ r = .error .other))
  | .put p b, r, w' =>
      ((∃ t, w'=w.set p b t) ∧ (r = .ok () ∨ F.writes ∧ r = .error .other)) ∨
      (w'=w ∧ F.writes ∧ r = .error .other)
  | .delete p, r, w' =>
      (w'=w.erase p ∧ (r = .ok () ∨ F.deletes ∧ r = .error .other)) ∨
      (w'=w ∧ (w.body p=none ∧ r = .error .notFound ∨ F.deletes ∧ r = .error .other))
  | .list d, r, w' =>
      w'=w ∧ ((∃ l, l.Perm (w.listing d) ∧ r = .ok l) ∨ (F.staleList ∧ ∃ l, r = .ok l) ∨
        (F.reads ∧ r = .error .other))
  | .now, _, w' => w'=w
  | .uuid, r, w' => r∉w.used ∧ w'={ w with used := r::w.used }
  | .enter c, _, w' => w'={ w with calls := c::w.calls }
  | .never, r, _ => r.elim

inductive Choice where
  | ok (t : Time)
  | fail
  | lost (t : Time) (asExists : Bool)
  | listed (l : List ObjectMeta)
  | fresh (id : Uuid)
  deriving DecidableEq

/-- Computes the answer a choice stands for; `none` when the store cannot answer so. -/
def exec (F : Faults) (w : World) : (o : Request) → Choice → Option (Reply o × World)
  | .get p, .ok _ => some (found (w.body p),w)
  | .get _, .fail => if F.reads then some (.error .other,w) else none
  | .getWithMeta p, .ok _ => some (found (w.objectWithMeta p),w)
  | .getWithMeta _, .fail => if F.reads then some (.error .other,w) else none
  | .head p, .ok _ => some (found (w.stat p),w)
  | .head _, .fail => if F.reads then some (.error .other,w) else none
  | .putCreate p b, .ok t =>
      if w.body p=none then some (.ok (),w.set p b t) else some (.error .alreadyExists,w)
  | .putCreate p b, .lost t asExists =>
      if w.body p=none ∧ F.writes then
        some (.error (if asExists then .alreadyExists else .other),w.set p b t)
      else none
  | .putCreate _ _, .fail => if F.writes then some (.error .other,w) else none
  | .put p b, .ok t => some (.ok (),w.set p b t)
  | .put p b, .lost t _ => if F.writes then some (.error .other,w.set p b t) else none
  | .put _ _, .fail => if F.writes then some (.error .other,w) else none
  | .delete p, .ok _ => some (.ok (),w.erase p)
  | .delete p, .lost _ _ => if F.deletes then some (.error .other,w.erase p) else none
  | .delete _, .fail => if F.deletes then some (.error .other,w) else none
  | .list d, .ok _ => some (.ok (w.listing d),w)
  | .list _, .listed l => if F.staleList then some (.ok l,w) else none
  | .list _, .fail => if F.reads then some (.error .other,w) else none
  | .now, .ok t => some (t,w)
  | .uuid, .fresh id => if id∈w.used then none else some (id,{ w with used := id::w.used })
  | .enter c, .ok _ => some ((),{ w with calls := c::w.calls })
  | _, _ => none

theorem exec_sound (h : exec F w o c=some (r,w')) : answers F w o r w' := by
  cases o <;> cases c <;>
    simp only [exec,ite_none_right_eq_some,some.injEq,Prod.mk.injEq,reduceCtorEq] at h
  case putCreate.ok p b t =>
    by_cases hp : w.body p=none
    · simp only [hp,if_true,some.injEq] at h
      obtain ⟨rfl,rfl⟩ := h
      exact .inl ⟨hp,⟨t,rfl⟩,.inl rfl⟩
    · simp only [hp,if_false,some.injEq] at h
      obtain ⟨rfl,rfl⟩ := h
      exact .inr ⟨rfl,.inl ⟨hp,rfl⟩⟩
  case putCreate.lost p b t asExists =>
    obtain ⟨⟨hp,hF⟩,rfl,rfl⟩ := h
    cases asExists
    · exact .inl ⟨hp,⟨t,rfl⟩,.inr ⟨hF,.inl rfl⟩⟩
    · exact .inl ⟨hp,⟨t,rfl⟩,.inr ⟨hF,.inr rfl⟩⟩
  all_goals unfold answers
  case list.ok d t =>
    obtain ⟨rfl,rfl⟩ := h
    exact ⟨rfl,.inl ⟨_,.refl _,rfl⟩⟩
  case put.ok p b t => exact .inl ⟨⟨t,h.2.symm⟩,.inl h.1.symm⟩
  case put.lost p b t x => exact .inl ⟨⟨t,h.2.2.symm⟩,.inr ⟨h.1,h.2.1.symm⟩⟩
  case list.listed d l => exact ⟨h.2.2.symm,.inr (.inl ⟨h.1,l,h.2.1.symm⟩)⟩
  all_goals grind

abbrev StoreM := ExceptT Error (Prog Reply)

def ask (o : Request) : StoreM (Reply o) := ExceptT.lift (Prog.request o)

def ofStore {α : Type} : Except StoreError α → StoreM α
  | .ok a => pure a
  | .error e => throw (.objectStore e)

def require (c : Prop) [Decidable c] (e : Error) : StoreM Unit :=
  if c then pure () else throw e

theorem of_require_bind {motive : StoreM β → Prop} [Decidable c] {f : Unit → StoreM β} (h : c → motive (f ()))
    (hno : ¬c → motive (throw e)) : motive (require c e >>= f) := by
  by_cases hc : c
  · have he : require c e=pure () := if_pos hc
    rw [he]
    exact h hc
  · have he : require c e=throw e := if_neg hc
    rw [he]
    exact hno hc

/-- The rest of a loop that is not followed any further. -/
def outOfRounds {α : Type} : StoreM α := do
  let r ← ask .never
  nomatch r

def enter (c : Call) : StoreM Unit := ask (.enter c)

/-- Runs `p` inside the call `c`, so that the end of the call is an event as well. -/
def spanned {α : Type} (c : Call) (p : StoreM α) : StoreM α := do
  enter c
  let r ← attempt p
  enter .leave
  match r with
  | .ok a => pure a
  | .error e => throw e

end NamiDB.Storage
