import Mathlib.Data.List.AList
import NamiDB.Storage.Manifest

/-! The write buffer of a session and the WAL records it is rebuilt from. -/
namespace NamiDB.Storage

inductive MemKey where
  | node (id : Key16)
  | edge (edgeType : String) (src dst : Key16)
  deriving DecidableEq

inductive MemOp where
  | upsert (payload : Bytes)
  | tombstone
  deriving DecidableEq

structure MemEntry where
  lsn : Lsn
  op : MemOp
  deriving DecidableEq

structure WalEntry where
  key : MemKey
  op : MemOp
  lsn : Lsn
  deriving DecidableEq

/-- `payload` is the entry the record's bytes decode to, if they do. -/
structure WalRecord where
  lsn : Lsn
  payload : Option WalEntry
  deriving DecidableEq

structure WalSegment where
  seq : Nat
  records : List WalRecord
  deriving DecidableEq

namespace WalSegment

def new (seq : Nat) : WalSegment := ⟨seq,[]⟩

def lastLsn (self : WalSegment) : Lsn :=
  match self.records.getLast? with
  | some r => r.lsn
  | none => 0

end WalSegment

/-- The latest entry applied to each key. -/
abbrev Memtable := AList fun _ : MemKey => MemEntry

namespace Memtable

/-- Replaces whatever the key held; there is no comparison of LSNs. -/
def apply (self : Memtable) (key : MemKey) (lsn : Lsn) (op : MemOp) : Memtable :=
  self.insert key ⟨lsn,op⟩

@[simp] theorem lookup_apply_same (m : Memtable) (k : MemKey) (lsn : Lsn) (op : MemOp) :
    (m.apply k lsn op).lookup k=some ⟨lsn,op⟩ := AList.lookup_insert m

theorem lookup_apply_ne (m : Memtable) (lsn : Lsn) (op : MemOp) (h : k'≠k) :
    (m.apply k lsn op).lookup k'=m.lookup k' := AList.lookup_insert_ne h

end Memtable
end NamiDB.Storage
