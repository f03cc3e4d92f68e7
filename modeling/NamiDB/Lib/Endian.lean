import Mathlib.Algebra.Order.Ring.Int
import Mathlib.Data.Nat.Log

/-! Numbers as bytes, the lowest one first. -/
namespace NamiDB.Lib
open List

def leBytes : Nat → Nat → List UInt8
  | 0,_ => []
  | w+1,n => UInt8.ofNat n::leBytes w (n/256)

def leValue : List UInt8 → Nat
  | [] => 0
  | b::bs => b.toNat+256*leValue bs

@[simp] theorem length_leBytes (w n : Nat) : (leBytes w n).length=w := by
  induction w generalizing n with
  | zero => rfl
  | succ w ih => simp [leBytes,ih]

variable {w n : Nat}

theorem leValue_leBytes (h : n<256^w) : leValue (leBytes w n)=n := by
  induction w generalizing n with
  | zero => simp_all [leBytes,leValue]
  | succ w ih =>
    rw [Nat.pow_succ'] at h
    simp only [leBytes,leValue,ih (Nat.div_lt_of_lt_mul h),UInt8.toNat_ofNat']
    omega

variable (bs : List UInt8)

theorem leBytes_inj (hm : m<256^w) (hn : n<256^w) : leBytes w m=leBytes w n ↔ m=n :=
  ⟨fun h => by rw [← leValue_leBytes hm,h,leValue_leBytes hn],congrArg _⟩

theorem leBytes_leValue : leBytes bs.length (leValue bs)=bs := by
  induction bs with
  | nil => rfl
  | cons b bs ih =>
    have hb := b.toNat_lt
    have hq : (b.toNat+256*leValue bs)/256=leValue bs := by omega
    simp only [length_cons,leBytes,leValue,hq,ih,cons.injEq,and_true]
    exact UInt8.toNat_inj.mp (by rw [UInt8.toNat_ofNat']; omega)

theorem leValue_lt : leValue bs<256^bs.length := by
  induction bs with
  | nil => simp [leValue]
  | cons b bs ih =>
    have hb := b.toNat_lt
    rw [length_cons,Nat.pow_succ',leValue]
    omega

def takeLe (w : Nat) (bs : List UInt8) : Nat × List UInt8 := (leValue (bs.take w),bs.drop w)

theorem takeLe_append (h : n<256^w) (bs : List UInt8) : takeLe w (leBytes w n++bs)=(n,bs) := by
  rw [takeLe,take_left' (length_leBytes w n),drop_left' (length_leBytes w n),leValue_leBytes h]

theorem takeLe_eq {bs rest : List UInt8} (hw : w≤bs.length) (h : takeLe w bs=(n,rest)) :
    n<256^w ∧ bs=leBytes w n++rest := by
  cases h
  have hb := leBytes_leValue (bs.take w)
  have hn := leValue_lt (bs.take w)
  rw [length_take_of_le hw] at hb hn
  exact ⟨hn,by rw [hb,take_append_drop]⟩

end NamiDB.Lib
