import Mathlib.Data.Char
import Mathlib.Data.List.Lex
import Mathlib.Data.Nat.Digits.Lemmas

/-! Texts that say themselves where they end, so that what stands behind one another can be told apart. -/
namespace NamiDB.Lib
open List

variable {xs ys r r' : List χ}

theorem split_at_stop (hx : c∉xs) (hy : c∉ys) (h : xs++c::r=ys++c::r') : xs=ys ∧ r=r' := by
  classical
  have hlen : xs.length=ys.length := by
    simpa [idxOf_append_of_notMem hx,idxOf_append_of_notMem hy] using congrArg (idxOf c) h
  simpa using append_inj h hlen

theorem split_at_size (hpos : ∀ c, 0<size c) (hsize : (xs.map size).sum=(ys.map size).sum) (h : xs++r=ys++r') :
    xs=ys ∧ r=r' := by
  induction xs generalizing ys with
  | nil =>
    cases ys with
    | nil => exact ⟨rfl,h⟩
    | cons y ys =>
      have := hpos y
      simp only [map_nil,sum_nil,map_cons,sum_cons] at hsize
      omega
  | cons x xs ih =>
    cases ys with
    | nil =>
      have := hpos x
      simp only [map_nil,sum_nil,map_cons,sum_cons] at hsize
      omega
    | cons y ys =>
      simp only [cons_append,cons.injEq] at h
      obtain ⟨rfl,h⟩ := h
      simp only [map_cons,sum_cons,Nat.add_left_cancel_iff] at hsize
      obtain ⟨rfl,hr⟩ := ih hsize h
      exact ⟨rfl,hr⟩

section

variable {r r' : List Char} {c : Char} {width n : Nat}

theorem not_mem_digits (hc : c.isDigit=false) (n : Nat) : c∉Nat.toDigits 10 n := by
  intro h
  rw [Nat.isDigit_of_mem_toDigits (by decide) (by decide) h] at hc
  cases hc

theorem digits_inj (h : Nat.toDigits 10 m=Nat.toDigits 10 n) : m=n := by
  rw [← Nat.ofDigitChars_toDigits (n := m) (by decide : 1<10) (by decide),h,
    Nat.ofDigitChars_toDigits (by decide) (by decide)]

theorem split_digits (hc : c.isDigit=false) (h : Nat.toDigits 10 m++c::r=Nat.toDigits 10 n++c::r') : m=n ∧ r=r' := by
  obtain ⟨hm,hr⟩ := split_at_stop (not_mem_digits hc m) (not_mem_digits hc n) h
  exact ⟨digits_inj hm,hr⟩

def intText (n : Int) : List Char :=
  if n<0 then '-' :: Nat.toDigits 10 n.natAbs else Nat.toDigits 10 n.natAbs

theorem not_mem_intText (hc : c.isDigit=false) (hs : c ≠ '-') (n : Int) : c∉intText n := by
  unfold intText
  split
  · simp [hs,not_mem_digits hc]
  · exact not_mem_digits hc _

theorem intText_inj {m n : Int} (h : intText m=intText n) : m=n := by
  have hsign : ∀ k : Nat, '-' ∉ Nat.toDigits 10 k := not_mem_digits rfl
  unfold intText at h
  split at h <;> split at h
  · have := digits_inj (cons.inj h).2
    omega
  · exact absurd (h ▸ mem_cons_self) (hsign _)
  · exact absurd (h.symm ▸ mem_cons_self) (hsign _)
  · have := digits_inj h
    omega

theorem split_intText {m n : Int} (hc : c.isDigit=false) (hs : c ≠ '-')
    (h : intText m++c::r=intText n++c::r') : m=n ∧ r=r' := by
  obtain ⟨hm,hr⟩ := split_at_stop (not_mem_intText hc hs m) (not_mem_intText hc hs n) h
  exact ⟨intText_inj hm,hr⟩

def hexText : Nat → Nat → List Char
  | 0, _ => []
  | width+1, n => hexText width (n/16)++[Nat.digitChar (n%16)]

/-- Of numbers with as many digits, the order is that of their texts, whatever stands behind them. -/
theorem hexText_lt (hn : n<16^width) (h : m<n) (r r' : List Char) : hexText width m++r<hexText width n++r' := by
  induction width generalizing m n r r' with
  | zero =>
    omega
  | succ width ih =>
    have hdigits : ∀ a < 16, ∀ b < a, Nat.digitChar b<Nat.digitChar a := by decide
    simp only [hexText,append_assoc]
    obtain hlt | heq := Nat.lt_or_eq_of_le (Nat.div_le_div_right (c := 16) h.le)
    · exact ih (Nat.div_lt_of_lt_mul (by rwa [← Nat.pow_succ'])) hlt _ _
    · rw [heq]
      exact append_left_lt (cons_lt_cons_iff.mpr (.inl (hdigits _ (Nat.mod_lt _ (by decide)) _ (by omega))))

theorem split_hexText (hm : m<16^width) (hn : n<16^width)
    (h : hexText width m++r=hexText width n++r') : m=n ∧ r=r' := by
  obtain hlt | rfl | hlt := Nat.lt_trichotomy m n
  · exact absurd h (hexText_lt hn hlt r r').ne
  · exact ⟨rfl,append_cancel_left h⟩
  · exact absurd h.symm (hexText_lt hm hlt r' r).ne

theorem hexText_inj (hm : m<16^width) (hn : n<16^width) : hexText width m=hexText width n ↔ m=n :=
  ⟨fun h => (split_hexText hm hn (congrArg (· ++ ([] : List Char)) h)).1,congrArg _⟩

theorem hexText_le (hn : n<16^width) (h : m≤n) : hexText width m≤hexText width n := by
  obtain hlt | rfl := Nat.lt_or_eq_of_le h
  · simpa using (hexText_lt hn hlt [] []).le
  · exact le_rfl

theorem split_hexTexts {ms ns : List Nat} (hm : ∀ m ∈ ms, m<16^width) (hn : ∀ n ∈ ns, n<16^width)
    (hlen : ms.length=ns.length) (h : ms.flatMap (hexText width)++r=ns.flatMap (hexText width)++r') :
    ms=ns ∧ r=r' := by
  induction ms generalizing ns with
  | nil =>
    cases ns with
    | nil => exact ⟨rfl,by simpa using h⟩
    | cons n ns => cases hlen
  | cons m ms ih =>
    cases ns with
    | nil => cases hlen
    | cons n ns =>
      simp only [flatMap_cons,append_assoc] at h
      obtain ⟨rfl,hrest⟩ := split_hexText (hm m (.head _)) (hn n (.head _)) h
      obtain ⟨rfl,hr⟩ := ih (fun x hx => hm x (.tail _ hx))
        (fun x hx => hn x (.tail _ hx)) (by simpa using hlen) hrest
      exact ⟨rfl,hr⟩

end
end NamiDB.Lib
