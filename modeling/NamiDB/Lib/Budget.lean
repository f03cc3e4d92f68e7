import NamiDB.Lib.Fallible

/-! Loops that stop when they have enough. What they return is the beginning of what the whole loop returns, and
it is as much as was asked for. -/
namespace NamiDB.Lib
open List

universe u

variable {ε α : Type*} {β : Type u}

/-- `part` is the beginning of `whole`, and `cap` elements or all of it. -/
def Fills (cap : Nat) (part whole : List β) : Prop := part <+: whole ∧ min cap whole.length≤part.length

theorem Fills.refl (cap : Nat) (l : List β) : Fills cap l l := ⟨prefix_refl l,Nat.min_le_right _ _⟩

theorem fills_take (cap : Nat) (l : List β) : Fills cap (l.take cap) l :=
  ⟨ take_prefix _ _,Nat.le_of_eq length_take.symm⟩

variable {cap : Nat} {part whole : List β}

theorem fills_of_le (h : part <+: whole) (hcap : cap≤part.length) : Fills cap part whole :=
  ⟨h,Nat.le_trans (Nat.min_le_left _ _) hcap⟩

theorem Fills.eq_or_le (h : Fills cap part whole) : part=whole ∨ cap≤part.length := by
  rcases Nat.lt_or_ge part.length cap with hlt | hle
  · have := h.2
    exact .inl (h.1.eq_of_length_le (by omega))
  · exact .inr hle

theorem Fills.map (h : Fills cap part whole) (f : β → γ) : Fills cap (part.map f) (whole.map f) := by
  refine ⟨h.1.map f,?_⟩
  rw [length_map,length_map]
  exact h.2

theorem Fills.append (h : Fills cap part whole) (hrest : Fills (cap-part.length) rest restWhole)
    (hstop : cap≤part.length → rest=[]) : Fills cap (part++rest) (whole++restWhole) := by
  rcases Nat.lt_or_ge part.length cap with hlt | hle
  · obtain rfl := h.eq_or_le.resolve_right (Nat.not_le.mpr hlt)
    refine ⟨prefix_append_right_inj _ |>.mpr hrest.1,?_⟩
    have := hrest.2
    simp only [length_append]
    omega
  · rw [hstop hle,append_nil]
    exact fills_of_le (h.1.trans (prefix_append _ _)) hle

section

variable {f : Option Nat → α → Except ε (List β)} {as : List α} {as' : List α}

theorem gatherUpTo_zero (f : Option Nat → α → Except ε (List β)) (as : List α) : gatherUpTo f (some 0) as = .ok [] := by
  cases as with
  | nil => rfl
  | cons a as => exact if_pos rfl

theorem exists_gatherUpTo (cap : Nat)
    (hstep : ∀ a ∈ as, ∀ room bs, 0<room → f none a = .ok bs → ∃ bs', f (some room) a = .ok bs' ∧ Fills room bs' bs)
    (h : gather (f none) as = .ok whole) : ∃ part, gatherUpTo f (some cap) as = .ok part ∧ Fills cap part whole := by
  induction as generalizing cap whole with
  | nil =>
    cases h
    exact ⟨[],rfl,.refl cap []⟩
  | cons a as ih =>
    obtain ⟨bs,hbs,h⟩ := bind_eq_ok.mp h
    obtain ⟨rest,hrest,⟨⟩⟩ := bind_eq_ok.mp h
    rcases Nat.eq_zero_or_pos cap with rfl | hcap
    · exact ⟨[],gatherUpTo_zero f _, nil_prefix,by simp⟩
    · obtain ⟨bs',hbs',hfills⟩ := hstep a (.head _) cap bs hcap hbs
      obtain ⟨rest',hrest',hfillsRest⟩ := ih (cap-bs'.length) (fun a ha => hstep a (.tail _ ha)) hrest
      refine ⟨bs'++rest',?_,hfills.append hfillsRest fun hle => ?_⟩
      · rw [gatherUpTo,if_neg (by simpa using Nat.ne_of_gt hcap)]
        exact bind_eq_ok.mpr ⟨bs',hbs',bind_eq_ok.mpr ⟨rest',hrest',rfl⟩⟩
      · rw [Nat.sub_eq_zero_of_le hle,gatherUpTo_zero] at hrest'
        cases hrest'
        rfl

theorem length_le_of_gather {g : α → Except ε (List β)} (hpos : ∀ a ∈ as, ∀ bs, g a = .ok bs → bs≠[])
    (h : gather g as = .ok whole) : as.length≤whole.length := by
  induction as generalizing whole with
  | nil => exact Nat.zero_le _
  | cons a as ih =>
    obtain ⟨bs,hbs,h⟩ := bind_eq_ok.mp h
    obtain ⟨rest,hrest,⟨⟩⟩ := bind_eq_ok.mp h
    have hone := length_pos_iff.mpr (hpos a (.head _) bs hbs)
    have hrest := ih (fun a ha => hpos a (.tail _ ha)) hrest
    rw [length_cons,length_append]
    omega

theorem exists_gatherUpTo_of_fills (hinput : Fills cap as' as) (hpos : ∀ a ∈ as, ∀ bs, f none a = .ok bs → bs≠[])
    (hstep : ∀ a ∈ as, ∀ room bs, 0<room → f none a = .ok bs → ∃ bs', f (some room) a = .ok bs' ∧ Fills room bs' bs)
    (h : gather (f none) as = .ok whole) : ∃ part, gatherUpTo f (some cap) as' = .ok part ∧ Fills cap part whole := by
  obtain ⟨more,rfl⟩ := hinput.1
  obtain ⟨first,rest,hfirst,hrest,rfl⟩ := gather_append.mp h
  obtain ⟨part,hpart,hfills⟩ := exists_gatherUpTo cap (fun a ha => hstep a (mem_append_left _ ha)) hfirst
  refine ⟨part,hpart,?_⟩
  rcases hinput.eq_or_le with heq | hle
  · obtain rfl : more=[] := by simpa using heq
    cases hrest
    rwa [append_nil]
  · refine fills_of_le (hfills.1.trans (prefix_append _ _)) ?_
    have := length_le_of_gather (fun a ha => hpos a (mem_append_left _ ha)) hfirst
    have := hfills.2
    omega

theorem exists_gather_one_of_fills {g : α → Except ε β} (hinput : Fills cap as' as)
    (h : gather (fun a => do
      let b ← g a
      pure [b]) as = .ok whole) :
    ∃ part, gather (fun a => do
      let b ← g a
      pure [b]) as' = .ok part ∧ Fills cap part whole := by
  obtain ⟨more,rfl⟩ := hinput.1
  obtain ⟨part,rest,hpart,hrest,rfl⟩ := gather_append.mp h
  refine ⟨part,hpart,prefix_append _ _,?_⟩
  rw [gather_one_eq_ok] at hpart hrest
  rw [length_append,← hpart.length_eq,← hrest.length_eq,← length_append]
  exact hinput.2

end

/-- The input is pulled in rounds, each up to four times as far as the one before, until there are `cap` results
or nothing is left. -/
def inRounds (run : Nat → List α → Except ε (List β)) : Nat → Nat → Nat → Nat → List α → Except ε (List β)
  | 0, _, _, _, _ => .ok []
  | rounds+1, want, seen, cap, as => do
    let fresh := as.take (want-seen)
    let out ← run cap fresh
    if cap≤out.length||fresh.length<want-seen then pure out
    else
      let rest ← inRounds run rounds (4*want) (seen+fresh.length) (cap-out.length) (as.drop (want-seen))
      pure (out++rest)

theorem exists_inRounds {run : Nat → List α → Except ε (List β)}
    (hrun : ∀ cap as whole, gather f as = .ok whole → ∃ part, run cap as = .ok part ∧ Fills cap part whole)
    (cap : Nat) (hrounds : as.length<rounds) (hwant : seen<want) (h : gather f as = .ok whole) :
    ∃ part, inRounds run rounds want seen cap as = .ok part ∧ Fills cap part whole := by
  induction rounds generalizing want seen cap as whole with
  | zero => exact absurd hrounds (Nat.not_lt_zero _)
  | succ rounds ih =>
    rw [← take_append_drop (want-seen) as] at h
    obtain ⟨first,rest,hfirst,hrest,rfl⟩ := gather_append.mp h
    obtain ⟨out,hout,hfills⟩ := hrun cap _ _ hfirst
    rw [inRounds]
    simp only [hout,bind,Except.bind]
    split
    · rename_i hstop
      refine ⟨out,rfl,?_⟩
      rcases hfills.eq_or_le with rfl | hle
      · rw [Bool.or_eq_true,decide_eq_true_eq,decide_eq_true_eq] at hstop
        rcases hstop with hle | hshort
        · exact fills_of_le (prefix_append _ _) hle
        · -- the round has come to the end of the input
          rw [length_take] at hshort
          rw [drop_of_length_le (by omega)] at hrest
          cases hrest
          rw [append_nil]
          exact .refl _ _
      · exact fills_of_le (hfills.1.trans (prefix_append _ _)) hle
    · rename_i hgo
      rw [Bool.or_eq_true,decide_eq_true_eq,decide_eq_true_eq,not_or,Nat.not_le,Nat.not_lt,length_take] at hgo
      obtain ⟨part,hpart,hmore⟩ : ∃ part, inRounds run rounds (4*want) (seen+(as.take (want-seen)).length)
          (cap-out.length) (as.drop (want-seen)) = .ok part ∧ Fills (cap-out.length) part rest :=
        ih _ (by rw [length_drop]; omega) (by rw [length_take]; omega) hrest
      refine ⟨out++part,by rw [hpart]; rfl,hfills.append hmore fun hle => absurd hle (Nat.not_le.mpr hgo.1)⟩

end NamiDB.Lib
