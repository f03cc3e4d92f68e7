import Mathlib.Data.List.Forall2

/-! Loops that stop at the first error and otherwise collect what every element gives. -/
namespace NamiDB.Lib
open List

universe u

variable {ε α : Type*} {β : Type u}
variable {as : List α} {f : α → Except ε (List β)} {out : List β} {bs : List β}

theorem bind_eq_ok {α β : Type u} {x : Except ε α} {f : α → Except ε β} {b : β} :
    x >>= f = .ok b ↔ ∃ a, x = .ok a ∧ f a = .ok b := by
  cases x with
  | error e | ok a => simp [bind,Except.bind]

def returned : Except ε (List β) → List β
  | .ok l => l
  | .error _ => []

@[simp] theorem returned_ok (l : List β) : returned (.ok l : Except ε (List β))=l := rfl

def gather (f : α → Except ε (List β)) : List α → Except ε (List β)
  | [] => .ok []
  | a::as => do
    let bs ← f a
    let rest ← gather f as
    pure (bs++rest)

theorem gather_eq_ok : gather f as = .ok out ↔
      (∀ a ∈ as, ∃ bs, f a = .ok bs) ∧ out=as.flatMap fun a => returned (f a) := by
  induction as generalizing out with
  | nil => simp [gather,eq_comm]
  | cons a as ih =>
    rw [gather,bind_eq_ok,forall_mem_cons,flatMap_cons]
    constructor
    · rintro ⟨bs,hbs,h⟩
      obtain ⟨rest,hrest,h⟩ := bind_eq_ok.mp h
      obtain ⟨hall,rfl⟩ := ih.mp hrest
      cases h
      exact ⟨⟨⟨bs,hbs⟩,hall⟩,by rw [hbs,returned_ok]⟩
    · rintro ⟨⟨⟨bs,hbs⟩,hall⟩,rfl⟩
      refine ⟨bs,hbs,bind_eq_ok.mpr ⟨_,ih.mpr ⟨hall,rfl⟩,?_⟩⟩
      rw [hbs,returned_ok]
      rfl

theorem gather_of_ok (h : ∀ a ∈ as, f a = .ok (g a)) : gather f as = .ok (as.flatMap g) := by
  refine gather_eq_ok.mpr ⟨fun a ha => ⟨g a,h a ha⟩,flatMap_congr fun a ha => ?_⟩
  rw [h a ha]
  rfl

theorem gather_append : gather f (as++as') = .ok out ↔
      ∃ bs bs', gather f as = .ok bs ∧ gather f as' = .ok bs' ∧ out=bs++bs' := by
  simp only [gather_eq_ok,forall_mem_append,flatMap_append]
  constructor
  · rintro ⟨⟨h,h'⟩,rfl⟩
    exact ⟨_,_,⟨h,rfl⟩,⟨h',rfl⟩,rfl⟩
  · rintro ⟨_,_,⟨h,rfl⟩,⟨h',rfl⟩,rfl⟩
    exact ⟨⟨h,h'⟩,rfl⟩

theorem gather_one_eq_ok {f : α → Except ε β} :
    gather (fun a => do
      let b ← f a
      pure [b]) as = .ok out ↔ Forall₂ (fun a b => f a = .ok b) as out := by
  induction as generalizing out with
  | nil => simp [gather,eq_comm]
  | cons a as ih =>
    rw [gather,bind_eq_ok,forall₂_cons_left_iff]
    constructor
    · rintro ⟨bs,hbs,h⟩
      obtain ⟨rest,hrest,h⟩ := bind_eq_ok.mp h
      obtain ⟨b,hb,⟨⟩⟩ := bind_eq_ok.mp hbs
      cases h
      exact ⟨b,rest,hb,ih.mp hrest,rfl⟩
    · rintro ⟨b,rest,hb,hrest,rfl⟩
      exact ⟨[b],bind_eq_ok.mpr ⟨b,hb,rfl⟩,bind_eq_ok.mpr ⟨rest,ih.mpr hrest,rfl⟩⟩

theorem exists_gather_one {f : α → Except ε β} (h : ∀ a ∈ as, ∃ b, f a = .ok b) :
    ∃ out, gather (fun a => do
      let b ← f a
      pure [b]) as = .ok out := by
  simp only [gather_one_eq_ok]
  induction as with
  | nil => exact ⟨[],.nil⟩
  | cons a as ih =>
    obtain ⟨b,hb⟩ := h a (.head _)
    obtain ⟨out,hout⟩ := ih fun a ha => h a (.tail _ ha)
    exact ⟨b::out,.cons hb hout⟩

/-- The same loop, which stops before an element once there are `cap` results. An element is told how many are
still asked for. -/
def gatherUpTo (f : Option Nat → α → Except ε (List β)) : Option Nat → List α → Except ε (List β)
  | _, [] => .ok []
  | cap, a::as =>
    if cap=some 0 then .ok []
    else do
      let bs ← f cap a
      let rest ← gatherUpTo f (cap.map (·-bs.length)) as
      pure (bs++rest)

theorem gatherUpTo_none (f : Option Nat → α → Except ε (List β)) (as : List α) :
    gatherUpTo f none as=gather (f none) as := by
  induction as with
  | nil => rfl
  | cons a as ih => simp [gatherUpTo,gather,ih]

theorem mem_of_forall₂_left (h : Forall₂ R as bs) (ha : a∈as) : ∃ b ∈ bs, R a b := by
  induction h with
  | nil => cases ha
  | cons hr _ ih =>
    rcases mem_cons.mp ha with rfl | ha
    · exact ⟨_,.head _,hr⟩
    · obtain ⟨b,hb,hr⟩ := ih ha
      exact ⟨b,.tail _ hb,hr⟩

theorem mem_of_forall₂_right (h : Forall₂ R as bs) (hb : b∈bs) : ∃ a ∈ as, R a b :=
  mem_of_forall₂_left (Forall₂.flip h) hb

theorem map_eq_map {f : α → γ} {g : β → γ} (h : Forall₂ R as bs) (heq : ∀ a ∈ as, ∀ b, R a b → f a=g b) :
    as.map f=bs.map g := by
  induction h with
  | nil => rfl
  | cons hr _ ih =>
    rw [map_cons,map_cons,heq _ mem_cons_self _ hr,ih fun a ha => heq a (.tail _ ha)]

end NamiDB.Lib
