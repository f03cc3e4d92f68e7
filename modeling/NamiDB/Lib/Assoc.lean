import Mathlib.Data.List.AList

/-! Finite maps that a loop updates one key at a time. -/
namespace NamiDB.Lib

section

variable {σ : Type*} [DecidableEq ι]

theorem foldl_view (step : σ → ι → σ) (view : σ → ι → V) (g : ι → V → V)
    (hother : ∀ s c a, a≠c → view (step s c) a=view s a) (hown : ∀ s c, view (step s c) c=g c (view s c))
    {l : List ι} (hl : l.Nodup) (s : σ) (a : ι) :
    view (l.foldl step s) a=if a∈l then g a (view s a) else view s a := by
  induction l generalizing s with
  | nil => simp
  | cons c l ih =>
    obtain ⟨hc,hl⟩ := List.nodup_cons.mp hl
    rw [List.foldl_cons,ih hl]
    by_cases ha : a=c
    · subst ha
      simp [hc,hown]
    · simp [ha,hother s c a ha]

variable {α : Type*} [DecidableEq α] {β : α → Type*} {W : α → Type*}

theorem foldl_entries_view (step : σ → Sigma β → σ) (view : σ → (a : α) → W a) (g : (a : α) → β a → W a → W a)
    (hother : ∀ s e a, a≠e.1 → view (step s e) a=view s a) (hown : ∀ s e, view (step s e) e.1=g e.1 e.2 (view s e.1))
    (m : AList β) (s : σ) (a : α) : view (m.entries.foldl step s) a=match m.lookup a with
      | some b => g a b (view s a)
      | none => view s a := by
  obtain ⟨l,hl⟩ := m
  show view (l.foldl step s) a=match l.dlookup a with
      | some b => g a b (view s a)
      | none => view s a
  induction l generalizing s with
  | nil => rfl
  | cons e l ih =>
    obtain ⟨k,b⟩ := e
    obtain ⟨hk,hl⟩ := List.nodupKeys_cons.mp hl
    rw [List.foldl_cons,ih _ hl]
    by_cases ha : a=k
    · subst ha
      rw [List.dlookup_cons_eq,List.dlookup_eq_none.mpr hk]
      exact hown s ⟨a,b⟩
    · rw [List.dlookup_cons_ne _ _ ha,hother s ⟨k,b⟩ a ha]

end

section

variable {α : Type*} [DecidableEq α] {β : α → Type*}

def orInsert (m : AList β) (k : α) (v : β k) : AList β :=
  match m.lookup k with
  | some _ => m
  | none => m.insert k v

@[simp] theorem lookup_orInsert_same (m : AList β) (k : α) (v : β k) :
    (orInsert m k v).lookup k=(m.lookup k).or (some v) := by
  unfold orInsert
  split <;> simp [*]

theorem lookup_orInsert_ne (m : AList β) (v : β k) (h : a≠k) : (orInsert m k v).lookup a=m.lookup a := by
  unfold orInsert
  split
  · rfl
  · exact AList.lookup_insert_ne h

def orInsertAll (m other : AList β) : AList β :=
  other.entries.foldl (fun m e => orInsert m e.1 e.2) m

@[simp] theorem lookup_orInsertAll (m other : AList β) (a : α) :
    (orInsertAll m other).lookup a=(m.lookup a).or (other.lookup a) := by
  rw [orInsertAll,foldl_entries_view _ (fun (m : AList β) a => m.lookup a)
    (fun _ v old => old.or (some v)) (fun _ _ _ ha => lookup_orInsert_ne _ _ ha)
    (fun _ _ => lookup_orInsert_same _ _ _)]
  split <;> simp [*]

end
end NamiDB.Lib
