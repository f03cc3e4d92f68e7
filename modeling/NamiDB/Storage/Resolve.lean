import NamiDB.Lib.Solo
import NamiDB.Storage.ManifestStore

/-! Finding the current pointer with a LIST that lags behind. GET and HEAD of one key see what is there. -/
namespace NamiDB.Storage
open Lib ManifestStore

def atRest (w : World) (listed : List ObjectMeta) : (o : Request) → Option (Reply o)
  | .get p => some (found (w.body p))
  | .head p => some (found (w.stat p))
  | .list _ => some (.ok listed)
  | _ => none

/-- Where the probe begins: at the highest version listed, or else at `p0`, or else at the version
that `current.json` names. -/
inductive StartsAt (w : World) (listed : List ObjectMeta) : Nat → Prop
  | listed {v : Nat} (h : maxListed listed=some v) : StartsAt w listed v
  | oldest (h : maxListed listed=none) (h₀ : w.body (.pointerVersion 0)≠none) : StartsAt w listed 0
  | advisory {p : ManifestPointer} (h : maxListed listed=none) (h₀ : w.body (.pointerVersion 0)=none)
      (hp : w.body .currentPointer=some (.pointer p)) : StartsAt w listed p.version

/-- The pointers from `start` to `current` are all there, and none is above. -/
structure Family (w : World) (start current : Nat) : Prop where
  le : start≤current
  present : ∀ v, start≤v → v≤current → ∃ p, w.body (.pointerVersion v)=some (.pointer p) ∧ p.version=v
  above : ∀ v, current<v → w.body (.pointerVersion v)=none

def resolution (w : World) (listed : List ObjectMeta) : Option (Except Error ManifestPointer) :=
  loadPointer.run.eval (atRest w listed)

/-- The outcome that the probe window promises, a distance of exactly `maxProbe` included. -/
def Resolved (w : World) (listed : List ObjectMeta) (start current : Nat) : Prop :=
  if current-start ≤ maxProbe then ∃ p, resolution w listed=some (.ok p) ∧ p.version=current
  else resolution w listed=some (.error .pointerResolveStale)

section
variable {w : World} {listed : List ObjectMeta} {start current : Nat} {p : Path}

theorem stat_eq_none_iff : w.stat p=none ↔ w.body p=none := by
  simp [World.stat,World.body]

theorem head_of_none (h : w.body p=none) : atRest w listed (.head p)=some (.error .notFound) := by
  simp [atRest,stat_eq_none_iff.mpr h,found]

theorem head_of_some (listed : List ObjectMeta) (h : w.body p≠none) :
    ∃ info, atRest w listed (.head p)=some (.ok info) := by
  obtain ⟨info,hi⟩ := Option.ne_none_iff_exists'.mp fun hn => h (stat_eq_none_iff.mp hn)
  exact ⟨info,by simp [atRest,hi,found]⟩

theorem Family.body_ne_none (h : Family w start current) (hv : start≤v) (hc : v≤current) :
    w.body (.pointerVersion v)≠none := by
  obtain ⟨p,hp,-⟩ := h.present v hv hc
  simp [hp]

theorem eval_ask {r : Reply o} (h : reply o=some r) (f : Reply o → StoreM α) :
    (ask o >>= f).run.eval reply=(f r).run.eval reply := by
  change (reply o).bind _ = _
  rw [h]
  rfl

theorem eval_pure (a : α) (f : α → StoreM β) : (pure a >>= f).run.eval reply=(f a).run.eval reply := rfl

theorem eval_maxPointerVersion (hs : StartsAt w listed start) (h : Family w start current) :
    maxPointerVersion.run.eval (atRest w listed)=some (.ok (some start)) := by
  have hstart := head_of_some listed (h.body_ne_none le_rfl h.le)
  refine (eval_ask (o := .list .pointers) (r := .ok listed) rfl _).trans ((eval_pure listed _).trans ?_)
  cases hs with
  | listed hl =>
    rw [hl]
    rfl
  | oldest hl h0 =>
    obtain ⟨info,hi⟩ := hstart
    rw [hl]
    exact eval_ask hi _
  | advisory hl h0 hp =>
    obtain ⟨info,hi⟩ := hstart
    rw [hl]
    refine (eval_ask (head_of_none h0) _).trans ?_
    refine (eval_ask (show atRest w listed (.get .currentPointer) = _ by rw [atRest,hp]) _).trans ?_
    exact eval_ask hi _

/-- The window has to reach one past the current version: the probe that misses is spent too. -/
theorem eval_probeLoop (h : Family w start current) (fuel : Nat) (hn : start≤n) (hc : n≤current) :
    (probeLoop n fuel).run.eval (atRest w listed) =
      some (if current-n<fuel then .ok current else .error .pointerResolveStale) := by
  induction fuel generalizing n with
  | zero => rfl
  | succ fuel ih =>
    unfold probeLoop
    obtain hlt | heq := Nat.lt_or_eq_of_le hc
    · obtain ⟨info,hi⟩ := head_of_some listed (h.body_ne_none (v := n+1) (by omega) hlt)
      rw [eval_ask hi,ih (by omega) hlt]
      have hiff : current-(n+1)<fuel ↔ current-n<fuel+1 := by omega
      simp [hiff]
    · rw [eval_ask (head_of_none (h.above (n+1) (by omega))),if_pos (by omega),heq]
      rfl

theorem resolution_eq (hs : StartsAt w listed start) (h : Family w start current) :
    ∃ p, p.version=current ∧ resolution w listed =
      some (if current-start < maxProbe then .ok p else .error .pointerResolveStale) := by
  obtain ⟨p,hp,hv⟩ := h.present current h.le le_rfl
  refine ⟨p,hv,?_⟩
  unfold resolution loadPointer
  rw [eval_exceptBind,eval_maxPointerVersion hs h]
  simp only [Option.bind_some]
  rw [eval_exceptBind,probePointerForward,eval_probeLoop h maxProbe le_rfl h.le]
  split
  · refine (eval_ask (show atRest w listed (.get (.pointerVersion current)) = _ by rw [atRest,hp]) _).trans ?_
    rfl
  · rfl

/-- The resolution keeps the promise of its window unless the current version is exactly `maxProbe` ahead,
and it never answers with another version. -/
theorem pointer_resolved_iff (hs : StartsAt w listed start) (h : Family w start current) :
    (Resolved w listed start current ↔ current - start ≠ maxProbe) ∧
      ∀ p, resolution w listed = some (.ok p) → p.version = current := by
  obtain ⟨p,hv,he⟩ := resolution_eq hs h
  rw [Resolved,he]
  by_cases hlt : current-start < maxProbe
  · rw [if_pos hlt,if_pos (Nat.le_of_lt hlt)]
    refine ⟨iff_of_true ⟨p,rfl,hv⟩ (Nat.ne_of_lt hlt),fun q hq => ?_⟩
    cases hq
    exact hv
  · rw [if_neg hlt]
    refine ⟨?_,nofun⟩
    split
    · exact iff_of_false nofun (by omega)
    · exact iff_of_true rfl (by omega)

end

def pointersUpTo : Nat → World
  | 0 => World.set ⟨∅,[],[],[]⟩ (.pointerVersion 0) (.pointer ⟨0,0,.manifestVersion 0⟩) 0
  | n+1 => (pointersUpTo n).set (.pointerVersion (n+1)) (.pointer ⟨n+1,0,.manifestVersion (n+1)⟩) 0

theorem body_pointersUpTo (n v : Nat) : (pointersUpTo n).body (.pointerVersion v) =
    if v≤n then some (.pointer ⟨v,0,.manifestVersion v⟩) else none := by
  induction n with
  | zero =>
    rw [pointersUpTo,World.body_set]
    by_cases hv : v=0
    · simp [hv]
    · rw [if_neg (by simpa using hv),if_neg (by omega)]
      rfl
  | succ n ih =>
    rw [pointersUpTo,World.body_set]
    by_cases hv : v=n+1
    · simp [hv]
    · rw [if_neg (by simpa using hv),ih]
      have hiff : v≤n ↔ v≤n+1 := by omega
      simp [hiff]

theorem family_pointersUpTo (n : Nat) : Family (pointersUpTo n) 0 n where
  le := Nat.zero_le n
  present v _ hv := ⟨_,by rw [body_pointersUpTo,if_pos hv],rfl⟩
  above v hv := by rw [body_pointersUpTo,if_neg (by omega)]

theorem startsAt_pointersUpTo (n : Nat) : StartsAt (pointersUpTo n) [] 0 :=
  .oldest rfl ((family_pointersUpTo n).body_ne_none le_rfl (Nat.zero_le n))

theorem pointer_resolved_three : Resolved (pointersUpTo 3) [] 0 3 :=
  (pointer_resolved_iff (startsAt_pointersUpTo 3) (family_pointersUpTo 3)).1.mpr (by decide)

theorem pointer_stale_at_maxProbe : StartsAt (pointersUpTo maxProbe) [] 0 ∧
    Family (pointersUpTo maxProbe) 0 maxProbe ∧ maxProbe-0 ≤ maxProbe ∧
    resolution (pointersUpTo maxProbe) []=some (.error .pointerResolveStale) := by
  refine ⟨startsAt_pointersUpTo _,family_pointersUpTo _,le_rfl,?_⟩
  obtain ⟨p,-,he⟩ := resolution_eq (startsAt_pointersUpTo maxProbe) (family_pointersUpTo maxProbe)
  rw [he,if_neg (by omega)]

end NamiDB.Storage
