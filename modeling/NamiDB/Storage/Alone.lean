import NamiDB.Lib.Solo
import NamiDB.Storage.ManifestStore

/-! Programs of the engine that have the object store to themselves. Any request may fail and a write may land
unreported, but a listing is the one of the moment. -/
namespace NamiDB.Storage
open Lib ManifestStore List

/-- Every request may fail, and a LIST sees what is there. -/
def Faults.listing : Faults := ⟨true,true,true,false⟩

variable {w : World}

theorem mem_listing : info∈w.listing d ↔
    ∃ o, w.objects.lookup info.location=some o ∧ d.covers info.location=true ∧
      info=⟨info.location,o.body.size,o.lastModified⟩ := by
  simp only [World.listing,mem_map,mem_filter]
  constructor
  · rintro ⟨⟨p,o⟩,⟨he,hc⟩,rfl⟩
    exact ⟨o,AList.mem_lookup_iff.mpr he,hc,rfl⟩
  · rintro ⟨o,ho,hc,he⟩
    exact ⟨⟨info.location,o⟩,⟨AList.mem_lookup_iff.mp ho,hc⟩,he.symm⟩

theorem body_eq_some : w.body p=some b ↔ ∃ o, w.objects.lookup p=some o ∧ o.body=b := by
  simp [World.body]

section

variable {σ : Type} {sem : Semantics σ Reply} {s : σ}

theorem Does.ask_bind (h : ∀ r s', sem s o r s' → I s' ∧ Does sem I (f r) P E s') :
    Does sem I (ask o >>= f) P E s := by
  refine .bind (P := fun r s' => Does sem I (f r) P E s') ?_ fun _ _ h => h
  exact .request fun _ r s' hs => h r s' hs

theorem Does.ofStore_bind {f : α → StoreM β} (hok : ∀ a, r = .ok a → Does sem I (f a) P E s)
    (herr : ∀ e, r = .error e → E (.objectStore e) s) : Does sem I (ofStore r >>= f) P E s := by
  cases r with
  | ok a => exact hok a rfl
  | error e => exact .fail (herr e rfl)

theorem Does.require_bind [Decidable c] (hok : c → Does sem I (f ()) P E s) (herr : ¬c → E e s) :
    Does sem I (require c e >>= f) P E s :=
  of_require_bind (motive := (Does sem I · P E s)) hok fun hc => .fail (herr hc)

end

section

def listedVersions (metas : List ObjectMeta) : List Nat :=
  metas.filterMap fun m => parsePointerVersion m.location

theorem listedVersions_cons (m : ObjectMeta) (metas : List ObjectMeta) :
    listedVersions (m::metas)=(parsePointerVersion m.location).toList++listedVersions metas := by
  rw [listedVersions,filterMap_cons]
  cases parsePointerVersion m.location <;> rfl

def raise (max : Option Nat) (m : ObjectMeta) : Option Nat :=
  match parsePointerVersion m.location with
  | some v => some (match max with | some m => Nat.max m v | none => v)
  | none => max

variable (metas : List ObjectMeta) {w : World}

theorem foldl_raise_some (a : Nat) : metas.foldl raise (some a)=some ((listedVersions metas).foldl max a) := by
  induction metas generalizing a with
  | nil => rfl
  | cons m metas ih =>
    rw [foldl_cons,listedVersions_cons,raise]
    cases parsePointerVersion m.location with
    | none => exact ih a
    | some v => exact ih (max a v)

theorem maxListed_eq_max? : maxListed metas=(listedVersions metas).max? := by
  show metas.foldl raise none = _
  induction metas with
  | nil => rfl
  | cons m metas ih =>
    rw [foldl_cons,listedVersions_cons,raise]
    cases parsePointerVersion m.location with
    | none => exact ih
    | some v => exact foldl_raise_some metas v

theorem maxListed_perm (h : a.Perm b) : maxListed a=maxListed b := by
  have hp : (listedVersions a).Perm (listedVersions b) := h.filterMap _
  rw [maxListed_eq_max?,maxListed_eq_max?]
  ext v
  rw [max?_eq_some_iff,max?_eq_some_iff]
  exact and_congr hp.mem_iff (forall_congr' fun u => imp_congr_left hp.mem_iff)

def topPointer (w : World) : Option Nat := maxListed (w.listing .pointers)

theorem mem_listedVersions :
    n∈listedVersions (w.listing .pointers) ↔ ∃ o, w.objects.lookup (.pointerVersion n)=some o := by
  simp only [listedVersions,mem_filterMap,mem_listing]
  constructor
  · rintro ⟨info,⟨o,ho,-,-⟩,hp⟩
    cases hl : info.location with
    | pointerVersion v =>
      rw [hl] at hp ho
      cases hp
      exact ⟨o,ho⟩
    | _ => simp [hl,parsePointerVersion] at hp
  · rintro ⟨o,ho⟩
    exact ⟨⟨.pointerVersion n,o.body.size,o.lastModified⟩,⟨o,ho,rfl,rfl⟩,rfl⟩

theorem stat_eq_none (h : n∉listedVersions (w.listing .pointers)) : w.stat (.pointerVersion n)=none := by
  cases ho : w.objects.lookup (.pointerVersion n) with
  | none => simp [World.stat,ho]
  | some o => exact absurd (mem_listedVersions.mpr ⟨o,ho⟩) h

theorem stat_above_topPointer (h : topPointer w=some v) (hn : v<n) : w.stat (.pointerVersion n)=none := by
  rw [topPointer,maxListed_eq_max?,max?_eq_some_iff] at h
  exact stat_eq_none fun hm => absurd (h.2 n hm) (by omega)

theorem stat_no_topPointer (n : Nat) (h : topPointer w=none) : w.stat (.pointerVersion n)=none := by
  rw [topPointer,maxListed_eq_max?,max?_eq_none_iff] at h
  exact stat_eq_none (by simp [h])

def currentFile (w : World) : Path :=
  match topPointer w with
  | some v => .pointerVersion v
  | none => .currentPointer

def currentOf (w : World) : Option LoadedManifest :=
  match w.body (currentFile w) with
  | some (.pointer p) =>
    match w.body p.manifestPath with
    | some (.manifest m) => if m.version=p.version then some ⟨p,m⟩ else none
    | _ => none
  | _ => none

end

section

def isRead : Request → Bool
  | .get _ | .getWithMeta _ | .head _ | .list _ => true
  | _ => false

variable {σ : Type} {sem : Semantics σ Reply} {world : σ → World}

def SeesWorld (sem : Semantics σ Reply) (world : σ → World) : Prop :=
  ∀ ⦃s o r s'⦄, isRead o=true → sem s o r s' → s'=s ∧ answers .listing (world s) o r (world s)

variable {s : σ} {p : Path}

section
variable (h : SeesWorld sem world)
include h

theorem SeesWorld.bind (ho : isRead o=true)
    (hf : ∀ r, answers .listing (world s) o r (world s) → Does sem I (f r) P E s) :
    Does sem I (ask o >>= f) P E s := by
  refine .bind (P := fun r s' => Does sem I (f r) P E s') (.request fun hI r s' hs => ?_) fun _ _ h => h
  obtain ⟨rfl,ha⟩ := h ho hs
  exact ⟨hI,hf r ha⟩

theorem SeesWorld.get_bind (hf : ∀ b, (world s).body p=some b → Does sem I (f (.ok b)) P E s)
    (hnone : (world s).body p=none → Does sem I (f (.error .notFound)) P E s)
    (hfail : Does sem I (f (.error .other)) P E s) : Does sem I (ask (.get p) >>= f) P E s := by
  refine h.bind (o := .get p) rfl fun r hr => ?_
  rcases hr.2 with rfl | ⟨-,rfl⟩
  · cases hb : (world s).body p with
    | none => exact hnone hb
    | some b => exact hf b hb
  · exact hfail

theorem SeesWorld.head_bind (hf : ∀ info, (world s).stat p=some info → Does sem I (f (.ok info)) P E s)
    (hnone : (world s).stat p=none → Does sem I (f (.error .notFound)) P E s)
    (hfail : Does sem I (f (.error .other)) P E s) : Does sem I (ask (.head p) >>= f) P E s := by
  refine h.bind (o := .head p) rfl fun r hr => ?_
  rcases hr.2 with rfl | ⟨-,rfl⟩
  · cases hb : (world s).stat p with
    | none => exact hnone hb
    | some b => exact hf b hb
  · exact hfail

theorem SeesWorld.list_bind {f : Except StoreError (List ObjectMeta) → StoreM α}
    (hf : ∀ l, l.Perm ((world s).listing d) → Does sem I (f (.ok l)) P E s)
    (hfail : Does sem I (f (.error .other)) P E s) : Does sem I (ask (.list d) >>= f) P E s := by
  refine h.bind (o := .list d) rfl fun r hr => ?_
  rcases hr.2 with ⟨l,hl,rfl⟩ | ⟨hF,-⟩ | ⟨-,rfl⟩
  · exact hf l hl
  · cases hF
  · exact hfail

theorem does_maxPointerVersion (hE : ∀ e, E e s) :
    Does sem I maxPointerVersion (fun r s' => s'=s ∧ r=topPointer (world s)) E s := by
  refine h.list_bind (fun l hl => ?_) (Does.fail (hE _))
  refine Does.ofStore_bind (fun metas hm => ?_) fun e he => hE _
  cases hm
  rw [topPointer,← maxListed_perm hl]
  split
  · next v hv => exact Does.ret ⟨rfl,hv.symm⟩
  · next hn =>
    have htop : topPointer (world s)=none := by rw [topPointer,← maxListed_perm hl,hn]
    have hstat := fun n => stat_no_topPointer n htop
    have hnothing : Does sem I (pure none) (fun r s' => s'=s ∧ r=maxListed l) E s := Does.ret ⟨rfl,hn.symm⟩
    have hadvisory : ∀ v, Does sem I (do
        if isOk (← ask (.head (.pointerVersion v))) then return some v else return none)
        (fun r s' => s'=s ∧ r=maxListed l) E s := by
      refine fun v => h.head_bind (fun info hi => ?_) (fun _ => hnothing) hnothing
      rw [hstat] at hi
      cases hi
    refine h.head_bind (fun info hi => ?_) (fun _ => ?_) ?_
    · rw [hstat] at hi
      cases hi
    all_goals
      refine h.get_bind (fun b _ => ?_) (fun _ => hnothing) hnothing
      cases b with
      | pointer p => exact hadvisory p.version
      | _ => exact hnothing

theorem does_probeLoop (hE : ∀ e, E e s) (fuel : Nat) (htop : topPointer (world s)=some n) :
    Does sem I (probeLoop n fuel) (fun r s' => s'=s ∧ r=n) E s := by
  cases fuel with
  | zero => exact .fail (hE _)
  | succ fuel =>
    refine h.head_bind (fun info hi => ?_) (fun _ => .ret ⟨rfl,rfl⟩) (.fail (hE _))
    rw [stat_above_topPointer htop (Nat.lt_succ_self n)] at hi
    cases hi

theorem does_loadPointer (hE : ∀ e, E e s) :
    Does sem I loadPointer (fun p s' => s'=s ∧ (world s).body (currentFile (world s))=some (.pointer p)) E s := by
  have hread : ∀ path, path=currentFile (world s) → Does sem I (do
      let body ← ofStore (← ask (.get path))
      parsePointer body) (fun p s' => s'=s ∧ (world s).body (currentFile (world s))=some (.pointer p)) E s := by
    rintro path rfl
    refine h.get_bind (fun b hb => ?_) (fun _ => Does.fail (hE _)) (Does.fail (hE _))
    refine Does.ofStore_bind (fun b' hb' => ?_) fun e he => hE _
    cases hb'
    cases b with
    | pointer p => exact Does.ret ⟨rfl,hb⟩
    | _ => exact Does.fail (hE _)
  refine Does.bind (does_maxPointerVersion h hE) fun top s' hs => ?_
  obtain ⟨rfl,htop⟩ := hs
  cases top with
  | none => exact hread _ (by rw [currentFile,← htop])
  | some n =>
    refine Does.bind (does_probeLoop h hE maxProbe htop.symm) fun r s'' hr => ?_
    obtain ⟨rfl,rfl⟩ := hr
    exact hread _ (by rw [currentFile,← htop])

theorem does_loadCurrent (hE : ∀ e, E e s) :
    Does sem I loadCurrent (fun l s' => s'=s ∧ currentOf (world s)=some l) E s := by
  refine Does.bind (does_loadPointer h hE) fun p s' hp => ?_
  obtain ⟨rfl,hp⟩ := hp
  refine h.get_bind (fun b hb => ?_) (fun _ => Does.fail (hE _)) (Does.fail (hE _))
  refine Does.ofStore_bind (fun b' hb' => ?_) fun e he => hE _
  cases hb'
  cases b with
  | manifest m =>
    refine Does.bind (P := fun m' s'' => s''=s' ∧ m'=m) (Does.ret ⟨rfl,rfl⟩) fun m' s'' hm => ?_
    obtain ⟨rfl,rfl⟩ := hm
    refine Does.require_bind (fun hv => ?_) fun _ => hE _
    refine Does.ret ⟨rfl,?_⟩
    simp only [currentOf,hp,hb]
    exact if_pos hv
  | _ =>
    refine Does.bind (P := fun _ _ => False) (Does.fail (hE _)) fun _ _ hf => hf.elim

theorem does_loadManifestAt (v : Nat) : Does sem I (loadManifestAt v)
      (fun m s' => s'=s ∧ (world s).body (.manifestVersion v)=some (.manifest m))
      (fun e s' => s'=s ∧ (e = .objectStore .notFound → (world s).body (.manifestVersion v)=none)) s := by
  refine h.get_bind (fun b hb => ?_) (fun hnone => .fail ⟨rfl,fun _ => hnone⟩) (.fail ⟨rfl,fun he => by cases he⟩)
  cases b with
  | manifest m => exact .ret ⟨rfl,hb⟩
  | _ => exact .fail ⟨rfl,fun he => by cases he⟩

end

end
end NamiDB.Storage
