import NamiDB.Lib.Lift
import NamiDB.Storage.ManifestStore

/-! The requests that the operations of the manifest store send, and the errors they end in. -/
namespace NamiDB.Storage.ManifestStore
open Lib

variable {K : Request → Prop} {G : Error → Prop} {α : Type} {p : StoreM α} {e : Error}

/-- `p` sends requests in `K` only, and its errors are in `G`. -/
abbrev Sends (K : Request → Prop) (G : Error → Prop) {α : Type} (p : StoreM α) : Prop :=
  p.run.Ends K fun r => ∀ e, r = .error e → G e

theorem Sends.ret (a : α) : Sends K G (pure a) := nofun

theorem Sends.fail (he : G e) : Sends K G (throw e : StoreM α) := by
  rintro _ ⟨⟩
  exact he

theorem Sends.bind (hp : Sends K G p) (hf : ∀ a, Sends K G (f a)) : Sends K G (p >>= f) := by
  unfold Sends
  refine Prog.Ends.bind hp fun r hr => ?_
  cases r with
  | ok a => exact hf a
  | error e => exact Sends.fail (hr e rfl)

theorem Sends.ask_bind {f : Reply o → StoreM α} (ho : K o) (hf : ∀ r, Sends K G (f r)) :
    Sends K G (ask o >>= f) := ⟨ho,hf⟩

theorem Sends.attempt_bind {f : Except Error α → StoreM β} (hp : Sends K G p)
    (hf : ∀ r, (∀ e, r = .error e → G e) → Sends K G (f r)) : Sends K G (attempt p >>= f) := by
  unfold Sends
  rw [run_attempt_bind]
  exact Prog.Ends.bind hp hf

theorem Sends.require [Decidable c] (he : G e) : Sends K G (require c e) := by
  unfold Storage.require
  split
  · exact .ret ()
  · exact .fail he

/-- The requests that find the current pointer. -/
def seeks : Request → Bool
  | .list .pointers | .head (.pointerVersion _) | .get .currentPointer => true
  | _ => false

/-- What a commit sends once its body is in place or refused. -/
def settles : Request → Bool
  | .list .pointers | .head (.pointerVersion _) | .get _ => true
  | .enter (.casPointer _ _ _) | .putCreate (.pointerVersion _) _ | .put .currentPointer _ => true
  | _ => false

theorem settles_of_seeks (o : Request) (h : seeks o=true) : settles o=true := by
  unfold seeks at h
  split at h <;> first | rfl | cases h

/-- The requests that judge a body: reads, and the fence at an empty WAL slot. -/
def judges : Request → Bool
  | .get _ | .head _ | .list _ | .putCreate (.walSegment _) _ | .never => true
  | _ => false

section
variable (hG : ∀ e, e.isLostRace=false → G e)
include hG

theorem sends_ofStore (r : Except StoreError α) : Sends K G (ofStore r) := by
  cases r with
  | ok a => exact .ret a
  | error e => exact .fail (hG _ rfl)

section
variable (hK : ∀ o, seeks o=true → K o)
include hK

theorem sends_probeLoop (n fuel : Nat) : Sends K G (probeLoop n fuel) := by
  induction fuel generalizing n with
  | zero => exact .fail (hG _ rfl)
  | succ fuel ih =>
    refine .ask_bind (hK _ rfl) fun r => ?_
    match r with
    | .ok _ => exact ih (n+1)
    | .error .notFound => exact .ret n
    | .error .alreadyExists | .error .other => exact .fail (hG _ rfl)

theorem sends_maxPointerVersion : Sends K G maxPointerVersion := by
  refine .ask_bind (hK _ rfl) fun r => .bind (sends_ofStore hG r) fun metas => ?_
  split
  · exact .ret _
  · refine .ask_bind (hK _ rfl) fun r0 => ?_
    split
    · exact .ret _
    · refine .ask_bind (hK _ rfl) fun r1 => ?_
      split
      · refine .ask_bind (hK _ rfl) fun r2 => ?_
        split <;> exact .ret _
      · exact .ret _

end

theorem sends_existingBodyIsOurs (hK : K (.get path)) (new : Manifest) :
    Sends K G (existingBodyIsOurs path new) := by
  refine .ask_bind hK fun r => ?_
  match r with
  | .error .notFound => exact .ret _
  | .error .alreadyExists | .error .other => exact .fail (hG _ rfl)
  | .ok existing =>
    dsimp only
    split
    · exact .ret _
    · cases existing <;> exact .ret _

theorem sends_publishOrphan (hput : ∀ b, K (.putCreate (.pointerVersion version) b))
    (hcur : ∀ b, K (.put .currentPointer b)) : Sends K G (publishOrphan version orphan) := by
  refine .attempt_bind (.ask_bind (hput _) (sends_ofStore hG)) fun r hr => ?_
  cases r with
  | ok u => exact .ask_bind (hcur _) (sends_ofStore hG)
  | error e =>
    dsimp only
    split
    · exact .ret ()
    · exact .fail (hr e rfl)

section
variable (hK : ∀ o, judges o=true → K o)
include hK

theorem sends_sstsDurable (ssts : List SstDescriptor) : Sends K G (sstsDurable ssts) := by
  induction ssts with
  | nil => exact .ret true
  | cons sst rest ih =>
    refine .ask_bind (hK _ rfl) fun r => ?_
    match r with
    | .error .notFound => exact .ret false
    | .error .alreadyExists | .error .other => exact .fail (hG _ rfl)
    | .ok _ =>
      dsimp only
      split
      · exact ih
      · split
        · refine .ask_bind (hK _ rfl) fun r => ?_
          match r with
          | .error .notFound => exact .ret false
          | .error .alreadyExists | .error .other => exact .fail (hG _ rfl)
          | .ok info =>
            dsimp only
            split
            · exact ih
            · exact .ret false
        · exact .ret false

variable [ContentHash]

theorem sends_walSlotMatches (seq : Nat) (lastLsn : Lsn) (hash : Option Nat) (fuel : Nat) :
    Sends K G (walSlotMatches seq lastLsn hash fuel) := by
  induction fuel with
  | zero => exact .ask_bind (hK _ rfl) fun r => nomatch r
  | succ fuel ih =>
    refine .ask_bind (hK _ rfl) fun r => ?_
    match r with
    | .error .alreadyExists | .error .other => exact .fail (hG _ rfl)
    | .error .notFound =>
      refine .ask_bind (hK _ rfl) fun r => ?_
      match r with
      | .ok () => exact .ret false
      | .error .alreadyExists => exact ih
      | .error .notFound | .error .other => exact .fail (hG _ rfl)
    | .ok bytes => cases bytes <;> exact .ret _

theorem sends_walSegmentsDurable (fuel : Nat) (segs : List WalSegmentDescriptor) :
    Sends K G (walSegmentsDurable fuel segs) := by
  induction segs with
  | nil => exact .ret true
  | cons seg rest ih =>
    unfold walSegmentsDurable
    split
    · refine .bind (sends_walSlotMatches hG hK _ _ _ _) fun durable => ?_
      split
      · exact ih
      · exact .ret false
    · exact .ret false

end
end

section
variable (hG : ∀ e, G e) (hK : ∀ o, settles o=true → K o)
include hG hK

theorem sends_loadCurrent : Sends K G loadCurrent := by
  have hseeks : ∀ o, seeks o=true → K o := fun o h => hK o (settles_of_seeks o h)
  have hget : ∀ path, Sends K G (ask (.get path) >>= fun r => ofStore r >>= parsePointer) := fun path => by
    refine .ask_bind (hK _ rfl) fun r => .bind (sends_ofStore (fun e _ => hG e) r) fun body => ?_
    cases body <;> first | exact .ret _ | exact .fail (hG _)
  refine .bind (.bind (sends_maxPointerVersion (fun e _ => hG e) hseeks) fun r => ?_) fun pointer => ?_
  · cases r with
    | none => exact hget _
    | some maxN => exact .bind (sends_probeLoop (fun e _ => hG e) hseeks maxN maxProbe) fun n => hget _
  · refine .ask_bind (hK _ rfl) fun r => .bind (sends_ofStore (fun e _ => hG e) r) fun body => ?_
    cases body with
    | manifest m => exact .bind (.ret m) fun _ => .bind (.require (hG _)) fun _ => .ret _
    | _ => exact .fail (hG _)

theorem sends_lostTo (fence : WriterFence) (expected : Nat) (found : LoadedManifest → Nat) :
    Sends K G (lostTo fence expected found) := by
  refine .bind (sends_loadCurrent hG hK) fun reloaded => ?_
  split <;> exact .fail (hG _)

theorem sends_settleBody (fence : WriterFence) (base : LoadedManifest) (new : Manifest) (r : Except Error Unit) :
    Sends K G (settleBody fence base new r) := by
  cases r with
  | ok u => exact .ret u
  | error e =>
    simp only [settleBody]
    split
    · refine .bind (sends_existingBodyIsOurs (fun e _ => hG e) (hK _ rfl) new) fun ours => ?_
      cases ours with
      | true => exact .ret ()
      | false => exact sends_lostTo hG hK _ _ _
    · exact .fail (hG _)

theorem sends_casPointer (fence : WriterFence) (base : LoadedManifest) (new : Manifest) (pointer : ManifestPointer) :
    Sends K G (casPointer fence base new pointer) := by
  have hstore := sends_ofStore (K := K) (G := G) (α := Unit) fun e _ => hG e
  refine .ask_bind (hK _ rfl) fun _ => .attempt_bind (.ask_bind (hK _ rfl) hstore) fun r _ => ?_
  refine .bind (p := settlePointer fence base r) ?_ fun _ => ?_
  · cases r with
    | ok u => exact .ret u
    | error e =>
      simp only [settlePointer]
      split
      · exact sends_lostTo hG hK _ _ _
      · exact .fail (hG _)
  · exact .bind (.ask_bind (hK _ rfl) hstore) fun _ => .ret _

end
end NamiDB.Storage.ManifestStore
