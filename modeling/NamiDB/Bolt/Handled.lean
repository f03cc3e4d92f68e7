import NamiDB.Bolt.Steps

/-! Every handler answers the request it is given and keeps the invariant, or fails where a rollback
follows. -/
namespace NamiDB.Bolt
open Lib

variable {cfg : Config} {s : Session} {t : Trace} {d : Due} {body : List UInt8} {tx : TxStatus}

abbrev Handles (cfg : Config) (m : SessionM Unit) (s : Session) (t : Trace) : Prop :=
  Keeps cfg m (fun _ s' t' => At cfg [] s' t') (fun _ s' t' => Covered s' t') s t

section

theorem At.outside (hat : At cfg q s t) (hs : s.state.inTx=false) : Mid cfg q .none s t :=
  statusOf_eq_none hs ▸ hat.toMid

theorem handles_write (response : Response) (hs : response.isRecord=false) (hat : At cfg [body] s t) :
    Handles cfg (writeResponse response) s t :=
  acts_write response hs hat.toMid (fun _ hm => ⟨hm,hat.accepts⟩) fun _ _ hm => hm.covered rfl

theorem handles_enter_write (state : State) (response : Response) (hs : response.isRecord=false)
    (hm : Mid cfg [body] (statusOf state) s t)
    (ha : state.acceptsQueries=true → s.authenticated=true) :
    Handles cfg (do enter state; writeResponse response) s t :=
  Acts.seq (acts_enter state hm ha statusOf_eq_none fun _ hm' => handles_write response hs ⟨hm',ha⟩)

theorem acts_rollbackWhen (hm : Mid cfg q tx s t) (hnone : holds s.state=false → tx = .none)
    (h : ∀ t', Mid cfg q .none s t' → P () s t') : Keeps cfg (rollbackWhen holds) P E s t := by
  refine .get_bind ?_
  by_cases hs : holds s.state=true
  · rw [if_pos hs]
    exact .seq (acts_rollbackTx hm fun _ t' hm' => .ret (h t' hm'))
  · rw [if_neg hs]
    have htx : tx = .none := hnone (by simpa using hs)
    subst htx
    exact .ret (h t hm)

theorem isFailure_failure (s : Session) (code message : String) :
    (if supportsGql s.version then Response.failureWithGql code message
      else Response.failureOf code message).isFailure=true := by
  split <;> rfl

theorem acts_writeFailure (code message : String) (hm : Mid cfg (d::q) tx s t)
    (h : ∀ t', txStatus t'=tx → (q=[] → Mid cfg [] tx s t') → P () s t')
    (herr : ∀ e t', Mid cfg (d::q) tx s t' → E e s t') :
    Keeps cfg (writeFailure code message) P E s t :=
  Acts.get_bind (acts_writeResponse _ (Due.takes_failure (isFailure_failure s code message) d) hm h herr)

theorem acts_failRequest (code message : String) (hm : Mid cfg [d] tx s t)
    (hnone : s.state.inTx=false → tx = .none) :
    Keeps cfg (failRequest code message) (fun _ s' t' => At cfg [] s' t')
      (fun _ _ t' => txStatus t' = .none) s t := by
  refine .modify_bind (.seq (acts_rollbackWhen (hm.mono rfl rfl) hnone fun t1 hm1 => ?_))
  refine .modify_bind (.seq (acts_enter .failed (hm1.mono rfl rfl) nofun (fun _ => rfl)
    fun t2 hm2 => ?_))
  exact acts_writeFailure code message hm2 (fun _ _ hm' => ⟨hm' rfl,nofun⟩) fun _ _ hm' => hm'.tx

theorem handles_failRequest (code message : String) (hm : Mid cfg [body] tx s t)
    (hnone : s.state.inTx=false → tx = .none) : Handles cfg (failRequest code message) s t :=
  (acts_failRequest code message hm hnone).mono (fun _ _ _ h => h) fun _ _ _ h _ => h

theorem handles_invalidState (why : String) (hat : At cfg [body] s t) : Handles cfg (invalidState why) s t :=
  Acts.get_bind (handles_failRequest _ _ hat.toMid statusOf_eq_none)

theorem acts_oversized (error : BoltError) (drain : Bool) (hm : Mid cfg (d::q) tx s t)
    (h : ∀ t', txStatus t'=tx → P () s t') :
    Keeps cfg (writeOversizedMessageFailure cfg error drain) P E s t := by
  have hsend : ∀ done t1, Mid cfg (d::q) tx s t1 → Keeps cfg
      (if done=true then do
        let _ ← Actor.attempt (writeFailure (oversizedFailure cfg error).1 (oversizedFailure cfg error).2)
      else pure ()) P E s t1 := by
    intro done t1 hm1
    cases done with
    | false => exact .ret (h t1 hm1.tx)
    | true => exact .seq (.attempt (acts_writeFailure _ _ hm1
        (fun t' htx _ => .ret (h t' htx)) fun _ t' hm' => .ret (h t' hm'.tx)))
  refine .get_bind ?_
  by_cases ha : s.authenticated=true
  · rw [if_pos ha]
    cases drain with
    | false => exact hsend true t hm
    | true => exact .seq (acts_silent (o := .drainOversized) hm rfl
        (authOk_of_free rfl nofun) (fun _ => trivial) fun r t' hm' => hsend r t' hm')
  · rw [if_neg ha]
    exact .ret (h t hm.tx)

end

section

theorem handles_logOn (extra : ValueMap) (response : Response) (hs : response.isRecord=false)
    (hm : Mid cfg [body] .none s t) :
    Handles cfg (do
      match ← Env.authenticate extra with
      | .error e => failRequest "Neo.ClientError.Security.Unauthorized" e
      | .ok () =>
        modify fun s => { s with authenticated := true }
        enter .ready
        writeResponse response) s t :=
  Acts.seq (acts_authenticate extra hm
    (fun _ _ hm' => .modify_bind (handles_enter_write .ready response hs hm' fun _ => rfl))
    fun _ _ hm' => handles_failRequest _ _ hm' fun _ => rfl)

variable (req : Request)

theorem handles_connected (hat : At cfg [body] s t) (hs : s.state = .connected) :
    Handles cfg (handleInConnected cfg req) s t := by
  have hm : Mid cfg [body] .none s t := hat.outside (by rw [hs]; rfl)
  refine .get_bind ?_
  cases req with
  | hello extra =>
    by_cases hv : (s.version.map Version.major).getD 5≥5
    · simp only [if_pos hv]
      exact handles_enter_write .authentication _ rfl hm nofun
    · simp only [if_neg hv]
      exact handles_logOn extra _ rfl hm
  | _ => exact handles_invalidState _ hat

theorem handles_authentication (hat : At cfg [body] s t) (hs : s.state = .authentication) :
    Handles cfg (handleInAuthentication req) s t := by
  have hm : Mid cfg [body] .none s t := hat.outside (by rw [hs]; rfl)
  cases req with
  | logon extra => exact handles_logOn extra _ rfl hm
  | _ => exact handles_invalidState _ hat

end

section

variable (error : BoltError)

theorem acts_abandonRun (diagnose drain : Bool) (hm : Mid cfg (d::q) tx { s with prefetched := [] } t)
    (h : ∀ s' t', s'.state=s.state → (tx = .none → txStatus t' = .none) → P () s' t') :
    Keeps cfg (abandonRun cfg error diagnose drain) P E s t := by
  have hm0 : Mid cfg (d::q) tx { s with prefetched := [], prefetchedBytes := 0 } t := hm.mono rfl rfl
  have hcancel : ∀ r, Mid cfg (d::q) tx { s with prefetched := [], prefetchedBytes := 0 }
      (t++[⟨.cancelRun,r⟩]) := fun r => hm0.silent rfl r
  refine .seq (acts_ask (o := .cancelRun) (authOk_of_free rfl nofun) (fun _ => trivial)
    fun r _ => ⟨⟨_,(hcancel r).view⟩,.modify_bind (.seq (acts_awaitRun (hcancel r) ?_))⟩)
  intro _ tx' t' htx hm'
  cases diagnose with
  | false => exact .ret (h _ t' rfl fun hn => hm'.tx.trans (htx hn))
  | true => exact acts_oversized error drain hm' fun t'' ht => h _ t'' rfl fun hn => ht.trans (htx hn)

/-- What is left when the statement has ended: it was in a transaction that is still there, unless it
failed. -/
structure Ended (cfg : Config) (body : List UInt8) (tx : TxStatus) (s₀ : Session)
    (result : Except BackendError RunOutcome) (s : Session) (t : Trace) : Prop where
  state : s.state=s₀.state
  auth : s.authenticated=s₀.authenticated
  ok : ∀ outcome, result = .ok outcome → Mid cfg [body] tx s t
  error : ∀ e, result = .error e → Mid cfg [body] tx.fail s t

def Lost (tx : TxStatus) (s₀ s : Session) (t : Trace) : Prop :=
  s.state=s₀.state ∧ (tx = .none → txStatus t = .none)

theorem acts_giveUp (diagnose drain : Bool)
    (hm : Mid cfg (body::q) tx { s with prefetched := [] } t) (hs : s.state=s0.state) :
    Keeps cfg (do abandonRun cfg error diagnose drain; throw error)
      (Ended cfg body tx s0) (fun _ => Lost tx s0) s t :=
  Acts.seq (acts_abandonRun error diagnose drain hm fun _ _ hs' htx => .fail ⟨hs'.trans hs,htx⟩)

theorem acts_nextMessage {k : Session → List UInt8 → SessionM (Except BackendError RunOutcome)}
    (hm : Mid cfg [body] tx s t) (hs : s.state=s0.state) (ha : s.authenticated=s0.authenticated)
    (hk : ∀ b t', Mid cfg [body] tx { s with prefetched := s.prefetched++[b] } t' →
      Keeps cfg (k s b) (Ended cfg body tx s0) (fun _ => Lost tx s0) s t') :
    Keeps cfg (do
      let s ← get
      match ← Env.select (prefetchReadLimit cfg s) with
      | .finished result => pure result
      | .failed error =>
        abandonRun cfg error (isFrameMemoryRejection error) true
        throw error
      | .got body => k s body) (Ended cfg body tx s0) (fun _ => Lost tx s0) s t :=
  Acts.get_bind (.seq (acts_select _ hm hk (fun e _ _ hm' => acts_giveUp e _ true hm' hs)
    (fun _ _ hm' => .ret ⟨hs,ha,fun _ _ => hm',nofun⟩)
    fun _ _ hm' => .ret ⟨hs,ha,nofun,fun _ _ => hm'⟩))

theorem Mid.forget (hm : Mid cfg [body] tx { s with prefetched := s.prefetched++[b] } t) :
    Mid cfg (body::(s.prefetched++[b]).map .request) tx { s with prefetched := [] } t :=
  ⟨hm.auth,hm.tx,by simpa using hm.view,hm.due⟩

theorem acts_awaitStatement (room : Nat) (hm : Mid cfg [body] tx s t)
    (hs : s.state=s0.state) (ha : s.authenticated=s0.authenticated) :
    Keeps cfg (awaitStatement cfg room) (Ended cfg body tx s0) (fun _ => Lost tx s0) s t := by
  induction room generalizing s t with
  | zero =>
    rw [awaitStatement]
    exact acts_nextMessage hm hs ha fun b t' hm' => acts_giveUp _ true false hm'.forget hs
  | succ room ih =>
    rw [awaitStatement]
    refine acts_nextMessage hm hs ha fun b t' hm' => ?_
    dsimp only
    split
    · exact acts_giveUp _ true false hm'.forget hs
    · exact .modify_bind (ih (hm'.mono rfl rfl) hs ha)

theorem handles_startStream (outcome : RunOutcome) (insideTx : Bool) (ha : s.authenticated=true)
    (hs : s.state.inTx=insideTx) (hm : Mid cfg [body] (statusOf s.state) s t) :
    Handles cfg (startStream outcome insideTx) s t := by
  have hstatus : statusOf (if insideTx then .txStreaming else .streaming)=statusOf s.state := by
    rw [statusOf,statusOf,hs]
    cases insideTx <;> rfl
  refine .seq (acts_write _ rfl hm (fun t' hm' => ?_) fun _ _ hm' => hm'.covered rfl)
  refine .modify_bind (.seq (acts_enter _ (hm'.mono rfl rfl) (fun _ => ha) (fun hout => ?_)
    fun t'' hm'' => ?_))
  · rw [← hstatus,statusOf_eq_none hout]
  · exact .modifying ⟨hstatus ▸ hm''.mono rfl rfl,fun _ => ha⟩

theorem handles_executeRun (cypher : String) (params : ValueMap) (insideTx : Bool) (db : Option String)
    (hat : At cfg [body] s t) (ha : s.authenticated=true) (hs : s.state.inTx=insideTx) :
    Handles cfg (executeRun cfg cypher params insideTx db) s t := by
  refine .seq (acts_silent (o := .startRun insideTx db cypher params) hat.toMid rfl
    (hat.authOk_query ha nofun) (fun _ hin => ?_) fun _ t1 hm1 => .get_bind ?_)
  · rw [hat.tx,statusOf,hs,hin]
    rfl
  · refine .bind ((acts_awaitStatement _ hm1 rfl rfl).mono (fun _ _ _ h => h)
      fun _ s' t' h hheld => ?_) fun result s' t' h => ?_
    · exact h.2 (statusOf_eq_none (State.inTx_eq_false (h.1 ▸ hheld)))
    · cases result with
      | ok outcome =>
        have hm' : Mid cfg [body] (statusOf s'.state) s' t' := h.state ▸ h.ok outcome rfl
        exact handles_startStream outcome insideTx (h.auth ▸ ha) (h.state ▸ hs) hm'
      | error e =>
        refine handles_failRequest _ _ (h.error e rfl) fun hout => ?_
        rw [statusOf_eq_none (h.state ▸ hout)]
        rfl

end

section

theorem handles_commit (hat : At cfg [body] s t) (ha : s.authenticated=true) (hs : s.state = .txReady) :
    Handles cfg commit s t := by
  refine .seq (acts_commitTx hat.toMid ha (fun _ t1 hm1 => ?_) fun e t1 hm1 => ?_)
  · exact .seq (acts_silent (o := .currentBookmark) hm1 rfl (authOk_of_free rfl nofun)
      (fun _ => trivial) fun _ t2 hm2 => handles_enter_write .ready _ rfl hm2 fun _ => ha)
  · refine handles_failRequest _ _ hm1 fun hout => ?_
    rw [hs] at hout
    exact absurd hout nofun

variable (req : Request)

theorem handles_ready (hat : At cfg [body] s t) (hs : s.state = .ready) :
    Handles cfg (handleInReady cfg req) s t := by
  have ha : s.authenticated=true := hat.accepts (by rw [hs]; rfl)
  have hm : Mid cfg [body] .none s t := hat.outside (by rw [hs]; rfl)
  cases req with
  | run cypher params extra => exact handles_executeRun _ _ _ _ hat ha (by rw [hs]; rfl)
  | begin extra =>
    exact .seq (acts_beginTx _ _ hm ha
      (fun _ _ hm' => handles_enter_write .txReady _ rfl hm' fun _ => ha)
      fun _ _ hm' => handles_failRequest _ _ hm' fun _ => rfl)
  | route routing bookmarks extra => exact handles_write _ rfl hat
  | logoff =>
    exact .seq (acts_logoff hm fun _ hm' => .modify_bind
      (handles_enter_write .authentication _ rfl hm' nofun))
  | telemetry extra => exact handles_write _ rfl hat
  | _ => exact handles_invalidState _ hat

theorem handles_txReady (hat : At cfg [body] s t) (hs : s.state = .txReady) :
    Handles cfg (handleInTxReady cfg req) s t := by
  have ha : s.authenticated=true := hat.accepts (by rw [hs]; rfl)
  cases req with
  | run cypher params extra => exact handles_executeRun _ _ _ _ hat ha (by rw [hs]; rfl)
  | commit => exact handles_commit hat ha hs
  | rollback =>
    refine .seq (acts_rollbackTx hat.toMid fun r t' hm' => ?_)
    cases r with
    | ok u => exact handles_enter_write .ready _ rfl hm' fun _ => ha
    | error e => exact handles_failRequest _ _ hm' fun _ => rfl
  | _ => exact handles_invalidState _ hat

end

section

variable (mode : ElementIdMode)

theorem acts_takeRows (isPull : Bool) (n : Nat) (hpull : isPull=true → isPullFrame body=true)
    (hm : Mid cfg [body] tx s t)
    (h : ∀ rows t', Mid cfg [body] tx { s with pendingRows := rows } t' → P () { s with pendingRows := rows } t') :
    Keeps cfg (takeRows cfg mode isPull n) P
      (fun _ s' t' => s'.state=s.state ∧ txStatus t'=tx) s t := by
  induction n generalizing s t with
  | zero => exact .ret (h s.pendingRows t hm)
  | succ n ih =>
    refine .get_bind ?_
    cases hrows : s.pendingRows with
    | nil => exact .ret (h s.pendingRows t hm)
    | cons row rest =>
      refine .modify_bind ?_
      cases isPull with
      | false => exact ih (hm.mono rfl rfl) h
      | true =>
        refine .seq (acts_writeRecord _ (hpull rfl) (hm.mono rfl rfl) (fun t' hm' => ?_)
          fun _ t' hm' => ⟨rfl,hm'.tx⟩)
        exact ih hm' h

theorem handles_drainStream (isPull : Bool) (extra : ValueMap)
    (hpull : isPull=true → isPullFrame body=true) (hat : At cfg [body] s t)
    (hs : s.state = .streaming ∨ s.state = .txStreaming) : Handles cfg (drainStream cfg mode isPull extra) s t := by
  have ha : s.authenticated=true := hat.accepts (by rcases hs with hs | hs <;> rw [hs] <;> rfl)
  refine .get_bind (.seq ((acts_takeRows mode isPull _ hpull hat.toMid fun rows t' hm' =>
    Acts.get_bind ?_).mono (fun _ _ _ h => h) fun _ s' t' h hheld => ?_))
  · dsimp only
    by_cases hrows : rows.isEmpty=true
    · rw [if_pos hrows]
      have hstatus : statusOf (if s.state = .txStreaming then .txReady else .ready)=statusOf s.state := by
        rcases hs with hs | hs <;> rw [hs] <;> rfl
      have hm'' : Mid cfg [body] (statusOf (if s.state = .txStreaming then .txReady else .ready))
          (clearPending { s with pendingRows := rows }) t' := hstatus ▸ hm'.mono rfl rfl
      exact .modify_bind (handles_enter_write _ _ rfl hm'' fun _ => ha)
    · rw [if_neg hrows]
      exact handles_write _ rfl ⟨hm',fun _ => ha⟩
  · exact h.2.trans (statusOf_eq_none (State.inTx_eq_false (h.1 ▸ hheld)))

theorem handles_streaming (req : Request)
    (hpull : ∀ extra, req = .pull extra → isPullFrame body=true) (hat : At cfg [body] s t)
    (hs : s.state = .streaming ∨ s.state = .txStreaming) : Handles cfg (handleInStreaming cfg mode req) s t := by
  cases req with
  | pull extra => exact handles_drainStream mode true extra (fun _ => hpull extra rfl) hat hs
  | discard extra => exact handles_drainStream mode false extra nofun hat hs
  | _ => exact handles_invalidState _ hat

end
end NamiDB.Bolt
