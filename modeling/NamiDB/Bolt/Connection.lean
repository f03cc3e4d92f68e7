import NamiDB.Bolt.Handled

/-! A whole connection: the handshake and then turn after turn of the loop. What holds between two
messages holds again after the next, and no transaction outlives the session. -/
namespace NamiDB.Bolt
open Lib Bool

variable {cfg : Config} {s : Session} {t : Trace} {d : Due} {body : List UInt8}

/-- The loop goes on between two messages and stops without a transaction. -/
def Settled (cfg : Config) : Turn → Session → Trace → Prop
  | .next, s, t => At cfg [] s t
  | .done, _, t => txStatus t = .none

abbrev Turns (cfg : Config) (m : SessionM Turn) (s : Session) (t : Trace) : Prop :=
  Keeps cfg m (Settled cfg) (fun _ _ t' => txStatus t' = .none) s t

section

theorem Safe.snoc {e : Event Res} (h : Safe cfg t) (hauth : AuthOk t e) (htx : TxOk t e)
    (hview : ∀ v, viewStep (fires cfg) v e=v) : Safe cfg (t++[e]) := by
  refine ⟨always_snoc.mpr ⟨h.1,hauth⟩,always_snoc.mpr ⟨h.2.1,htx⟩,?_⟩
  rw [InStep,unanswered_snoc,hview]
  exact h.2.2

theorem acts_rollbackIfOpenTx (hc : Covered s t) (h : ∀ t', txStatus t' = .none → P () s t') :
    Keeps cfg rollbackIfOpenTx P E s t := by
  refine .get_bind ?_
  by_cases hs : s.state.mayHoldTx=true
  · rw [if_pos hs]
    refine .seq (.ask (o := Op.rollbackTx) ?_)
    rintro hsafe r t' ⟨rfl,-⟩
    refine ⟨hsafe.snoc (authOk_of_free (o := .rollbackTx) rfl nofun r) trivial fun _ => rfl,.ret (h _ ?_)⟩
    rw [txStatus_snoc]
    rfl
  · rw [if_neg hs]
    exact .ret (h t (hc (by simpa using hs)))

theorem acts_handleGoodbye (hc : Covered s t) (h : ∀ t', txStatus t' = .none → P () { s with state := .defunct } t') :
    Keeps cfg handleGoodbye P E s t := by
  refine .seq (acts_rollbackIfOpenTx hc fun t1 htx => ?_)
  refine .seq (.ask (o := Op.enter .defunct) ?_)
  rintro hsafe r t' ⟨rfl,-⟩
  refine ⟨hsafe.snoc ⟨nofun,?_⟩ (fun _ => htx) fun _ => rfl,.modifying (h _ ?_)⟩
  · rintro _ ⟨⟩
    nofun
  · rw [txStatus_snoc]
    exact htx

end

section

variable (mode : ElementIdMode)

theorem handles_handleInState (req : Request)
    (hpull : ∀ extra, req = .pull extra → isPullFrame body=true) (hat : At cfg [body] s t) :
    Handles cfg (handleInState cfg mode req) s t := by
  refine .get_bind ?_
  cases hs : s.state with
  | connected => exact handles_connected req hat hs
  | authentication => exact handles_authentication req hat hs
  | ready => exact handles_ready req hat hs
  | streaming => exact handles_streaming mode req hpull hat (.inl hs)
  | txReady => exact handles_txReady req hat hs
  | txStreaming => exact handles_streaming mode req hpull hat (.inr hs)
  | negotiation | failed | defunct => exact handles_write .ignored rfl hat

/-- RESET leads to READY only for a session that is logged on. -/
theorem handles_reset (hat : At cfg [body] s t) (ha : s.authenticated=true) : Handles cfg handleReset s t := by
  refine Acts.seq (acts_rollbackWhen hat.toMid (fun hs => statusOf_eq_none (State.inTx_eq_false hs))
    fun t' hm => .modify_bind ?_)
  exact handles_enter_write .ready _ rfl (hm.mono rfl rfl) fun _ => ha

theorem handles_handle (req : Request) (hbye : req.isGoodbye=false)
    (hpull : ∀ extra, req = .pull extra → isPullFrame body=true) (hat : At cfg [body] s t) :
    Handles cfg (handle cfg mode req) s t := by
  refine .get_bind ?_
  by_cases hr : (req.isReset&&s.authenticated)=true
  · rw [if_pos hr]
    exact handles_reset hat (by simpa using (and_eq_true_iff.mp hr).2)
  · rw [if_neg hr,if_neg (by simp [hbye])]
    by_cases hf : s.state = .failed
    · rw [if_pos hf]
      exact handles_write .ignored rfl hat
    · rw [if_neg hf]
      exact handles_handleInState mode req hpull hat

end

section

def Received (cfg : Config) (body : List UInt8) (s : Session) (t : Trace) : Prop :=
  At cfg [] { s with prefetched := body::s.prefetched } t

theorem Received.covered (h : Received cfg body s t) : Covered s t := h.toMid.covered rfl

theorem Received.at (h : Received cfg body s t) (hbye : isGoodbyeFrame body=false) : At cfg [body] s t := by
  refine ⟨⟨h.auth,h.tx,h.view,?_⟩,h.accepts⟩
  rintro _ ⟨⟩
  exact hbye

variable (mode : ElementIdMode)

theorem turns_dispatch (req : Request) (h : Received cfg body s t)
    (hpull : ∀ extra, req = .pull extra → isPullFrame body=true)
    (hbye : req.isGoodbye=false → isGoodbyeFrame body=false) : Turns cfg (dispatch cfg mode req) s t := by
  by_cases hg : req.isGoodbye=true
  · cases req with
    | goodbye =>
      refine .seq (.attempt (.get_bind ?_))
      exact acts_handleGoodbye h.covered fun t' htx => .get_bind (.ret htx)
    | _ => cases hg
  · rw [not_eq_true] at hg
    have hhandle := handles_handle mode req hg hpull (h.at (hbye hg))
    refine .seq (.attempt (hhandle.mono (fun _ s' t' hat => .get_bind (.ret ?_))
      fun e s' t' hc => .seq (acts_rollbackIfOpenTx hc fun t'' htx => .fail htx)))
    by_cases hd : s'.state = .defunct
    · rw [if_pos (by simp [hd])]
      exact (hat.outside (by rw [hd]; rfl)).tx
    · rw [if_neg (by simp [hd,hg])]
      exact hat

theorem turns_failRequest (code message : String) (hat : At cfg [d] s t) :
    Turns cfg (do failRequest code message; pure .next) s t :=
  Acts.bind (acts_failRequest code message hat.toMid statusOf_eq_none) fun _ _ _ h => .ret h

theorem turns_decodeAndDispatch (limit : Nat) (h : Received cfg body s t) :
    Turns cfg (decodeAndDispatch cfg mode limit body) s t := by
  -- A body that is a GOODBYE decodes to one, so what is answered below is none.
  have hbye : ∀ r, Request.decode body limit=r → (∀ req, r = .ok req → req.isGoodbye=false) →
      isGoodbyeFrame body=false := by
    rintro r rfl hr
    by_contra hg
    rw [not_eq_false,isGoodbyeFrame,decide_eq_true_eq] at hg
    subst hg
    exact absurd (hr _ (Request.decode_goodbye limit)) (by simp [Request.isGoodbye])
  unfold decodeAndDispatch
  cases hd : Request.decode body limit with
  | error e => exact turns_failRequest _ _ (h.at (hbye _ hd nofun))
  | ok req =>
    refine turns_dispatch mode req h ?_ fun hg => hbye _ hd fun _ hreq => ?_
    · rintro extra rfl
      simp [isPullFrame,Request.decode_pull hd]
    · cases hreq
      exact hg

theorem turns_process (limit : Nat) (h : Received cfg body s t) : Turns cfg (process cfg mode limit body) s t := by
  refine .get_bind ?_
  by_cases ha : (s.authenticated&&requiresDecodeAdmission body)=true
  · rw [if_pos ha]
    have hbye : isGoodbyeFrame body=false := by
      by_contra hg
      rw [not_eq_false,isGoodbyeFrame,decide_eq_true_eq] at hg
      subst hg
      exact absurd (and_eq_true_iff.mp ha).2 (by decide)
    refine .seq (acts_silent (o := .admitRequestDecode body.length) (h.at hbye).toMid rfl
      (authOk_of_free rfl nofun) (fun _ => trivial) fun r t' hm => ?_)
    have hat : At cfg [body] s t' := ⟨hm,h.accepts⟩
    cases r with
    | error e => exact turns_failRequest _ _ hat
    | ok u =>
      exact turns_decodeAndDispatch mode limit ⟨⟨hat.auth,hat.tx,hat.view,nofun⟩,hat.accepts⟩
  · rw [if_neg ha]
    exact turns_decodeAndDispatch mode limit h

end

section

theorem acts_txStart (hat : At cfg [] s t)
    (h : ∀ started s' t', s'.state=s.state → At cfg [] s' t' → P started s' t') : Keeps cfg txStart P E s t := by
  refine .get_bind ?_
  cases s.txStarted with
  | some started => exact .ret (h started s t rfl hat)
  | none =>
    refine .seq (acts_silent (o := .now) hat.toMid rfl (authOk_of_free rfl nofun)
      (fun _ => trivial) fun started t' hm => .modify_bind (.ret ?_))
    exact h started _ t' rfl ⟨hm.mono rfl rfl,hat.accepts⟩

theorem acts_pastLifetime (hat : At cfg [] s t) (hover : ∀ s' t', At cfg [.timeout] s' t' → P true s' t')
    (h : ∀ s' t', At cfg [] s' t' → P false s' t') : Keeps cfg (pastLifetime cfg) P E s t := by
  refine .get_bind ?_
  by_cases hs : s.state.inTx=true
  · rw [if_pos hs]
    refine .seq (acts_txStart hat fun started s1 t1 _ hat1 => ?_)
    cases hmax : cfg.maxTxLifetime with
    | none => exact .ret (h s1 t1 hat1)
    | some limit =>
      refine .seq (acts_ask (o := .elapsed started) (authOk_of_free rfl nofun)
        (fun _ => trivial) fun (age : Nat) _ => ?_)
      by_cases hage : limit≤age
      · have hm : Mid cfg [.timeout] (statusOf s1.state) s1 (t1++[⟨.elapsed started,age⟩]) := by
          refine mid_snoc _ hat1.auth hat1.tx (by rintro _ ⟨⟩; rfl) ?_
          simp [viewStep,fires,messageStep,hat1.view,hmax,Nat.ble_eq_true_of_le hage]
        rw [decide_eq_true hage]
        exact ⟨⟨_,hm.view⟩,.ret (hover s1 _ ⟨hm,hat1.accepts⟩)⟩
      · have hm : Mid cfg [] (statusOf s1.state) s1 (t1++[⟨.elapsed started,age⟩]) := by
          refine mid_snoc _ hat1.auth hat1.tx hat1.due ?_
          simp [viewStep,fires,messageStep,hat1.view,hmax,Bool.eq_false_iff.mpr (mt Nat.le_of_ble_eq_true hage)]
        rw [decide_eq_false hage]
        exact ⟨⟨_,hm.view⟩,.ret (h s1 _ ⟨hm,hat1.accepts⟩)⟩
  · rw [if_neg hs]
    exact .modify_bind (.ret (h _ t ⟨hat.toMid.mono rfl rfl,hat.accepts⟩))

theorem turns_readFailed (error : BoltError) (hq : isFrameMemoryRejection error=true → q≠[]) (hat : At cfg q s t) :
    Turns cfg (readFailed cfg error) s t := by
  refine Acts.seq (acts_rollbackWhen hat.toMid (fun hs => statusOf_eq_none (State.inTx_eq_false hs))
    fun t' hm => ?_)
  have hthrow : Turns cfg (if isFrameMemoryRejection error then do
      writeOversizedMessageFailure cfg error true
      throw error
    else throw error) s t' := by
    by_cases he : isFrameMemoryRejection error=true
    · rw [if_pos he]
      obtain ⟨b,rest,rfl⟩ := List.exists_cons_of_ne_nil (hq he)
      exact .seq (acts_oversized error true hm fun _ htx => .fail htx)
    · rw [if_neg he]
      exact .fail hm.tx
  split
  · exact .ret hm.tx
  · exact hthrow

theorem inTx_of_preAuth (h : readTimer cfg s = .preAuth limit) : s.state.inTx=false := by
  by_contra hs
  rw [readTimer,if_pos (by simpa using hs)] at h
  cases hidle : cfg.txIdleTimeout <;> simp [hidle] at h

variable (mode : ElementIdMode)

theorem turns_turn (hat : At cfg [] s t) : Turns cfg (turn cfg mode) s t := by
  refine .seq (acts_pastLifetime hat (fun s1 t1 hat1 => ?_) fun s1 t1 hat1 => .get_bind ?_)
  · exact turns_failRequest _ _ hat1
  · refine .seq (.get_bind ?_)
    cases hread : s1.prefetched with
    | cons b rest =>
      refine .modify_bind (.ret (turns_process mode _ ?_))
      exact ⟨hat1.toMid.mono rfl hread.symm,hat1.accepts⟩
    | nil =>
      refine acts_readMessage _ _ _ _ hat1.toMid hread (fun b t' hm => ?_) (fun e q t' hq hm => ?_)
        (fun t' hm => ?_) fun t' limit ht hm => ?_
      · exact turns_process mode _ ⟨hm.mono rfl (by simp [hread]),hat1.accepts⟩
      · exact turns_readFailed e hq ⟨hm,hat1.accepts⟩
      · by_cases hs : s1.state.inTx=true
        · simp only [if_pos hs]
          exact turns_failRequest _ _ ⟨hm,hat1.accepts⟩
        · simp only [if_neg hs]
          exact .ret (hm.tx.trans (statusOf_eq_none (by simpa using hs)))
      · have hs : s1.state.inTx=false := inTx_of_preAuth ht
        simp only [hs]
        exact .ret (hm.tx.trans (statusOf_eq_none hs))

theorem turns_loop (turns : Nat) (hat : At cfg [] s t) : Turns cfg (loop cfg mode turns) s t := by
  induction turns generalizing s t with
  | zero => exact .ret hat
  | succ turns ih =>
    refine .bind (turns_turn mode hat) fun r s' t' h => ?_
    cases r with
    | done => exact .ret h
    | next => exact ih h

theorem acts_doHandshake (hat : At cfg [] s t) (hs : s.state.inTx=false)
    (h : ∀ s' t', s'.state.inTx=false → At cfg [] s' t' → P () s' t') :
    Keeps cfg (doHandshake cfg) P (fun _ _ t' => txStatus t' = .none) s t := by
  have henter : ∀ (state : State) (s1 : Session) t1, state.acceptsQueries=false →
      Mid cfg [] .none s1 t1 → Keeps cfg (enter state) P
        (fun _ _ t' => txStatus t' = .none) s1 t1 := by
    intro state s1 t1 hstate hm
    have hout : state.inTx=false := by cases state <;> first | rfl | exact hstate
    refine acts_enter state hm (fun ha => by simp [hstate] at ha) (fun _ => rfl) fun t' hm' => ?_
    exact h _ t' hout ⟨(statusOf_eq_none hout).symm ▸ hm',fun ha => by simp [hstate] at ha⟩
  refine .seq (acts_silent (o := .readHandshake cfg.handshakeTimeout) (hat.outside hs) rfl
    (authOk_of_free rfl nofun) (fun _ => trivial) fun r t1 hm1 => ?_)
  cases r with
  | none => exact henter .defunct s t1 rfl hm1
  | some reply =>
    refine .seq (.ofExcept (fun bytes _ => ?_) fun _ _ => hm1.tx)
    refine .seq (.ofExcept (fun offers _ => ?_) fun _ _ => hm1.tx)
    refine .seq (acts_silent (o := .writeHandshake (negotiate offers)) hm1 rfl
      (authOk_of_free rfl nofun) (fun _ => trivial) fun r t2 hm2 => ?_)
    refine .seq (.ofExcept (fun _ _ => .modify_bind ?_) fun _ _ => hm2.tx)
    exact henter _ _ t2 (by cases (negotiate offers).isSome <;> rfl) (hm2.mono rfl rfl)

theorem turns_run (turns : Nat) : Turns cfg (run cfg turns) {} [] := by
  have hat : At cfg [] {} [] := ⟨⟨nofun,rfl,rfl,nofun⟩,nofun⟩
  refine .seq (acts_doHandshake hat rfl fun s t hs hat' => .get_bind ?_)
  cases s.version with
  | none => exact .ret (hat'.outside hs).tx
  | some v => exact turns_loop _ turns hat'

end
end NamiDB.Bolt
