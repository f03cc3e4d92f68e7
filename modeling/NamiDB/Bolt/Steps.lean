import NamiDB.Bolt.Trace

/-! What the requests of a session do to the invariant, and the pieces its handlers are made of. -/
namespace NamiDB.Bolt
open Lib

variable {cfg : Config} {s : Session} {t : Trace} {q : List Due} {d : Due} {body : List UInt8} {tx : TxStatus}
  {state : State}

def Safe (cfg : Config) (t : Trace) : Prop :=
  Always AuthOk t ∧ Always TxOk t ∧ InStep (fires cfg) t

theorem Safe.nil : Safe cfg [] := ⟨.nil _,.nil _,rfl⟩

abbrev Keeps (cfg : Config) {α : Type} (m : SessionM α) := Acts (sem cfg) (Safe cfg) m

/-- The session knows who is logged on, its backend has a transaction in the state `tx`, and the client
is due `q` and then the answers to the requests that were read ahead. The first of `q` is to be
answered. -/
structure Mid (cfg : Config) (q : List Due) (tx : TxStatus) (s : Session) (t : Trace) : Prop where
  auth : s.authenticated=true → loggedOn t=true
  tx : txStatus t=tx
  view : unanswered (fires cfg) t=some (q++s.prefetched.map .request)
  due : ∀ d ∈ q.head?, d.isGoodbye=false

def statusOf (state : State) : TxStatus := if state.inTx then .active else .none

structure At (cfg : Config) (q : List Due) (s : Session) (t : Trace) : Prop
    extends Mid cfg q (statusOf s.state) s t where
  accepts : s.state.acceptsQueries=true → s.authenticated=true

def Covered (s : Session) (t : Trace) : Prop := s.state.mayHoldTx=false → txStatus t = .none

theorem Mid.mono (h : Mid cfg q tx s t) (hauth : s'.authenticated=s.authenticated)
    (hread : s'.prefetched=s.prefetched) : Mid cfg q tx s' t :=
  ⟨fun hs => h.auth (hauth ▸ hs),h.tx,hread ▸ h.view,h.due⟩

theorem State.inTx_eq_false (h : state.mayHoldTx=false) : state.inTx=false := by
  cases state <;> first | rfl | exact h

theorem statusOf_eq_none (h : state.inTx=false) : statusOf state = .none := by
  simp [statusOf,h]

theorem Mid.covered (h : Mid cfg q (statusOf state) s t) (hs : s.state=state) : Covered s t :=
  fun hheld => h.tx.trans (statusOf_eq_none (State.inTx_eq_false (hs ▸ hheld)))

theorem mid_snoc (e : Event Res) (hauth : s'.authenticated=true → authStep (loggedOn t) e=true)
    (htx : txStep (txStatus t) e=tx') (hdue : ∀ d ∈ q'.head?, d.isGoodbye=false)
    (hview : viewStep (fires cfg) (unanswered (fires cfg) t) e=some (q'++s'.prefetched.map .request)) :
    Mid cfg q' tx' s' (t++[e]) := by
  refine ⟨fun hs => ?_,?_,?_,hdue⟩
  · rw [loggedOn_snoc]
    exact hauth hs
  · rw [txStatus_snoc]
    exact htx
  · rw [unanswered_snoc]
    exact hview

section

theorem acts_ask {P : Res o → Session → Trace → Prop} (hauth : ∀ r, AuthOk t ⟨o,r⟩) (htx : ∀ r, TxOk t ⟨o,r⟩)
    (h : ∀ r, answers cfg o r → (∃ q, unanswered (fires cfg) (t++[⟨o,r⟩])=some q) ∧ P r s (t++[⟨o,r⟩])) :
    Keeps cfg (Actor.ask o : SessionM (Res o)) P E s t := by
  refine .ask ?_
  rintro ⟨ha,hx,-⟩ r t' ⟨rfl,hr⟩
  obtain ⟨⟨q,hview⟩,hP⟩ := h r hr
  refine ⟨⟨always_snoc.mpr ⟨ha,hauth r⟩,always_snoc.mpr ⟨hx,htx r⟩,?_⟩,hP⟩
  rw [InStep,hview]
  rfl

theorem then_mid {P : Trace → Prop} (h : ∀ t', Mid cfg q' tx' s' t' → P t')
    (hauth : s'.authenticated=true → authStep (loggedOn t) e=true) (htx : txStep (txStatus t) e=tx')
    (hdue : ∀ d ∈ q'.head?, d.isGoodbye=false)
    (hview : viewStep (fires cfg) (unanswered (fires cfg) t) e=some (q'++s'.prefetched.map .request)) :
    (∃ q, unanswered (fires cfg) (t++[e])=some q) ∧ P (t++[e]) :=
  have hm := mid_snoc e hauth htx hdue hview
  ⟨⟨_,hm.view⟩,h _ hm⟩

theorem authOk_of_free (hq : o.isQuery=false) (he : ∀ state, o ≠ .enter state) (r : Res o) : AuthOk t ⟨o,r⟩ :=
  ⟨fun h => by simp [hq] at h,fun state h => absurd h (he state)⟩

theorem Mid.authOk_query (hm : Mid cfg q tx s t) (ha : s.authenticated=true)
    (he : ∀ state, o ≠ .enter state) (r : Res o) : AuthOk t ⟨o,r⟩ :=
  ⟨fun _ => hm.auth ha,fun state h => absurd h (he state)⟩

def Op.isSilent : Op → Bool
  | .readHandshake _ | .writeHandshake _ | .now | .admitRequestDecode _ | .startRun _ _ _ _
  | .cancelRun | .currentBookmark | .drainOversized | .enter _ => true
  | _ => false

theorem Mid.silent (ho : o.isSilent=true) (r : Res o) (h : Mid cfg q tx s t) : Mid cfg q tx s (t++[⟨o,r⟩]) := by
  have hsteps : ∀ b x v, authStep b ⟨o,r⟩=b ∧ txStep x ⟨o,r⟩=x ∧ viewStep (fires cfg) v ⟨o,r⟩=v := by
    intro b x v
    cases o <;> first | exact ⟨rfl,rfl,rfl⟩ | simp [Op.isSilent] at ho
  obtain ⟨h1,h2,h3⟩ := hsteps (loggedOn t) (txStatus t) (unanswered (fires cfg) t)
  exact mid_snoc _ (fun hs => h1.trans (h.auth hs)) (h2.trans h.tx) h.due (h3.trans h.view)

theorem acts_silent {P : Res o → Session → Trace → Prop} (hm : Mid cfg q tx s t)
    (ho : o.isSilent=true) (hauth : ∀ r, AuthOk t ⟨o,r⟩) (htx : ∀ r, TxOk t ⟨o,r⟩)
    (h : ∀ r t', Mid cfg q tx s t' → P r s t') : Keeps cfg (Actor.ask o : SessionM (Res o)) P E s t :=
  acts_ask hauth htx fun r _ => ⟨⟨_,(hm.silent ho r).view⟩,h r _ (hm.silent ho r)⟩

theorem acts_enter (state : State) (hm : Mid cfg q tx s t) (hauth : state.acceptsQueries=true → s.authenticated=true)
    (htx : state.inTx=false → tx = .none) (h : ∀ t', Mid cfg q tx { s with state } t' → P () { s with state } t') :
    Keeps cfg (enter state) P E s t := by
  refine .seq (acts_silent (o := .enter state) hm rfl (fun r => ⟨nofun,?_⟩) (fun r hs => ?_)
    fun _ t' hm' => .modifying (h t' (hm'.mono rfl rfl)))
  · rintro _ ⟨⟩ hs
    exact hm.auth (hauth hs)
  · exact hm.tx.trans (htx hs)

variable (response : Response)

theorem acts_envWrite {P : Except BoltError Unit → Session → Trace → Prop}
    (hs : d.takes response=true) (hm : Mid cfg (d::q) tx s t)
    (hok : ∀ u t', txStatus t'=tx → (q=[] → Mid cfg [] tx s t') → P (.ok u) s t')
    (herr : ∀ e t', Mid cfg (d::q) tx s t' → P (.error e) s t') :
    Keeps cfg (Env.write response) P E s t := by
  refine acts_ask (o := .write response) (authOk_of_free rfl fun _ h => by cases h) (fun r => trivial)
    fun r _ => ?_
  cases r with
  | ok u =>
    have hview : viewStep (fires cfg) (unanswered (fires cfg) t) ⟨.write response,Except.ok u⟩ =
        some (q++s.prefetched.map .request) := by
      simp [viewStep,fires,messageStep,hm.view,answerStep,hs,hm.due d rfl]
    refine ⟨⟨q++s.prefetched.map .request,?_⟩,hok u _ ?_ ?_⟩
    · rw [unanswered_snoc,hview]
    · rw [txStatus_snoc]
      exact hm.tx
    · rintro rfl
      exact mid_snoc _ hm.auth hm.tx (fun _ h => by cases h) hview
  | error e =>
    exact then_mid (herr e) hm.auth hm.tx hm.due hm.view

theorem acts_writeResponse (hs : d.takes response=true) (hm : Mid cfg (d::q) tx s t)
    (h : ∀ t', txStatus t'=tx → (q=[] → Mid cfg [] tx s t') → P () s t')
    (herr : ∀ e t', Mid cfg (d::q) tx s t' → E e s t') :
    Keeps cfg (writeResponse response) P E s t :=
  Acts.seq (acts_envWrite response hs hm (fun _ t' htx hm' => .ret (h t' htx hm'))
    fun e t' hm' => .fail (herr e t' hm'))

theorem acts_write (hs : response.isRecord=false) (hm : Mid cfg [body] tx s t)
    (h : ∀ t', Mid cfg [] tx s t' → P () s t') (herr : ∀ e t', Mid cfg [body] tx s t' → E e s t') :
    Keeps cfg (writeResponse response) P E s t :=
  acts_writeResponse response (by simp [Due.takes,hs]) hm (fun t' _ hm' => h t' (hm' rfl)) herr

theorem acts_writeRecord (values : List Value) (hpull : isPullFrame body=true) (hm : Mid cfg (body::q) tx s t)
    (h : ∀ t', Mid cfg (body::q) tx s t' → P () s t') (herr : ∀ e t', Mid cfg (body::q) tx s t' → E e s t') :
    Keeps cfg (writeResponse (.record values)) P E s t := by
  have hm' : ∀ r : Except BoltError Unit, Mid cfg (body::q) tx s (t++[⟨.write (.record values),r⟩]) := by
    intro r
    cases r with
    | ok u =>
      refine mid_snoc _ hm.auth hm.tx hm.due ?_
      simp [viewStep,fires,messageStep,hm.view,answerStep,Due.takes,Response.isRecord,hpull]
    | error e => exact mid_snoc _ hm.auth hm.tx hm.due hm.view
  exact .seq (acts_ask (o := .write (.record values)) (authOk_of_free rfl fun _ h => by cases h)
    (fun r => trivial) fun r _ => ⟨⟨_,(hm' r).view⟩,
      Acts.ofExcept (fun _ _ => h _ (hm' r)) fun e _ => herr e _ (hm' r)⟩)

theorem acts_rollbackTx {P : Except BackendError Unit → Session → Trace → Prop}
    (hm : Mid cfg q tx s t) (h : ∀ r t', Mid cfg q .none s t' → P r s t') :
    Keeps cfg Env.rollbackTx P E s t := by
  refine acts_ask (o := .rollbackTx) (authOk_of_free rfl nofun) (fun r => trivial) fun r _ => ?_
  exact then_mid (h r) hm.auth rfl hm.due hm.view

theorem acts_commitTx {P : Except BackendError Unit → Session → Trace → Prop}
    (hm : Mid cfg q tx s t) (ha : s.authenticated=true) (hok : ∀ u t', Mid cfg q .none s t' → P (.ok u) s t')
    (herr : ∀ e t', Mid cfg q tx.fail s t' → P (.error e) s t') : Keeps cfg Env.commitTx P E s t := by
  refine acts_ask (o := .commitTx) (hm.authOk_query ha nofun) (fun r => trivial) fun r _ => ?_
  cases r with
  | ok u =>
    exact then_mid (hok u) hm.auth rfl hm.due hm.view
  | error e =>
    exact then_mid (herr e) hm.auth (congrArg TxStatus.fail hm.tx) hm.due hm.view

theorem acts_beginTx {P : Except BackendError Unit → Session → Trace → Prop} (db : Option String)
    (readOnly : Bool) (hm : Mid cfg q .none s t) (ha : s.authenticated=true)
    (hok : ∀ u t', Mid cfg q .active s t' → P (.ok u) s t')
    (herr : ∀ e t', Mid cfg q .none s t' → P (.error e) s t') :
    Keeps cfg (Env.beginTx db readOnly) P E s t := by
  refine acts_ask (o := .beginTx db readOnly) (hm.authOk_query ha nofun) (fun r => hm.tx) fun r _ => ?_
  cases r with
  | ok u =>
    exact then_mid (hok u) hm.auth rfl hm.due hm.view
  | error e =>
    exact then_mid (herr e) hm.auth hm.tx hm.due hm.view

theorem acts_authenticate {P : Except String Unit → Session → Trace → Prop} (extra : ValueMap) (hm : Mid cfg q tx s t)
    (hok : ∀ u t', Mid cfg q tx { s with authenticated := true } t' → P (.ok u) s t')
    (herr : ∀ e t', Mid cfg q tx s t' → P (.error e) s t') :
    Keeps cfg (Env.authenticate extra) P E s t := by
  refine acts_ask (o := .authenticate extra) (authOk_of_free rfl nofun) (fun r => trivial)
    fun r _ => ?_
  cases r with
  | ok u =>
    exact then_mid (hok u) (fun _ => rfl) hm.tx hm.due hm.view
  | error e =>
    exact then_mid (herr e) hm.auth hm.tx hm.due hm.view

theorem acts_logoff (hm : Mid cfg q tx s t)
    (h : ∀ t', Mid cfg q tx { s with authenticated := false } t' → P () s t') :
    Keeps cfg Env.logoff P E s t := by
  refine acts_ask (o := .logoff) (authOk_of_free rfl nofun) (fun r => trivial) fun r _ => ?_
  exact then_mid h nofun hm.tx hm.due hm.view

theorem acts_awaitRun {P : Except BackendError RunOutcome → Session → Trace → Prop}
    (hm : Mid cfg q tx s t) (h : ∀ r tx' t', (tx = .none → tx' = .none) → Mid cfg q tx' s t' → P r s t') :
    Keeps cfg Env.awaitRun P E s t := by
  refine acts_ask (o := .awaitRun) (authOk_of_free rfl nofun) (fun r => trivial) fun r _ => ?_
  cases r with
  | ok outcome =>
    exact then_mid (fun t' => h _ _ t' id) hm.auth hm.tx hm.due hm.view
  | error e =>
    have hm' : Mid cfg q tx.fail s (t++[⟨.awaitRun,Except.error e⟩]) :=
      mid_snoc _ hm.auth (congrArg TxStatus.fail hm.tx) hm.due hm.view
    refine ⟨⟨_,hm'.view⟩,h _ _ _ ?_ hm'⟩
    rintro rfl
    rfl

/-- While a statement runs, what the client sends is read ahead. After a failed read the requests that
were read ahead are not answered any more. -/
theorem acts_select {P : SelectReply → Session → Trace → Prop} (maxBytes : Nat) (hm : Mid cfg (body::q) tx s t)
    (hgot : ∀ b t', Mid cfg (body::q) tx { s with prefetched := s.prefetched++[b] } t' → P (.got b) s t')
    (hfailed : ∀ e q' t', Mid cfg (body::q') tx { s with prefetched := [] } t' → P (.failed e) s t')
    (hok : ∀ outcome t', Mid cfg (body::q) tx s t' → P (.finished (.ok outcome)) s t')
    (herr : ∀ e t', Mid cfg (body::q) tx.fail s t' → P (.finished (.error e)) s t') :
    Keeps cfg (Env.select maxBytes) P E s t := by
  refine acts_ask (o := .select maxBytes) (authOk_of_free rfl nofun) (fun r => trivial)
    fun r _ => ?_
  cases r with
  | got b =>
    exact then_mid (hgot b) hm.auth hm.tx hm.due (by simp [viewStep,fires,messageStep,hm.view])
  | failed e =>
    have hm' : ∃ q', Mid cfg (body::q') tx { s with prefetched := [] }
        (t++[⟨.select maxBytes,.failed e⟩]) := by
      by_cases he : isFrameMemoryRejection e=true
      · exact ⟨q++s.prefetched.map .request++[.request []],
          mid_snoc _ hm.auth hm.tx hm.due (by simp [viewStep,fires,messageStep,hm.view,he])⟩
      · exact ⟨q++s.prefetched.map .request,
          mid_snoc _ hm.auth hm.tx hm.due (by simp [viewStep,fires,messageStep,hm.view,he])⟩
    obtain ⟨q',hm'⟩ := hm'
    exact ⟨⟨_,hm'.view⟩,hfailed e q' _ hm'⟩
  | finished result =>
    cases result with
    | ok outcome =>
      exact then_mid (hok outcome) hm.auth hm.tx hm.due hm.view
    | error e =>
      exact then_mid (herr e) hm.auth (congrArg TxStatus.fail hm.tx) hm.due hm.view

/-- The session asks for a message only when all are answered; it counts as read ahead until it is known not to be a
GOODBYE. -/
theorem acts_readMessage {P : ReadReply → Session → Trace → Prop} (maxBytes : Nat) (budgeted : Bool)
    (partialTimeout : Option Nat) (timer : Timer) (hm : Mid cfg [] tx s t) (hempty : s.prefetched=[])
    (hgot : ∀ b t', Mid cfg [] tx { s with prefetched := [b] } t' → P (.got b) s t')
    (hfailed : ∀ e q t', (isFrameMemoryRejection e=true → q≠[]) → Mid cfg q tx s t' → P (.failed e) s t')
    (htx : ∀ t', Mid cfg [.timeout] tx s t' → P .elapsed s t')
    (hpre : ∀ t' limit, timer = .preAuth limit → Mid cfg [] tx s t' → P .elapsed s t') :
    Keeps cfg (Env.readMessage maxBytes budgeted partialTimeout timer) P E s t := by
  have hview : unanswered (fires cfg) t=some [] := by
    rw [hm.view,hempty]
    rfl
  refine acts_ask (o := .readMessage maxBytes budgeted partialTimeout timer)
    (authOk_of_free rfl nofun) (fun r => trivial) fun r hr => ?_
  cases r with
  | got b =>
    exact then_mid (hgot b) hm.auth hm.tx hm.due (by simp [viewStep,fires,messageStep,hview])
  | failed e =>
    by_cases he : isFrameMemoryRejection e=true
    · refine then_mid (fun t' => hfailed e [.request []] t' (by simp)) hm.auth hm.tx (by rintro _ ⟨⟩; rfl) ?_
      simp [viewStep,fires,messageStep,hview,hempty,he]
    · refine then_mid (fun t' => hfailed e [] t' fun h => absurd h he) hm.auth hm.tx hm.due ?_
      simp [viewStep,fires,messageStep,hview,hempty,he]
  | elapsed =>
    cases timer with
    | unlimited => exact hr.elim
    | txIdle limit =>
      refine then_mid htx hm.auth hm.tx (by rintro _ ⟨⟩; rfl) ?_
      simp [viewStep,fires,messageStep,hview,hempty]
    | preAuth limit =>
      refine then_mid (fun t' => hpre t' limit rfl) hm.auth hm.tx hm.due ?_
      simp [viewStep,fires,messageStep,hview,hempty]

end
end NamiDB.Bolt
