import NamiDB.Bolt.Session

/-! What the trace of a session shows: whether somebody is logged on, whether a transaction is open, and
which of its requests a client that counts the answers still takes to be unanswered. -/
namespace NamiDB.Bolt
open Lib

abbrev Trace := List (Event Res)

/-- What the environment may answer. An authenticator of the embedder may say anything; the policies of
the server are functions. -/
def answers (cfg : Config) : (o : Op) → Res o → Prop
  | .authenticate extra, r => match cfg.auth with
    | .custom => True
    | policy => r=policy.check extra
  | .readMessage _ _ _ timer, r => match r, timer with
    | .elapsed, .unlimited => False
    | _, _ => True
  | _, _ => True

def sem (cfg : Config) : Semantics Trace Res := recording (answers cfg)

/-- A LOGOFF counts when the session accepts it: only then is the authenticator told. -/
def authStep (loggedOn : Bool) : Event Res → Bool
  | ⟨.authenticate _,.ok _⟩ => true
  | ⟨.logoff,_⟩ => false
  | _ => loggedOn

def loggedOn (t : Trace) : Bool := t.foldl authStep false

def Op.isQuery : Op → Bool
  | .startRun _ _ _ _ | .beginTx _ _ | .commitTx => true
  | _ => false

/-- The backend is asked, and a state that takes statements is entered, only while somebody is logged on. -/
def AuthOk (pre : Trace) (e : Event Res) : Prop :=
  (e.1.isQuery=true → loggedOn pre=true) ∧
    ∀ state, e.1 = .enter state → state.acceptsQueries=true → loggedOn pre=true

inductive TxStatus where
  | none | active | failed
  deriving DecidableEq

def TxStatus.fail : TxStatus → TxStatus
  | .none => .none
  | _ => .failed

/-- A rollback ends the transaction whatever it answers. -/
def txStep (status : TxStatus) : Event Res → TxStatus
  | ⟨.beginTx _ _,.ok _⟩ => .active
  | ⟨.commitTx,.ok _⟩ => .none
  | ⟨.commitTx,.error _⟩ => status.fail
  | ⟨.rollbackTx,_⟩ => .none
  | ⟨.select _,.finished (.error _)⟩ => status.fail
  | ⟨.awaitRun,.error _⟩ => status.fail
  | _ => status

def txStatus (t : Trace) : TxStatus := t.foldl txStep .none

/-- A transaction is begun only when none is left, a statement runs only in one that has not failed, and
none is left when the session enters a state outside of transactions. -/
def TxOk (pre : Trace) (e : Event Res) : Prop :=
  match e.1 with
  | .beginTx _ _ => txStatus pre = .none
  | .startRun insideTx _ _ _ => insideTx=true → txStatus pre = .active
  | .enter state => state.inTx=false → txStatus pre = .none
  | _ => True

def isPullFrame (body : List UInt8) : Bool := rawRequestTag body=some tagPull

def isGoodbyeFrame (body : List UInt8) : Bool := body=[0xB0,tagGoodbye]

def Response.isRecord : Response → Bool
  | .record _ => true
  | _ => false

def Response.isFailure : Response → Bool
  | .failure _ => true
  | _ => false

/-- What the client is to be told: the answer to a request, or that a timeout has ended its transaction. -/
inductive Due where
  | request (body : List UInt8)
  | timeout
  deriving DecidableEq

instance : Coe (List UInt8) Due := ⟨.request⟩

def Due.isGoodbye : Due → Bool
  | .request body => isGoodbyeFrame body
  | .timeout => false

/-- A timeout is told by a FAILURE, and a request is not done before its summary. -/
def Due.takes (response : Response) : Due → Bool
  | .request _ => !response.isRecord
  | .timeout => response.isFailure

/-- What is due, oldest first; `none` once an answer did not fit. -/
abbrev Unanswered := Option (List Due)

/-- An answer is for what is due longest. A record fits only when that is a PULL, and nothing fits a GOODBYE. -/
def answerStep (response : Response) : List Due → Unanswered
  | [] => none
  | d::rest =>
    if d.takes response then (if d.isGoodbye then none else some rest)
    else match d with
      | .request body => if isPullFrame body then some (.request body::rest) else none
      | .timeout => none

/-- A frame the reader gave up counts as a request as well; its body is not kept. -/
def messageStep (view : Unanswered) : Event Res → Unanswered
  | ⟨.readMessage _ _ _ _,reply⟩ => match view, reply with
    | some [], .got body => some [.request body]
    | some [], .failed error => if isFrameMemoryRejection error then some [.request []] else some []
    | some [], .elapsed => some []
    | _, _ => none
  | ⟨.select _,.got body⟩ => view.map (·++[.request body])
  | ⟨.select _,.failed error⟩ =>
    if isFrameMemoryRejection error then view.map (·++[.request []]) else view
  | ⟨.write response,.ok _⟩ => view.bind (answerStep response)
  | _ => view

/-- The events that end a transaction by a timeout: the client was idle for too long, or the transaction is too old
when the next message is due. -/
def fires (cfg : Config) : Event Res → Bool
  | ⟨.readMessage _ _ _ (.txIdle _),.elapsed⟩ => true
  | ⟨.elapsed _,age⟩ => cfg.maxTxLifetime.any fun limit => Nat.ble limit age
  | _ => false

/-- The timeouts that the client counts are told before what it has sent already. -/
def viewStep (counted : Event Res → Bool) (view : Unanswered) (e : Event Res) : Unanswered :=
  bif counted e then (messageStep view e).map (.timeout::·) else messageStep view e

/-- What is due, as long as every answer fitted and nothing was left over when the session asked for more. -/
def unanswered (counted : Event Res → Bool) (t : Trace) : Unanswered := t.foldl (viewStep counted) (some [])

/-- Every response is for what is due longest by the client's own count, whose timeouts are `counted`. -/
def InStep (counted : Event Res → Bool) (t : Trace) : Prop := (unanswered counted t).isSome=true

def Quiet (cfg : Config) (t : Trace) : Prop := ∀ e ∈ t, fires cfg e=false

section
variable {cfg : Config} {t : Trace} {e : Event Res}

theorem loggedOn_snoc (t : Trace) (e : Event Res) : loggedOn (t++[e])=authStep (loggedOn t) e := by
  simp [loggedOn]

theorem txStatus_snoc (t : Trace) (e : Event Res) : txStatus (t++[e])=txStep (txStatus t) e := by
  simp [txStatus]

theorem unanswered_snoc (t : Trace) (e : Event Res) :
    unanswered counted (t++[e])=viewStep counted (unanswered counted t) e := by
  simp [unanswered]

theorem unanswered_of_quiet (h : Quiet cfg t) : unanswered (fires cfg) t=unanswered (fun _ => false) t := by
  rw [unanswered,unanswered]
  generalize (some [] : Unanswered)=view
  induction t generalizing view with
  | nil => rfl
  | cons e t ih =>
    have he : viewStep (fires cfg) view e=viewStep (fun _ => false) view e := by
      rw [viewStep,h e List.mem_cons_self]
      rfl
    rw [List.foldl_cons,List.foldl_cons,he]
    exact ih (fun x hx => h x (List.mem_cons_of_mem e hx)) _

theorem Due.takes_failure (h : response.isFailure=true) (d : Due) : d.takes response=true := by
  cases d with
  | timeout => exact h
  | request body =>
    cases response with
    | failure metadata => rfl
    | _ => cases h

end
end NamiDB.Bolt
