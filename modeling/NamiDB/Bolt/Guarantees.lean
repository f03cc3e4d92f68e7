import NamiDB.Bolt.Connection

/-! What a client and the backend can rely on over a whole connection, whatever is sent and whenever a
timer fires or the socket breaks. -/
namespace NamiDB.Bolt
open Lib

variable {cfg : Config} {turns : Nat} {t : Trace}

section

/-- How one request is answered in a run that is followed by hand: nothing goes wrong, these bytes
arrive, or the timer fires first. -/
inductive Answer where
  | fine
  | bytes (body : List UInt8)
  | fired

def reply : (o : Op) → Answer → Option (Res o)
  | .readHandshake _, .bytes b => if h : b.length=20 then some (some (.ok ⟨b.toArray,h⟩)) else none
  | .writeHandshake _, .fine => some (.ok ())
  | .now, .fine => some (0 : Nat)
  | .readMessage _ _ _ _, .bytes b => some (.got b)
  | .readMessage _ _ _ (.txIdle _), .fired => some .elapsed
  | .admitRequestDecode _, .fine => some (.ok ())
  | .authenticate _, .fine => some (.ok ())
  | .startRun _ _ _ _, .fine => some ()
  | .select _, .bytes b => some (.got b)
  | .select _, .fine => some (.finished (.ok ⟨[],[],.read,[]⟩))
  | .beginTx _ _, .fine => some (.ok ())
  | .commitTx, .fine => some (.ok ())
  | .rollbackTx, .fine => some (.ok ())
  | .currentBookmark, .fine => some none
  | .write _, .fine => some (.ok ())
  | .enter _, .fine => some ()
  | _, _ => none

def exampleConfig : Config where
  agent := "namidb"
  connectionId := "bolt-1"
  auth := .openAccess
  postAuthMessageBytes := 1024
  budgeted := false
  partialMessageTimeout := none
  txIdleTimeout := some 60
  handshakeTimeout := some 10
  maxTxLifetime := none
  runtimeToBolt := fun _ _ => .null

theorem answers_of_reply (h : reply o a=some r) : answers exampleConfig o r := by
  unfold reply at h
  split at h <;> try cases h
  all_goals trivial

def followed (turns : Nat) (script : List Answer) : Option (Prog Res (Except BoltError Turn × Session) × Trace) :=
  follow (fun t o a => (reply o a).map fun r => (r,t++[⟨o,r⟩])) script
    (session exampleConfig turns) []

variable {script : List Answer}

theorem runs_of_followed (h : followed turns script=some x) :
    Runs (sem exampleConfig) (session exampleConfig turns) [] x.1 x.2 := by
  refine follow_runs (fun {t o a r t'} hexec => ?_) h
  obtain ⟨r',hr,⟨⟩⟩ := Option.map_eq_some_iff.mp hexec
  exact ⟨rfl,answers_of_reply hr⟩

theorem exists_run (h : (followed turns script).any p=true) :
    ∃ q t, Runs (sem exampleConfig) (session exampleConfig turns) [] q t ∧ p (q,t)=true := by
  cases hx : followed turns script with
  | none => simp [hx] at h
  | some x => exact ⟨x.1,x.2,runs_of_followed hx,by simpa [hx] using h⟩

def isDone : Prog Res (Except BoltError Turn × Session) → Bool
  | .ret (.ok .done,_) => true
  | _ => false

theorem eq_ret_of_isDone (h : isDone q=true) : ∃ s, q = .ret (.ok .done,s) := by
  unfold isDone at h
  split at h
  · exact ⟨_,rfl⟩
  · cases h

def logOn : List Answer :=
  [.bytes [0x60,0x60,0xB0,0x17,0,0,4,5,0,0,0,0,0,0,0,0,0,0,0,0],.fine,.fine,.bytes [0xB1,0x01,0xA0],.fine,.fine,
    .bytes [0xB1,0x6A,0xA0],.fine,.fine,.fine]

def statement : List Answer :=
  [.bytes [0xB3,0x10,0x80,0xA0,0xA0],.fine,.fine,.fine,.fine,.fine]

def pipelined : List Answer :=
  [.bytes [0xB3,0x10,0x80,0xA0,0xA0],.fine,.fine,.bytes [0xB1,0x3F,0xA0],.fine,.fine,.fine,.fine,.fine]

def beginning : List Answer := [.bytes [0xB1,0x11,0xA0],.fine,.fine,.fine,.fine]

end

/-- The backend is asked for a statement or a transaction only while somebody is logged on, and nothing
else leads into a state that accepts statements. A LOGOFF counts when the session accepts it, not when it
arrives. -/
theorem query_needs_logon (h : Runs (sem cfg) (session cfg turns) [] q t) : Always AuthOk t :=
  ((turns_run turns).invariant Safe.nil h).1

theorem query_needs_logon_run : ∃ q t, Runs (sem exampleConfig) (session exampleConfig 3) [] q t ∧
    t.any (·.1.isQuery) = true ∧ Always AuthOk t := by
  have hrun : (followed 3 (logOn++statement)).any (fun x => x.2.any (·.1.isQuery))=true := by
    decide +kernel
  obtain ⟨q,t,hr,hq⟩ := exists_run hrun
  exact ⟨q,t,hr,hq,query_needs_logon hr⟩

/-- A transaction is settled before the next one is begun, before the session leaves the states that
belong to it, and before the session ends; no statement runs in one that has failed. -/
theorem tx_settled (h : Runs (sem cfg) (session cfg turns) [] q t) :
    Always TxOk t ∧ ∀ result, q = .ret result → result.1 ≠ .ok .next → txStatus t = .none := by
  refine ⟨((turns_run turns).invariant Safe.nil h).2.1,?_⟩
  rintro ⟨r,s⟩ rfl hend
  obtain ⟨hok,herr⟩ := (turns_run turns).finished Safe.nil h
  cases r with
  | error e => exact herr e rfl
  | ok turn =>
    cases turn with
    | next => exact absurd rfl hend
    | done => exact hok .done rfl

theorem tx_settled_goodbye : ∃ s t,
    Runs (sem exampleConfig) (session exampleConfig 4) [] (.ret (.ok .done, s)) t ∧
      t.any (fun e => e.1 matches .beginTx _ _) = true ∧ Always TxOk t ∧ txStatus t = .none := by
  have hrun : (followed 4 (logOn++beginning++[.fine,.bytes [0xB0,0x02],.fine,.fine])).any
      (fun x => isDone x.1&&x.2.any (fun e => e.1 matches .beginTx _ _))=true := by
    decide +kernel
  obtain ⟨q,t,hr,hq⟩ := exists_run hrun
  obtain ⟨hdone,hbegun⟩ := Bool.and_eq_true_iff.mp hq
  obtain ⟨s,rfl⟩ := eq_ret_of_isDone hdone
  obtain ⟨hok,hend⟩ := tx_settled hr
  exact ⟨s,t,hr,hbegun,hok,hend _ rfl nofun⟩

/-- A client that expects one FAILURE for every transaction timeout gets the answers in order, each request its one
summary, in every run; one that counts its requests only does so as long as no such timeout fires. -/
theorem answers_inStep (h : Runs (sem cfg) (session cfg turns) [] q t) :
    InStep (fires cfg) t ∧ (Quiet cfg t → InStep (fun _ => false) t) := by
  have hin : InStep (fires cfg) t := ((turns_run turns).invariant Safe.nil h).2.2
  refine ⟨hin,fun hquiet => ?_⟩
  rwa [InStep,← unanswered_of_quiet hquiet]

/-- The transaction of the second run is ended by the idle timer. -/
theorem answers_inStep_pipelined :
    (∃ q t, Runs (sem exampleConfig) (session exampleConfig 4) [] q t ∧
      unanswered (fun _ => false) t = some [] ∧ Quiet exampleConfig t ∧ InStep (fun _ => false) t) ∧
    ∃ q t, Runs (sem exampleConfig) (session exampleConfig 4) [] q t ∧ t.any (fires exampleConfig) = true ∧
      InStep (fires exampleConfig) t := by
  have hpipelined : (followed 4 (logOn++pipelined)).any
      (fun x => unanswered (fun _ => false) x.2=some [] && x.2.all (!fires exampleConfig ·))=true := by
    decide +kernel
  have hfired : (followed 4 (logOn++beginning++[.fine,.fired,.fine,.fine,.fine])).any
      (fun x => x.2.any (fires exampleConfig))=true := by
    decide +kernel
  obtain ⟨q,t,hr,hq⟩ := exists_run hpipelined
  simp only [Bool.and_eq_true,decide_eq_true_eq,List.all_eq_true,Bool.not_eq_true'] at hq
  obtain ⟨q',t',hr',hq'⟩ := exists_run hfired
  exact ⟨⟨q,t,hr,hq.1,hq.2,(answers_inStep hr).2 hq.2⟩,q',t',hr',hq',(answers_inStep hr').1⟩

/-- A client that sends nothing within a transaction is told that its transaction is gone. By its requests alone it
takes this for the answer to what it sends next. -/
theorem idle_timeout_out_of_step : ∃ q t, Runs (sem exampleConfig) (session exampleConfig 4) [] q t ∧
    ¬ InStep (fun _ => false) t := by
  have hrun : (followed 4 (logOn++beginning++[.fine,.fired,.fine,.fine,.fine])).any
      (fun x => unanswered (fun _ => false) x.2=none)=true := by
    decide +kernel
  obtain ⟨q,t,hr,hq⟩ := exists_run hrun
  refine ⟨q,t,hr,?_⟩
  simp only [decide_eq_true_eq] at hq
  simp [InStep,hq]

end NamiDB.Bolt
