import Mathlib.Data.Option.Basic
import NamiDB.Bolt.Message

/-! The reader of chunked messages that can be dropped at any await and taken up again. The deadline of a frame
and an end of the stream fail the read, as the refusal of a frame does. -/
namespace NamiDB.Bolt
open List

/-- What a call of `read_message` is given: the size limit, and whether the memory budget funds a frame of so
many bytes, as it comes in (`false`) or decoded (`true`). -/
structure ReadCall where
  maxMessageBytes : Nat
  funds : Nat → Bool → Except BoltError Unit

/-- What is kept across a cancellation: the bytes read of the header and of the current chunk stand for their
buffers and counts. -/
structure StatefulMessageReader where
  header : List UInt8 := []
  pendingChunkLen : Option Nat := none
  chunkLen : Nat := 0
  chunk : List UInt8 := []
  message : List UInt8 := []
  messageComplete : Bool := false
  oversizedChunkRemaining : Nat := 0

inductive Await where
  | header | body

inductive ReadTurn where
  | ready (body : List UInt8) (r : StatefulMessageReader)
  | failed (e : BoltError) (r : StatefulMessageReader)
  | await (a : Await) (r : StatefulMessageReader)
  | again (r : StatefulMessageReader)

namespace StatefulMessageReader
variable (call : ReadCall) (r : StatefulMessageReader)

def finish : ReadTurn :=
  let controlBypass := decide (r.message.length≤controlFrameMaxBytes)&&isPressureReliefFrame r.message
  match if controlBypass then .ok () else call.funds r.message.length true with
  | .error e => .failed e r
  | .ok () => .ready r.message { r with message := [], messageComplete := false }

def fillChunk : ReadTurn :=
  if r.chunk.length<r.chunkLen then .await .body r
  else .again { r with message := r.message++r.chunk, chunkLen := 0, chunk := [] }

def openChunk (chunkLen : Nat) : ReadTurn :=
  if chunkLen=0 then .again { r with pendingChunkLen := none, messageComplete := true }
  else
    let nextLen := r.message.length+chunkLen
    let refused := { r with pendingChunkLen := none, oversizedChunkRemaining := chunkLen }
    if nextLen>call.maxMessageBytes then
      .failed (.tooLarge "Bolt message" nextLen call.maxMessageBytes) refused
    else
      match if nextLen>controlFrameMaxBytes then call.funds nextLen false else .ok () with
      | .error e => .failed e refused
      | .ok () => fillChunk { r with pendingChunkLen := none, chunkLen, chunk := [] }

def fillHeader : ReadTurn :=
  if r.header.length<2 then .await .header r
  else openChunk call { r with header := [], pendingChunkLen := some (bigEndian r.header) } (bigEndian r.header)

def turn : ReadTurn :=
  if r.messageComplete then finish call r
  else if r.chunkLen=0 then
    match r.pendingChunkLen with
    | none => fillHeader call r
    | some chunkLen => openChunk call r chunkLen
  else fillChunk r

/-- The read that was waited for brings `bytes`; none means the end of the stream. -/
def resume (a : Await) (bytes : List UInt8) : ReadTurn :=
  if bytes=[] then .failed (.io .unexpectedEof "unexpected end of file") r
  else match a with
    | .header => fillHeader call { r with header := r.header++bytes }
    | .body => fillChunk { r with chunk := r.chunk++bytes }

def wanted : Await → Nat
  | .header => 2-r.header.length
  | .body => r.chunkLen-r.chunk.length

end StatefulMessageReader

/-- Goes on until there is something to wait for or to return; two more turns of the loop are enough. -/
def ReadTurn.drive (call : ReadCall) : Nat → ReadTurn → ReadTurn
  | n+1, .again r => drive call n (r.turn call)
  | _, t => t

structure Reading where
  reader : StatefulMessageReader := {}
  current : Option (ReadCall × Await) := none
  bodies : List (List UInt8) := []
  failure : Option BoltError := none

def Reading.settle (s : Reading) (call : ReadCall) : ReadTurn → Reading
  | .ready body reader => { s with reader, current := none, bodies := s.bodies++[body] }
  | .failed e reader => { s with reader, current := none, failure := some e }
  | .await a reader => { s with reader, current := some (call,a) }
  | .again reader => { s with reader, current := none }

inductive ReadEvent where
  | call (c : ReadCall)
  | read (bytes : List UInt8)
  | cancel

/-- What can happen next; nothing does after a failure. A read brings at most what it asked for. -/
def Reading.step (s : Reading) (e : ReadEvent) : Option Reading := do
  guard s.failure.isNone
  match e, s.current with
  | .call c, none => some (s.settle c ((s.reader.turn c).drive c 2))
  | .read bytes, some (c,a) =>
    if bytes.length ≤ s.reader.wanted a then some (s.settle c ((s.reader.resume c a bytes).drive c 2)) else none
  | .cancel, some _ => some { s with current := none }
  | _, _ => none

def delivered (events : List ReadEvent) : List UInt8 :=
  events.flatMap fun
    | .read bytes => bytes
    | _ => []

/-- What a stream holds: the size a message grows to with each chunk that is announced, and the messages. -/
inductive Mark where
  | announced (size : Nat)
  | message (body : List UInt8)

/-- `read_message` of `chunk.rs` over and over; `body` is what has come of the current message. -/
def marks (body : List UInt8) : (stream : List UInt8) → List Mark
  | hi::lo::rest =>
    let len := bigEndian [hi,lo]
    if len=0 then .message body::marks [] rest
    else .announced (body.length+len) ::
      if rest.length<len then [] else marks (body++rest.take len) (rest.drop len)
  | _ => []
  termination_by stream => stream.length
  decreasing_by all_goals simp only [length_cons,length_drop]; omega

def bodiesOf (ms : List Mark) : List (List UInt8) :=
  ms.filterMap fun
    | .message body => some body
    | .announced _ => none

def inChunk (body : List UInt8) (len : Nat) (stream : List UInt8) : List Mark :=
  if stream.length<len then [] else marks (body++stream.take len) (stream.drop len)

theorem marks_header (body : List UInt8) (h : header.length=2) (rest : List UInt8) :
    marks body (header++rest) = if bigEndian header=0 then .message body::marks [] rest
      else .announced (body.length+bigEndian header)::inChunk body (bigEndian header) rest := by
  obtain ⟨hi,lo,rfl⟩ := length_eq_two.mp h
  rw [cons_append,cons_append,nil_append,marks]
  rfl

theorem bodiesOf_append (as bs : List Mark) : bodiesOf (as++bs)=bodiesOf as++bodiesOf bs :=
  filterMap_append

section

namespace StatefulMessageReader

/-- What the reader and the bytes still to come hold together. -/
def view (r : StatefulMessageReader) (future : List UInt8) : List Mark :=
  if r.chunkLen=0 then marks r.message (r.header++future)
  else inChunk r.message r.chunkLen (r.chunk++future)

structure Resting (r : StatefulMessageReader) : Prop where
  pending : r.pendingChunkLen=none
  complete : r.messageComplete=false
  header : r.header.length<2
  chunk : r.chunkLen=0 ∧ r.chunk=[] ∨ r.header=[] ∧ r.chunk.length<r.chunkLen

def awaitOf (r : StatefulMessageReader) : Await := if r.chunkLen=0 then .header else .body

variable {c : ReadCall} {r : StatefulMessageReader} {bytes : List UInt8}

theorem turn_resting (h : Resting r) : r.turn c = .await r.awaitOf r := by
  rw [turn,h.complete,h.pending,awaitOf]
  obtain ⟨h0,-⟩ | ⟨-,hlt⟩ := h.chunk
  · simp [h0,fillHeader,h.header]
  · have hne : r.chunkLen≠0 := by omega
    simp [hne,fillChunk,hlt]

theorem resume_body (h : Resting r) (hne : r.chunkLen≠0) (hb : bytes≠[]) (hlen : bytes.length≤r.wanted .body) :
    ∃ r', (r.resume c .body bytes).drive c 2 = .await r'.awaitOf r' ∧ Resting r' ∧
      ∀ f, r.view (bytes++f)=r'.view f := by
  obtain ⟨h0,-⟩ | ⟨hh,hpart⟩ := h.chunk
  · exact absurd h0 hne
  rw [resume,if_neg hb]
  by_cases hlt : (r.chunk++bytes).length<r.chunkLen
  · refine ⟨{ r with chunk := r.chunk++bytes },?_,⟨h.pending,h.complete,h.header,.inr ⟨hh,hlt⟩⟩,fun f => ?_⟩
    · have hfill : fillChunk { r with chunk := r.chunk++bytes } = .await .body { r with chunk := r.chunk++bytes } :=
        if_pos hlt
      simp only [hfill,ReadTurn.drive,awaitOf,if_neg hne]
    · simp [view,hne]
  · have hfull : (r.chunk++bytes).length=r.chunkLen := by
      simp only [wanted] at hlen
      simp only [length_append] at hlt ⊢
      omega
    let r' := { r with message := r.message++(r.chunk++bytes), chunkLen := 0, chunk := [] }
    have hr' : Resting r' := ⟨h.pending,h.complete,h.header,.inl ⟨rfl,rfl⟩⟩
    refine ⟨r',?_,hr',fun f => ?_⟩
    · have hfill : fillChunk { r with chunk := r.chunk++bytes } = .again r' := if_neg hlt
      simp only [hfill,ReadTurn.drive,turn_resting hr']
    · have hge : ¬(r.chunk++bytes++f).length<r.chunkLen := by
        rw [length_append,hfull]
        omega
      have hview : r'.view f=marks (r.message++(r.chunk++bytes)) f := by
        simp [view,r',hh]
      rw [hview,view,if_neg hne,← append_assoc,inChunk,if_neg hge,← hfull,take_left,drop_left]

/-- What the header of a chunk leads to: the end of the message, the chunk, or a refusal. -/
inductive Opened (c : ReadCall) (v : List UInt8 → List Mark) : ReadTurn → Prop
  | ready {r' : StatefulMessageReader} {body : List UInt8} (h : Resting r')
      (hv : ∀ f, v f = .message body::r'.view f) : Opened c v (.ready body r')
  | await {r' : StatefulMessageReader} {n : Nat} (h : Resting r') (hv : ∀ f, v f = .announced n::r'.view f) :
      Opened c v (.await r'.awaitOf r')
  | tooLarge {e : BoltError} {r' : StatefulMessageReader} {n : Nat} (h : c.maxMessageBytes<n)
      (hv : ∀ f, .announced n∈v f) : Opened c v (.failed e r')
  | unfunded {e : BoltError} {r' : StatefulMessageReader} {n : Nat} {b : Bool} (h : c.funds n b ≠ .ok ()) :
      Opened c v (.failed e r')

theorem opened_openChunk (hc : r.messageComplete=false) (h0 : r.chunkLen=0) (hch : r.chunk=[])
    (hh : r.header=[]) (len : Nat) : Opened c (fun f => if len=0 then .message r.message::marks [] f
      else .announced (r.message.length+len)::inChunk r.message len f) ((r.openChunk c len).drive c 2) := by
  by_cases hl : len=0
  · have hopen : r.openChunk c len = .again { r with pendingChunkLen := none, messageComplete := true } := if_pos hl
    rw [hopen,ReadTurn.drive,turn,if_pos rfl,finish]
    simp only [if_pos hl]
    split
    · next e he =>
      refine .unfunded (n := r.message.length) (b := true) fun hok => ?_
      simp [hok] at he
    · refine .ready ⟨rfl,rfl,by simp [hh],.inl ⟨h0,hch⟩⟩ fun f => ?_
      simp [view,h0,hh]
  · simp only [if_neg hl,openChunk]
    split
    · next hgt => exact .tooLarge hgt fun f => .head _
    · split
      · next e he =>
        refine .unfunded (n := r.message.length+len) (b := false) fun hok => ?_
        simp [hok] at he
      · let r' := { r with pendingChunkLen := none, chunkLen := len, chunk := [] }
        have hfill : fillChunk r' = .await .body r' := if_pos (Nat.pos_of_ne_zero hl)
        have ha : r'.awaitOf = .body := if_neg hl
        rw [hfill,← ha]
        refine .await (n := r.message.length+len) ⟨rfl,hc,by simp [r',hh],.inr ⟨hh,Nat.pos_of_ne_zero hl⟩⟩ fun f => ?_
        simp [view,hl,r']

theorem resume_header (h : Resting r) (h0 : r.chunkLen=0) (hb : bytes≠[]) (hlen : bytes.length≤r.wanted .header) :
    (∃ r', (r.resume c .header bytes).drive c 2 = .await r'.awaitOf r' ∧ Resting r' ∧
      ∀ f, r.view (bytes++f)=r'.view f) ∨
    Opened c (fun f => r.view (bytes++f)) ((r.resume c .header bytes).drive c 2) := by
  have hch : r.chunk=[] := by
    obtain ⟨-,hch⟩ | ⟨-,hlt⟩ := h.chunk
    · exact hch
    · omega
  rw [resume,if_neg hb]
  by_cases hlt : (r.header++bytes).length<2
  · refine .inl ⟨{ r with header := r.header++bytes },?_,⟨h.pending,h.complete,hlt,.inl ⟨h0,hch⟩⟩,fun f => ?_⟩
    · have hfill : fillHeader c { r with header := r.header++bytes } =
          .await .header { r with header := r.header++bytes } := if_pos hlt
      simp only [hfill,ReadTurn.drive,awaitOf,if_pos h0]
    · simp [view,h0]
  · refine .inr ?_
    have htwo : (r.header++bytes).length=2 := by
      have hheader := h.header
      simp only [wanted] at hlen
      simp only [length_append] at hlt ⊢
      omega
    have hfill : fillHeader c { r with header := r.header++bytes }=openChunk c
        { r with header := [], pendingChunkLen := some (bigEndian (r.header++bytes)) }
        (bigEndian (r.header++bytes)) := if_neg hlt
    have hview : ∀ f, r.view (bytes++f) = _ := fun f => by
      rw [view,if_pos h0,← append_assoc,marks_header r.message htwo]
    simp only [hfill,hview]
    exact opened_openChunk (r := { r with header := [], pendingChunkLen := some (bigEndian (r.header++bytes)) })
      h.complete h0 hch rfl _

end StatefulMessageReader

open StatefulMessageReader

def Generous (stream : List UInt8) (c : ReadCall) : Prop :=
  (∀ n b, c.funds n b = .ok ()) ∧ ∀ n, .announced n∈marks [] stream → n≤c.maxMessageBytes

/-- A connection that has taken in `d`: what it has returned and what its reader holds make up the stream. -/
structure TakenIn (d : List UInt8) (s : Reading) : Prop where
  resting : Resting s.reader
  current : ∀ {c a}, s.current=some (c,a) → a=s.reader.awaitOf
  holds : ∃ past, bodiesOf past=s.bodies ∧ ∀ f, marks [] (d++f)=past++s.reader.view f

theorem view_nil (h : Resting r) : r.view []=[] := by
  rw [view]
  split
  · match hr : r.header, h.header with
    | [], _ | [_], _ => simp [marks]
  · next hne =>
    obtain ⟨h0,-⟩ | ⟨-,hlt⟩ := h.chunk
    · exact absurd h0 hne
    · rw [append_nil,inChunk,if_pos hlt]

theorem TakenIn.bodies_eq (h : TakenIn d s) : s.bodies=bodiesOf (marks [] d) := by
  obtain ⟨past,hpast,hmarks⟩ := h.holds
  have hd := hmarks []
  rw [append_nil,view_nil h.resting,append_nil] at hd
  rw [hd,hpast]

variable {s : Reading} {e : ReadEvent} {d : List UInt8} {c : ReadCall} {a : Await}

theorem step_cases (h : s.step e=some s') : s.failure=none ∧
    ((∃ c, e = .call c ∧ s.current=none ∧ s'=s.settle c ((s.reader.turn c).drive c 2)) ∨
      (∃ bytes c a, e = .read bytes ∧ s.current=some (c,a) ∧ bytes.length ≤ s.reader.wanted a ∧
        s'=s.settle c ((s.reader.resume c a bytes).drive c 2)) ∨ e = .cancel ∧ s'={ s with current := none }) := by
  cases hf : s.failure with
  | some e => simp [Reading.step,hf] at h
  | none =>
    refine ⟨rfl,?_⟩
    cases e <;> cases hc : s.current <;> simp [Reading.step,hf,hc] at h
    · exact .inl ⟨_,rfl,rfl,h.symm⟩
    · next p =>
      obtain ⟨c,a⟩ := p
      obtain ⟨hle,rfl⟩ := h
      exact .inr (.inl ⟨_,c,a,rfl,rfl,hle,rfl⟩)
    · exact .inr (.inr ⟨rfl,h.symm⟩)

/-- Why a read can fail: the stream ended, the budget refused, or the stream announces a message that is too large. -/
def Refused (d bytes : List UInt8) (c : ReadCall) : Prop :=
  bytes=[] ∨ (∃ n b, c.funds n b ≠ .ok ()) ∨ ∃ n, c.maxMessageBytes<n ∧ ∀ f, .announced n∈marks [] (d++bytes++f)

theorem TakenIn.read (h : TakenIn d s) (hc : s.current=some (c,a)) (hf : s.failure=none)
    (hlen : bytes.length ≤ s.reader.wanted a) (ht : t=(s.reader.resume c a bytes).drive c 2) :
    (s.settle c t).failure=none ∧ TakenIn (d++bytes) (s.settle c t) ∨
      (s.settle c t).failure≠none ∧ Refused d bytes c := by
  by_cases hb : bytes=[]
  · refine .inr ⟨?_,.inl hb⟩
    have hend : s.reader.resume c a bytes = .failed _ _ := if_pos hb
    rw [ht,hend]
    nofun
  obtain ⟨past,hpast,hmarks⟩ := h.holds
  have hfuture : ∀ f, marks [] (d++bytes++f)=past++s.reader.view (bytes++f) := fun f => by
    rw [append_assoc,hmarks]
  have hwait : ∀ {r' : StatefulMessageReader} (more : List Mark), Resting r' → bodiesOf more=[] →
      (∀ f, s.reader.view (bytes++f)=more++r'.view f) →
      (s.settle c (.await r'.awaitOf r')).failure=none ∧ TakenIn (d++bytes) (s.settle c (.await r'.awaitOf r')) := by
    intro r' more hr hmore hv
    refine ⟨hf,hr,fun he => ?_,past++more,?_,fun f => ?_⟩
    · cases he
      rfl
    · rw [bodiesOf_append,hmore,append_nil,hpast]
      rfl
    · rw [hfuture,hv,append_assoc]
      rfl
  obtain rfl := h.current hc
  by_cases h0 : s.reader.chunkLen=0
  · have ha : s.reader.awaitOf = .header := if_pos h0
    rw [ha] at ht hlen
    obtain ⟨r',he,hr,hv⟩ | hopen := resume_header (c := c) h.resting h0 hb hlen
    · rw [ht,he]
      exact .inl (hwait [] hr rfl hv)
    · rw [← ht] at hopen
      cases hopen with
      | @ready r' body hr hv =>
        refine .inl ⟨hf,hr,nofun,past++[.message body],?_,fun f => ?_⟩
        · rw [bodiesOf_append,hpast]
          rfl
        · rw [hfuture,hv,append_assoc]
          rfl
      | await hr hv => exact .inl (hwait [_] hr rfl hv)
      | tooLarge hn hv =>
        refine .inr ⟨nofun,.inr (.inr ⟨_,hn,fun f => ?_⟩)⟩
        rw [hfuture]
        exact mem_append_right _ (hv f)
      | unfunded hn => exact .inr ⟨nofun,.inr (.inl ⟨_,_,hn⟩)⟩
  · have ha : s.reader.awaitOf = .body := if_neg h0
    rw [ha] at ht hlen
    obtain ⟨r',he,hr,hv⟩ := resume_body (c := c) h.resting h0 hb hlen
    rw [ht,he]
    exact .inl (hwait [] hr rfl hv)

theorem delivered_cons (e : ReadEvent) (events : List ReadEvent) :
    delivered (e::events)=delivered [e]++delivered events := by
  simp [delivered]

theorem TakenIn.step (h : TakenIn d s) (hs : s.step e=some s') : s'.failure=none ∧ TakenIn (d++delivered [e]) s' ∨
      ∃ bytes c a, e = .read bytes ∧ s.current=some (c,a) ∧ s'.failure≠none ∧ Refused d bytes c := by
  obtain ⟨hf,⟨c,rfl,hc,rfl⟩ | ⟨bytes,c,a,rfl,hc,hlen,rfl⟩ | ⟨rfl,rfl⟩⟩ := step_cases hs
  · rw [turn_resting h.resting]
    refine .inl ⟨hf,h.resting,fun he => ?_,?_⟩
    · cases he
      rfl
    · rw [show delivered [.call c]=[] from rfl,append_nil]
      exact h.holds
  · have hd : delivered [.read bytes]=bytes := by simp [delivered]
    rw [hd]
    obtain hok | ⟨hne,hrefused⟩ := h.read hc hf hlen rfl
    · exact .inl hok
    · exact .inr ⟨bytes,c,a,rfl,hc,hne,hrefused⟩
  · refine .inl ⟨hf,h.resting,nofun,?_⟩
    simpa [delivered] using h.holds

theorem current_of_step (hs : s.step e=some s') (hc : s'.current=some (c,a)) :
    e = .call c ∨ ∃ a', s.current=some (c,a') := by
  have hsettle : ∀ {c' t}, (s.settle c' t).current=some (c,a) → c'=c := by
    intro c' t h
    cases t <;> cases h
    rfl
  obtain ⟨-,⟨c',rfl,-,rfl⟩ | ⟨_,c',a',rfl,hc',-,rfl⟩ | ⟨rfl,rfl⟩⟩ := step_cases hs
  · exact .inl (hsettle hc ▸ rfl)
  · exact .inr ⟨a',hsettle hc ▸ hc'⟩
  · cases hc

theorem not_refused (hg : Generous stream c) (hb : bytes≠[]) (hd : d++bytes++f=stream) : ¬Refused d bytes c := by
  rintro (h | ⟨n,b,h⟩ | ⟨n,hn,h⟩)
  · exact hb h
  · exact h (hg.1 n b)
  · have := hg.2 n (hd ▸ h f)
    omega

theorem run_takenIn (events : List ReadEvent) (h : TakenIn d s) (hf : s.failure=none)
    (hrun : events.foldlM Reading.step s=some s') (hd : d++delivered events=stream) :
    (s'.failure=none → TakenIn stream s') ∧
      ((∀ c a, s.current=some (c,a) → Generous stream c) → (∀ c, .call c∈events → Generous stream c) →
        .read []∉events → s'.failure=none) := by
  induction events generalizing s d with
  | nil =>
    cases hrun
    rw [show delivered []=[] from rfl,append_nil] at hd
    exact ⟨fun _ => hd ▸ h,fun _ _ _ => hf⟩
  | cons e events ih =>
    rw [foldlM_cons,Option.bind_eq_bind,Option.bind_eq_some_iff] at hrun
    obtain ⟨s1,hs,hrun⟩ := hrun
    rw [delivered_cons,← append_assoc] at hd
    obtain ⟨hf1,h1⟩ | ⟨bytes,c,a,rfl,hc,hne,href⟩ := h.step hs
    · obtain ⟨hin,hok⟩ := ih h1 hf1 hrun hd
      refine ⟨hin,fun hcur hcalls hread => hok (fun c a hc => ?_) (fun c hc => hcalls c (.tail _ hc))
        fun hm => hread (.tail _ hm)⟩
      obtain rfl | ⟨a',hc'⟩ := current_of_step hs hc
      · exact hcalls c (.head _)
      · exact hcur c a' hc'
    · cases events with
      | nil =>
        cases hrun
        refine ⟨fun hf' => absurd hf' hne,fun hcur _ hread => ?_⟩
        rw [show delivered [.read bytes]=bytes by simp [delivered]] at hd
        refine absurd href (not_refused (hcur c a hc) (fun hb => hread ?_) hd)
        rw [hb]
        exact .head _
      | cons e' events =>
        -- a failed connection takes no further event
        rw [foldlM_cons,Option.bind_eq_bind,Option.bind_eq_some_iff] at hrun
        obtain ⟨s2,hs2,-⟩ := hrun
        exact absurd (step_cases hs2).1 hne

/-- Whatever the splits of the stream, the dropped reads and the limits, the messages returned are those of the
whole stream; and no read fails while the stream keeps within every limit and budget. -/
theorem reader_returns_stream (events : List ReadEvent) (hrun : events.foldlM Reading.step {} = some s) :
    (s.failure = none → s.bodies = bodiesOf (marks [] (delivered events))) ∧
      ((∀ c, .call c ∈ events → Generous (delivered events) c) → .read [] ∉ events → s.failure = none) := by
  have h₀ : TakenIn [] {} := ⟨⟨rfl,rfl,by decide,.inl ⟨rfl,rfl⟩⟩,nofun,[],rfl,fun f => rfl⟩
  obtain ⟨hin,hok⟩ := run_takenIn events h₀ rfl hrun (nil_append _)
  exact ⟨fun hf => (hin hf).bodies_eq,hok nofun⟩

end

def dropped : List ReadEvent :=
  let call := ReadEvent.call ⟨2,fun _ _ => .ok ()⟩
  [0,2,1,2,0].flatMap (fun b => [call,.read [b],.cancel])++[call,.read [0]]

theorem reader_returns_dropped : ∃ s, dropped.foldlM Reading.step {}=some s ∧ s.bodies=[[1,2]] ∧
    s.bodies=bodiesOf (marks [] (delivered dropped)) :=
  ⟨_,rfl,rfl,(reader_returns_stream dropped rfl).1 rfl⟩

end NamiDB.Bolt
