import Aurum.Amqp.MethodCodec
import Aurum.Amqp.Steps
import Aurum.Lib.Framing

/-!
# AMQP — a session on a stream of bytes

`AmqpCodec` and `receive_bytes`: every call takes a buffer of its own,
hands the frames in it to the session and drops what is left; only the
header of a frame whose payload is not complete is kept for the next call.
The broker behind the port is a parameter, so that a session's calls can
be observed by any broker. The codec's frame limit always equals the
`frame_max` of the connection and is read from there.
-/

namespace Aurum.Amqp

open Aurum.Bytes Aurum.Reader Aurum.Routing Aurum.Protocol Aurum.Broker Aurum.Service List

/-! ## Frames -/

inductive FrameKind where
  | method
  | header
  | body
  | heartbeat
deriving DecidableEq, Repr

/-- `FrameKind::from_u8`. -/
def FrameKind.ofU8 (b : UInt8) : Option FrameKind :=
  match b.toNat with
  | 1 => some .method
  | 2 => some .header
  | 3 => some .body
  | 4 => some .heartbeat
  | _ => none

structure PartialHeader where
  kind : FrameKind
  channel : Nat
  size : Nat
deriving DecidableEq, Repr

structure RawFrame where
  kind : FrameKind
  channel : Nat
  payload : List UInt8
deriving DecidableEq, Repr

def frameEnd : UInt8 := 0xCE

/-- The end octet of a frame: it is consumed whether or not it is right. -/
def closeFrame (raw : RawFrame) (rest : List UInt8) :
    Except WireError (Option RawFrame) × Option PartialHeader × List UInt8 :=
  if rest.head? = some frameEnd then (.ok (some raw), none, rest.tail)
  else (.error .badFrameEnd, none, rest.tail)

/-- The branch of `AmqpCodec::decode` for a header that is there. -/
def finishFrame (hdr : PartialHeader) (buf : List UInt8) :
    Except WireError (Option RawFrame) × Option PartialHeader × List UInt8 :=
  if buf.length < hdr.size + 1 then (.ok none, some hdr, buf)
  else closeFrame ⟨hdr.kind, hdr.channel, buf.take hdr.size⟩ (buf.drop hdr.size)

/-- The channel a frame header names. -/
def headerChannel (buf : List UInt8) : Nat := ofBe ((buf.drop 1).take 2)

/-- The payload size a frame header names. -/
def headerSize (buf : List UInt8) : Nat := ofBe ((buf.drop 3).take 4)

/-- `AmqpCodec::decode`, with the header it keeps and the buffer it
leaves. The header of an empty heartbeat is not kept. -/
def decodeFrame (maxFrameSize : Nat) (frameHeader : Option PartialHeader) (buf : List UInt8) :
    Except WireError (Option RawFrame) × Option PartialHeader × List UInt8 :=
  match frameHeader with
  | some hdr => finishFrame hdr buf
  | none =>
    if buf.length < 7 then (.ok none, none, buf)
    else if headerSize buf > maxFrameSize then
      (.error (.frameTooLarge (headerSize buf) maxFrameSize), none, buf)
    else
      match FrameKind.ofU8 (buf.headD 0) with
      | none => (.error .unknownFrameType, none, buf)
      | some kind =>
        if kind = .heartbeat ∧ headerSize buf = 0 then
          if buf.drop 7 = [] then (.ok none, none, buf.drop 7)
          else closeFrame ⟨kind, headerChannel buf, []⟩ (buf.drop 7)
        else finishFrame ⟨kind, headerChannel buf, headerSize buf⟩ (buf.drop 7)

section Frames

variable {maxFrameSize : Nat} {hdr : PartialHeader}
  {frameHeader frameHeader' : Option PartialHeader}
  {buf buf' : List UInt8} {raw : RawFrame}

theorem closeFrame_ok {raw' : RawFrame}
    (h : closeFrame raw buf = (.ok (some raw'), frameHeader', buf')) :
    raw' = raw ∧ frameHeader' = none ∧ buf = frameEnd :: buf' := by
  rw [closeFrame] at h
  split at h
  · next hend =>
    cases h
    exact ⟨rfl, rfl, (eq_cons_of_mem_head? hend)⟩
  · cases h

theorem finishFrame_wait (hlen : buf.length < hdr.size + 1) :
    finishFrame hdr buf = (.ok none, some hdr, buf) := by
  rw [finishFrame, if_pos hlen]

theorem finishFrame_close (hlen : hdr.size + 1 ≤ buf.length) : finishFrame hdr buf =
      closeFrame ⟨hdr.kind, hdr.channel, buf.take hdr.size⟩ (buf.drop hdr.size) := by
  rw [finishFrame, if_neg (by omega)]

theorem finishFrame_some (h : finishFrame hdr buf = (.ok (some raw), frameHeader', buf')) :
    frameHeader' = none ∧ buf = raw.payload ++ frameEnd :: buf' ∧
      raw = ⟨hdr.kind, hdr.channel, raw.payload⟩ ∧ raw.payload.length = hdr.size := by
  by_cases hlen : buf.length < hdr.size + 1
  · rw [finishFrame_wait hlen] at h
    cases h
  · rw [finishFrame_close (by omega)] at h
    obtain ⟨rfl, hnone, hrest⟩ := closeFrame_ok h
    refine ⟨hnone, ?_, rfl, by rw [length_take]; omega⟩
    rw [← hrest, take_append_drop]

/-- The fields of a header do not depend on what is behind it. -/
theorem header_append (hlen : 7 ≤ buf.length) (more : List UInt8) :
    headerSize (buf ++ more) = headerSize buf ∧ headerChannel (buf ++ more) = headerChannel buf ∧
      (buf ++ more).headD 0 = buf.headD 0 ∧ (buf ++ more).drop 7 = buf.drop 7 ++ more := by
  refine ⟨?_, ?_, ?_, ?_⟩
  · rw [headerSize, headerSize, drop_append_of_le_length (by omega),
      take_append_of_le_length (by rw [length_drop]; omega)]
  · rw [headerChannel, headerChannel, drop_append_of_le_length (by omega),
      take_append_of_le_length (by rw [length_drop]; omega)]
  · cases buf with
    | nil => simp at hlen
    | cons b bs => rfl
  · rw [drop_append_of_le_length hlen]

/-- A frame costs bytes, and no header is left behind it. -/
theorem decodeFrame_some (h : decodeFrame maxFrameSize frameHeader buf =
    (.ok (some raw), frameHeader', buf')) : frameHeader' = none ∧ buf'.length < buf.length := by
  cases frameHeader with
  | some hdr =>
    obtain ⟨hnone, hbuf, -⟩ := finishFrame_some h
    exact ⟨hnone, by rw [hbuf, length_append, length_cons]; omega⟩
  | none =>
    rw [decodeFrame] at h
    split at h
    · cases h
    · have hdrop := @length_drop _ 7 buf
      split at h
      · cases h
      · split at h
        · cases h
        · split at h
          · split at h
            · cases h
            · obtain ⟨-, hnone, hbuf⟩ := closeFrame_ok h
              rw [hbuf, length_cons] at hdrop
              exact ⟨hnone, by omega⟩
          · obtain ⟨hnone, hbuf, -⟩ := finishFrame_some h
            rw [hbuf, length_append, length_cons] at hdrop
            exact ⟨hnone, by omega⟩

end Frames

/-! ## The broker -/

/-- `AmqpBrokerPort`, without the payload store, which the session has. -/
structure Port (β : Type) where
  handleControl : β → AmqpControlCommand → β × AmqpControlResult
  routeTableVersion : β → Nat
  resolveRoute : β → Text → Text → β × Option RoutePublishTarget
  handleBatch : β → BrokerCommandBatch → β × ShardOutputBatch

/-- A broker that accepts everything and answers nothing. -/
def Port.silent : Port Unit where
  handleControl := fun _ _ => ((), .success)
  routeTableVersion := fun _ => 0
  resolveRoute := fun _ _ _ => ((), none)
  handleBatch := fun _ _ => ((), .empty)

variable {β : Type}

/-- A call of the port, and how the session goes on. -/
def Port.answer (port : Port β) (broker : β) (s : AmqpSession) : Ask → β × AmqpSession × Outcome
  | .control cmd reply =>
    let (broker, result) := port.handleControl broker cmd
    (broker, s.onControl reply result)
  | .routeVersion p => (broker, s.onRouteVersion p (port.routeTableVersion broker))
  | .resolveRoute p =>
    let (broker, entry) := port.resolveRoute broker (toStringLossy p.content.publish.exchange)
      (toStringLossy p.content.publish.routingKey)
    (broker, s.onResolved p entry)
  | .command cmd reply =>
    let (broker, output) := port.handleBatch broker cmd
    (broker, s.onOutput reply output)

/-- Makes the calls of a frame, at most the given number. -/
def Port.drive (port : Port β) : Nat → β → AmqpSession × Outcome → β × AmqpSession × Outcome
  | 0, broker, r => (broker, r)
  | n + 1, broker, (s, outcome) =>
    match outcome with
    | .ask call =>
      let (broker, r) := port.answer broker s call
      port.drive n broker r
    | outcome => (broker, s, outcome)

/-- The calls an outcome can still lead to. -/
def Outcome.calls : Outcome → Nat
  | .ask (.routeVersion _) => 3
  | .ask (.resolveRoute _) => 2
  | .ask (.control _ (.consuming _ _ _)) => 2
  | .ask (.control _ _) => 1
  | .ask (.command _ _) => 1
  | .done | .failed _ => 0

theorem calls_sendAll (ds : List Delivery) (s : AmqpSession) : (s.sendAll ds).2.calls = 0 := by
  induction ds generalizing s with
  | nil => rfl
  | cons d ds ih =>
    rw [AmqpSession.sendAll]
    split
    · exact ih _
    · rfl

theorem calls_onOutput (s : AmqpSession) (reply : CommandReply) (output : ShardOutputBatch) :
    (s.onOutput reply output).2.calls = 0 := by
  have hemit : ∀ channel, (s.emitBrokerOutput channel output).2.calls = 0 :=
    fun channel => calls_sendAll _ _
  cases reply with
  | cancelled channel tag => rfl
  | emitted channel => exact hemit channel
  | consumed channel tag =>
    rw [AmqpSession.onOutput]
    split
    · rfl
    · exact hemit channel

/-! ## Sessions -/

/-- The class and method id of a method frame and its arguments. -/
def readMethodFrame : WireReader AmqpMethod := do
  let classId ← indexed 2 id
  let methodId ← indexed 2 id
  readMethod classId methodId

/-- A decoded payload, or none if decoding failed; a panic is not caught. -/
def decoded {α : Type} (r : WireReader α) (payload : List UInt8) :
    Except (Fault SessionError) (Option α) :=
  match r payload with
  | .ok (a, _) => .ok (some a)
  | .error (.error _) => .ok none
  | .error .panic => .error .panic

/-- The content an open channel waits for. -/
def AmqpSession.contentOf (s : AmqpSession) (channel : Nat) : Option PendingPublishContent :=
  (s.openChannel channel).bind (·.pendingPublish)

/-- The frame a session reads: the header of content nobody waits for is
not decoded. The only error is a panic. -/
def AmqpSession.decodeRaw (s : AmqpSession) (raw : RawFrame) : Except (Fault SessionError) Frame :=
  match raw.kind with
  | .method => do return .method raw.channel (← decoded readMethodFrame raw.payload)
  | .header =>
    if (s.contentOf raw.channel).isSome then do
      return .header raw.channel (← decoded ContentHeader.decode raw.payload)
    else .ok (.header raw.channel none)
  | .body => .ok (.body raw.channel raw.payload)
  | .heartbeat => .ok .heartbeat

/-- `AmqpSession`, with the broker behind its port. -/
structure PortSession (β : Type) where
  broker : β
  session : AmqpSession

namespace PortSession

/-- A session that has received nothing. -/
def new (broker : β) : PortSession β := ⟨broker, .new⟩

variable (port : Port β) (order : HashOrder)

/-- `receive_frame`, decoded. A publish makes at most three calls of the
broker, every other frame at most two. -/
def handle (p : PortSession β) (f : Frame) : Except SessionError Unit × PortSession β :=
  let (broker, session, outcome) := port.drive 3 p.broker (p.session.onFrame order f)
  (match outcome with
    | .failed e => .error e
    | _ => .ok (), ⟨broker, session⟩)

/-- The session after some frames. An error does not end it. -/
def run (p : PortSession β) (frames : List Frame) : PortSession β :=
  frames.foldl (fun p f => (p.handle port order f).2) p

/-- `receive_frame`. -/
def receive (p : PortSession β) (raw : RawFrame) :
    Except (Fault SessionError) Unit × PortSession β :=
  match p.session.decodeRaw raw with
  | .error fault => (.error fault, p)
  | .ok f => ((p.handle port order f).1.mapError .error, (p.handle port order f).2)

end PortSession

/-- A session, with the header its codec keeps. -/
structure StreamSession (β : Type) extends PortSession β where
  frameHeader : Option PartialHeader

namespace StreamSession

/-- A session that has received nothing. -/
def new (broker : β) : StreamSession β := ⟨.new broker, none⟩

variable (port : Port β) (order : HashOrder)

/-- A decoded frame is handed on. The result names it, also with an error,
and the session that received it. -/
def handOn (p : PortSession β) (raw : RawFrame) (frameHeader : Option PartialHeader)
    (buf : List UInt8) :
    Except (Option (AmqpSession × RawFrame) × Fault SessionError)
      (Option (AmqpSession × RawFrame)) × StreamSession β × List UInt8 :=
  match p.receive port order raw with
  | (.error fault, p') => (.error (some (p.session, raw), fault), ⟨p', frameHeader⟩, buf)
  | (.ok (), p') => (.ok (some (p.session, raw)), ⟨p', frameHeader⟩, buf)

/-- One round of the loop of `receive_bytes`. -/
def next (st : StreamSession β × List UInt8) :
    Except (Option (AmqpSession × RawFrame) × Fault SessionError)
      (Option (AmqpSession × RawFrame)) × StreamSession β × List UInt8 :=
  match decodeFrame st.1.session.connection.frameMax st.1.frameHeader st.2 with
  | (.error _, frameHeader, buf) =>
    (.error (none, .error .wire), { st.1 with frameHeader := frameHeader }, buf)
  | (.ok none, frameHeader, buf) => (.ok none, { st.1 with frameHeader := frameHeader }, buf)
  | (.ok (some raw), frameHeader, buf) =>
    handOn port order st.1.toPortSession raw frameHeader buf

variable {port order} in
/-- What a round that returns a frame did. -/
theorem next_some {s s' : StreamSession β} {buf buf' : List UInt8} {handed : AmqpSession × RawFrame}
    (h : next port order (s, buf) = (.ok (some handed), s', buf')) :
    handed.1 = s.session ∧
      decodeFrame s.session.connection.frameMax s.frameHeader buf =
        (.ok (some handed.2), none, buf') ∧
      s.receive port order handed.2 = (.ok (), s'.toPortSession) ∧ s'.frameHeader = none := by
  rcases hd : decodeFrame s.session.connection.frameMax s.frameHeader buf with ⟨res, hdr, rest⟩
  rw [next, hd] at h
  cases res with
  | error e => cases h
  | ok res =>
    cases res with
    | none => cases h
    | some raw =>
      obtain ⟨rfl, -⟩ := decodeFrame_some hd
      rcases hr : s.receive port order raw with ⟨res, p⟩
      dsimp only at h
      rw [handOn, hr] at h
      cases res with
      | error fault => cases h
      | ok u =>
        cases h
        exact ⟨rfl, rfl, hr, rfl⟩

/-- The loop of `receive_bytes` as a decoder. -/
def decoder : Decoder (StreamSession β × List UInt8)
    (Option (AmqpSession × RawFrame) × Fault SessionError) (AmqpSession × RawFrame) where
  size := fun st => st.2.length
  decode := next port order
  shrinks := by
    rintro ⟨s, buf⟩ ⟨s', buf'⟩ handed h
    obtain ⟨-, hd, -⟩ := next_some h
    exact (decodeFrame_some hd).2

/-- The loop of `receive_bytes`: what is left of the buffer is dropped. -/
def receiveFrames (s : StreamSession β) (buf : List UInt8) :
    Except (Fault SessionError) Unit × StreamSession β :=
  let drained := (decoder port order).drain (s, buf)
  (match drained.error with
    | some (_, fault) => .error fault
    | none => .ok (), drained.state.1)

/-- The frames a call hands on, with the session that receives each. -/
def handed (s : StreamSession β) (buf : List UInt8) : List (AmqpSession × RawFrame) :=
  let drained := (decoder port order).drain (s, buf)
  drained.frames ++ (drained.error.bind Prod.fst).toList

/-- `PROTOCOL_HEADER`: `AMQP`, 0, 0, 9, 1. -/
def protocolHeader : List UInt8 := [65, 77, 81, 80, 0, 0, 9, 1]

/-- The protocol header is accepted. -/
def start (s : StreamSession β) : StreamSession β :=
  { s with session := (s.session.onFrame order .protocolHeader).1 }

def receiveBytes (s : StreamSession β) (input : List UInt8) :
    Except (Fault SessionError) Unit × StreamSession β :=
  if s.session.protocolHeaderSeen then s.receiveFrames port order input
  else if input.length < 8 then (.ok (), s)
  else if input.take 8 ≠ protocolHeader then (.error (.error .protocol), s)
  else if input.drop 8 = [] then (.ok (), s.start order)
  else (s.start order).receiveFrames port order (input.drop 8)

/-! ## What a call hands on -/

section Handed

variable {port order} {s s' : StreamSession β} {buf rest : List UInt8}

theorem receiveFrames_wait (h : next port order (s, buf) = (.ok none, s', rest)) :
    s.receiveFrames port order buf = (.ok (), s') ∧ s.handed port order buf = [] := by
  rw [receiveFrames, handed,
    Decoder.drain_none (show (decoder port order).decode (s, buf) = _ from h)]
  exact ⟨rfl, rfl⟩

theorem receiveFrames_some {frame : AmqpSession × RawFrame}
    (h : next port order (s, buf) = (.ok (some frame), s', rest)) :
    s.receiveFrames port order buf = s'.receiveFrames port order rest ∧
      s.handed port order buf = frame :: s'.handed port order rest := by
  rw [receiveFrames, handed,
    Decoder.drain_some (show (decoder port order).decode (s, buf) = _ from h)]
  exact ⟨rfl, rfl⟩

theorem receiveFrames_error {e : Option (AmqpSession × RawFrame) × Fault SessionError}
    (h : next port order (s, buf) = (.error e, s', rest)) :
    s.receiveFrames port order buf = (.error e.2, s') ∧
      s.handed port order buf = e.1.toList := by
  rw [receiveFrames, handed,
    Decoder.drain_error (show (decoder port order).decode (s, buf) = _ from h)]
  exact ⟨rfl, rfl⟩

/-- What a round that fails did: a frame was broken, or it was handed on
and its handler failed. -/
theorem next_error {e : Option (AmqpSession × RawFrame) × Fault SessionError}
    (h : next port order (s, buf) = (.error e, s', rest)) :
    (e = (none, .error .wire) ∧ s'.toPortSession = s.toPortSession) ∨
      ∃ raw, e.1 = some (s.session, raw) ∧
        s.receive port order raw = (.error e.2, s'.toPortSession) := by
  rcases hd : decodeFrame s.session.connection.frameMax s.frameHeader buf with ⟨res, hdr, after⟩
  rw [next, hd] at h
  cases res with
  | error _ =>
    cases h
    exact .inl ⟨rfl, rfl⟩
  | ok res =>
    cases res with
    | none => cases h
    | some raw =>
      rcases hr : s.receive port order raw with ⟨res, p⟩
      dsimp only at h
      rw [handOn, hr] at h
      cases res with
      | error fault =>
        cases h
        exact .inr ⟨raw, rfl, hr⟩
      | ok u => cases h

theorem next_wait (h : next port order (s, buf) = (.ok none, s', rest)) :
    s'.toPortSession = s.toPortSession := by
  rcases hd : decodeFrame s.session.connection.frameMax s.frameHeader buf with ⟨res, hdr, after⟩
  rw [next, hd] at h
  cases res with
  | error _ => cases h
  | ok res =>
    cases res with
    | none =>
      cases h
      rfl
    | some raw =>
      dsimp only at h
      rw [handOn] at h
      split at h <;> cases h

/-- The frame a session reads from a raw frame, if reading does not panic. -/
def readBy (frame : AmqpSession × RawFrame) : Option Frame :=
  match frame.1.decodeRaw frame.2 with
  | .ok f => some f
  | .error _ => none

theorem receive_run (p : PortSession β) (raw : RawFrame) (p' : PortSession β)
    (res : Except (Fault SessionError) Unit) (h : p.receive port order raw = (res, p'))
    (frames : List (AmqpSession × RawFrame)) :
    p.run port order (((p.session, raw) :: frames).filterMap readBy) =
      p'.run port order (frames.filterMap readBy) := by
  rw [PortSession.receive] at h
  rw [filterMap_cons, readBy]
  cases hread : p.session.decodeRaw raw with
  | error fault =>
    rw [hread] at h
    cases h
    rfl
  | ok f =>
    rw [hread] at h
    cases h
    rfl

/-- **A call is a run**: the session receives the frames that were handed
on, and nothing else. -/
theorem receiveFrames_run (s : StreamSession β) (buf : List UInt8) :
    (s.receiveFrames port order buf).2.toPortSession =
      s.run port order ((s.handed port order buf).filterMap readBy) := by
  generalize hst : (s, buf) = st
  induction st using Decoder.drain_induction (d := decoder port order) generalizing s buf with
  | step st ih =>
    subst hst
    rcases hnext : next port order (s, buf) with ⟨res, s', rest⟩
    cases res with
    | error e =>
      obtain ⟨hcall, hhanded⟩ := receiveFrames_error hnext
      rw [hcall, hhanded]
      rcases next_error hnext with ⟨rfl, hs⟩ | ⟨raw, he, hr⟩
      · exact hs
      · rw [he]
        exact (receive_run _ raw _ _ hr []).symm
    | ok res =>
      cases res with
      | none =>
        obtain ⟨hcall, hhanded⟩ := receiveFrames_wait hnext
        rw [hcall, hhanded]
        exact next_wait hnext
      | some frame =>
        obtain ⟨hcall, hhanded⟩ := receiveFrames_some hnext
        obtain ⟨hsession, -, hr, -⟩ := next_some hnext
        obtain ⟨session, raw⟩ := frame
        subst hsession
        rw [hcall, hhanded, receive_run _ raw _ _ hr]
        exact ih _ _ hnext _ _ rfl

/-- A call that waits at once changes nothing but the header that is kept. -/
theorem receiveFrames_waits (rest : List UInt8)
    (h : decodeFrame s.session.connection.frameMax s.frameHeader buf =
      (.ok none, s.frameHeader, rest)) :
    s.receiveFrames port order buf = (.ok (), s) ∧ s.handed port order buf = [] := by
  have hnext : next port order (s, buf) = (.ok none, s, rest) := by rw [next, h]
  exact receiveFrames_wait hnext

theorem receiveFrames_nil :
    s.receiveFrames port order [] = (.ok (), s) ∧ s.handed port order [] = [] := by
  apply receiveFrames_waits []
  cases hheader : s.frameHeader with
  | none => rfl
  | some hdr => exact finishFrame_wait (Nat.succ_pos _)

end Handed

/-- The frames a session reads from its input, the protocol header among
them. -/
def received (s : StreamSession β) (input : List UInt8) : List Frame :=
  if s.session.protocolHeaderSeen then (s.handed port order input).filterMap readBy
  else if input.length < 8 ∨ input.take 8 ≠ protocolHeader then []
  else .protocolHeader :: ((s.start order).handed port order (input.drop 8)).filterMap readBy

/-- The frames a session reads from the input of some calls. -/
def framesOf (s : StreamSession β) : List (List UInt8) → List Frame
  | [] => []
  | input :: inputs =>
    s.received port order input ++ (s.receiveBytes port order input).2.framesOf inputs

/-- The session after some calls. An error does not end the connection. -/
def receiveInputs (s : StreamSession β) : List (List UInt8) → StreamSession β
  | [] => s
  | input :: inputs => (s.receiveBytes port order input).2.receiveInputs inputs

variable {port order} in
/-- The first frame of a new session is the protocol header. -/
theorem framesOf_header (s : StreamSession β) (hseen : s.session.protocolHeaderSeen = false)
    (inputs : List (List UInt8)) :
    s.framesOf port order inputs = [] ∨
      ∃ fs, s.framesOf port order inputs = .protocolHeader :: fs := by
  induction inputs with
  | nil => exact .inl rfl
  | cons input inputs ih =>
    by_cases hstart : input.length < 8 ∨ input.take 8 ≠ protocolHeader
    · -- Nothing is read, and the session is left as it is.
      have hreceived : s.received port order input = [] := by
        rw [received, hseen, if_neg (by decide), if_pos hstart]
      have hcall : (s.receiveBytes port order input).2 = s := by
        rw [receiveBytes, hseen, if_neg (by decide)]
        split
        · rfl
        · next hlen => rw [if_pos (hstart.resolve_left hlen)]
      rw [framesOf, hreceived, hcall]
      exact ih
    · rw [framesOf, received, hseen, if_neg (by decide), if_neg hstart, cons_append]
      exact .inr ⟨_, rfl⟩

end StreamSession

end Aurum.Amqp
