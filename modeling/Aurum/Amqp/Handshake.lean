import Aurum.Amqp.Turns
import Aurum.Lib.Runs

/-!
# AMQP — the handshake

`connection.start-ok` is accepted in its phase only, but `tune-ok` and
`open` are accepted in every phase, also in a connection that was closed,
and header and body frames are never compared with the phase. A client
that sends them in their phases only gets the handshake of the protocol:
`Agrees` relates the phase to the connection methods received so far.
-/

namespace Aurum.Amqp

open Aurum.Reader Aurum.Protocol Aurum.Broker Aurum.Service Aurum.Runs List AmqpSession

variable {β : Type} {port : Port β} {order : HashOrder} {s s' : AmqpSession}
  {signals : List ConnectionMethod}

/-! ## Phases -/

/-- The connection is closing or closed. -/
def AmqpSession.ended (s : AmqpSession) : Prop :=
  s.connection.phase = .closing ∨ s.connection.phase = .closed

/-- **The frames whose phase nobody checks, in their phase**: `tune-ok`,
`open`, and content that a channel waits for. -/
def InPhase (s : AmqpSession) : Frame → Prop
  | .method 0 (some (.connection (.tuneOk _))) => s.connection.phase = .awaitTuneOk
  | .method 0 (some (.connection (.open _ _))) => s.connection.phase = .awaitOpen
  | .header channel _ => (s.contentOf channel).isSome → s.connection.phase = .open
  | .body channel _ => (s.contentOf channel).isSome → s.connection.phase = .open
  | _ => True

instance (s : AmqpSession) (f : Frame) : Decidable (InPhase s f) := by
  unfold InPhase
  split <;> infer_instance

/-- **The phase follows from the connection methods received so far.**
Before the connection ends, no end was received or sent. -/
structure Agrees (s : AmqpSession) (signals : List ConnectionMethod) : Prop where
  seen : s.protocolHeaderSeen = true
  waits : s.connection.phase ≠ .awaitProtocolHeader
  startOk : s.connection.phase = .awaitStartOk → signals = [] ∧ s.closes = []
  tuneOk : s.connection.phase = .awaitTuneOk → (∃ a, signals = [.startOk a]) ∧ s.closes = []
  awaitOpen : s.connection.phase = .awaitOpen →
    (∃ a b, signals = [.startOk a, .tuneOk b]) ∧ s.closes = []
  opened : s.connection.phase = .open →
    (∃ a b c d, signals = [.startOk a, .tuneOk b, .open c d]) ∧ s.closes = []

theorem agrees_ended (hseen : s.protocolHeaderSeen = true) (h : s.ended)
    (signals : List ConnectionMethod) : Agrees s signals := by
  rcases h with h | h
  all_goals exact ⟨hseen, by simp [h], by simp [h], by simp [h], by simp [h], by simp [h]⟩

theorem Agrees.congr (h : Agrees s signals) (hseen : s'.protocolHeaderSeen = s.protocolHeaderSeen)
    (hconnection : s'.connection = s.connection) (hcloses : s'.closes = s.closes) :
    Agrees s' signals := by
  refine ⟨hseen.trans h.seen, ?_, ?_, ?_, ?_, ?_⟩ <;> rw [hconnection]
  · exact h.waits
  all_goals rw [hcloses]
  · exact h.startOk
  · exact h.tuneOk
  · exact h.awaitOpen
  · exact h.opened

theorem Agrees.loose (h : Agrees s signals) (hloose : Loose s s') : Agrees s' signals := by
  rcases hloose.connection with ⟨hconnection, hcloses⟩ | hclosing
  · exact h.congr hloose.headerSeen hconnection hcloses
  · exact agrees_ended (hloose.headerSeen.trans h.seen) (.inl hclosing) signals

theorem ended_loose (h : s.ended) (hloose : Loose s s') : s'.ended := by
  rcases hloose.connection with ⟨hconnection, -⟩ | hclosing
  · rwa [ended, hconnection]
  · exact .inl hclosing

/-! ## Frames -/

open AmqpSession in
/-- What a turn does to the connection: a connection method, an error that
closes it, or nothing. -/
theorem Turn.connection_cases {f : Frame} {r : AmqpSession × Outcome} (h : Turn order s f r)
    (hseen : s.protocolHeaderSeen = true) :
    (∃ m, f = .method 0 (some (.connection m)) ∧ r = s.onConnectionMethod (.connection m)) ∨
      f.signal = none ∧ (r.1.connection.phase = .closing ∨
        r.1.connection = s.connection ∧ r.1.closes = s.closes) := by
  have hcomplete : ∀ channel content content', (s.setPending channel content).completePublish
      channel content' = r → r.1.connection = s.connection ∧ r.1.closes = s.closes := by
    rintro channel content content' rfl
    rw [completePublish]
    split
    · exact ⟨rfl, (quiet_sendMethod s channel rfl).closes⟩
    · exact ⟨rfl, rfl⟩
  cases h with
  | early _ hs => rw [hseen] at hs; cases hs
  | start hs => rw [hseen] at hs; cases hs
  | connection m => exact .inl ⟨m, rfl, rfl⟩
  | quiet _ _ _ hsignal hquiet => exact .inr ⟨hsignal, .inr ⟨hquiet.connection, hquiet.closes⟩⟩
  | refused _ channel code _ hsignal =>
    exact .inr ⟨hsignal, .inr ⟨rfl, (quiet_sendMethod s channel rfl).closes⟩⟩
  | unopened channel m _ hchannel => exact .inr ⟨signal_method hchannel _, .inl rfl⟩
  | opened channel text _ hchannel =>
    exact .inr ⟨signal_method hchannel _, .inr ⟨rfl, (quiet_sendMethod s channel rfl).closes⟩⟩
  | closed channel reason _ hchannel =>
    exact .inr ⟨signal_method hchannel _, .inr ⟨rfl, (quiet_sendMethod s channel rfl).closes⟩⟩
  | closeOk channel _ hchannel => exact .inr ⟨signal_method hchannel _, .inr ⟨rfl, rfl⟩⟩
  | publish channel ch m _ hchannel => exact .inr ⟨signal_method hchannel _, .inr ⟨rfl, rfl⟩⟩
  | header channel h pending => exact .inr ⟨rfl, .inr ⟨rfl, rfl⟩⟩
  | headerDone channel h pending => exact .inr ⟨rfl, .inr (hcomplete channel _ _ rfl)⟩
  | body channel payload pending => exact .inr ⟨rfl, .inr ⟨rfl, rfl⟩⟩
  | bodyOver channel payload pending =>
    exact .inr ⟨rfl, .inr ⟨rfl, (quiet_sendMethod s channel rfl).closes⟩⟩
  | bodyDone channel payload pending => exact .inr ⟨rfl, .inr (hcomplete channel _ _ rfl)⟩

/-- **A connection method in its phase.** -/
theorem Agrees.onConnectionMethod (h : Agrees s signals) (m : ConnectionMethod)
    (htune : ∀ a, m = .tuneOk a → s.connection.phase = .awaitTuneOk)
    (hopen : ∀ a b, m = .open a b → s.connection.phase = .awaitOpen) :
    Agrees (s.onConnectionMethod (.connection m)).1 (signals ++ [m]) ∧
      (s.ended → (s.onConnectionMethod (.connection m)).1.ended) := by
  have hclose : ∀ signals, Agrees (s.connectionClose replyCommandInvalid) signals ∧
      (s.ended → (s.connectionClose replyCommandInvalid).ended) := fun signals =>
    ⟨agrees_ended (s := s.connectionClose replyCommandInvalid) h.seen (.inl rfl) signals,
      fun _ => .inl rfl⟩
  cases m with
  | startOk a =>
    rw [AmqpSession.onConnectionMethod]
    split
    · next hphase =>
      obtain ⟨rfl, hcloses⟩ := h.startOk hphase
      refine ⟨⟨h.seen, nofun, nofun, fun _ => ⟨⟨a, rfl⟩, ?_⟩, nofun, nofun⟩, ?_⟩
      · exact (AmqpSession.quiet_sendMethod _ 0 rfl).closes.trans hcloses
      · rintro (hend | hend) <;> rw [hphase] at hend <;> cases hend
    · exact hclose _
  | tuneOk b =>
    have hphase := htune b rfl
    obtain ⟨⟨a, rfl⟩, hcloses⟩ := h.tuneOk hphase
    refine ⟨⟨h.seen, nofun, nofun, nofun, fun _ => ⟨⟨a, b, rfl⟩, hcloses⟩, nofun⟩, ?_⟩
    rintro (hend | hend) <;> rw [hphase] at hend <;> cases hend
  | «open» c d =>
    have hphase := hopen c d rfl
    obtain ⟨⟨a, b, rfl⟩, hcloses⟩ := h.awaitOpen hphase
    refine ⟨⟨h.seen, nofun, nofun, nofun, nofun, fun _ => ⟨⟨a, b, c, d, rfl⟩, ?_⟩⟩, ?_⟩
    · exact (AmqpSession.quiet_sendMethod _ 0 rfl).closes.trans hcloses
    · rintro (hend | hend) <;> rw [hphase] at hend <;> cases hend
  | closeOk => exact ⟨agrees_ended (by exact h.seen) (.inr rfl) _, fun _ => .inr rfl⟩
  | close reason => exact ⟨agrees_ended (by exact h.seen) (.inr rfl) _, fun _ => .inr rfl⟩
  | _ => exact hclose _

/-- **One frame**, in its phase. -/
theorem Agrees.handle {p : PortSession β} (h : Agrees p.session signals) {f : Frame}
    (hphase : InPhase p.session f) :
    Agrees (p.handle port order f).2.session (signals ++ f.signal.toList) ∧
      (p.session.ended → (p.handle port order f).2.session.ended) := by
  obtain ⟨r, hturn, hloose⟩ := p.turn_handle port order f
  have hseen := hturn.headerSeen h.seen
  rcases hturn.connection_cases h.seen with ⟨m, rfl, rfl⟩ | ⟨hsignal, hclosing | ⟨hconn, hcloses⟩⟩
  · obtain ⟨hagrees, hended⟩ := h.onConnectionMethod m (fun a ha => by subst ha; exact hphase)
      (fun a b hab => by subst hab; exact hphase)
    exact ⟨hagrees.loose hloose, fun hend => ended_loose (hended hend) hloose⟩
  · rw [hsignal]
    exact ⟨(agrees_ended hseen (.inl hclosing) _).loose hloose,
      fun _ => ended_loose (.inl hclosing) hloose⟩
  · rw [hsignal, Option.toList_none, List.append_nil]
    refine ⟨(h.congr (hseen.trans h.seen.symm) hconn hcloses).loose hloose, fun hend => ?_⟩
    refine ended_loose (s := r.1) ?_ hloose
    rwa [ended, hconn]

/-! ## Calls of the broker -/

/-- The calls a frame makes, each with the session that makes it. -/
def Port.asked (port : Port β) : Nat → β → AmqpSession × Outcome → List (AmqpSession × Ask)
  | 0, _, _ => []
  | n + 1, broker, (s, outcome) =>
    match outcome with
    | .ask call => (s, call) :: port.asked n (port.answer broker s call).1
        (port.answer broker s call).2
    | _ => []

/-- The calls `receive_frame` makes. -/
def PortSession.asked (port : Port β) (order : HashOrder) (p : PortSession β) (f : Frame) :
    List (AmqpSession × Ask) :=
  port.asked 3 p.broker (p.session.onFrame order f)

theorem Outcome.calls_pos (call : Ask) : 0 < (Outcome.ask call).calls := by
  cases call with
  | control cmd reply => cases reply <;> exact Nat.succ_pos _
  | _ => exact Nat.succ_pos _

/-- An answer that leads to another call leaves the connection alone. -/
theorem Port.connection_answer (port : Port β) (broker : β) (s : AmqpSession) {call call' : Ask}
    (h : (port.answer broker s call).2.2 = .ask call') :
    (port.answer broker s call).2.1.connection = s.connection := by
  cases call with
  | routeVersion p => exact (s.quiet_onRouteVersion p _).connection
  | command cmd reply =>
    have hcalls := calls_onOutput s reply (port.handleBatch broker cmd).2
    have hpos := Outcome.calls_pos call'
    rw [← h] at hpos
    exact absurd hcalls hpos.ne'
  | control cmd reply =>
    rcases onControl_cases s reply (port.handleControl broker cmd).2 with
      ⟨-, hdone⟩ | ⟨channel, tag, id, prefetch, rfl, -⟩
    · exact nomatch hdone.symm.trans h
    · rfl
  | resolveRoute p =>
    rcases hentry : port.resolveRoute broker (toStringLossy p.content.publish.exchange)
      (toStringLossy p.content.publish.routingKey) with ⟨broker', entry⟩
    simp only [Port.answer, hentry] at h ⊢
    cases entry with
    | some target => rfl
    | none =>
      rw [onResolved] at h
      split at h <;> cases h

theorem Port.asked_phase (port : Port β) (n : Nat) (broker : β) (r : AmqpSession × Outcome)
    (h : ∀ call, r.2 = .ask call → r.1.connection.phase = .open) :
    ∀ q ∈ port.asked n broker r, q.1.connection.phase = .open := by
  induction n generalizing broker r with
  | zero => exact forall_mem_nil _
  | succ n ih =>
    obtain ⟨s, outcome⟩ := r
    cases outcome with
    | done => exact forall_mem_nil _
    | failed e => exact forall_mem_nil _
    | ask call =>
      have hopen := h call rfl
      rw [Port.asked, forall_mem_cons]
      refine ⟨hopen, ih _ _ fun call' h' => ?_⟩
      rw [port.connection_answer broker s h']
      exact hopen

theorem calls_onConnectionMethod (s : AmqpSession) (m : AmqpMethod) :
    (s.onConnectionMethod m).2.calls = 0 := by
  unfold onConnectionMethod
  repeat' split
  all_goals rfl

theorem completePublish_connection (s : AmqpSession) (channel : Nat)
    (content content' : PendingPublishContent) :
    ((s.setPending channel content).completePublish channel content').1.connection =
      s.connection := by
  rw [completePublish]
  split <;> rfl

/-- A frame that makes a call, in its phase, makes it in phase `Open`. -/
theorem Turn.asks {f : Frame} {r : AmqpSession × Outcome} (h : Turn order s f r)
    (hphase : InPhase s f) (call : Ask) (hcall : r.2 = .ask call) :
    r.1.connection.phase = .open := by
  cases h with
  | quiet _ _ _ _ hquiet _ hask => exact (congrArg _ hquiet.connection).trans (hask call hcall).1
  | headerDone channel h pending _ hcontent =>
    rw [completePublish_connection]
    exact hphase (by rw [hcontent]; rfl)
  | bodyDone channel payload pending _ hcontent =>
    rw [completePublish_connection]
    exact hphase (by rw [hcontent]; rfl)
  | connection m =>
    have hcalls := calls_onConnectionMethod s (.connection m)
    rw [hcall] at hcalls
    exact absurd hcalls (Outcome.calls_pos call).ne'
  | _ => cases hcall

/-! ## Runs -/

/-- The protocol header begins the handshake. -/
theorem agrees_start (broker : β) :
    Agrees ((PortSession.new broker).handle port order .protocolHeader).2.session [] :=
  ⟨rfl, nofun, fun _ => ⟨rfl, rfl⟩, nofun, nofun, nofun⟩

/-- **A run** of frames in their phases. -/
theorem Agrees.run {frames : List Frame} {p : PortSession β} (h : Agrees p.session signals)
    (hmeets : Meets (fun p f => (p.handle port order f).2) (fun p f => InPhase p.session f) p
      frames) :
    Agrees (p.run port order frames).session (signals ++ frames.filterMap Frame.signal) := by
  induction frames generalizing p signals with
  | nil =>
    rw [filterMap_nil, List.append_nil]
    exact h
  | cons f frames ih =>
    have hstep := ih (h.handle hmeets.1).1 hmeets.2
    rw [List.append_assoc] at hstep
    cases hsignal : f.signal with
    | none =>
      rw [hsignal] at hstep
      rw [filterMap_cons_none hsignal]
      exact hstep
    | some m =>
      rw [hsignal] at hstep
      rw [filterMap_cons_some hsignal]
      exact hstep

/-- **The handshake is in order.** In every run on any bytes, all of whose
frames meet `InPhase`, the phase is `Open` only after `start-ok`, `tune-ok`
and `open`, each once and in this order, and with no end received or sent;
an ended connection stays ended, and the broker is called in phase `Open`
only. -/
theorem handshake_in_order (port : Port β) (order : HashOrder) (broker : β)
    (inputs : List (List UInt8))
    (hmeets : Meets (fun p f => (p.handle port order f).2) (fun p f => InPhase p.session f)
      (PortSession.new broker) ((StreamSession.new broker).framesOf port order inputs))
    (before after : List Frame)
    (hsplit : (StreamSession.new broker).framesOf port order inputs = before ++ after) :
    let p := (PortSession.new broker).run port order before
    (p.session.connection.phase = .open →
      (∃ a b c d, before.filterMap Frame.signal = [.startOk a, .tuneOk b, .open c d]) ∧
        p.session.closes = []) ∧
    ∀ f rest, after = f :: rest →
      (p.session.ended → (p.handle port order f).2.session.ended) ∧
        ∀ q ∈ p.asked port order f, q.1.connection.phase = .open := by
  have hseen : (StreamSession.new broker).session.protocolHeaderSeen = false := rfl
  have hasked : ∀ (p : PortSession β) (f : Frame), InPhase p.session f →
      ∀ q ∈ p.asked port order f, q.1.connection.phase = .open := fun p f hphase =>
    port.asked_phase 3 p.broker _ fun call => (p.session.turn_onFrame order f).asks hphase call
  match before, hsplit with
  | [], hsplit =>
    refine ⟨nofun, ?_⟩
    rintro f rest rfl
    rw [nil_append] at hsplit
    rw [hsplit] at hmeets
    refine ⟨fun hend => ?_, hasked _ f hmeets.1⟩
    rcases hend with hend | hend
    · cases hend
    · cases hend
  | first :: before, hsplit =>
    -- The first frame is the protocol header.
    rcases @StreamSession.framesOf_header _ port order _ hseen inputs with hnil | ⟨fs, hfs⟩
    · rw [hnil] at hsplit
      cases hsplit
    · rw [hfs] at hsplit hmeets
      cases hsplit
      obtain ⟨hbefore, hafter⟩ := meets_append.mp hmeets.2
      have hagrees : Agrees (((PortSession.new broker).handle port order .protocolHeader).2.run
          port order before).session (before.filterMap Frame.signal) :=
        (agrees_start broker).run hbefore
      refine ⟨hagrees.opened, ?_⟩
      rintro f rest rfl
      exact ⟨(hagrees.handle hafter.1).2, hasked _ f hafter.1⟩

/-- A method frame on channel 0. -/
def connectionFrame (payload : List UInt8) : List UInt8 :=
  [1, 0, 0] ++ writeU32 payload.length ++ payload ++ [frameEnd]

/-- `start-ok` with empty arguments. -/
def startOkBytes : List UInt8 :=
  connectionFrame ([0, 10, 0, 11] ++ [0, 0, 0, 0] ++ [0] ++ [0, 0, 0, 0] ++ [0])

/-- `tune-ok` with a frame size of 4096 bytes. -/
def tuneOkBytes : List UInt8 :=
  connectionFrame ([0, 10, 0, 31] ++ [0, 0] ++ [0, 0, 16, 0] ++ [0, 0])

/-- `open` of the virtual host `/`. -/
def openBytes : List UInt8 := connectionFrame ([0, 10, 0, 40] ++ [1, 47] ++ [0])

/-- `close-ok`. -/
def closeOkBytes : List UInt8 := connectionFrame [0, 10, 0, 51]

/-- The handshake of the protocol, in two reads. -/
def plainHandshake : List (List UInt8) :=
  [StreamSession.protocolHeader ++ startOkBytes, tuneOkBytes ++ openBytes]

theorem plain_handshake_in_order :
    let frames := (StreamSession.new ()).framesOf .silent .insertion plainHandshake
    let p := (PortSession.new ()).run .silent .insertion frames
    p.session.connection.phase = .open ∧
      (∃ a b c d, frames.filterMap Frame.signal = [.startOk a, .tuneOk b, .open c d]) ∧
      p.session.closes = [] :=
  ⟨by decide +kernel, (handshake_in_order .silent .insertion () plainHandshake (by decide +kernel)
    _ [] (List.append_nil _).symm).1 (by decide +kernel)⟩

/-- `open` right after the protocol header opens the connection, and so it
does after the connection was closed. -/
theorem open_without_handshake : let inputs := [StreamSession.protocolHeader ++ openBytes]
    let closed := [StreamSession.protocolHeader ++ closeOkBytes]
    let frames := (StreamSession.new ()).framesOf .silent .insertion inputs
    ((PortSession.new ()).run .silent .insertion frames).session.connection.phase = .open ∧
      frames.filterMap Frame.signal = [.open [47] false] ∧
    ((StreamSession.new ()).receiveInputs .silent .insertion closed).session.connection.phase =
      .closed ∧
    ((StreamSession.new ()).receiveInputs .silent .insertion
      (closed ++ [openBytes])).session.connection.phase = .open := by
  decide +kernel

end Aurum.Amqp
