import Aurum.Amqp.Content

/-!
# AMQP — attended channels

A client can settle what it was sent only on a channel that is open, on an
open connection. This module says which frames and which answers of the
broker end that: `Turn.attends` for frames, and a lemma for each kind of
answer.
-/

namespace Aurum.Amqp

open Aurum.Protocol Aurum.Broker Aurum.Service

variable {order : HashOrder} {s s' : AmqpSession} {channel : Nat}

namespace AmqpSession

/-- The channel is open, and so is the connection. -/
def attends (s : AmqpSession) (channel : Nat) : Prop :=
  s.connection.phase = .open ∧ s.phaseOf channel = some .open

instance (s : AmqpSession) (channel : Nat) : Decidable (s.attends channel) :=
  inferInstanceAs (Decidable (_ ∧ _))

/-- The channel a frame opens, closes, or has closed with an error. -/
def endsChannel (s : AmqpSession) : Frame → Option Nat
  | .method channel (some (.channel _)) => some channel
  | f => if s.refuses f then f.channel else none

end AmqpSession

/-- A method of the connection other than `open`. -/
def Frame.endsConnection (f : Frame) : Bool :=
  match f.signal with
  | some (.open _ _) | none => false
  | some _ => true

open AmqpSession

theorem Quiet.attends (h : Quiet s s') (hs : s.attends channel) : s'.attends channel := by
  refine ⟨h.connection ▸ hs.1, ?_⟩
  rw [h.phases]
  exact hs.2

variable {ch : Nat} {f : Frame} {r : AmqpSession × Outcome} {output : ShardOutputBatch}

theorem phaseOf_mapChannel_ne (hne : channel ≠ ch) (f : AmqpChannelState → AmqpChannelState) :
    (s.mapChannel ch f).phaseOf channel = s.phaseOf channel := by
  rw [phaseOf, mapChannel]
  simp only [Function.update_of_ne hne]
  rfl

/-- A channel is closed on its own. -/
theorem attends_channelClose (hs : s.attends channel) (hne : channel ≠ ch) (code : Nat) :
    (s.channelClose ch code).attends channel :=
  ⟨hs.1, (phaseOf_mapChannel_ne (s := s.sendMethod ch _) hne _).trans hs.2⟩

/-- A change of a channel that keeps its phase. -/
theorem attends_mapChannel {f : AmqpChannelState → AmqpChannelState}
    (hphase : ∀ c, (f c).phase = c.phase) (hs : s.attends channel) :
    (s.mapChannel ch f).attends channel :=
  ⟨hs.1, (map_mapChannel_eq s ch hphase channel).trans hs.2⟩

theorem attends_completePublish {content : PendingPublishContent} (hs : s.attends channel)
    (himmediate : content.publish.immediate = false) :
    (s.completePublish ch content).1.attends channel := by
  rw [completePublish, if_neg (by rw [himmediate]; exact Bool.false_ne_true)]
  exact attends_mapChannel (fun _ => rfl) hs

/-! ## Frames -/

/-- What the session relies on: the protocol header came first, and no
content is `immediate`. -/
structure Steady (s : AmqpSession) : Prop where
  seen : s.connection.phase = .open → s.protocolHeaderSeen = true
  fresh : s.protocolHeaderSeen = false → ∀ ch, s.contentOf ch = none
  immediate : ∀ ch pending, s.contentOf ch = some pending → pending.publish.immediate = false

theorem steady_new : Steady .new where
  seen := by
    intro hopen
    cases hopen
  fresh := fun _ _ => rfl
  immediate := by
    intro ch pending hpending
    cases hpending

theorem Steady.loose (h : Steady s) (hloose : Loose s s') : Steady s' where
  seen := by
    intro hopen
    rw [hloose.headerSeen]
    rcases hloose.connection with ⟨hsame, -⟩ | hclosing
    · exact h.seen (hsame ▸ hopen)
    · rw [hclosing] at hopen
      cases hopen
  fresh := by
    intro hseen ch
    rw [hloose.headerSeen] at hseen
    rw [Option.eq_none_iff_forall_ne_some]
    intro pending hpending
    have hold := hloose.contentOf hpending
    rw [h.fresh hseen ch] at hold
    cases hold
  immediate := fun ch pending hpending => h.immediate ch pending (hloose.contentOf hpending)

theorem Assembles.immediate {pending : PendingPublishContent} (h : Assembles s f channel pending)
    (hs : ∀ ch pending, s.contentOf ch = some pending → pending.publish.immediate = false) :
    pending.publish.immediate = false := by
  cases h with
  | kept hcontent => exact hs channel _ hcontent
  | publish m hf himmediate => exact himmediate
  | header h old hf hcontent => exact hs channel old hcontent
  | body payload old hf hcontent => exact hs channel old hcontent

theorem Turn.steady (h : Turn order s f r) (hs : Steady s) : Steady r.1 := by
  by_cases hseen : s.protocolHeaderSeen = true
  · have hseen' := h.headerSeen hseen
    refine ⟨fun _ => hseen', fun hnot => ?_, fun ch pending hpending => ?_⟩
    · rw [hseen'] at hnot
      cases hnot
    · exact (h.assembles hs.fresh hpending).immediate hs.immediate
  · have hunseen := Bool.eq_false_of_not_eq_true hseen
    have hcontent : ∀ ch, r.1.contentOf ch = none := by
      intro ch
      rw [h.contentOf_unseen hunseen]
      exact hs.fresh hunseen ch
    refine ⟨?_, fun _ => hcontent, fun ch pending hpending => ?_⟩
    · cases h with
      | early => exact hs.seen
      | start => exact fun hopen => nomatch hopen
      | _ => simp_all
    · rw [hcontent ch] at hpending
      cases hpending

theorem endsChannel_of_refuses (hrefuses : s.refuses f = true) (hch : f.channel = some ch) :
    s.endsChannel f = some ch := by
  unfold endsChannel
  split
  · exact hch
  · rw [if_pos hrefuses]
    exact hch

/-- **A frame that ends neither the channel nor the connection** leaves
the channel attended. -/
theorem Turn.attends (h : Turn order s f r) (hs : Steady s) (hattends : s.attends channel)
    (hconnection : f.endsConnection = false) (hchannel : s.endsChannel f ≠ some channel) :
    r.1.attends channel := by
  have hseen := hs.seen hattends.1
  -- A frame of the method class `channel` concerns its own channel only.
  have hother : ∀ ch, s.endsChannel f = some ch → channel ≠ ch := by
    rintro ch hends rfl
    exact hchannel hends
  cases h with
  | early => exact hattends
  | start hunseen =>
    rw [hseen] at hunseen
    cases hunseen
  | connection m =>
    cases m with
    | «open» virtualHost insist => exact ⟨rfl, hattends.2⟩
    | _ => cases hconnection
  | quiet _ _ _ _ hquiet => exact hquiet.attends hattends
  | refused _ ch code _ _ hch hrefuses =>
    exact attends_channelClose hattends (hother ch (endsChannel_of_refuses hrefuses hch)) code
  | unopened ch m _ _ hphase => exact absurd hattends.1 hphase
  | opened ch text =>
    refine ⟨hattends.1, ?_⟩
    have hch : Function.update s.channels ch (some (.opened s.opened)) channel =
        s.channels channel := Function.update_of_ne (hother ch rfl) _ _
    rw [phaseOf, sendMethod]
    dsimp only
    rw [hch]
    exact hattends.2
  | closed ch reason =>
    have hne := hother ch rfl
    refine ⟨hattends.1, (phaseOf_mapChannel_ne hne _).trans ?_⟩
    exact (phaseOf_mapChannel_ne (s := s.sendMethod ch _) hne _).trans hattends.2
  | closeOk ch => exact ⟨hattends.1, (phaseOf_mapChannel_ne (hother ch rfl) _).trans hattends.2⟩
  | publish ch c m => exact attends_mapChannel (fun _ => rfl) hattends
  | header ch h pending => exact attends_mapChannel (fun _ => rfl) hattends
  | headerDone ch h pending _ hcontent =>
    refine attends_completePublish (attends_mapChannel (fun _ => rfl) hattends) ?_
    exact hs.immediate ch pending hcontent
  | body ch payload pending => exact attends_mapChannel (fun _ => rfl) hattends
  | bodyOver ch payload pending _ hcontent hsize =>
    have hrefuses : s.refuses (.body ch payload) = true := by
      rw [refuses, hcontent]
      exact decide_eq_true hsize
    have hset : (s.setPending ch (pending.addBody payload)).attends channel :=
      attends_mapChannel (fun _ => rfl) hattends
    exact attends_channelClose hset (hother ch (endsChannel_of_refuses hrefuses rfl)) _
  | bodyDone ch payload pending _ hcontent =>
    refine attends_completePublish (attends_mapChannel (fun _ => rfl) hattends) ?_
    exact hs.immediate ch pending hcontent

/-- A call of a frame that publishes nothing is made in phase `Open`. -/
theorem Turn.open_of_ask (h : Turn order s f r) {call : Ask} (hcall : r.2 = .ask call)
    (hplain : call.publishes = false) : s.connection.phase = .open := by
  have hcomplete : ∀ (t : AmqpSession) (ch : Nat) (content : PendingPublishContent),
      (t.completePublish ch content).2 ≠ .ask call := by
    intro t ch content heq
    rw [completePublish] at heq
    split at heq
    · cases heq
    · cases heq
      cases hplain
  cases h with
  | quiet _ _ _ _ _ _ hask => exact (hask call hcall).1
  | headerDone => exact absurd hcall (hcomplete _ _ _)
  | bodyDone => exact absurd hcall (hcomplete _ _ _)
  | connection m =>
    have hcalls := calls_onConnectionMethod s (.connection m)
    rw [hcall] at hcalls
    exact absurd hcalls (Outcome.calls_pos call).ne'
  | _ => cases hcall

/-! ## Answers of the broker -/

/-- The channel that is closed if a control command is refused. -/
def ControlReply.closing : ControlReply → Option Nat
  | .exchangeDeclared channel | .queueDeclared channel _ | .queueBound channel => some channel
  | .consuming _ _ _ => none

/-- What an error of the broker closes. -/
def CommandError.Spares (err : CommandError) (replyChannel channel : Nat) : Prop :=
  commandErrorScope err = .channel ∧ channel ≠ replyChannel

theorem attends_onControl {reply : ControlReply} {result : AmqpControlResult}
    (hs : s.attends channel) (h : result.ok = false → reply.closing ≠ some channel) :
    (s.onControl reply result).1.attends channel := by
  have hclose : ∀ ch code, result.ok ≠ true → reply.closing = some ch →
      (s.channelClose ch code).attends channel := by
    intro ch code hok hch
    refine attends_channelClose hs ?_ code
    rintro rfl
    exact h (Bool.eq_false_of_not_eq_true hok) hch
  cases reply with
  | consuming ch tag id => exact hs
  | exchangeDeclared ch =>
    rw [onControl]
    split
    · exact hs
    · next hok => exact hclose ch _ hok rfl
  | queueDeclared ch queue =>
    rw [onControl]
    split
    · exact hs
    · next hok => exact hclose ch _ hok rfl
  | queueBound ch =>
    rw [onControl]
    split
    · exact hs
    · next hok => exact hclose ch _ hok rfl

theorem attends_onResolved {p : Publishing} {entry : Option RoutePublishTarget}
    (hs : s.attends channel)
    (h : entry = none → p.content.publish.mandatory = true → channel ≠ p.channel) :
    (s.onResolved p entry).1.attends channel := by
  cases entry with
  | some target =>
    refine Quiet.attends (Quiet.trans ?_ (quiet_publishTo _ p target)) hs
    exact quiet_mapChannel s p.channel (fun _ => rfl) fun _ => rfl
  | none =>
    rw [onResolved]
    split
    · next hmandatory => exact attends_channelClose hs (h rfl hmandatory) _
    · exact hs

theorem attends_errors {errs : List CommandError} (hs : s.attends channel)
    (h : ∀ err ∈ errs, CommandError.Spares err ch channel) :
    (errs.foldl (onError ch) s).attends channel := by
  induction errs generalizing s with
  | nil => exact hs
  | cons err errs ih =>
    obtain ⟨herr, herrs⟩ := List.forall_mem_cons.mp h
    refine ih ?_ herrs
    rw [onError, herr.1]
    exact attends_channelClose hs herr.2 _

theorem attends_onOutput {reply : CommandReply} (hs : s.attends channel)
    (h : ∀ ch, reply.channel = some ch → ∀ err ∈ output.errors,
      CommandError.Spares err ch channel) : (s.onOutput reply output).1.attends channel := by
  cases hreply : reply.channel with
  | none =>
    cases reply with
    | cancelled ch tag => exact (quiet_cancelled s ch tag output).attends hs
    | _ => cases hreply
  | some ch =>
    have herrors := attends_errors hs (h ch hreply)
    have hsent := (quiet_sendAll (output.errors.foldl (onError ch) s)
      (output.deliveries.flatMap ((output.errors.foldl (onError ch) s).outgoing ch))).attends
        herrors
    exact (onOutput_session s hreply output).attends hsent

theorem quiet_onPushed (s : AmqpSession) (h : output.errors = []) :
    Quiet s (s.onPushed output) := by
  rw [onPushed]
  split
  · exact quiet_emitBrokerOutput s 1 h
  · exact .refl s

end Aurum.Amqp
