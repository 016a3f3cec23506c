import Aurum.Amqp.Turns

/-!
# AMQP — how the stream is cut

The server hands every read of the socket to `receive_bytes`, so a client
has no influence on where its stream is cut. Each call drops what its
buffer has left over: a cut is harmless at the end of a frame and behind
the seven bytes of a frame header, unless the frame is an empty heartbeat,
whose header is not kept. Within a frame header or a payload it loses
bytes, and the session goes on in the middle of a frame.
-/

namespace Aurum.Amqp

open Aurum.Bytes Aurum.Reader Aurum.Protocol Aurum.Broker Aurum.Service List

/-! ## Cuts -/

/-- The seven bytes of a frame header. -/
structure FrameHead (hdr : PartialHeader) (head : List UInt8) : Prop where
  length : head.length = 7
  kind : FrameKind.ofU8 (head.headD 0) = some hdr.kind
  channel : headerChannel head = hdr.channel
  size : headerSize head = hdr.size

/-- A heartbeat without payload. -/
def PartialHeader.EmptyHeartbeat (hdr : PartialHeader) : Prop :=
  hdr.kind = .heartbeat ∧ hdr.size = 0

/-- **Where a stream of frames can be cut**: where a frame begins, right
behind a frame header, and within an incomplete frame at the end of the
stream that is dropped in any case. -/
inductive CleanCut : Option PartialHeader → List UInt8 → List UInt8 → Prop
  | here (frameHeader : Option PartialHeader) (after : List UInt8) : CleanCut frameHeader [] after
  | head {hdr : PartialHeader} {head before after : List UInt8} (hhead : FrameHead hdr head)
      (hbeat : hdr.EmptyHeartbeat → before ≠ []) (hcut : CleanCut (some hdr) before after) :
      CleanCut none (head ++ before) after
  | payload {hdr : PartialHeader} {payload before after : List UInt8}
      (hsize : payload.length = hdr.size) (hcut : CleanCut none before after) :
      CleanCut (some hdr) (payload ++ frameEnd :: before) after
  | droppedHead {before after : List UInt8} (hshort : (before ++ after).length < 7) :
      CleanCut none before after
  | droppedPayload {hdr : PartialHeader} {before after : List UInt8}
      (hshort : (before ++ after).length < hdr.size + 1) : CleanCut (some hdr) before after
  | droppedHeartbeat {hdr : PartialHeader} {before after : List UInt8}
      (hhead : FrameHead hdr (before ++ after)) (hbeat : hdr.EmptyHeartbeat) :
      CleanCut none before after

variable {frameHeader : Option PartialHeader} {before after more payload : List UInt8}

/-- A cut stays clean when the stream ends earlier. -/
theorem CleanCut.shorten (h : CleanCut frameHeader before (after ++ more)) :
    CleanCut frameHeader before after := by
  generalize hall : after ++ more = all at h
  induction h with
  | here frameHeader _ => exact .here frameHeader after
  | head hhead hbeat _ ih => exact .head hhead hbeat (ih hall)
  | payload hsize _ ih => exact .payload hsize (ih hall)
  | droppedHead hshort =>
    subst hall
    exact .droppedHead (by simp only [length_append] at hshort ⊢; omega)
  | droppedPayload hshort =>
    subst hall
    exact .droppedPayload (by simp only [length_append] at hshort ⊢; omega)
  | @droppedHeartbeat hdr before _ hhead hbeat =>
    subst hall
    by_cases hmore : more = []
    · subst hmore
      rw [List.append_nil] at hhead
      exact .droppedHeartbeat hhead hbeat
    · have hpos := length_pos_of_ne_nil hmore
      have hlen := hhead.length
      exact .droppedHead (by simp only [length_append] at hlen ⊢; omega)

/-! ## Frames of a stream -/

section Decoding

variable {maxFrameSize : Nat} {hdr : PartialHeader} {head rest : List UInt8}

theorem decodeFrame_short {buf : List UInt8} (h : buf.length < 7) :
    decodeFrame maxFrameSize none buf = (.ok none, none, buf) := by
  rw [decodeFrame, if_pos h]

/-- Behind its header a frame is decoded as if the header had been kept. -/
theorem decodeFrame_head (hhead : FrameHead hdr head) (hmax : hdr.size ≤ maxFrameSize)
    (hbeat : hdr.EmptyHeartbeat → rest ≠ []) :
    decodeFrame maxFrameSize none (head ++ rest) = finishFrame hdr rest := by
  obtain ⟨hsize, hchannel, hkind, hdrop⟩ := header_append (hhead.length.ge) rest
  have hnil : head.drop 7 = [] := drop_eq_nil_iff.mpr hhead.length.le
  rw [decodeFrame, hsize, hchannel, hkind, hdrop, hhead.kind, hhead.size, hhead.channel, hnil,
    nil_append, if_neg (by rw [length_append, hhead.length]; omega), if_neg (by omega)]
  dsimp only
  split
  · next hempty =>
    have hne := hbeat hempty
    have hpos := length_pos_of_ne_nil hne
    rw [if_neg hne, finishFrame_close (by omega), hempty.2]
    rfl
  · rfl

/-- A frame that is too large is an error. -/
theorem decodeFrame_large (hhead : FrameHead hdr head) (hmax : maxFrameSize < hdr.size) :
    decodeFrame maxFrameSize none (head ++ rest) =
      (.error (.frameTooLarge hdr.size maxFrameSize), none, head ++ rest) := by
  obtain ⟨hsize, -⟩ := header_append (hhead.length.ge) rest
  rw [decodeFrame, hsize, hhead.size, if_neg (by rw [length_append, hhead.length]; omega),
    if_pos hmax]

/-- The header of an empty heartbeat is dropped. -/
theorem decodeFrame_heartbeat (hhead : FrameHead hdr head) (hbeat : hdr.EmptyHeartbeat) :
    decodeFrame maxFrameSize none head = (.ok none, none, []) := by
  have hnil : head.drop 7 = [] := drop_eq_nil_iff.mpr hhead.length.le
  have hzero : headerSize head = 0 := hhead.size.trans hbeat.2
  rw [decodeFrame, hzero, hhead.kind, hnil, if_neg (by rw [hhead.length]; omega),
    if_neg (by omega)]
  dsimp only
  rw [if_pos ⟨hbeat.1, rfl⟩, if_pos rfl]

theorem finishFrame_payload (hsize : payload.length = hdr.size) :
    finishFrame hdr (payload ++ frameEnd :: rest) =
      (.ok (some ⟨hdr.kind, hdr.channel, payload⟩), none, rest) := by
  rw [finishFrame_close (by simp [hsize]), take_append_of_le_length hsize.ge,
    take_of_length_le hsize.le, drop_append_of_le_length hsize.ge,
    drop_of_length_le hsize.le]
  rfl

end Decoding

/-! ## Calls -/

variable {β : Type} {port : Port β} {order : HashOrder}

namespace StreamSession

variable {s s' t : StreamSession β} {buf rest : List UInt8}

theorem receiveFrames_congr {buf' : List UInt8}
    (h : next port order (s, buf) = next port order (t, buf')) :
    s.receiveFrames port order buf = t.receiveFrames port order buf' := by
  rw [receiveFrames, receiveFrames,
    Decoder.drain_congr (show (decoder port order).decode (s, buf) = _ from h)]

/-- Behind a header the session goes on as if it had kept it. -/
theorem receiveFrames_head {hdr : PartialHeader} {head : List UInt8}
    (hheader : s.frameHeader = none)
    (hhead : FrameHead hdr head) (hmax : hdr.size ≤ s.session.connection.frameMax)
    (hbeat : hdr.EmptyHeartbeat → rest ≠ []) :
    s.receiveFrames port order (head ++ rest) =
      ({ s with frameHeader := some hdr }).receiveFrames port order rest := by
  apply receiveFrames_congr
  have hfinish : decodeFrame s.session.connection.frameMax (some hdr) rest =
      finishFrame hdr rest := rfl
  rw [next, next, hheader, decodeFrame_head hhead hmax hbeat]
  dsimp only
  rw [hfinish]

/-- The round that completes a frame. -/
theorem next_payload {hdr : PartialHeader} (hheader : s.frameHeader = some hdr)
    (hsize : payload.length = hdr.size) (rest : List UInt8) :
    next port order (s, payload ++ frameEnd :: rest) =
      handOn port order s.toPortSession ⟨hdr.kind, hdr.channel, payload⟩ none rest := by
  have hd : decodeFrame s.session.connection.frameMax (some hdr) (payload ++ frameEnd :: rest) =
      (.ok (some ⟨hdr.kind, hdr.channel, payload⟩), none, rest) := finishFrame_payload hsize
  rw [next, hheader, hd]

/-- **A clean cut does not matter**: two calls do what one call does. -/
theorem receiveFrames_cut (hcut : CleanCut frameHeader before after) (s : StreamSession β)
    (hheader : s.frameHeader = frameHeader)
    (hok : (s.receiveFrames port order (before ++ after)).1 = .ok ()) :
    ∃ s', s.receiveFrames port order before = (.ok (), s') ∧
      s'.receiveFrames port order after = s.receiveFrames port order (before ++ after) := by
  -- By induction on the frames before the cut.
  induction hcut generalizing s with
  | here frameHeader after => exact ⟨s, receiveFrames_nil.1, rfl⟩
  | @head hdr head before after hhead hbeat _ ih =>
    rw [List.append_assoc] at hok ⊢
    by_cases hmax : hdr.size ≤ s.session.connection.frameMax
    · have hbeat' : hdr.EmptyHeartbeat → before ++ after ≠ [] := fun h hc =>
        hbeat h (append_eq_nil_iff.mp hc).1
      rw [receiveFrames_head hheader hhead hmax hbeat'] at hok ⊢
      rw [receiveFrames_head hheader hhead hmax hbeat]
      exact ih _ rfl hok
    · have hnext : next port order (s, head ++ (before ++ after)) =
          (.error (none, .error .wire), { s with frameHeader := none },
            head ++ (before ++ after)) := by
        rw [next, hheader, decodeFrame_large hhead (Nat.lt_of_not_le hmax)]
      rw [(receiveFrames_error hnext).1] at hok
      cases hok
  | @payload hdr payload before after hsize _ ih =>
    rw [List.append_assoc, cons_append] at hok ⊢
    have hnext : ∀ rest, next port order (s, payload ++ frameEnd :: rest) = _ :=
      next_payload hheader hsize
    simp only [handOn] at hnext
    rcases hr : s.receive port order ⟨hdr.kind, hdr.channel, payload⟩ with ⟨res, p⟩
    rw [hr] at hnext
    cases res with
    | error fault =>
      rw [(receiveFrames_error (hnext _)).1] at hok
      cases hok
    | ok u =>
      rw [(receiveFrames_some (hnext _)).1] at hok ⊢
      rw [(receiveFrames_some (hnext _)).1]
      exact ih _ rfl hok
  | @droppedHead before after hshort =>
    have hdrop : ∀ buf, buf.length ≤ (before ++ after).length →
        s.receiveFrames port order buf = (.ok (), s) := by
      intro buf hle
      refine (receiveFrames_waits buf ?_).1
      rw [hheader]
      exact decodeFrame_short (by omega)
    refine ⟨s, hdrop before ?_, ?_⟩
    · rw [length_append]
      omega
    · rw [hdrop after (by rw [length_append]; omega), hdrop _ le_rfl]
  | @droppedPayload hdr before after hshort =>
    have hdrop : ∀ buf, buf.length ≤ (before ++ after).length →
        s.receiveFrames port order buf = (.ok (), s) := by
      intro buf hle
      refine (receiveFrames_waits buf ?_).1
      rw [hheader]
      exact finishFrame_wait (by omega)
    refine ⟨s, hdrop before ?_, ?_⟩
    · rw [length_append]
      omega
    · rw [hdrop after (by rw [length_append]; omega), hdrop _ le_rfl]
  | @droppedHeartbeat hdr before after hhead hbeat =>
    have hwhole : s.receiveFrames port order (before ++ after) = (.ok (), s) := by
      refine (receiveFrames_waits [] ?_).1
      rw [hheader]
      exact decodeFrame_heartbeat hhead hbeat
    have hshort : ∀ buf : List UInt8, buf.length < 7 →
        s.receiveFrames port order buf = (.ok (), s) := by
      intro buf hlt
      refine (receiveFrames_waits buf ?_).1
      rw [hheader]
      exact decodeFrame_short hlt
    have hlen := hhead.length
    rw [length_append] at hlen
    -- The cut is at an end of the header, or each part is too short.
    by_cases hbefore : before = []
    · subst hbefore
      exact ⟨s, receiveFrames_nil.1, rfl⟩
    · by_cases hafter : after = []
      · subst hafter
        rw [List.append_nil] at hwhole ⊢
        exact ⟨s, hwhole, receiveFrames_nil.1.trans hwhole.symm⟩
      · have hpos := length_pos_of_ne_nil hbefore
        have hpos' := length_pos_of_ne_nil hafter
        exact ⟨s, hshort before (by omega), (hshort after (by omega)).trans hwhole.symm⟩

/-! ## Chunks -/

variable (s)

/-- **Where the input of a session can be cut**: not within the protocol
header, and where the stream of frames behind it can be. -/
def CleanAt (before after : List UInt8) : Prop :=
  if s.session.protocolHeaderSeen then CleanCut s.frameHeader before after
  else before = [] ∨ (before ++ after).length < 8 ∨
    ∃ rest, before = protocolHeader ++ rest ∧ CleanCut s.frameHeader rest after

/-- Every cut between two chunks is clean. -/
def CleanCuts (chunks : List (List UInt8)) : Prop :=
  ∀ before after, chunks = before ++ after → s.CleanAt before.flatten after.flatten

variable {s}

variable (port order) in
/-- `receive_bytes` on the chunks in order, up to the first error. -/
def receiveAll (s : StreamSession β) :
    List (List UInt8) → Except (Fault SessionError) Unit × StreamSession β
  | [] => (.ok (), s)
  | chunk :: chunks =>
    match s.receiveBytes port order chunk with
    | (.error fault, s') => (.error fault, s')
    | (.ok (), s') => s'.receiveAll chunks

theorem CleanAt.shorten (h : s.CleanAt before (after ++ more)) : s.CleanAt before after := by
  unfold CleanAt at h ⊢
  split at h
  · next hseen =>
    rw [if_pos hseen]
    exact h.shorten
  · next hseen =>
    rw [if_neg hseen]
    rcases h with h | h | ⟨rest, hrest, h⟩
    · exact .inl h
    · exact .inr (.inl (by simp only [length_append] at h ⊢; omega))
    · exact .inr (.inr ⟨rest, hrest, h.shorten⟩)

theorem headerSeen_receiveFrames (port : Port β) (order : HashOrder) (s : StreamSession β)
    (buf : List UInt8) (hseen : s.session.protocolHeaderSeen = true) :
    (s.receiveFrames port order buf).2.session.protocolHeaderSeen = true := by
  have h := PortSession.headerSeen_run port order
    ((s.handed port order buf).filterMap readBy) s.toPortSession hseen
  rw [← receiveFrames_run] at h
  exact h

theorem receiveBytes_seen (hseen : s.session.protocolHeaderSeen = true) (input : List UInt8) :
    s.receiveBytes port order input = s.receiveFrames port order input := by
  rw [receiveBytes, if_pos hseen]

theorem receiveBytes_nil (s : StreamSession β) : s.receiveBytes port order [] = (.ok (), s) := by
  rw [receiveBytes]
  split
  · exact receiveFrames_nil.1
  · rfl

theorem receiveBytes_header (hseen : s.session.protocolHeaderSeen = false) (rest : List UInt8) :
    s.receiveBytes port order (protocolHeader ++ rest) =
      (s.start order).receiveFrames port order rest := by
  have hdrop : (protocolHeader ++ rest).drop 8 = rest := rfl
  have htake : (protocolHeader ++ rest).take 8 = protocolHeader := rfl
  rw [receiveBytes, hseen, hdrop, htake, if_neg (by decide),
    if_neg (by rw [length_append]; simp [protocolHeader]), if_neg (by simp)]
  split
  · next hnil => rw [hnil, receiveFrames_nil.1]
  · rfl

theorem start_seen (s : StreamSession β) : (s.start order).session.protocolHeaderSeen = true := by
  rw [start]
  dsimp only
  unfold AmqpSession.onFrame
  split
  · split
    · assumption
    · rfl
  · next h => exact absurd rfl h

/-- **Two calls instead of one.** -/
theorem receiveBytes_cut (hcut : s.CleanAt before after)
    (hok : (s.receiveBytes port order (before ++ after)).1 = .ok ()) :
    ∃ s', s.receiveBytes port order before = (.ok (), s') ∧
      s'.receiveBytes port order after = s.receiveBytes port order (before ++ after) := by
  -- The second call finds the protocol header seen.
  have hframes : ∀ (t : StreamSession β) (rest : List UInt8),
      t.session.protocolHeaderSeen = true → CleanCut t.frameHeader rest after →
      (t.receiveFrames port order (rest ++ after)).1 = .ok () →
      ∃ s', t.receiveFrames port order rest = (.ok (), s') ∧
        s'.receiveBytes port order after = t.receiveFrames port order (rest ++ after) := by
    intro t rest hseen hcut hok
    obtain ⟨s', hbefore, hafter⟩ := receiveFrames_cut hcut t rfl hok
    have hseen' := headerSeen_receiveFrames port order t rest hseen
    rw [hbefore] at hseen'
    exact ⟨s', hbefore, (receiveBytes_seen hseen' after).trans hafter⟩
  unfold CleanAt at hcut
  split at hcut
  · next hseen =>
    rw [receiveBytes_seen hseen] at hok ⊢
    rw [receiveBytes_seen hseen]
    exact hframes s before hseen hcut hok
  · next hseen =>
    have hseen : s.session.protocolHeaderSeen = false := by simpa using hseen
    have hshort : ∀ input : List UInt8, input.length < 8 →
        s.receiveBytes port order input = (.ok (), s) := by
      intro input hlen
      rw [receiveBytes, hseen, if_neg (by decide), if_pos hlen]
    rcases hcut with rfl | hlen | ⟨rest, rfl, hcut⟩
    · exact ⟨s, hshort [] (by decide), rfl⟩
    · have hwhole := hshort _ hlen
      rw [length_append] at hlen
      exact ⟨s, hshort before (by omega), (hshort after (by omega)).trans hwhole.symm⟩
    · rw [List.append_assoc, receiveBytes_header hseen] at hok ⊢
      rw [receiveBytes_header hseen]
      exact hframes (s.start order) rest (start_seen s) hcut hok

theorem receiveAll_concat (s : StreamSession β) (chunks : List (List UInt8)) {s' : StreamSession β}
    (h : s.receiveAll port order chunks = (.ok (), s')) (chunk : List UInt8) :
    s.receiveAll port order (chunks ++ [chunk]) = s'.receiveBytes port order chunk := by
  induction chunks generalizing s with
  | nil =>
    cases h
    rw [nil_append, receiveAll]
    split
    · next heq => rw [heq]
    · next heq => rw [heq, receiveAll]
  | cons first chunks ih =>
    rw [receiveAll] at h
    rw [cons_append, receiveAll]
    rcases hfirst : s.receiveBytes port order first with ⟨res, t⟩
    rw [hfirst] at h
    cases res with
    | error fault => cases h
    | ok u => exact ih t h

/-- **How the stream is cut does not matter** as long as the cuts are
clean: the calls on the chunks succeed and end in the session and in the
broker that one call ends in. What was sent is part of the session, and a
broker that records its calls is as good as any. -/
theorem clean_cuts_unnoticed (port : Port β) (order : HashOrder) (s : StreamSession β)
    (chunks : List (List UInt8)) (hcuts : s.CleanCuts chunks)
    (hok : (s.receiveBytes port order chunks.flatten).1 = .ok ()) :
    s.receiveAll port order chunks = s.receiveBytes port order chunks.flatten := by
  -- By induction on the chunks from the last one: the cut before it is
  -- clean, and the cuts further left stay clean in a shorter stream.
  induction chunks using reverseRecOn with
  | nil =>
    rw [receiveAll, flatten_nil, receiveBytes_nil]
  | append_singleton chunks chunk ih =>
    have hcut := hcuts chunks [chunk] rfl
    rw [flatten_append, flatten_singleton] at hok ⊢
    rw [flatten_singleton] at hcut
    obtain ⟨s', hbefore, hafter⟩ := receiveBytes_cut hcut hok
    have hall : s.receiveAll port order chunks = (.ok (), s') := by
      refine (ih ?_ (by rw [hbefore])).trans hbefore
      intro before after hsplit
      have hlong := hcuts before (after ++ [chunk]) (by rw [hsplit, List.append_assoc])
      rw [flatten_append] at hlong
      exact hlong.shorten
    rw [receiveAll_concat s chunks hall, hafter]

/-- The protocol header and a `connection.close-ok`. -/
def closingStream : List UInt8 :=
  protocolHeader ++ [1, 0, 0, 0, 0, 0, 4] ++ [0, 10, 0, 51, frameEnd]

/-- The stream cut behind the header of its frame. -/
theorem cut_behind_header_unnoticed :
    ((new ()).receiveAll .silent .insertion [closingStream.take 15, closingStream.drop 15]) =
      (new ()).receiveBytes .silent .insertion closingStream ∧
    ((new ()).receiveBytes .silent .insertion closingStream).2.session.connection.phase =
      .closed := by
  refine ⟨clean_cuts_unnoticed .silent .insertion (new ())
    [closingStream.take 15, closingStream.drop 15] ?_ (by decide +kernel), by decide +kernel⟩
  have hhead : FrameHead ⟨.method, 0, 4⟩ [1, 0, 0, 0, 0, 0, 4] := ⟨rfl, rfl, rfl, rfl⟩
  have hbeat : ∀ rest : List UInt8, (⟨.method, 0, 4⟩ : PartialHeader).EmptyHeartbeat → rest ≠ [] :=
    fun _ h => nomatch h.1
  intro before after hsplit
  -- Before the first chunk, between the chunks, behind the second.
  match before, hsplit with
  | [], _ => exact .inl rfl
  | [_], rfl => exact .inr (.inr ⟨_, rfl, .head hhead (hbeat _) (.here _ _)⟩)
  | [_, _], rfl =>
    exact .inr (.inr ⟨[1, 0, 0, 0, 0, 0, 4] ++ ([0, 10, 0, 51] ++ [frameEnd]), rfl,
      .head hhead (hbeat _) (.payload rfl (.here none _))⟩)

/-- The stream cut within the payload of its frame: both calls succeed,
and the frame is lost. -/
theorem cut_payload_is_lost : ((new ()).receiveBytes .silent .insertion closingStream).1 = .ok () ∧
    ((new ()).receiveBytes .silent .insertion closingStream).2.session.connection.phase =
      .closed ∧
    ((new ()).receiveAll .silent .insertion
      [closingStream.take 17, closingStream.drop 17]).1 = .ok () ∧
    ((new ()).receiveAll .silent .insertion
      [closingStream.take 17, closingStream.drop 17]).2.session.connection.phase =
        .awaitStartOk := by
  decide +kernel

end StreamSession

end Aurum.Amqp
