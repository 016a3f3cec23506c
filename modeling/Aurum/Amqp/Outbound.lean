import Aurum.Amqp.Stream

/-!
# AMQP — what a client reads of a delivery

`send_deliver` cuts a body into pieces of `frame_max` octets, to which the
8 octets around a payload are added, and sends an empty body frame for an
empty body. `enrich_delivery` looks up one context for a whole batch: that
of the first handle, if the batch begins with a range. Both are compared
with what the receiver of a message needs.
-/

namespace Aurum.Amqp

open Aurum.Protocol List AmqpSession AmqpPayloadStore Option ShortStr

/-! ## Content frames -/

section Chunks

variable {α : Type}

/-- The loop of `toChunks`: the open chunk is filled up first. -/
theorem toChunks_go {n : Nat} (hn : 0 < n) (xs : List α) (open_ : Array α)
    (done : Array (List α)) (hle : open_.size ≤ n) :
    ∃ rest, toChunks.go n xs open_ done =
        done.toList ++ (open_.toList ++ xs.take (n - open_.size)) :: rest ∧
      (xs.length ≤ n - open_.size → rest = []) := by
  induction xs generalizing open_ done with
  | nil => exact ⟨[], by simp [toChunks.go], fun _ => rfl⟩
  | cons x xs ih =>
    rw [toChunks.go]
    by_cases hfull : open_.size = n
    · obtain ⟨rest, heq, -⟩ := ih #[x] (done.push open_.toList) hn
      exact ⟨(x :: xs.take (n - 1)) :: rest, by simp [hfull, heq],
        fun hlen => by simp [hfull] at hlen⟩
    · obtain ⟨rest, heq, hrest⟩ := ih (open_.push x) done (by simp; omega)
      obtain ⟨k, hk⟩ : ∃ k, n - open_.size = k + 1 := ⟨n - open_.size - 1, by omega⟩
      have hpush : n - (open_.push x).size = k := by simp; omega
      rw [hpush] at heq hrest
      refine ⟨rest, by simp [hfull, heq, hk], fun hlen => hrest ?_⟩
      rw [length_cons] at hlen
      omega

/-- The first chunk is as long as it can be, and the only one of a short
list. -/
theorem toChunks_eq {n : Nat} (hn : 0 < n) {xs : List α} (hne : xs ≠ []) :
    ∃ rest, xs.toChunks n = xs.take n :: rest ∧ (xs.length ≤ n → rest = []) := by
  obtain ⟨x, xs, rfl⟩ := exists_cons_of_ne_nil hne
  obtain ⟨m, rfl⟩ : ∃ m, n = m + 1 := ⟨n - 1, by omega⟩
  obtain ⟨rest, heq, hrest⟩ := toChunks_go hn xs #[x] #[] (by simp)
  exact ⟨rest, by simpa [toChunks] using heq, fun hlen => hrest (by simpa using hlen)⟩

end Chunks

/-- `RawFrame::wire_len` of a frame with this payload. -/
def wireLen (payload : List UInt8) : Nat := 1 + 2 + 4 + payload.length + 1

/-- A content frame, read by the rules of a session. -/
def AmqpSession.onContent (s : AmqpSession) : OutFrame → AmqpSession × Outcome
  | .method _ _ => (s, .failed .protocol)
  | .header channel h => s.onHeaderFrame channel (some h)
  | .body channel payload => s.onBodyFrame channel payload

/-- A session accepts the frames one by one, and the last one completes
the content `p`. -/
def AmqpSession.Accepts (p : Publishing) (s : AmqpSession) : List OutFrame → Prop
  | [] => False
  | [f] => (s.onContent f).2 = .ask (.routeVersion p)
  | f :: fs => (s.onContent f).2 = .done ∧ Accepts p (s.onContent f).1 fs

/-- **The content of a delivery is well framed**: behind the method there
is a header with the size of the body, then the body in pieces, none of
them empty and none of them longer on the wire than `frame_max`; and a
session that waits for content puts it together again. -/
structure Delivery.WellFramed (d : Delivery) : Prop where
  split : ∃ payloads, d.frames.tail =
      .header d.channel ⟨classBasic, d.body.length, d.properties⟩ ::
        payloads.map (.body d.channel) ∧
    payloads.flatten = d.body ∧ (d.body = [] → payloads = []) ∧
    ∀ p ∈ payloads, p ≠ [] ∧ wireLen p ≤ d.frameMax
  accepted : ∀ (s : AmqpSession) (pending : PendingPublishContent),
    s.contentOf d.channel = some pending → pending.body = [] →
    pending.publish.immediate = false →
    s.Accepts ⟨d.channel, { pending with
      properties := d.properties
      expectedBodySize := d.body.length
      body := d.body }⟩ d.frames.tail

/-- A body in one frame is put together again. -/
theorem accepts_single {s : AmqpSession} {channel : Nat} {pending : PendingPublishContent}
    {properties : BasicProperties} {body : List UInt8} (hne : body ≠ [])
    (hpending : s.contentOf channel = some pending) (hbody : pending.body = [])
    (himmediate : pending.publish.immediate = false) :
    s.Accepts ⟨channel, { pending with
        properties := properties
        expectedBodySize := body.length
        body := body }⟩
      [.header channel ⟨classBasic, body.length, properties⟩, .body channel body] := by
  obtain ⟨ch, hopen, hch⟩ := bind_eq_some_iff.mp hpending
  obtain ⟨hat, hphase⟩ : s.channels channel = some ch ∧ ch.phase = .open := by
    simpa [openChannel, filter_eq_some_iff] using hopen
  have hlen : body.length ≠ 0 := mt length_eq_zero_iff.mp hne
  -- the content behind the header frame
  generalize hwaits : { pending with
    properties := properties
    expectedBodySize := body.length } = waits
  have hheader : s.onHeaderFrame channel (some ⟨classBasic, body.length, properties⟩) =
      (s.mapChannel channel fun ch => { ch with pendingPublish := some waits }, .done) := by
    simp [onHeaderFrame, hopen, hch, hlen, hwaits]
  have hopen' :
      (s.mapChannel channel fun ch => { ch with pendingPublish := some waits }).openChannel
      channel = some { ch with pendingPublish := some waits } := by
    simp [openChannel, mapChannel, hat, hphase]
  refine ⟨congrArg Prod.snd hheader, ?_⟩
  simp only [Accepts, onContent, hheader, onBodyFrame, hopen']
  subst hwaits
  simp [hbody, completePublish, himmediate]

theorem Delivery.WellFramed.fits {d : Delivery} (h : d.WellFramed) {p : List UInt8}
    (hp : .body d.channel p ∈ d.frames.tail) : p ≠ [] ∧ wireLen p ≤ d.frameMax := by
  obtain ⟨payloads, hframes, -, -, hall⟩ := h.split
  rw [hframes] at hp
  exact hall p (by simpa using hp)

/-- **Content is well framed** if and only if its header can be encoded,
the body is not empty, and the body and the 8 octets around it fit into
one frame. -/
theorem Delivery.wellFramed_iff (d : Delivery) :
    d.WellFramed ↔ d.properties.headers.encodes = true ∧ d.body ≠ [] ∧
      d.body.length + 8 ≤ d.frameMax := by
  constructor
  · intro h
    have hencodes : d.properties.headers.encodes = true := by
      obtain ⟨payloads, hframes, -⟩ := h.split
      by_contra hno
      simp [Delivery.frames, hno] at hframes
    have hne : d.body ≠ [] := fun hnil =>
      (h.fits (show .body d.channel [] ∈ d.frames.tail by simp [Delivery.frames, hencodes, hnil])).1
        rfl
    obtain ⟨rest, heq, -⟩ := toChunks_eq (show 0 < max d.frameMax 1 by omega) hne
    have hfirst := (h.fits (show .body d.channel (d.body.take (max d.frameMax 1)) ∈ d.frames.tail by
      simp [Delivery.frames, hencodes, hne, heq])).2
    rw [wireLen, length_take] at hfirst
    exact ⟨hencodes, hne, by omega⟩
  · rintro ⟨hencodes, hne, hlen⟩
    obtain ⟨rest, heq, hrest⟩ := toChunks_eq (show 0 < max d.frameMax 1 by omega) hne
    have hone : d.body.toChunks (max d.frameMax 1) = [d.body] := by
      rw [heq, hrest (by omega), take_of_length_le (by omega)]
    have htail : d.frames.tail = [.header d.channel ⟨classBasic, d.body.length, d.properties⟩,
        .body d.channel d.body] := by
      simp [Delivery.frames, hencodes, hne, hone]
    constructor
    case split =>
      refine ⟨[d.body], htail, by simp, fun hnil => absurd hnil hne, fun p hp => ?_⟩
      obtain rfl := mem_singleton.mp hp
      exact ⟨hne, by rw [wireLen]; omega⟩
    case accepted =>
      intro s pending hpending hbody himmediate
      rw [htail]
      exact accepts_single hne hpending hbody himmediate

/-- A delivery on channel 1. -/
def plainDelivery (frameMax : Nat) (body : List UInt8) : Delivery where
  channel := 1
  frameMax := frameMax
  method := ⟨[97], 1, false, [], []⟩
  properties := .empty
  body := body
  consumerId := 1
  queueId := 0
  seq := 0

/-- An empty body is sent as an empty frame, and two octets in a frame of
10 octets although 9 are allowed. -/
theorem empty_and_long_frames :
    (plainDelivery 9 []).frames.tail = [.header 1 ⟨classBasic, 0, .empty⟩, .body 1 []] ∧
      ¬ (plainDelivery 9 []).WellFramed ∧
      (plainDelivery 9 [1, 2]).frames.tail =
        [.header 1 ⟨classBasic, 2, .empty⟩, .body 1 [1, 2]] ∧
      wireLen [1, 2] = 10 ∧ ¬ (plainDelivery 9 [1, 2]).WellFramed := by
  refine ⟨by decide, fun h => ?_, by decide, rfl, fun h => ?_⟩
  · exact (@Delivery.WellFramed.fits _ h [] (by decide)).1 rfl
  · exact absurd (@Delivery.WellFramed.fits _ h [1, 2] (by decide)).2 (by decide)

/-! ## Exchange and routing key -/

/-- The exchange and the routing key stored for a handle. -/
def AmqpPayloadStore.names (store : AmqpPayloadStore) (handle : Nat) :
    Option (ShortStr × ShortStr) :=
  (store.deliveryMetadata handle).map fun m => (m.exchange, m.routingKey)

def batchMessages (batch : DeliveryEventBatch) : List EventMessage :=
  batch.segments.flatMap segmentMessages

/-- The first handle of a batch that begins with a range. -/
def leadHandle (batch : DeliveryEventBatch) : Option Nat :=
  match batch.segments with
  | .range r :: _ => r.payloads.get 0
  | _ => none

/-- **Every delivery names the exchange and the routing key** stored for
its own message. -/
def NamesOwn (s : AmqpSession) (channel : Nat) (batch : DeliveryEventBatch) : Prop :=
  List.Forall₂ (fun (m : EventMessage) (d : Delivery) => ∀ names ∈ s.store.names m.handle,
    (d.method.exchange, d.method.routingKey) = names) (batchMessages batch)
    (s.outgoing channel batch)

section Names

variable {s : AmqpSession} (hshort : ∀ handle, ∀ names ∈ s.store.names handle,
  names.1.length ≤ maxLen ∧ names.2.length ≤ maxLen)
include hshort

/-- A batch is given the names of its first handle, or none. -/
theorem enriched_names (batch : DeliveryEventBatch) :
    (shortstrFromBytes (s.store.enrichDelivery batch).exchange,
      shortstrFromBytes (s.store.enrichDelivery batch).routingKey) =
      ((leadHandle batch).bind s.store.names).getD ([], []) := by
  have henrich : s.store.enrichDelivery batch =
      ((leadHandle batch).bind s.store.deliveryMetadata).getD .empty := by
    rcases batch with ⟨c, q, ch, segments⟩
    cases segments with
    | nil => rfl
    | cons seg rest => cases seg <;> rfl
  rw [henrich]
  cases hlead : leadHandle batch with
  | none => rfl
  | some handle =>
    have hnames := hshort handle
    rw [names] at hnames
    simp only [bind_some, names]
    cases hmeta : s.store.deliveryMetadata handle with
    | none => rfl
    | some metadata =>
      obtain ⟨hexchange, hkey⟩ := hnames _ (by rw [hmeta]; rfl)
      simp [shortstrFromBytes, hexchange, hkey]

/-- **When deliveries name their own exchange and routing key**: every
message of the batch was published under those of the first handle, or
under empty names if the batch begins with a mask. -/
theorem names_own_iff (channel : Nat) (batch : DeliveryEventBatch) :
    NamesOwn s channel batch ↔ ∀ m ∈ batchMessages batch, ∀ names ∈ s.store.names m.handle,
      names = ((leadHandle batch).bind s.store.names).getD ([], []) := by
  rw [NamesOwn, AmqpSession.outgoing, ← enriched_names hshort]
  change List.Forall₂ _ (batchMessages batch) ((batchMessages batch).map _) ↔ _
  rw [forall₂_map_right_iff, forall₂_same]
  exact forall₂_congr fun m _ => forall₂_congr fun names _ => eq_comm

end Names

/-- A session that has stored one message under the key `a` and one under
the key `b`. -/
def twoKeys : AmqpSession :=
  { new with
    store := ⟨fun _ => none,
      fun handle => if handle = 1 then some ⟨[], [97], [], 0⟩
        else if handle = 2 then some ⟨[], [98], [], 0⟩ else none, fun _ => none⟩ }

/-- A batch of `len` new messages, the first with handle 1. -/
def newMessages (len : Nat) : DeliveryEventBatch :=
  ⟨1, 0, 1, [.range ⟨1, 0, len, .contiguous 1 len, false⟩]⟩

theorem twoKeys_short (handle : Nat) : ∀ names ∈ twoKeys.store.names handle,
    names.1.length ≤ maxLen ∧ names.2.length ≤ maxLen := by
  intro names hnames
  simp only [AmqpPayloadStore.names, twoKeys] at hnames
  split at hnames
  · obtain rfl := some.inj hnames
    decide
  · split at hnames
    · obtain rfl := some.inj hnames
      decide
    · cases hnames

/-- A single message is announced under its own key. -/
theorem single_names_own : NamesOwn twoKeys 1 (newMessages 1) :=
  (names_own_iff twoKeys_short 1 (newMessages 1)).mpr (by decide)

/-- The second of two messages is announced under the key of the first. -/
theorem second_named_as_first :
    (twoKeys.outgoing 1 (newMessages 2)).map (·.method.routingKey) = [[97], [97]] ∧
      twoKeys.store.names 2 = some ([], [98]) ∧ ¬ NamesOwn twoKeys 1 (newMessages 2) := by
  refine ⟨by decide, by decide, fun h => ?_⟩
  change List.Forall₂ _ [_, _] [_, _] at h
  obtain _ | ⟨-, _ | ⟨hsecond, -⟩⟩ := h
  exact absurd (hsecond ([], [98]) rfl) (by decide)

end Aurum.Amqp
