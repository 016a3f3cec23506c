import Aurum.Queue.Basic

/-!
# Queue — the hybrid range/block queue

`HybridRangeBlockQueue`: fresh messages are the interval
`[sequential_head, sequential_tail)`; every message that left it is one
bit in one of four bitsets of its block.

The three `while seq < end` loops over the blocks of a range share
`forBlocks`; the two `loop { pop_front … }` loops take the number of
blocks plus one as fuel. `blocks[i]` out of bounds panics in the source
and is a no-op here. Sequence numbers and the `u64` totals do not wrap
in any feasible run and are `Nat`; `moved` is a `u32` and wraps.
-/

namespace Aurum.Queue

open Aurum.Bits Aurum.Intrusive Aurum.Kernels

structure HybridRangeBlockQueue where
  nextSeq : Nat
  sequentialHead : Nat
  sequentialTail : Nat
  blocks : List MsgBlock
  sparseBlocks : IndexList
  retryBlocks : IndexList
  stats : QueueStats
deriving DecidableEq

/-- `locate`: block index and bit within the block. -/
def locate (seq : Nat) : Nat × Nat := (seq / MSGS_PER_BLOCK, seq % MSGS_PER_BLOCK)

def takeLowestBitsLocal (word : Word) (max : Nat) : Word :=
  if word = 0#64 ∨ max = 0 then 0#64
  else if countOnes word ≤ max then word
  else takeLowestLoop max word 0#64

namespace HybridRangeBlockQueue

variable (q : HybridRangeBlockQueue) (blk : MsgBlock) (b : Nat)

def empty : HybridRangeBlockQueue where
  nextSeq := 0
  sequentialHead := 0
  sequentialTail := 0
  blocks := []
  sparseBlocks := IndexList.new
  retryBlocks := IndexList.new
  stats := ⟨0, 0, 0, 0, 0⟩

/-- The `while self.blocks.len() < needed_blocks` loop. -/
def growBlocks : Nat → List MsgBlock → List MsgBlock
  | 0, blocks => blocks
  | missing + 1, blocks =>
    growBlocks missing (blocks ++ [MsgBlock.new (blocks.length * MSGS_PER_BLOCK)])

def publishContiguous (count : Nat) : HybridRangeBlockQueue × DeliveryRange :=
  if count = 0 then (q, ⟨q.nextSeq, 0⟩)
  else
    let start := q.nextSeq
    let stop := start + count
    let neededBlocks := (stop + (MSGS_PER_BLOCK - 1)) / MSGS_PER_BLOCK
    ({ q with
        blocks := growBlocks (neededBlocks - q.blocks.length) q.blocks
        sequentialTail := stop
        nextSeq := stop
        stats := { q.stats with totalPublished := q.stats.totalPublished + count } },
      ⟨start, count⟩)

def sequentialReadyLen : Nat :=
  q.sequentialTail - q.sequentialHead

/-- `self.blocks[b]`, updated in place. -/
def updateBlock (f : MsgBlock → MsgBlock) : HybridRangeBlockQueue :=
  { q with blocks := q.blocks.modify b f }

/-- The blocks of the interval `[seq, stop)`: `step b bit take` handles
the part inside block `b`, which starts at bit `bit` and has `take`
messages. -/
def forBlocks (step : Nat → Nat → Nat → HybridRangeBlockQueue → HybridRangeBlockQueue)
    (stop : Nat) : Nat → Nat → HybridRangeBlockQueue → HybridRangeBlockQueue
  | 0, _, q => q
  | fuel + 1, seq, q =>
    if seq < stop then
      let (b, bit) := locate seq
      let take := min (MSGS_PER_BLOCK - bit) (stop - seq)
      forBlocks step stop fuel (seq + take) (step b bit take q)
    else q

def markInflightRange (start : Nat) (len : Nat) : HybridRangeBlockQueue :=
  if len = 0 then q
  else
    forBlocks (fun b bit take q =>
        q.updateBlock b fun blk => { blk with inflight := setRange blk.inflight bit take })
      (start + len) len start q

def ensureRetryListed : HybridRangeBlockQueue :=
  if (linkAt retrySlot q.blocks b).isLinked then q
  else
    let (list, blocks) := q.retryBlocks.pushBack retrySlot RETRY_TAG q.blocks b
    { q with retryBlocks := list, blocks := blocks }

def ensureSparseListed : HybridRangeBlockQueue :=
  if (linkAt sparseSlot q.blocks b).isLinked then q
  else
    let (list, blocks) := q.sparseBlocks.pushBack sparseSlot SPARSE_TAG q.blocks b
    { q with sparseBlocks := list, blocks := blocks }

/-! ## Settlement -/

def ackRange (start : Nat) (len : Nat) : HybridRangeBlockQueue :=
  if len = 0 then q
  else
    let q := forBlocks (fun b bit take q =>
        q.updateBlock b fun blk =>
          { blk with
            acked := setRange blk.acked bit take
            inflight := clearRange blk.inflight bit take })
      (start + len) len start q
    { q with stats := { q.stats with totalAcked := q.stats.totalAcked + len } }

/-- `ack_mask`, also the body of the mask loop of `apply_ack_batch`. -/
def ackMask (m : AckMask) : HybridRangeBlockQueue :=
  let q := q.updateBlock m.block fun blk =>
    { blk with
      inflight := updateWord blk.inflight m.word (· &&& ~~~m.mask)
      acked := updateWord blk.acked m.word (· ||| m.mask) }
  { q with stats := { q.stats with totalAcked := q.stats.totalAcked + countOnes m.mask } }

def ackId (seq : Nat) : HybridRangeBlockQueue :=
  if q.nextSeq ≤ seq then q
  else
    let (b, bit) := locate seq
    let q := q.updateBlock b fun blk =>
      { blk with
        inflight := updateWord blk.inflight (bit / 64) (· &&& ~~~(1#64 <<< (bit % 64)))
        acked := updateWord blk.acked (bit / 64) (· ||| (1#64 <<< (bit % 64))) }
    { q with stats := { q.stats with totalAcked := q.stats.totalAcked + 1 } }

/-- The loop `for w in first..=last { word_mask |= 1 << w }`. -/
def markWords (wordMask : BitVec 8) (first last : Nat) : BitVec 8 :=
  (List.range' first (last + 1 - first)).foldl (fun m w => m ||| (1#8 <<< w)) wordMask

def nackRangeToRetry (start : Nat) (len : Nat) : HybridRangeBlockQueue :=
  if len = 0 then q
  else
    let q := forBlocks (fun b bit take q =>
        (q.updateBlock b fun blk =>
          { blk with
            inflight := clearRange blk.inflight bit take
            retry := setRange blk.retry bit take
            retryWordMask := markWords blk.retryWordMask (bit / 64) ((bit + take - 1) / 64) }
        ).ensureRetryListed b)
      (start + len) len start q
    { q with stats := { q.stats with totalNacked := q.stats.totalNacked + len } }

/-- `nack_mask_to_retry`, also the body of the mask loop of
`apply_nack_batch`. -/
def nackMaskToRetry (m : NackMask) : HybridRangeBlockQueue :=
  let q := q.updateBlock m.block fun blk =>
    { blk with
      inflight := updateWord blk.inflight m.word (· &&& ~~~m.mask)
      retry := updateWord blk.retry m.word (· ||| m.mask)
      retryWordMask := blk.retryWordMask ||| (1#8 <<< m.word) }
  let q := q.ensureRetryListed m.block
  { q with stats := { q.stats with totalNacked := q.stats.totalNacked + countOnes m.mask } }

def applyAckBatch (batch : AckBatch) : HybridRangeBlockQueue :=
  let q := batch.ranges.foldl (fun q r => q.ackRange r.startSeq r.len) q
  batch.masks.foldl ackMask q

def applyNackBatch (batch : NackBatch) : HybridRangeBlockQueue :=
  let q := batch.ranges.foldl (fun q r => q.nackRangeToRetry r.startSeq r.len) q
  batch.masks.foldl nackMaskToRetry q

/-! ## Retry -/

/-- One iteration of the word loop of `retry_all_now`, on the block and
the `moved` counter. -/
def retryWord (acc : MsgBlock × Nat) (w : Nat) : MsgBlock × Nat :=
  let (blk, moved) := acc
  let mask := word blk.retry w
  if mask = 0#64 then (blk, moved)
  else
    ({ blk with
        retry := updateWord blk.retry w (fun _ => 0#64)
        sparseReady := updateWord blk.sparseReady w (· ||| mask)
        redelivered := updateWord blk.redelivered w (· ||| mask) },
      (moved + countOnes mask) % 2 ^ 32)

/-- The block update of one `retry_all_now` iteration: all words, then
the two summary bytes. -/
def retryBlock (moved : Nat) : MsgBlock × Nat :=
  let wordMask := blk.retryWordMask
  let acc := (List.range WORDS_PER_BLOCK).foldl retryWord (blk, moved)
  ({ acc.1 with
      retryWordMask := 0#8
      sparseWordMask := acc.1.sparseWordMask ||| wordMask }, acc.2)

/-- The `loop` of `retry_all_now`. -/
def retryLoop : Nat → HybridRangeBlockQueue → Nat → HybridRangeBlockQueue × Nat
  | 0, q, moved => (q, moved)
  | fuel + 1, q, moved =>
    match q.retryBlocks.popFront retrySlot q.blocks with
    | (none, _, _) => (q, moved)
    | (some b, list, blocks) =>
      let q := { q with retryBlocks := list, blocks := blocks }
      match q.blocks[b]? with
      | none => (q, moved)
      | some blk =>
        let (blk, moved) := retryBlock blk moved
        retryLoop fuel ((q.updateBlock b fun _ => blk).ensureSparseListed b) moved

def retryAllNow : HybridRangeBlockQueue × Nat :=
  let (q, moved) := retryLoop (q.blocks.length + 1) q 0
  ({ q with stats := { q.stats with totalRetried := q.stats.totalRetried + moved } }, moved)

/-! ## Delivery -/

/-- What the word loop of `deliver_sparse_masks` updates. -/
structure SparseAcc where
  block : MsgBlock
  remaining : Nat
  delivered : Nat
  masks : List DeliveryMask

/-- Move `mask` from `sparse_ready` to `inflight` in word `w`; an emptied
word loses its summary bit. -/
def takeSparseWord (w : Nat) (mask : Word) : MsgBlock :=
  let blk := { blk with
    sparseReady := updateWord blk.sparseReady w (· &&& ~~~mask)
    inflight := updateWord blk.inflight w (· ||| mask) }
  if word blk.sparseReady w = 0#64 then
    { blk with sparseWordMask := blk.sparseWordMask &&& ~~~(1#8 <<< w) }
  else blk

/-- One iteration of that word loop, in block `b`. -/
def deliverWord (acc : SparseAcc) (w : Nat) : SparseAcc :=
  if acc.remaining = 0 then acc
  else if acc.block.sparseWordMask &&& (1#8 <<< w) = 0#8 then acc
  else
    let available := word acc.block.sparseReady w
    if available = 0#64 then
      { acc with block :=
        { acc.block with sparseWordMask := acc.block.sparseWordMask &&& ~~~(1#8 <<< w) } }
    else
      let mask := takeLowestBitsLocal available acc.remaining
      { block := takeSparseWord acc.block w mask
        remaining := acc.remaining - countOnes mask
        delivered := acc.delivered + countOnes mask
        masks := acc.masks ++ [⟨b, w, mask⟩] }

/-- The word loop of `deliver_sparse_masks` over one block. -/
def deliverBlock (blk : MsgBlock) (remaining delivered : Nat)
    (masks : List DeliveryMask) : SparseAcc :=
  (List.range WORDS_PER_BLOCK).foldl (deliverWord b) ⟨blk, remaining, delivered, masks⟩

/-- The end of an iteration of `deliver_sparse_masks`: the block is
written back, and goes to the FRONT of the list if it has sparse
messages left. -/
def putBack (q : HybridRangeBlockQueue) (b : Nat) (blk : MsgBlock) : HybridRangeBlockQueue :=
  let q := q.updateBlock b fun _ => blk
  if blk.sparseWordMask ≠ 0#8 then
    let (list, blocks) := q.sparseBlocks.pushFront sparseSlot SPARSE_TAG q.blocks b
    { q with sparseBlocks := list, blocks := blocks }
  else q

/-- The `while remaining != 0` loop of `deliver_sparse_masks`. -/
def sparseLoop : Nat → HybridRangeBlockQueue → Nat → Nat → List DeliveryMask →
    HybridRangeBlockQueue × Nat × List DeliveryMask
  | 0, q, _, delivered, masks => (q, delivered, masks)
  | fuel + 1, q, remaining, delivered, masks =>
    if remaining = 0 then (q, delivered, masks)
    else match q.sparseBlocks.popFront sparseSlot q.blocks with
    | (none, _, _) => (q, delivered, masks)
    | (some b, list, blocks) =>
      let q := { q with sparseBlocks := list, blocks := blocks }
      match q.blocks[b]? with
      | none => (q, delivered, masks)
      | some blk =>
        let acc := deliverBlock b blk remaining delivered masks
        sparseLoop fuel (q.putBack b acc.block) acc.remaining acc.delivered acc.masks

/-- `deliver_sparse_masks`; the masks are appended to `out.masks`. -/
def deliverSparseMasks (maxMessages : Nat)
    (masks : List DeliveryMask) : HybridRangeBlockQueue × Nat × List DeliveryMask :=
  sparseLoop (q.blocks.length + 1) q maxMessages 0 masks

def deliver (q : HybridRangeBlockQueue) (maxMessages : Nat) :
    HybridRangeBlockQueue × DeliveryWork × Nat :=
  if maxMessages = 0 then (q, ⟨[], []⟩, 0)
  else
    let available := min q.sequentialReadyLen maxMessages
    let start := q.sequentialHead
    let (q, ranges) := if available ≠ 0 then
        ({ q.markInflightRange start available with sequentialHead := start + available },
          [⟨start, available⟩])
      else (q, [])
    let remaining := maxMessages - available
    let (q, sparse, masks) := if remaining ≠ 0 then q.deliverSparseMasks remaining []
      else (q, 0, [])
    let delivered := available + sparse
    ({ q with stats := { q.stats with totalDelivered := q.stats.totalDelivered + delivered } },
      ⟨ranges, masks⟩, delivered)

def redeliveredMask (block : Nat) (w : Nat) (deliveryMask : Word) : Word :=
  ((q.blocks[block]?.map fun blk => word blk.redelivered w).getD 0#64) &&& deliveryMask

/-! ## Diagnostics -/

def debugStateOf (seq : Nat) : Option MessageState :=
  if q.nextSeq ≤ seq then none
  else if q.sequentialHead ≤ seq ∧ seq < q.sequentialTail then some .ready
  else
    let (b, bit) := locate seq
    match q.blocks[b]? with
    | none => none
    | some blk =>
      let mask := 1#64 <<< (bit % 64)
      if word blk.acked (bit / 64) &&& mask ≠ 0#64 then some .acked
      else if word blk.inflight (bit / 64) &&& mask ≠ 0#64 then some .inflight
      else if word blk.retry (bit / 64) &&& mask ≠ 0#64 then some .retry
      else if word blk.sparseReady (bit / 64) &&& mask ≠ 0#64 then some .sparseReady
      else none

/-- One word of the sums of `debug_counts`; the two summarised bitsets
are only read where the summary byte says so. -/
def countWord (c : QueueCounts) (w : Nat) : QueueCounts :=
  { c with
    inflight := c.inflight + countOnes (word blk.inflight w)
    acked := c.acked + countOnes (word blk.acked w)
    ready := if blk.sparseWordMask &&& (1#8 <<< w) ≠ 0#8 then
        c.ready + countOnes (word blk.sparseReady w) else c.ready
    retry := if blk.retryWordMask &&& (1#8 <<< w) ≠ 0#8 then
        c.retry + countOnes (word blk.retry w) else c.retry }

def debugCounts : QueueCounts :=
  q.blocks.foldl (fun c blk => (List.range WORDS_PER_BLOCK).foldl (countWord blk) c)
    ⟨q.nextSeq, q.sequentialReadyLen, 0, 0, 0⟩

/-- The word checks of `validate_invariants`. -/
def validateWord (blockIdx : Nat) (blk : MsgBlock) (w : Nat) : Except InvariantViolation Unit :=
  let inflight := word blk.inflight w
  let acked := word blk.acked w
  let retry := word blk.retry w
  let sparse := word blk.sparseReady w
  if inflight &&& acked ≠ 0#64 ∨ inflight &&& retry ≠ 0#64 ∨ inflight &&& sparse ≠ 0#64
      ∨ acked &&& retry ≠ 0#64 ∨ acked &&& sparse ≠ 0#64 ∨ retry &&& sparse ≠ 0#64 then
    .error ⟨blockIdx, w, .bitConflict⟩
  else if (retry != 0#64) != (blk.retryWordMask &&& (1#8 <<< w) != 0#8) then
    .error ⟨blockIdx, w, .wordMaskMismatch⟩
  else if (sparse != 0#64) != (blk.sparseWordMask &&& (1#8 <<< w) != 0#8) then
    .error ⟨blockIdx, w, .wordMaskMismatch⟩
  else .ok ()

/-- The block checks of `validate_invariants`. -/
def validateBlock (blockIdx : Nat) : Except InvariantViolation Unit := do
  (List.range WORDS_PER_BLOCK).forM (validateWord blockIdx blk)
  if (blk.retryWordMask != 0#8) != blk.isRetryListed then .error ⟨blockIdx, 0, .listMismatch⟩
  else if (blk.sparseWordMask != 0#8) != blk.isSparseListed then
    .error ⟨blockIdx, 0, .listMismatch⟩
  else .ok ()

def validateInvariants : Except InvariantViolation Unit :=
  if q.sequentialTail < q.sequentialHead then .error ⟨0, 0, .seqOutOfOrder⟩
  else if q.nextSeq < q.sequentialTail then .error ⟨0, 0, .seqOutOfOrder⟩
  else do
    q.blocks.zipIdx.forM fun p => validateBlock p.1 p.2
    match q.retryBlocks.validate retrySlot RETRY_TAG q.blocks with
    | .error _ => .error ⟨0, 0, .listCycle⟩
    | .ok () =>
      match q.sparseBlocks.validate sparseSlot SPARSE_TAG q.blocks with
      | .error _ => .error ⟨0, 0, .listCycle⟩
      | .ok () => .ok ()

end HybridRangeBlockQueue

end Aurum.Queue
