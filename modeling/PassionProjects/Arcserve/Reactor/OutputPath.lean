/-
  PassionProjects.Arcserve.Reactor.OutputPath

  The output path as one bounded queue of bytes.

  Chunks with their read offsets stand for the bytes still to be sent; a call of
  `enqueue` puts bytes behind them or is refused for want of room, and `consume` and
  `flush_output` take bytes off the front.  `OutputPath` writes down what was accepted
  and what was handed over.
-/

import Mathlib.Algebra.Order.Ring.Nat
import PassionProjects.Arcserve.Reactor.Connection

namespace PassionProjects.Arcserve.Reactor

open Buffers Net

-- ============================================================================
-- A bounded queue of bytes
-- ============================================================================

/-- What the output path is for. -/
structure ByteFifo where
  limit : Nat
  bytes : Bytes

namespace ByteFifo

/-- All of it behind the others, or nothing where there is no room. -/
def enqueue (f : ByteFifo) (data : Bytes) : Bool × ByteFifo :=
  if f.bytes.length + data.length ≤ f.limit then (true, { f with bytes := f.bytes ++ data })
  else (false, f)

end ByteFifo

namespace OutputQueue

variable {q q' : OutputQueue} {data : Bytes} {n : Nat}

/-- The counter is right and within the limit, and so is every chunk. -/
structure Counted (q : OutputQueue) : Prop where
  sum : q.queuedBytes = (q.chunks.map ByteBuffer.size).sum
  limit : q.queuedBytes ≤ q.maxBufferedBytes
  chunks : ∀ chunk ∈ q.chunks, chunk.Within

theorem counted_new (maxBufferedBytes : Nat) : Counted { maxBufferedBytes } where
  sum := rfl
  limit := Nat.zero_le _
  chunks _ hmem := absurd hmem List.not_mem_nil

theorem length_pending (q : OutputQueue) :
    q.pending.length = (q.chunks.map ByteBuffer.size).sum := by
  rw [pending, List.length_flatMap]
  congr 1
  exact List.map_congr_left fun chunk _ => chunk.view_length

/-- What the queue stands for. -/
def fifo (q : OutputQueue) : ByteFifo := ⟨q.maxBufferedBytes, q.pending⟩

/-- The chunk that `enqueue` adds. -/
theorem within_fresh (data : Bytes) :
    (ByteBuffer.append { maxCapacity := data.length } data).2.Within :=
  (ByteBuffer.within_new _).append data

theorem Counted.enqueue (h : q.Counted) (data : Bytes) : (q.enqueue data).2.Counted := by
  unfold OutputQueue.enqueue
  split
  · exact h
  · split
    · exact h
    · rename_i hroom
      have hlimit := h.limit
      refine ⟨?_, ?_, fun chunk hmem => ?_⟩
      · show q.queuedBytes + data.length = ((q.chunks ++ [_]).map ByteBuffer.size).sum
        rw [List.map_append, List.sum_append, ← h.sum, List.map_singleton, List.sum_singleton,
          ← ByteBuffer.view_length, ByteBuffer.append_fresh]
      · show q.queuedBytes + data.length ≤ q.maxBufferedBytes
        rw [Nat.min_eq_left hlimit] at hroom
        omega
      · rcases List.mem_append.mp hmem with hmem | hmem
        · exact h.chunks chunk hmem
        · rw [List.mem_singleton.mp hmem]
          exact within_fresh data

theorem maxBufferedBytes_enqueue (q : OutputQueue) (data : Bytes) :
    (q.enqueue data).2.maxBufferedBytes = q.maxBufferedBytes := by
  unfold OutputQueue.enqueue
  split
  · rfl
  · split
    · rfl
    · rfl

/-- `enqueue` accepts exactly what fits. -/
theorem Counted.enqueue_fifo (h : q.Counted) (data : Bytes) :
    q.fifo.enqueue data = ((q.enqueue data).1, (q.enqueue data).2.fifo) := by
  have hlimit := h.limit
  have hlength : q.pending.length = q.queuedBytes := (length_pending q).trans h.sum.symm
  have hmax := maxBufferedBytes_enqueue q data
  have hfifo : q.fifo.bytes.length + data.length ≤ q.fifo.limit ↔
      q.queuedBytes + data.length ≤ q.maxBufferedBytes := by
    rw [← hlength]
    rfl
  rcases henqueue : q.enqueue data with ⟨ok, q'⟩
  rw [henqueue] at hmax
  rw [ByteFifo.enqueue]
  cases ok with
  | true =>
      have hfits : q.queuedBytes + data.length ≤ q.maxBufferedBytes := by
        unfold OutputQueue.enqueue at henqueue
        split at henqueue
        · rw [‹data = []›]
          exact hlimit
        · split at henqueue
          · exact absurd (Prod.mk.inj henqueue).1 (by simp)
          · rename_i hroom
            rw [Nat.min_eq_left hlimit] at hroom
            omega
      rw [if_pos (hfifo.mpr hfits), fifo, fifo, pending_enqueue henqueue, hmax]
  | false =>
      have hfull : ¬ q.queuedBytes + data.length ≤ q.maxBufferedBytes := by
        unfold OutputQueue.enqueue at henqueue
        split at henqueue
        · exact absurd (Prod.mk.inj henqueue).1 (by simp)
        · split at henqueue
          · rename_i hroom
            rw [Nat.min_eq_left hlimit] at hroom
            omega
          · exact absurd (Prod.mk.inj henqueue).1 (by simp)
      rw [if_neg fun hle => hfull (hfifo.mp hle), enqueue_refused henqueue]

theorem Counted.consume (h : q.Counted) (n : Nat) : (q.consume n).Counted := by
  unfold OutputQueue.consume
  split
  · exact h
  · next chunk rest hchunks =>
      have hwithin := h.chunks chunk (hchunks ▸ List.mem_cons_self)
      have hrest : ∀ c ∈ rest, c.Within := fun c hc =>
        h.chunks c (hchunks ▸ List.mem_cons_of_mem _ hc)
      have hsum : q.queuedBytes = chunk.size + (rest.map ByteBuffer.size).sum := by
        rw [h.sum, hchunks, List.map_cons, List.sum_cons]
      have hsize : (chunk.consume (min n chunk.size)).size = chunk.size - min n chunk.size := by
        rw [← ByteBuffer.view_length, ByteBuffer.view_consume, List.length_drop,
          ByteBuffer.view_length]
      have hlimit := h.limit
      dsimp only
      split
      · rename_i hdrained
        have hnil : (chunk.consume (min n chunk.size)).size = 0 := by
          rw [← ByteBuffer.view_length, hdrained, List.length_nil]
        exact ⟨by dsimp only; omega, by dsimp only; omega, hrest⟩
      · refine ⟨?_, by dsimp only; omega, List.forall_mem_cons.mpr ⟨hwithin.consume _, hrest⟩⟩
        show q.queuedBytes - min n chunk.size =
          ((chunk.consume (min n chunk.size) :: rest).map ByteBuffer.size).sum
        rw [List.map_cons, List.sum_cons, hsize]
        omega

/-- The bytes that `consume` takes off the front. -/
theorem pending_consume_take (q : OutputQueue) (n : Nat) :
    q.front.take n ++ (q.consume n).pending = q.pending := by
  have hfront : q.front = q.pending.take q.front.length := by
    unfold front pending
    cases q.chunks with
    | nil => rfl
    | cons chunk rest => rw [List.flatMap_cons, List.take_left]
  have htake : q.front.take n = q.pending.take (min n q.front.length) := by
    conv_lhs => rw [hfront]
    rw [List.take_take]
  rw [htake, pending_consume_min, List.take_append_drop]

end OutputQueue

-- ============================================================================
-- Flushing
-- ============================================================================

variable {q q' : OutputQueue} {answers : List SendAnswer}

theorem flushChunk_counted (h : q.Counted) (answers : List SendAnswer) :
    (flushChunk q answers).2.1.Counted := by
  unfold flushChunk
  dsimp only
  split
  · exact h.consume _
  · exact h

/-- A flush keeps the counters, turn after turn. -/
theorem flushLoop_counted (fuel : Nat) (h : q.Counted) (answers : List SendAnswer) :
    (flushLoop fuel q answers).queue.Counted := by
  induction fuel generalizing q answers with
  | zero => exact h
  | succ fuel ih =>
      rw [flushLoop]
      split
      · exact h
      · have hturn := flushChunk_counted h answers
        rcases hchunk : flushChunk q answers with ⟨status, q₁, left, sent⟩
        rw [hchunk] at hturn
        cases status with
        | Closed => exact hturn
        | Error => exact hturn
        | WouldBlock => exact hturn
        | Ok => exact ih hturn left

theorem flushLoop_maxBufferedBytes (fuel : Nat) (q : OutputQueue) (answers : List SendAnswer) :
    (flushLoop fuel q answers).queue.maxBufferedBytes = q.maxBufferedBytes := by
  induction fuel generalizing q answers with
  | zero => rfl
  | succ fuel ih =>
      have hturn : (flushChunk q answers).2.1.maxBufferedBytes = q.maxBufferedBytes := by
        unfold flushChunk
        dsimp only
        split
        · exact OutputQueue.maxBufferedBytes_consume q _
        · rfl
      rw [flushLoop]
      split
      · rfl
      · rcases hchunk : flushChunk q answers with ⟨status, q₁, left, sent⟩
        rw [hchunk] at hturn
        cases status with
        | Closed => exact hturn
        | Error => exact hturn
        | WouldBlock => exact hturn
        | Ok => exact (ih q₁ left).trans hturn

-- ============================================================================
-- Whole runs
-- ============================================================================

/-- A connection's output path, with what was accepted and what was handed over. -/
structure OutputPath where
  connection : Connection
  accepted : List Bytes := []
  handed : Bytes := []

namespace OutputPath

inductive Call where
  | enqueue (data : Bytes)
  | consume (n : Nat)
  | flush (answers : List SendAnswer)

def queue (p : OutputPath) : OutputQueue := p.connection.writeQueue

def step (p : OutputPath) : Call → OutputPath
  | .enqueue data =>
    let (ok, q) := p.queue.enqueue data
    { p with
      connection := { p.connection with writeQueue := q }
      accepted := if ok then p.accepted ++ [data] else p.accepted }
  | .consume n =>
    { p with
      connection := { p.connection with writeQueue := p.queue.consume n }
      handed := p.handed ++ p.queue.front.take n }
  | .flush answers =>
    let flushed := p.connection.flushOutput answers
    { p with
      connection := { p.connection with writeQueue := flushed.queue }
      handed := p.handed ++ flushed.sent }

/-- A connection whose queue is new. -/
def start (fd : Nat) (readBuffer : ByteBuffer) (maxBufferedBytes : Nat) : OutputPath where
  connection := { fd, readBuffer, writeQueue := { maxBufferedBytes } }

/-- Nothing was lost, repeated or reordered, and the counters are right. -/
structure Conserved (maxBufferedBytes : Nat) (p : OutputPath) : Prop where
  bytes : p.handed ++ p.queue.pending = p.accepted.flatten
  counted : p.queue.Counted
  limit : p.queue.maxBufferedBytes = maxBufferedBytes

variable {maxBufferedBytes : Nat} {p : OutputPath}

theorem conserved_start (fd : Nat) (readBuffer : ByteBuffer) (maxBufferedBytes : Nat) :
    Conserved maxBufferedBytes (start fd readBuffer maxBufferedBytes) where
  bytes := rfl
  counted := OutputQueue.counted_new maxBufferedBytes
  limit := rfl

theorem step_enqueue {data : Bytes} {ok : Bool} {q : OutputQueue}
    (h : p.queue.enqueue data = (ok, q)) :
    p.step (.enqueue data) =
      { p with
        connection := { p.connection with writeQueue := q }
        accepted := if ok then p.accepted ++ [data] else p.accepted } := by
  simp only [step, h]

theorem Conserved.step (h : Conserved maxBufferedBytes p) (call : Call) :
    Conserved maxBufferedBytes (p.step call) := by
  have hbytes := h.bytes
  cases call with
  | enqueue data =>
      have hcounted := h.counted.enqueue data
      have hlimit := p.queue.maxBufferedBytes_enqueue data
      rcases henqueue : p.queue.enqueue data with ⟨ok, q⟩
      rw [henqueue] at hcounted hlimit
      rw [step_enqueue henqueue]
      refine ⟨?_, hcounted, hlimit.trans h.limit⟩
      cases ok with
      | true =>
          show p.handed ++ q.pending = (p.accepted ++ [data]).flatten
          rw [OutputQueue.pending_enqueue henqueue, ← List.append_assoc, hbytes,
            List.flatten_append, List.flatten_singleton]
      | false =>
          show p.handed ++ q.pending = p.accepted.flatten
          rw [OutputQueue.enqueue_refused henqueue, hbytes]
  | consume n =>
      refine ⟨?_, h.counted.consume n, ?_⟩
      · show p.handed ++ p.queue.front.take n ++ (p.queue.consume n).pending = p.accepted.flatten
        rw [List.append_assoc, OutputQueue.pending_consume_take, hbytes]
      · exact (p.queue.maxBufferedBytes_consume n).trans h.limit
  | flush answers =>
      refine ⟨?_, flushLoop_counted _ h.counted answers, ?_⟩
      · show p.handed ++ (p.connection.flushOutput answers).sent ++
          (p.connection.flushOutput answers).queue.pending = p.accepted.flatten
        rw [List.append_assoc, ← (p.connection.flushOutput_spec answers).1]
        exact hbytes
      · exact (flushLoop_maxBufferedBytes _ _ answers).trans h.limit

theorem conserved_run (h : Conserved maxBufferedBytes p) (calls : List Call) :
    Conserved maxBufferedBytes (calls.foldl OutputPath.step p) := by
  induction calls generalizing p with
  | nil => exact h
  | cons call calls ih => exact ih (h.step call)

/-- An `enqueue` that answers no changes nothing at all. -/
theorem step_refused {data : Bytes} (h : (p.queue.enqueue data).1 = false) :
    p.step (.enqueue data) = p := by
  rcases henqueue : p.queue.enqueue data with ⟨ok, q⟩
  rw [henqueue] at h
  obtain rfl : ok = false := h
  rw [step_enqueue henqueue, OutputQueue.enqueue_refused henqueue]
  rfl

/-- What holds of an output path after any calls. -/
structure BoundedFifo (maxBufferedBytes : Nat) (p : OutputPath) : Prop where
  bytes : p.handed ++ p.queue.pending = p.accepted.flatten
  queuedBytes : p.queue.queuedBytes = (p.queue.chunks.map ByteBuffer.size).sum
  limit : p.queue.queuedBytes ≤ maxBufferedBytes
  chunk_ne : ∀ chunk ∈ p.queue.chunks, chunk.size ≠ 0
  refused : ∀ data, (p.queue.enqueue data).1 = false → p.step (.enqueue data) = p
  refines : ∀ data,
    p.queue.fifo.enqueue data = ((p.queue.enqueue data).1, (p.step (.enqueue data)).queue.fifo)
  chunk_size : ∀ chunk ∈ p.queue.chunks, chunk.size ≤ chunk.maxCapacity
  chunk_storage : ∀ chunk ∈ p.queue.chunks, chunk.storage.length ≤ 2 * chunk.maxCapacity

theorem Conserved.boundedFifo (h : Conserved maxBufferedBytes p) :
    BoundedFifo maxBufferedBytes p where
  bytes := h.bytes
  queuedBytes := h.counted.sum
  limit := h.limit ▸ h.counted.limit
  chunk_ne chunk hmem hsize :=
    p.queue.chunks_ne chunk hmem (List.length_eq_zero_iff.mp (chunk.view_length.trans hsize))
  refused _ hno := step_refused hno
  refines data := h.counted.enqueue_fifo data
  chunk_size chunk hmem := (h.counted.chunks chunk hmem).size
  chunk_storage chunk hmem := (h.counted.chunks chunk hmem).storage

/-- The output path is a bounded queue of bytes, whatever the socket answers; and a
    buffer stays within its cap, and its storage within twice that. -/
theorem output_bounded_fifo (fd : Nat) (readBuffer : ByteBuffer) (maxBufferedBytes : Nat)
    (calls : List Call) :
    BoundedFifo maxBufferedBytes
        (calls.foldl OutputPath.step (start fd readBuffer maxBufferedBytes)) ∧
      ∀ maxCapacity (bufferCalls : List ByteBuffer.Call),
        (bufferCalls.foldl ByteBuffer.step { maxCapacity }).size ≤ maxCapacity ∧
          (bufferCalls.foldl ByteBuffer.step { maxCapacity }).storage.length ≤ 2 * maxCapacity := by
  refine ⟨?_, fun maxCapacity bufferCalls => ?_⟩
  · exact (conserved_run (conserved_start fd readBuffer maxBufferedBytes) calls).boundedFifo
  · obtain ⟨hwithin, hcap⟩ := ByteBuffer.within_run maxCapacity bufferCalls
    have hsize := hwithin.size
    have hstorage := hwithin.storage
    rw [hcap] at hsize hstorage
    exact ⟨hsize, hstorage⟩

end OutputPath

end PassionProjects.Arcserve.Reactor
