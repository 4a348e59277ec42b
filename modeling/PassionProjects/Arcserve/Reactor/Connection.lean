/-
  PassionProjects.Arcserve.Reactor.Connection

  A connection of the reactor (`connection.cpp`): its buffers, its lifecycle state and
  `flush_output`, over the bounded queue of chunks to send (`output_queue.cpp`).

  `pending` is what the queue says is still to be sent: `enqueue` puts a chunk
  behind it and `consume` takes bytes off its front.
-/

import Mathlib.Algebra.Order.Ring.Nat
import PassionProjects.Arcserve.Buffers.ByteBuffer
import PassionProjects.Arcserve.Net.Socket

namespace PassionProjects.Arcserve.Reactor

open Buffers Net

theorem nil_chunks_ne : ∀ chunk ∈ ([] : List ByteBuffer), chunk.view ≠ [] :=
  fun _ h => absurd h List.not_mem_nil

/-- `OutputQueue`; a chunk leaves as soon as it is drained. -/
structure OutputQueue where
  maxBufferedBytes : Nat
  chunks : List ByteBuffer := []
  queuedBytes : Nat := 0
  chunks_ne : ∀ chunk ∈ chunks, chunk.view ≠ [] := by exact nil_chunks_ne
  deriving DecidableEq, Repr

namespace OutputQueue

/-- `empty`. -/
def isEmpty (q : OutputQueue) : Bool := q.chunks.isEmpty

/-- `enqueue`: all or nothing. -/
def enqueue (q : OutputQueue) (data : Bytes) : Bool × OutputQueue :=
  if h : data = [] then (true, q)
  else if data.length > q.maxBufferedBytes - min q.queuedBytes q.maxBufferedBytes then (false, q)
  else
    (true, { q with
      chunks := q.chunks ++ [(ByteBuffer.append { maxCapacity := data.length } data).2]
      queuedBytes := q.queuedBytes + data.length
      chunks_ne := fun chunk hmem => by
        rcases List.mem_append.mp hmem with hmem | hmem
        · exact q.chunks_ne chunk hmem
        · rw [List.mem_singleton.mp hmem, ByteBuffer.append_fresh]
          exact h })

/-- `front`. -/
def front (q : OutputQueue) : Bytes :=
  match q.chunks with
  | [] => []
  | chunk :: _ => chunk.view

/-- `consume`. -/
def consume (q : OutputQueue) (n : Nat) : OutputQueue :=
  match hchunks : q.chunks with
  | [] => q
  | chunk :: rest =>
    let taken := min n chunk.size
    let chunk := chunk.consume taken
    have hrest : ∀ c ∈ rest, c.view ≠ [] := fun c hc =>
      q.chunks_ne c (hchunks ▸ List.mem_cons_of_mem _ hc)
    if h : chunk.view = [] then
      { q with chunks := rest, queuedBytes := q.queuedBytes - taken, chunks_ne := hrest }
    else
      { q with
        chunks := chunk :: rest
        queuedBytes := q.queuedBytes - taken
        chunks_ne := List.forall_mem_cons.mpr ⟨h, hrest⟩ }

/-- The bytes still to be sent. -/
def pending (q : OutputQueue) : Bytes := q.chunks.flatMap ByteBuffer.view

theorem pending_eq_nil_iff (q : OutputQueue) : q.pending = [] ↔ q.chunks = [] := by
  rw [pending, List.flatMap_eq_nil_iff]
  constructor
  · intro h
    cases hchunks : q.chunks with
    | nil => rfl
    | cons chunk rest =>
        have hmem : chunk ∈ q.chunks := hchunks ▸ List.mem_cons_self
        exact absurd (h chunk hmem) (q.chunks_ne chunk hmem)
  · intro h chunk hmem
    exact absurd (h ▸ hmem) List.not_mem_nil

/-- An accepted chunk goes behind the others. -/
theorem pending_enqueue {q q' : OutputQueue} {data : Bytes} (h : q.enqueue data = (true, q')) :
    q'.pending = q.pending ++ data := by
  unfold enqueue at h
  split at h
  · obtain rfl := (Prod.mk.inj h).2
    rw [‹data = []›, List.append_nil]
  · split at h
    · exact absurd (Prod.mk.inj h).1 (by simp)
    · obtain rfl := (Prod.mk.inj h).2
      simp only [pending, List.flatMap_append, List.flatMap_cons, List.flatMap_nil,
        List.append_nil, ByteBuffer.append_fresh]

theorem enqueue_refused {q q' : OutputQueue} {data : Bytes} (h : q.enqueue data = (false, q')) :
    q' = q := by
  unfold enqueue at h
  split at h
  · exact absurd (Prod.mk.inj h).1 (by simp)
  · split at h
    · exact (Prod.mk.inj h).2.symm
    · exact absurd (Prod.mk.inj h).1 (by simp)

/-- `consume` takes bytes off the front chunk, and no more than it has. -/
theorem pending_consume_min (q : OutputQueue) (n : Nat) :
    (q.consume n).pending = q.pending.drop (min n q.front.length) := by
  unfold consume
  split
  · next hchunks => simp [pending, hchunks]
  · next chunk rest hchunks =>
      have hfront : q.front.length = chunk.size := by
        simp only [front, hchunks, ByteBuffer.view_length]
      have hpending : q.pending.drop (min n q.front.length) =
          (chunk.consume (min n chunk.size)).view ++ rest.flatMap ByteBuffer.view := by
        rw [hfront, pending, hchunks, List.flatMap_cons, ByteBuffer.view_consume,
          List.drop_append_of_le_length]
        rw [ByteBuffer.view_length]
        exact Nat.min_le_right n chunk.size
      rw [hpending]
      dsimp only
      split
      · next hnil =>
          rw [hnil]
          rfl
      · rfl

/-- Bytes of the front chunk that were sent. -/
theorem pending_consume {q : OutputQueue} {n : Nat} (hn : n ≤ q.front.length) :
    (q.consume n).pending = q.pending.drop n := by
  rw [pending_consume_min, Nat.min_eq_left hn]

/-- A front chunk that was sent whole leaves the queue. -/
theorem chunks_consume_front {q : OutputQueue} {chunk : ByteBuffer} {rest : List ByteBuffer}
    (h : q.chunks = chunk :: rest) : (q.consume q.front.length).chunks = rest := by
  have hfront : q.front.length = chunk.size := by simp only [front, h, ByteBuffer.view_length]
  unfold consume
  split
  · next hchunks => exact absurd (h.symm.trans hchunks) (by simp)
  · next chunk' rest' hchunks =>
      obtain ⟨rfl, rfl⟩ := List.cons.inj (h.symm.trans hchunks)
      have hdrained : (chunk.consume (min q.front.length chunk.size)).view = [] := by
        rw [hfront, Nat.min_self, ByteBuffer.view_consume, ← ByteBuffer.view_length,
          List.drop_length]
      dsimp only
      rw [dif_pos hdrained]

theorem maxBufferedBytes_consume (q : OutputQueue) (n : Nat) :
    (q.consume n).maxBufferedBytes = q.maxBufferedBytes := by
  unfold consume
  split
  · rfl
  · dsimp only
    split
    · rfl
    · rfl

end OutputQueue

inductive ConnectionState where
  | kReading
  | kWriting
  | kClosing
  | kClosed
  deriving DecidableEq, Repr

inductive FlushResult where
  | kFlushed
  | kPending
  | kFailed
  deriving DecidableEq, Repr

structure Connection where
  fd : Nat
  readBuffer : ByteBuffer
  writeQueue : OutputQueue
  state : ConnectionState := .kReading
  deriving DecidableEq, Repr

/-- What `flush_output` did: its result, the queue and the `send(2)` answers it left,
    and the bytes the socket took. -/
structure Flushed where
  result : FlushResult
  queue : OutputQueue
  answers : List SendAnswer
  sent : Bytes

/-- One turn of the loop of `flush_output`: what can be sent of the front chunk. -/
def flushChunk (q : OutputQueue) (answers : List SendAnswer) :
    IoStatus × OutputQueue × List SendAnswer × Bytes :=
  let chunk := q.front
  let (result, answers) := writeAll answers chunk.length
  let q := if result.bytesTransferred > 0 then q.consume result.bytesTransferred else q
  (result.status, q, answers, chunk.take result.bytesTransferred)

/-- The loop of `flush_output`: each turn but the last drains a chunk, so that the
    number is not used up. -/
def flushLoop : Nat → OutputQueue → List SendAnswer → Flushed
  | 0, q, answers => ⟨.kPending, q, answers, []⟩
  | fuel + 1, q, answers =>
    if q.isEmpty then ⟨.kFlushed, q, answers, []⟩
    else
      match flushChunk q answers with
      | (.Closed, q, answers, sent) => ⟨.kFailed, q, answers, sent⟩
      | (.Error, q, answers, sent) => ⟨.kFailed, q, answers, sent⟩
      | (.WouldBlock, q, answers, sent) => ⟨.kPending, q, answers, sent⟩
      | (.Ok, q, answers, sent) =>
        let rest := flushLoop fuel q answers
        { rest with sent := sent ++ rest.sent }

/-- `flush_output`. -/
def Connection.flushOutput (c : Connection) (answers : List SendAnswer) : Flushed :=
  flushLoop (c.writeQueue.chunks.length + 1) c.writeQueue answers

variable {q q' : OutputQueue} {answers answers' : List SendAnswer} {sent : Bytes}

/-- A turn sends a prefix of the front chunk; only `Ok` drains the chunk. -/
theorem flushChunk_spec {status : IoStatus} {chunk : ByteBuffer} {rest : List ByteBuffer}
    (hchunks : q.chunks = chunk :: rest)
    (h : flushChunk q answers = (status, q', answers', sent)) :
    q.pending = sent ++ q'.pending ∧ (status = .Ok → q'.chunks = rest) ∧
      (status ≠ .Ok → q'.chunks ≠ []) := by
  unfold flushChunk at h
  rcases hwrite : writeAll answers q.front.length with ⟨result, left⟩
  obtain ⟨hle, hok⟩ := writeAll_spec hwrite
  dsimp only at h
  rw [hwrite] at h
  obtain ⟨rfl, hq, rfl, rfl⟩ := by simpa using h
  have hfront : q.pending = q.front ++ rest.flatMap ByteBuffer.view := by
    simp only [OutputQueue.pending, OutputQueue.front, hchunks, List.flatMap_cons]
  -- whether or not `consume` is called, this much is gone
  have hgone : q'.pending = q.pending.drop result.bytesTransferred := by
    rw [← hq]
    split
    · exact OutputQueue.pending_consume hle
    · have hzero : result.bytesTransferred = 0 := by omega
      rw [hzero, List.drop_zero]
  refine ⟨?_, fun hstatus => ?_, fun hstatus hnil => ?_⟩
  · rw [hgone, hfront, ← List.take_append_of_le_length hle, List.take_append_drop]
  · have hall := hok.mp hstatus
    have hpos : 0 < result.bytesTransferred := by
      rw [hall, List.length_pos_iff]
      simp only [OutputQueue.front, hchunks]
      exact q.chunks_ne chunk (hchunks ▸ List.mem_cons_self)
    rw [← hq, if_pos hpos, hall]
    exact OutputQueue.chunks_consume_front hchunks
  · have hnone := (OutputQueue.pending_eq_nil_iff _).mpr hnil
    rw [hgone, List.drop_eq_nil_iff, hfront, List.length_append] at hnone
    exact hstatus (hok.mpr (by omega))

/-- The socket takes a prefix of what is pending, and all of it when the queue is flushed. -/
theorem flushLoop_spec {fuel : Nat} (hfuel : q.chunks.length < fuel) (answers : List SendAnswer) :
    q.pending = (flushLoop fuel q answers).sent ++ (flushLoop fuel q answers).queue.pending ∧
      ((flushLoop fuel q answers).result = .kFlushed →
        (flushLoop fuel q answers).queue.chunks = []) ∧
      ((flushLoop fuel q answers).result = .kPending →
        (flushLoop fuel q answers).queue.chunks ≠ []) := by
  induction fuel generalizing q answers with
  | zero => exact absurd hfuel (Nat.not_lt_zero _)
  | succ fuel ih =>
      rw [flushLoop]
      cases hchunks : q.chunks with
      | nil =>
          have hempty : q.isEmpty = true := by rw [OutputQueue.isEmpty, hchunks]; rfl
          rw [if_pos hempty]
          exact ⟨(List.nil_append _).symm, fun _ => hchunks, fun h => absurd h (by simp)⟩
      | cons chunk rest =>
          have hempty : ¬ q.isEmpty = true := by
            rw [OutputQueue.isEmpty, hchunks]
            exact Bool.false_ne_true
          rw [if_neg hempty]
          rcases hturn : flushChunk q answers with ⟨status, q₁, left, sent⟩
          obtain ⟨hpending, hdrained, hleft⟩ := flushChunk_spec hchunks hturn
          cases status with
          | Closed => exact ⟨hpending, fun h => absurd h (by simp), fun h => absurd h (by simp)⟩
          | Error => exact ⟨hpending, fun h => absurd h (by simp), fun h => absurd h (by simp)⟩
          | WouldBlock => exact ⟨hpending, fun h => absurd h (by simp), fun _ => hleft (by simp)⟩
          | Ok =>
              have hshort : q₁.chunks.length < fuel := by
                rw [hdrained rfl]
                rw [hchunks, List.length_cons] at hfuel
                omega
              obtain ⟨hrest, hflushed, hmore⟩ := ih hshort left
              refine ⟨?_, hflushed, hmore⟩
              dsimp only
              rw [List.append_assoc, ← hrest]
              exact hpending

theorem Connection.flushOutput_spec (c : Connection) (answers : List SendAnswer) :
    c.writeQueue.pending = (c.flushOutput answers).sent ++ (c.flushOutput answers).queue.pending ∧
      ((c.flushOutput answers).result = .kFlushed → (c.flushOutput answers).queue.chunks = []) ∧
      ((c.flushOutput answers).result = .kPending → (c.flushOutput answers).queue.chunks ≠ []) :=
  flushLoop_spec (Nat.lt_succ_self _) answers

end PassionProjects.Arcserve.Reactor
