/-
  PassionProjects.Arcserve.Server.Events

  What an epoll event, or a result of the pool, leaves of a connection.

  `Handled` is the one specification of `on_client_event`: the connection is at rest
  or gone, a connection that awaits a result still does, and one that must close
  stays so.  What it does not give back is `Drained`: after a blocked write the
  handler reads on without parsing what is in the buffer already.
-/

import PassionProjects.Arcserve.Server.Driving

namespace PassionProjects.Arcserve.Server.Session

open Net Reactor Buffers Protocol Concurrency

variable {cfg : Config} {x x' y : Session} {request : HttpRequest} {response : HttpResponse}
  {events : EventMask}

/-- A connection whose handlers may be called. -/
structure Live (cfg : Config) (x : Session) : Prop where
  recorded : Recorded cfg x
  resting : Resting cfg x
  registered : x.registered = true
  threw : x.threw = false

theorem Live.settled (h : Live cfg x) : Settled cfg x :=
  ⟨h.recorded, fun _ _ => h.resting, fun _ hgone =>
    absurd (h.registered.symm.trans hgone) (by simp)⟩

/-- What the pool got, of a connection that may await a result. -/
structure Handled (cfg : Config) (x x' : Session) : Prop where
  settled : Settled cfg x'
  frame : Frame x x'
  submitted : x.conn.awaitingWorkerResult = false → Submitted x x'
  awaiting : x.conn.awaitingWorkerResult = true → x'.pool = x.pool ∧
    (x'.threw = false → x'.registered = true →
      x'.conn.awaitingWorkerResult = true ∧ x'.wire.requests = x.wire.requests)
  closing : x.conn.base.state = .kClosing → x'.wire.responses = x.wire.responses ∧
    x'.wire.error = x.wire.error ∧ (x'.registered = true → x'.conn.base.state = .kClosing)

/-- What a handler leaves alone, but for the state. -/
structure Kept (x y : Session) : Prop where
  frame : Frame x y
  pool : y.pool = x.pool
  awaiting : y.conn.awaitingWorkerResult = x.conn.awaitingWorkerResult
  requests : y.wire.requests = x.wire.requests
  responses : y.wire.responses = x.wire.responses
  error : y.wire.error = x.wire.error

theorem Kept.refl (x : Session) : Kept x x := ⟨.refl x, rfl, rfl, rfl, rfl, rfl⟩

theorem Outputs.kept (h : Outputs x y) : Kept x y :=
  ⟨h.frame, h.pool, h.awaiting, h.requests, h.responses, h.error⟩

theorem handled_close (hrec : Recorded cfg y) (hkept : Kept x y) :
    Handled cfg x y.closeConnection where
  settled := hrec.closeConnection
  frame := hkept.frame.trans (outputs_closeConnection y).frame
  submitted _ := Or.inl ⟨hkept.pool, fun _ hr => absurd hr (by simp [closeConnection])⟩
  awaiting _ := ⟨hkept.pool, fun _ hr => absurd hr (by simp [closeConnection])⟩
  closing _ := ⟨hkept.responses, hkept.error, fun hr => absurd hr (by simp [closeConnection])⟩

theorem handled_live (h : Live cfg y) (hkept : Kept x y)
    (hclosing : x.conn.base.state = .kClosing → y.conn.base.state = .kClosing) :
    Handled cfg x y where
  settled := h.settled
  frame := hkept.frame
  submitted hawaiting := Or.inl ⟨hkept.pool, fun _ _ => hkept.awaiting.trans hawaiting⟩
  awaiting hawaiting := ⟨hkept.pool, fun _ _ =>
    ⟨hkept.awaiting.trans hawaiting, hkept.requests⟩⟩
  closing hstate := ⟨hkept.responses, hkept.error, fun _ => hclosing hstate⟩

theorem handled_threw (hrec : Recorded cfg y) (hkept : Kept x y) (hthrew : y.threw = true)
    (hstate : x.conn.base.state ≠ .kClosing) : Handled cfg x y where
  settled := ⟨hrec, fun h => absurd (hthrew.symm.trans h) (by simp),
    fun h => absurd (hthrew.symm.trans h) (by simp)⟩
  frame := hkept.frame
  submitted _ := Or.inl ⟨hkept.pool, fun h => absurd (hthrew.symm.trans h) (by simp)⟩
  awaiting _ := ⟨hkept.pool, fun h => absurd (hthrew.symm.trans h) (by simp)⟩
  closing h := absurd h hstate

theorem Handled.after (hkept : Kept x y)
    (hclosing : x.conn.base.state = .kClosing → y.conn.base.state = .kClosing)
    (h : Handled cfg y x') : Handled cfg x x' where
  settled := h.settled
  frame := hkept.frame.trans h.frame
  submitted hawaiting := by
    have hsubmitted := h.submitted (hkept.awaiting.trans hawaiting)
    rwa [Submitted, hkept.pool, hkept.frame.id] at hsubmitted
  awaiting hawaiting := by
    obtain ⟨hpool, hrest⟩ := h.awaiting (hkept.awaiting.trans hawaiting)
    exact ⟨hpool.trans hkept.pool, fun hthrew hr =>
      ⟨(hrest hthrew hr).1, (hrest hthrew hr).2.trans hkept.requests⟩⟩
  closing hstate := by
    obtain ⟨hresponses, herror, hrest⟩ := h.closing (hclosing hstate)
    exact ⟨hresponses.trans hkept.responses, herror.trans hkept.error, hrest⟩

-- ============================================================================
-- Reading
-- ============================================================================

/-- The session with other bytes to parse. -/
def received (x : Session) (readBuffer : ByteBuffer) (kernel : Kernel) : Session :=
  { x.setReadBuffer readBuffer with kernel }

theorem kept_received (x : Session) (readBuffer : ByteBuffer) (kernel : Kernel) :
    Kept x (x.received readBuffer kernel) := ⟨⟨rfl, rfl, fun h => h⟩, rfl, rfl, rfl, rfl, rfl⟩

theorem Live.received (h : Live cfg x) (readBuffer : ByteBuffer) (kernel : Kernel) :
    Live cfg (x.received readBuffer kernel) where
  recorded := ⟨h.recorded.bytes, h.recorded.inOrder⟩
  resting := ⟨h.resting.callback, h.resting.interest, h.resting.queue, h.resting.awaiting,
    fun hne => ⟨(h.resting.continues hne).error, (h.resting.continues hne).kept,
      (h.resting.continues hne).served, (h.resting.continues hne).below,
      (h.resting.continues hne).parser⟩, h.resting.requests⟩
  registered := h.registered
  threw := h.threw

/-- Reading only fills the buffer, or closes the connection. -/
theorem readLoop_cases (cfg : Config) (fuel : Nat) (x : Session) :
    ∃ readBuffer kernel,
      readLoop cfg fuel x = (true, x.received readBuffer kernel) ∨
        readLoop cfg fuel x = (false, (x.received readBuffer kernel).closeConnection) := by
  induction fuel generalizing x with
  | zero => exact ⟨_, _, Or.inl rfl⟩
  | succ fuel ih =>
      rcases hread : readSome x.kernel.recvs cfg.readChunkBytes with ⟨bytes, status, recvs⟩
      rcases happend : x.conn.base.readBuffer.append bytes with ⟨_ | _, readBuffer⟩
      · refine ⟨x.conn.base.readBuffer, { x.kernel with recvs }, Or.inr ?_⟩
        rw [readLoop, hread]
        dsimp only
        rw [happend]
        rfl
      · obtain ⟨readBuffer', kernel', hrest⟩ :=
          ih (x.received readBuffer { x.kernel with recvs })
        have hturn : readLoop cfg (fuel + 1) x =
            if status = .Closed ∨ status = .Error then
              (false, (x.received readBuffer { x.kernel with recvs }).closeConnection)
            else if status = .WouldBlock ∨ bytes.length < cfg.readChunkBytes then
              (true, x.received readBuffer { x.kernel with recvs })
            else readLoop cfg fuel (x.received readBuffer { x.kernel with recvs }) := by
          rw [readLoop, hread]
          dsimp only
          rw [happend]
          rfl
        rw [hturn]
        split
        · exact ⟨_, _, Or.inr rfl⟩
        · split
          · exact ⟨_, _, Or.inl rfl⟩
          · exact ⟨readBuffer', kernel', hrest⟩

theorem Live.idle (h : Live cfg x) (hstate : x.conn.base.state = .kReading)
    (hawaiting : x.conn.awaitingWorkerResult = false) : Idle x :=
  ⟨h.registered, h.resting.callback, h.resting.interest.trans (by rw [hstate]; rfl), hstate,
    hawaiting, h.threw⟩

theorem Live.queue_nil (h : Live cfg x) (hstate : x.conn.base.state = .kReading) :
    x.conn.base.writeQueue.chunks = [] := by
  rcases h.resting.queue with ⟨-, hqueue⟩ | ⟨hstate', -⟩
  · exact hqueue
  · rcases hstate' with hstate' | hstate' <;> exact absurd (hstate.symm.trans hstate') (by simp)

theorem Live.drivable (h : Live cfg x) (hstate : x.conn.base.state = .kReading)
    (hawaiting : x.conn.awaitingWorkerResult = false) : Drivable cfg x where
  idle := h.idle hstate hawaiting
  recorded := h.recorded
  continues := h.resting.continues (by rw [hstate]; simp)
  requests := by
    have hrequests := h.resting.requests (by rw [hstate]; simp)
    rwa [hawaiting] at hrequests
  queue := h.queue_nil hstate

theorem Driven.handled (h : Driven cfg x x') (hawaiting : x.conn.awaitingWorkerResult = false)
    (hstate : x.conn.base.state ≠ .kClosing) : Handled cfg x x' where
  settled := h.settled
  frame := h.frame
  submitted _ := h.submitted
  awaiting hawaiting' := absurd (hawaiting.symm.trans hawaiting') (by simp)
  closing hclosing := absurd hclosing hstate

/-- `process_readable`: it parses all there is, unless a result is awaited. -/
theorem processReadable_handled (h : Live cfg x) (hstate : x.conn.base.state = .kReading) :
    Handled cfg x (processReadable cfg x) ∧ Drained (processReadable cfg x) := by
  have hopen : x.conn.base.state ≠ .kClosing := by rw [hstate]; simp
  unfold processReadable
  obtain ⟨readBuffer, kernel, heq | heq⟩ :=
    readLoop_cases cfg (x.kernel.recvs.length + 1) x
  · rw [heq]
    dsimp only
    have hlive := h.received readBuffer kernel
    have hkept := kept_received x readBuffer kernel
    split
    · next hawaiting =>
        exact ⟨handled_live hlive hkept fun hclosing => hclosing, fun _ _ _ hfree =>
          absurd (hfree.symm.trans hawaiting) (by simp)⟩
    · have hawaiting := Bool.eq_false_iff.mpr ‹_›
      have hdriven := driveParser_driven (hlive.drivable hstate hawaiting)
      exact ⟨.after hkept (fun hclosing => hclosing) (hdriven.handled hawaiting hopen),
        hdriven.drained⟩
  · rw [heq]
    exact ⟨handled_close (h.received readBuffer kernel).recorded
      (kept_received x readBuffer kernel), fun _ hr => absurd hr (by simp [closeConnection])⟩

-- ============================================================================
-- Writing
-- ============================================================================

/-- A flush of an empty queue is never pending. -/
theorem flushOutput_nil (h : x.conn.base.writeQueue.chunks = []) : x.flushOutput.1 ≠ .kPending := by
  intro hpending
  obtain ⟨hbytes, -, hleft⟩ := x.conn.base.flushOutput_spec x.kernel.sends
  rw [(OutputQueue.pending_eq_nil_iff _).mpr h] at hbytes
  have hnil := (List.append_eq_nil_iff.mp hbytes.symm).2
  exact hleft hpending ((OutputQueue.pending_eq_nil_iff _).mp hnil)

/-- A write that was blocked is over. -/
def resumed (x : Session) : Session := (x.flushOutput.2.setState .kReading).modify kReadable

theorem outputs_resumed (x : Session) : Outputs x x.resumed :=
  (outputs_flushOutput x).trans ((outputs_setState _ _).trans (outputs_modify _ _))

theorem recorded_resumed (h : Recorded cfg x) : Recorded cfg x.resumed := by
  have hflush := h.flushOutput
  refine ⟨?_, ?_⟩ <;> simp only [resumed, modify_conn, modify_wire]
  · exact hflush.bytes
  · exact hflush.inOrder

/-- The connection reads again. -/
theorem live_resumed (h : Live cfg x) (hflushed : x.flushOutput.1 = .kFlushed)
    (hstate : x.conn.base.state ≠ .kClosing) (hthrew : x.resumed.threw = false) :
    Live cfg x.resumed := by
  have hcont := h.resting.continues hstate
  have hqueue := x.flushOutput_queue.1 hflushed
  rcases modify_interest (x.flushOutput.2.setState .kReading) kReadable with
    hthrown | ⟨-, hinterest⟩
  · exact absurd (hthrown.symm.trans hthrew) (by simp)
  · refine ⟨recorded_resumed h.recorded,
      ⟨?_, ?_, Or.inl ?_, ?_, fun _ => ⟨?_, ?_, ?_, ?_, ?_⟩, fun _ => ?_⟩, ?_, hthrew⟩
    all_goals simp only [resumed, modify_conn, modify_wire, modify_callback, modify_registered]
    · exact h.resting.callback
    · exact hinterest
    · exact ⟨rfl, hqueue⟩
    · exact fun _ => rfl
    · exact hcont.error
    · exact hcont.kept
    · exact hcont.served
    · exact hcont.below
    · exact hcont.parser
    · exact h.resting.requests hstate
    · exact h.registered

/-- The connection goes back to reading with bytes it does not parse. -/
def Strands (x : Session) (events : EventMask) : Prop :=
  (events.epollerr || events.epollhup) = false ∧ events.epollout = true ∧ events.epollin = false ∧
    x.conn.base.state = .kWriting ∧ x.conn.base.readBuffer.view ≠ [] ∧
      (x.conn.base.flushOutput x.kernel.sends).result = .kFlushed

instance (x : Session) (events : EventMask) : Decidable (Strands x events) :=
  inferInstanceAs (Decidable (_ ∧ _))

theorem live_pending (h : Live cfg x) (hpending : x.flushOutput.1 = .kPending) :
    Live cfg x.flushOutput.2 where
  recorded := h.recorded.flushOutput
  resting := by
    refine ⟨h.resting.callback, h.resting.interest, Or.inr ⟨?_, x.flushOutput_queue.2 hpending⟩,
      h.resting.awaiting, fun hne => (h.resting.continues hne).flushOutput, h.resting.requests⟩
    rcases h.resting.queue with ⟨-, hqueue⟩ | ⟨hstate, -⟩
    · exact absurd hpending (flushOutput_nil hqueue)
    · exact hstate
  registered := h.registered
  threw := h.threw

-- ============================================================================
-- on_client_event
-- ============================================================================

/-- The `kReadable` branch of `on_client_event`. -/
theorem readable_handled (h : Live cfg x) (events : EventMask) :
    Handled cfg x (if events.epollin ∧ x.conn.base.state = .kReading then processReadable cfg x
      else x) ∧
      (events.epollin = true ∨ Drained x →
        Drained (if events.epollin ∧ x.conn.base.state = .kReading then processReadable cfg x
          else x)) := by
  split
  · next hreads =>
      obtain ⟨hhandled, hdrained⟩ := processReadable_handled h hreads.2
      exact ⟨hhandled, fun _ => hdrained⟩
  · next hreads =>
      refine ⟨handled_live h (.refl x) fun hclosing => hclosing, fun hdrained => ?_⟩
      rcases hdrained with hin | hdrained
      · exact fun _ _ hreading => absurd ⟨hin, hreading⟩ hreads
      · exact hdrained

/-- `on_client_event` once the output queue is empty. -/
def resumedEvent (cfg : Config) (x : Session) (events : EventMask) : Session :=
  if x.resumed.threw then x.resumed
  else if events.epollin ∧ x.resumed.conn.base.state = .kReading then
    processReadable cfg x.resumed
  else x.resumed

theorem resumedEvent_handled (h : Live cfg x) (events : EventMask)
    (hflushed : x.flushOutput.1 = .kFlushed) (hstate : x.conn.base.state ≠ .kClosing) :
    Handled cfg x (resumedEvent cfg x events) ∧
      ((events.epollin = true ∨ x.conn.awaitingWorkerResult = true ∨
        x.conn.base.readBuffer.view = []) → Drained (resumedEvent cfg x events)) := by
  have hkept := (outputs_resumed x).kept
  unfold resumedEvent
  split
  · next hthrew =>
      exact ⟨handled_threw (recorded_resumed h.recorded) hkept hthrew hstate, fun _ hnot =>
        absurd (hthrew.symm.trans hnot) (by simp)⟩
  · have hlive := live_resumed h hflushed hstate (Bool.eq_false_iff.mpr ‹_›)
    obtain ⟨hhandled, hdrained⟩ := readable_handled hlive events
    refine ⟨.after hkept (fun hclosing => absurd hclosing hstate) hhandled,
      fun hcase => hdrained ?_⟩
    rcases hcase with hin | hawaiting | hview
    · exact Or.inl hin
    · exact Or.inr fun _ _ _ hfree =>
        absurd (hfree.symm.trans (hkept.awaiting.trans hawaiting)) (by simp)
    · exact Or.inr fun _ _ _ _ => (congrArg ByteBuffer.view (outputs_resumed x).readBuffer).trans
        hview

/-- `on_client_event` where `EPOLLOUT` is set. -/
theorem onClientEvent_writable (cfg : Config) (x : Session)
    (herror : (events.epollerr || events.epollhup) = false) (hout : events.epollout = true) :
    onClientEvent cfg x events =
      match x.flushOutput.1 with
      | .kFailed => x.flushOutput.2.closeConnection
      | .kFlushed =>
        if x.conn.base.state = .kClosing then x.flushOutput.2.closeConnection
        else resumedEvent cfg x events
      | .kPending =>
        if x.threw then x.flushOutput.2
        else if events.epollin ∧ x.conn.base.state = .kReading then
          processReadable cfg x.flushOutput.2
        else x.flushOutput.2 := by
  have hthrew : x.flushOutput.2.threw = x.threw := rfl
  have hstate : x.flushOutput.2.conn.base.state = x.conn.base.state := rfl
  unfold onClientEvent onWritable resumedEvent resumed
  rw [herror, hout, if_pos rfl, if_neg (by simp)]
  rcases hflush : x.flushOutput with ⟨r, y⟩
  rw [hflush] at hthrew hstate
  cases r with
  | kFailed => rfl
  | kFlushed =>
      dsimp only
      rw [hstate]
      by_cases hclosing : x.conn.base.state = .kClosing
      · simp only [if_pos hclosing]
      · simp only [if_neg hclosing]
  | kPending =>
      dsimp only
      rw [hthrew, hstate]

/-- Where nothing is stranded, there is nothing to parse when a write is over. -/
theorem parsed_of_not_strands (h : Live cfg x) (hdrained : Drained x)
    (hstrands : ¬ Strands x events)
    (herror : (events.epollerr || events.epollhup) = false) (hout : events.epollout = true)
    (hflushed : x.flushOutput.1 = .kFlushed) (hopen : x.conn.base.state ≠ .kClosing) :
    events.epollin = true ∨ x.conn.awaitingWorkerResult = true ∨
      x.conn.base.readBuffer.view = [] := by
  by_contra hnone
  obtain ⟨hin, hrest⟩ := not_or.mp hnone
  obtain ⟨hfree, hview⟩ := not_or.mp hrest
  refine hstrands ⟨herror, hout, Bool.eq_false_iff.mpr hin, ?_, hview, hflushed⟩
  rcases h.resting.queue with ⟨hreading, -⟩ | ⟨hwriting | hclosing, -⟩
  · exact absurd (hdrained h.threw h.registered hreading (Bool.eq_false_iff.mpr hfree)) hview
  · exact hwriting
  · exact absurd hclosing hopen

/-- An event on a live connection, with the one case that leaves bytes unparsed. -/
theorem onClientEvent_handled (h : Live cfg x) (events : EventMask) :
    Handled cfg x (onClientEvent cfg x events) ∧
      (Drained x → ¬ Strands x events → Drained (onClientEvent cfg x events)) := by
  have hgone : ∀ {z : Session}, Drained z.closeConnection :=
    fun _ hr => absurd hr (by simp [closeConnection])
  cases herror : events.epollerr || events.epollhup with
  | true =>
      have hclose : onClientEvent cfg x events = x.closeConnection := by
        unfold onClientEvent
        rw [herror, if_pos rfl]
      rw [hclose]
      exact ⟨handled_close h.recorded (.refl x), fun _ _ => hgone⟩
  | false =>
      cases hout : events.epollout with
      | false =>
          have hread : onClientEvent cfg x events =
              if events.epollin ∧ x.conn.base.state = .kReading then processReadable cfg x
              else x := by
            unfold onClientEvent
            rw [herror, hout, if_neg (by simp), if_neg (by simp)]
            dsimp only
            rw [h.threw, if_neg (by simp)]
          rw [hread]
          obtain ⟨hhandled, hdrained⟩ := readable_handled h events
          exact ⟨hhandled, fun hd _ => hdrained (Or.inr hd)⟩
      | true =>
          rw [onClientEvent_writable cfg x herror hout]
          cases hflush : x.flushOutput.1 with
          | kFailed =>
              exact ⟨handled_close h.recorded.flushOutput (outputs_flushOutput x).kept,
                fun _ _ => hgone⟩
          | kFlushed =>
              dsimp only
              split
              · exact ⟨handled_close h.recorded.flushOutput (outputs_flushOutput x).kept,
                  fun _ _ => hgone⟩
              · next hopen =>
                  obtain ⟨hhandled, hdrained⟩ := resumedEvent_handled h events hflush hopen
                  exact ⟨hhandled, fun hd hstrands =>
                    hdrained (parsed_of_not_strands h hd hstrands herror hout hflush hopen)⟩
          | kPending =>
              have hlive := live_pending h hflush
              have hkept := (outputs_flushOutput x).kept
              obtain ⟨hhandled, hdrained⟩ := readable_handled hlive events
              dsimp only
              rw [h.threw, if_neg (by simp)]
              exact ⟨.after hkept (fun hclosing => hclosing) hhandled, fun hd _ =>
                hdrained (Or.inr hd)⟩

/-- What is stranded is not parsed: the connection reads on, with it in the buffer. -/
theorem strands_not_drained (h : Live cfg x) (hstrands : Strands x events) :
    (onClientEvent cfg x events).threw = true ∨ ¬ Drained (onClientEvent cfg x events) := by
  obtain ⟨herror, hout, hin, hwriting, hview, hflushed⟩ := hstrands
  have hopen : x.conn.base.state ≠ .kClosing := by rw [hwriting]; simp
  have hfree : x.conn.awaitingWorkerResult = false := Bool.eq_false_iff.mpr fun hawaiting =>
    absurd (hwriting.symm.trans (h.resting.awaiting hawaiting)) (by simp)
  have hresumed : onClientEvent cfg x events = x.resumed := by
    rw [onClientEvent_writable cfg x herror hout, show x.flushOutput.1 = .kFlushed from hflushed]
    dsimp only
    rw [if_neg hopen, resumedEvent,
      if_neg (c := events.epollin = true ∧ _) (by simp [hin]), ite_self]
  rw [hresumed]
  cases hthrew : x.resumed.threw with
  | true => exact Or.inl rfl
  | false =>
      have hlive := live_resumed h hflushed hopen hthrew
      have houtputs := outputs_resumed x
      refine Or.inr fun hdrained => hview ?_
      have hreading : x.resumed.conn.base.state = .kReading := by
        rw [resumed, modify_conn]
        rfl
      rw [← houtputs.readBuffer]
      exact hdrained hthrew hlive.registered hreading (houtputs.awaiting.trans hfree)

-- ============================================================================
-- on_worker_result
-- ============================================================================

/-- The result a live connection waits for. -/
theorem onWorkerResult_driven (h : Live cfg x) (hawaiting : x.conn.awaitingWorkerResult = true)
    (hlast : x.wire.requests.getLast? = some request)
    (hanswer : ∃ n, cfg.handler n request = some response) :
    Driven cfg x (onWorkerResult cfg x response request.keepAlive) := by
  have hstate := h.resting.awaiting hawaiting
  have hopen : x.conn.base.state ≠ .kClosing := by rw [hstate]; simp
  have hlen := h.resting.requests hopen
  rw [if_pos hawaiting] at hlen
  have hrequest : x.wire.requests[x.wire.responses.length]? = some request := by
    rwa [List.getLast?_eq_getElem?, hlen, Nat.add_sub_cancel] at hlast
  obtain ⟨n, hanswer⟩ := hanswer
  exact onWorkerResultWith_driven
    ⟨h.registered, h.resting.callback, h.resting.interest.trans (by rw [hstate]; rfl), hstate, rfl,
      h.threw⟩
    h.recorded (h.resting.continues hopen) hlen hrequest (Or.inl ⟨n, response, hanswer, rfl⟩)
    fun _ y hy => driveParser_driven hy

end PassionProjects.Arcserve.Server.Session
