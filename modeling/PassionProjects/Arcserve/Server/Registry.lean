/-
  PassionProjects.Arcserve.Server.Registry

  `connections_`, the callbacks and the epoll set, over all connections.

  A handler sees one connection; `session` and `update` take it out of the server
  and put it back.  `Coherent` says of all of them at once what `Settled` says of one,
  and which descriptors are whose.
-/

import PassionProjects.Arcserve.Server.Events
import PassionProjects.Arcserve.Server.System

namespace PassionProjects.Arcserve.Server

open Net Reactor Buffers Protocol Concurrency

namespace Session

variable {cfg : Config} {x x' : Session}

theorem Recorded.congr (h : Recorded cfg x) (hconn : x'.conn = x.conn) (hwire : x'.wire = x.wire) :
    Recorded cfg x' where
  bytes := by rw [hconn, hwire]; exact h.bytes
  inOrder := by rw [hwire]; exact h.inOrder

theorem Resting.congr (h : Resting cfg x) (hconn : x'.conn = x.conn) (hwire : x'.wire = x.wire)
    (hcallback : x'.callback = x.callback) (hinterest : x'.interest = x.interest) :
    Resting cfg x' := by
  refine ⟨hcallback.trans h.callback, ?_, ?_, ?_, ?_, ?_⟩
  · rw [hinterest, hconn]
    exact h.interest
  · rw [hconn]
    exact h.queue
  · rw [hconn]
    exact h.awaiting
  · rw [hconn]
    intro hne
    have hcont := h.continues hne
    refine ⟨?_, ?_, ?_, ?_, ?_⟩ <;> simp only [hconn, hwire]
    · exact hcont.error
    · exact hcont.kept
    · exact hcont.served
    · exact hcont.below
    · exact hcont.parser
  · rw [hconn, hwire]
    exact h.requests

end Session

namespace NonblockingHttpServer

variable {cfg : Config} {d : Descriptors} {s : NonblockingHttpServer} {x : Session} {id : ConnId}
  {fd : Fd}

structure Coherent (cfg : Config) (d : Descriptors) (s : NonblockingHttpServer) : Prop where
  recorded : ∀ id, (s.session id).Recorded cfg
  resting : s.threw = false → ∀ id, s.isAlive id = true → (s.session id).Resting cfg
  owner : ∀ fd id, s.connections fd = some id → id < s.nextId ∧ (s.heap id).base.fd = fd
  clients : ∀ fd ∈ d.all, s.connections fd = none
  unused : s.threw = false → ∀ fd, fd ∉ d.all → s.connections fd = none →
    s.callbacks fd = none ∧ s.interest fd = none
  fixed : ∀ fd ∈ d.all, s.callbacks fd = (initialServer cfg d).callbacks fd ∧
    s.interest fd = (initialServer cfg d).interest fd

theorem isAlive_iff : s.isAlive id = true ↔ s.connections (s.heap id).base.fd = some id :=
  beq_iff_eq

theorem Coherent.isAlive (h : Coherent cfg d s) (hfd : s.connections fd = some id) :
    s.isAlive id = true := by
  rw [isAlive_iff, (h.owner fd id hfd).2]
  exact hfd

/-- The descriptor of a connection belongs to no one else. -/
theorem Coherent.notMem (h : Coherent cfg d s) (hfd : s.connections fd = some id) :
    fd ∉ d.all :=
  fun hmem => absurd ((h.clients fd hmem).symm.trans hfd) (by simp)

theorem Coherent.live (h : Coherent cfg d s) (hthrew : s.threw = false)
    (halive : s.isAlive id = true) : (s.session id).Live cfg :=
  ⟨h.recorded id, h.resting hthrew id halive, halive, hthrew⟩

/-- What the threads share is no part of the registry. -/
theorem Coherent.shared (h : Coherent cfg d s) (kernel : Kernel) (pool : BoundedWorkQueue Task)
    (handlerCalls : Nat) : Coherent cfg d { s with kernel, pool, handlerCalls } where
  recorded id := (h.recorded id).congr rfl rfl
  resting hthrew id halive := (h.resting hthrew id halive).congr rfl rfl rfl rfl
  owner := h.owner
  clients := h.clients
  unused := h.unused
  fixed := h.fixed

-- ============================================================================
-- One connection
-- ============================================================================

/-- Out of the server and back. -/
theorem session_update (s : NonblockingHttpServer) (x : Session) :
    (s.update x).session x.id = x := by
  rcases x with ⟨id, conn, wire, registered, callback, interest, kernel, pool, calls, threw⟩
  unfold update session
  simp only [Function.update_self]
  cases registered <;> cases callback <;> simp

theorem heap_update_self (s : NonblockingHttpServer) (x : Session) :
    (s.update x).heap x.id = x.conn := Function.update_self _ _ _

theorem wires_update_self (s : NonblockingHttpServer) (x : Session) :
    (s.update x).wires x.id = x.wire := Function.update_self _ _ _

theorem isAlive_update_self (s : NonblockingHttpServer) (x : Session) :
    (s.update x).isAlive x.id = x.registered := by
  rw [isAlive, session_update]

theorem connections_update (s : NonblockingHttpServer) (x : Session) :
    (s.update x).connections x.conn.base.fd = if x.registered then some x.id else none :=
  Function.update_self _ _ _

theorem entries_update_other (s : NonblockingHttpServer) (hfd : fd ≠ x.conn.base.fd) :
    (s.update x).connections fd = s.connections fd ∧ (s.update x).callbacks fd = s.callbacks fd ∧
      (s.update x).interest fd = s.interest fd :=
  ⟨Function.update_of_ne hfd _ _, Function.update_of_ne hfd _ _, Function.update_of_ne hfd _ _⟩

section Others

variable (hid : id ≠ x.id)

include hid

theorem heap_update : (s.update x).heap id = s.heap id := Function.update_of_ne hid _ _

theorem wires_update : (s.update x).wires id = s.wires id := Function.update_of_ne hid _ _

/-- A connection with another descriptor is as it was. -/
theorem session_update_other (hfd : (s.heap id).base.fd ≠ x.conn.base.fd) :
    (s.update x).session id = { s.session id with
      kernel := x.kernel, pool := x.pool, handlerCalls := x.handlerCalls, threw := x.threw } := by
  unfold session
  rw [heap_update hid, wires_update hid]
  simp only [update, Function.update_of_ne hfd]

end Others

/-- No other connection is closed or opened. -/
theorem isAlive_update (halive : s.isAlive x.id = true)
    (hfd : x.conn.base.fd = (s.heap x.id).base.fd) (hid : id ≠ x.id) :
    (s.update x).isAlive id = s.isAlive id := by
  have howner := isAlive_iff.mp halive
  by_cases heq : (s.heap id).base.fd = x.conn.base.fd
  · have hdead : ∀ o, (o = some x.id ∨ o = none) → (o == some id) = false := by
      rintro o (rfl | rfl)
      · exact beq_eq_false_iff_ne.mpr fun h => hid (Option.some.inj h).symm
      · rfl
    unfold isAlive session
    rw [heap_update hid]
    dsimp only
    rw [heq, hdead (s.connections x.conn.base.fd) (Or.inl (by rw [hfd]; exact howner))]
    refine hdead _ ?_
    rw [connections_update]
    cases x.registered
    · exact Or.inr rfl
    · exact Or.inl rfl
  · unfold isAlive
    rw [session_update_other hid heq]

theorem isAlive_of_update (halive : s.isAlive x.id = true)
    (hfd : x.conn.base.fd = (s.heap x.id).base.fd) (hid : (s.update x).isAlive id = true) :
    s.isAlive id = true := by
  by_cases heq : id = x.id
  · rw [heq]
    exact halive
  · rwa [isAlive_update halive hfd heq] at hid

/-- A handler registers no one. -/
theorem connections_of_update (halive : s.isAlive x.id = true)
    (hfd : x.conn.base.fd = (s.heap x.id).base.fd)
    (hconnections : (s.update x).connections fd = some id) : s.connections fd = some id := by
  by_cases heq : fd = x.conn.base.fd
  · rw [heq, connections_update] at hconnections
    cases hr : x.registered with
    | false => exact absurd hconnections (by simp [hr])
    | true =>
        rw [hr, if_pos rfl] at hconnections
        rw [heq, hfd, ← hconnections]
        exact isAlive_iff.mp halive
  · rwa [(entries_update_other s heq).1] at hconnections

/-- A handler of one connection keeps the registry. -/
theorem Coherent.update (h : Coherent cfg d s) (halive : s.isAlive x.id = true)
    (hframe : Session.Frame (s.session x.id) x) (hsettled : x.Settled cfg)
    (hbefore : s.threw = false) : Coherent cfg d (s.update x) where
  recorded id := by
    by_cases hid : id = x.id
    · rw [hid, session_update]
      exact hsettled.recorded
    · exact (h.recorded id).congr (heap_update hid) (wires_update hid)
  resting hthrew id hid := by
    by_cases heq : id = x.id
    · subst heq
      rw [isAlive_update_self] at hid
      rw [session_update]
      exact hsettled.resting hthrew hid
    · have hother := hid
      rw [isAlive_update halive hframe.fd heq] at hother
      have hfd : (s.heap id).base.fd ≠ x.conn.base.fd := by
        intro hsame
        have howner := (isAlive_iff.mp hother).symm
        rw [hsame, hframe.fd, show (s.session x.id).conn.base.fd = (s.heap x.id).base.fd from rfl,
          isAlive_iff.mp halive] at howner
        exact heq (Option.some.inj howner)
      rw [session_update_other heq hfd]
      exact (h.resting hbefore id hother).congr rfl rfl rfl rfl
  owner fd id hconnections := by
    obtain ⟨hlt, hfd⟩ := h.owner fd id (connections_of_update halive hframe.fd hconnections)
    refine ⟨hlt, ?_⟩
    by_cases hid : id = x.id
    · rw [hid, heap_update_self, hframe.fd, ← hfd, hid]
      rfl
    · rw [heap_update hid]
      exact hfd
  clients fd hmem := by
    cases hconnections : (s.update x).connections fd with
    | none => rfl
    | some id =>
        exact absurd (connections_of_update halive hframe.fd hconnections)
          (by rw [h.clients fd hmem]; simp)
  unused hthrew fd hmem hnone := by
    by_cases heq : fd = x.conn.base.fd
    · have hr : x.registered = false := by
        rw [heq, connections_update] at hnone
        cases hr : x.registered
        · rfl
        · exact absurd hnone (by simp [hr])
      obtain ⟨hcallback, hinterest⟩ := hsettled.gone hthrew hr
      rw [heq]
      refine ⟨?_, ?_⟩
      · show Function.update _ _ _ _ = _
        rw [Function.update_self, hcallback]
        rfl
      · show Function.update _ _ _ _ = _
        rw [Function.update_self, hinterest]
    · obtain ⟨hconnections, hcallback, hinterest⟩ := entries_update_other s heq
      rw [hcallback, hinterest]
      exact h.unused hbefore fd hmem (hconnections.symm.trans hnone)
  fixed fd hmem := by
    have heq : fd ≠ x.conn.base.fd := by
      intro heq
      have howner := isAlive_iff.mp halive
      rw [hframe.fd] at heq
      exact h.notMem howner (heq ▸ hmem)
    obtain ⟨-, hcallback, hinterest⟩ := entries_update_other s heq
    rw [hcallback, hinterest]
    exact h.fixed fd hmem

theorem onClientEvent_eq (hfd : s.connections fd = some id) (events : EventMask) :
    s.onClientEvent cfg fd events = s.update (Session.onClientEvent cfg (s.session id) events) := by
  rw [onClientEvent, hfd]

theorem onClientEvent_none (hfd : s.connections fd = none) (events : EventMask) :
    s.onClientEvent cfg fd events = s := by
  rw [onClientEvent, hfd]

/-- The callback of a connection that is there. -/
theorem Coherent.callback (h : Coherent cfg d s) (hthrew : s.threw = false)
    (hfd : s.connections fd = some id) : s.callbacks fd = some .client := by
  have hrest := (h.resting hthrew id (h.isAlive hfd)).callback
  change (s.callbacks (s.heap id).base.fd == some .client) = true at hrest
  rw [(h.owner fd id hfd).2] at hrest
  exact beq_iff_eq.mp hrest

-- ============================================================================
-- The listener
-- ============================================================================

/-- A connection nothing has happened on. -/
theorem recorded_fresh {x : Session} (hconn : x.conn = freshConnection cfg fd)
    (hwire : x.wire = {}) :
    x.Recorded cfg where
  bytes := by rw [hconn, hwire]; rfl
  inOrder := by rw [hwire]; exact Wire.inOrder_empty cfg

theorem resting_fresh {x : Session} (hconn : x.conn = freshConnection cfg fd) (hwire : x.wire = {})
    (hcallback : x.callback = true) (hinterest : x.interest = some kReadable) : x.Resting cfg := by
  refine ⟨hcallback, ?_, ?_, ?_, fun _ => ⟨?_, ?_, ?_, ?_, ?_⟩, fun _ => ?_⟩ <;>
    simp only [hconn, hwire]
  · exact hinterest
  · exact Or.inl ⟨rfl, rfl⟩
  · exact fun _ => rfl
  · exact fun r hr => absurd hr (by simp)
  · rfl
  · exact Or.inr trivial
  · exact HttpRequestParser.unfinished_fresh
  · rfl

theorem addClient_cases (s : NonblockingHttpServer) (fd : Fd) :
    ∃ kernel, s.addClient fd = { s with kernel, threw := true } ∨
      s.addClient fd = { s with
        kernel := kernel
        callbacks := Function.update s.callbacks fd (some .client)
        interest := Function.update s.interest fd (some kReadable) } := by
  refine ⟨{ s.kernel with ctlFails := s.kernel.ctlFails.tail }, ?_⟩
  unfold addClient
  dsimp only
  split
  · exact Or.inl rfl
  · exact Or.inr rfl

theorem isOpen_eq_false (h : s.isOpen d fd = false) : fd ∉ d.all ∧ s.connections fd = none := by
  obtain ⟨hall, hconnections⟩ := Bool.or_eq_false_iff.mp h
  exact ⟨by simpa using hall, by simpa using hconnections⟩

theorem owner_emplace {fd' : Fd} (h : Coherent cfg d s)
    (hconnections : (s.emplace cfg fd).connections fd' = some id) :
    id < s.nextId + 1 ∧ ((s.emplace cfg fd).heap id).base.fd = fd' := by
  change Function.update s.connections fd (some s.nextId) fd' = some id at hconnections
  show _ ∧ (Function.update s.heap s.nextId (freshConnection cfg fd) id).base.fd = fd'
  by_cases heq : fd' = fd
  · rw [heq, Function.update_self] at hconnections
    obtain rfl := Option.some.inj hconnections
    rw [Function.update_self, heq]
    exact ⟨Nat.lt_succ_self _, rfl⟩
  · rw [Function.update_of_ne heq] at hconnections
    obtain ⟨hlt, hfd⟩ := h.owner fd' id hconnections
    rw [Function.update_of_ne (Nat.ne_of_lt hlt)]
    exact ⟨Nat.lt_succ_of_lt hlt, hfd⟩

theorem recorded_emplace (h : Coherent cfg d s) (fd : Fd) (id : ConnId) :
    ((s.emplace cfg fd).session id).Recorded cfg := by
  by_cases hid : id = s.nextId
  · rw [hid]
    exact recorded_fresh (Function.update_self _ _ _) (Function.update_self _ _ _)
  · exact (h.recorded id).congr (Function.update_of_ne hid _ _) (Function.update_of_ne hid _ _)

section Emplace

variable (hclosed : s.isOpen d fd = false)

include hclosed

theorem clients_emplace {fd' : Fd} (h : Coherent cfg d s) (hmem : fd' ∈ d.all) :
    (s.emplace cfg fd).connections fd' = none := by
  have hne : fd' ≠ fd := fun heq => (isOpen_eq_false hclosed).1 (heq ▸ hmem)
  show Function.update s.connections fd _ fd' = none
  rw [Function.update_of_ne hne]
  exact h.clients fd' hmem

theorem coherent_threw (h : Coherent cfg d s) (kernel : Kernel) :
    Coherent cfg d { s.emplace cfg fd with kernel, threw := true } where
  recorded id := (recorded_emplace h fd id).congr rfl rfl
  resting hthrew := absurd hthrew (by simp)
  owner _ _ hconnections := owner_emplace h hconnections
  clients _ hmem := clients_emplace hclosed h hmem
  unused hthrew := absurd hthrew (by simp)
  fixed := h.fixed

/-- The new connection is the only one with its number. -/
theorem isAlive_emplace (id : ConnId) (hid : id ≠ s.nextId) :
    (s.emplace cfg fd).isAlive id = s.isAlive id ∧
      ((s.emplace cfg fd).isAlive id = true → (s.heap id).base.fd ≠ fd) := by
  have hheap : (s.emplace cfg fd).heap id = s.heap id := Function.update_of_ne hid _ _
  have hconnections : ∀ fd', (s.emplace cfg fd).connections fd' =
      Function.update s.connections fd (some s.nextId) fd' := fun _ => rfl
  unfold isAlive session
  rw [hheap]
  dsimp only
  rw [hconnections]
  by_cases heq : (s.heap id).base.fd = fd
  · rw [heq, Function.update_self, (isOpen_eq_false hclosed).2]
    have hdead : (some s.nextId == some id) = false :=
      beq_eq_false_iff_ne.mpr fun hsame => hid (Option.some.inj hsame).symm
    rw [hdead]
    exact ⟨rfl, fun hr => absurd hr (by simp)⟩
  · rw [Function.update_of_ne heq]
    exact ⟨rfl, fun _ => heq⟩

theorem coherent_added (h : Coherent cfg d s) (hthrew : s.threw = false) (kernel : Kernel) :
    Coherent cfg d { s.emplace cfg fd with
      kernel := kernel
      callbacks := Function.update s.callbacks fd (some .client)
      interest := Function.update s.interest fd (some kReadable) } where
  recorded id := (recorded_emplace h fd id).congr rfl rfl
  resting _ id hid := by
    by_cases heq : id = s.nextId
    · have hheap : (s.emplace cfg fd).heap id = freshConnection cfg fd := by
        rw [heq]
        exact Function.update_self _ _ _
      refine resting_fresh hheap ?_ ?_ ?_
      · rw [heq]
        exact Function.update_self _ _ _
      · show (Function.update s.callbacks fd _ ((s.emplace cfg fd).heap id).base.fd == _) = true
        rw [hheap]
        show (Function.update s.callbacks fd _ fd == _) = true
        rw [Function.update_self]
        rfl
      · show Function.update s.interest fd _ ((s.emplace cfg fd).heap id).base.fd = _
        rw [hheap]
        exact Function.update_self _ _ _
    · have hother : (s.emplace cfg fd).isAlive id = true := hid
      obtain ⟨hsame, hfd⟩ := isAlive_emplace hclosed id heq
      have hheap : (s.emplace cfg fd).heap id = s.heap id := Function.update_of_ne heq _ _
      refine (h.resting hthrew id (hsame ▸ hother)).congr hheap
        (Function.update_of_ne heq _ _) ?_ ?_
      · show (Function.update s.callbacks fd _ ((s.emplace cfg fd).heap id).base.fd == _) = _
        rw [hheap, Function.update_of_ne (hfd hother)]
        rfl
      · show Function.update s.interest fd _ ((s.emplace cfg fd).heap id).base.fd = _
        rw [hheap, Function.update_of_ne (hfd hother)]
        rfl
  owner _ _ hconnections := owner_emplace h hconnections
  clients _ hmem := clients_emplace hclosed h hmem
  unused _ fd' hmem hnone := by
    have hne : fd' ≠ fd := by
      rintro rfl
      change Function.update s.connections fd' (some s.nextId) fd' = none at hnone
      rw [Function.update_self] at hnone
      exact absurd hnone (by simp)
    change Function.update s.connections fd (some s.nextId) fd' = none at hnone
    rw [Function.update_of_ne hne] at hnone
    show Function.update _ _ _ fd' = _ ∧ Function.update _ _ _ fd' = _
    rw [Function.update_of_ne hne, Function.update_of_ne hne]
    exact h.unused hthrew fd' hmem hnone
  fixed fd' hmem := by
    have hne : fd' ≠ fd := fun heq => (isOpen_eq_false hclosed).1 (heq ▸ hmem)
    show Function.update _ _ _ fd' = _ ∧ Function.update _ _ _ fd' = _
    rw [Function.update_of_ne hne, Function.update_of_ne hne]
    exact h.fixed fd' hmem

theorem coherent_accept (h : Coherent cfg d s) (hthrew : s.threw = false) :
    Coherent cfg d ((s.emplace cfg fd).addClient fd) := by
  obtain ⟨kernel, heq | heq⟩ := addClient_cases (s.emplace cfg fd) fd
  · rw [heq]
    exact coherent_threw hclosed h kernel
  · rw [heq]
    exact coherent_added hclosed h hthrew kernel

end Emplace

/-- What the listener leaves: the connections that were there as they were, and new
    ones. -/
structure Accepts (cfg : Config) (s s' : NonblockingHttpServer) : Prop where
  nextId : s.nextId ≤ s'.nextId
  pool : s'.pool = s.pool
  handlerCalls : s'.handlerCalls = s.handlerCalls
  old : ∀ id < s.nextId, s'.heap id = s.heap id ∧ s'.wires id = s.wires id ∧
    s'.isAlive id = s.isAlive id
  new : ∀ id, s.nextId ≤ id → s'.isAlive id = true →
    (∃ fd, s'.heap id = freshConnection cfg fd) ∧ s'.wires id = {}

theorem Coherent.lt_of_isAlive (h : Coherent cfg d s) (halive : s.isAlive id = true) :
    id < s.nextId :=
  (h.owner _ id (isAlive_iff.mp halive)).1

theorem Coherent.accepts (h : Coherent cfg d s) : Accepts cfg s s :=
  ⟨Nat.le_refl _, rfl, rfl, fun _ _ => ⟨rfl, rfl, rfl⟩, fun _ hle halive =>
    absurd (h.lt_of_isAlive halive) (Nat.not_lt_of_le hle)⟩

theorem Accepts.trans {s₁ s₂ : NonblockingHttpServer} (h : Accepts cfg s s₁)
    (h' : Accepts cfg s₁ s₂) : Accepts cfg s s₂ where
  nextId := Nat.le_trans h.nextId h'.nextId
  pool := h'.pool.trans h.pool
  handlerCalls := h'.handlerCalls.trans h.handlerCalls
  old id hlt := by
    obtain ⟨hheap, hwire, halive⟩ := h.old id hlt
    obtain ⟨hheap', hwire', halive'⟩ := h'.old id (Nat.lt_of_lt_of_le hlt h.nextId)
    exact ⟨hheap'.trans hheap, hwire'.trans hwire, halive'.trans halive⟩
  new id hle halive := by
    by_cases hlt : id < s₁.nextId
    · obtain ⟨hheap, hwire, hsame⟩ := h'.old id hlt
      obtain ⟨⟨fd, hfresh⟩, hempty⟩ := h.new id hle (hsame.symm.trans halive)
      exact ⟨⟨fd, hheap.trans hfresh⟩, hwire.trans hempty⟩
    · exact h'.new id (Nat.le_of_not_lt hlt) halive

theorem accepts_accept (h : Coherent cfg d s) (hclosed : s.isOpen d fd = false) :
    Accepts cfg s ((s.emplace cfg fd).addClient fd) := by
  have hold : ∀ id, id ≠ s.nextId → (s.emplace cfg fd).heap id = s.heap id ∧
      (s.emplace cfg fd).wires id = s.wires id ∧ (s.emplace cfg fd).isAlive id = s.isAlive id :=
    fun id hne => ⟨Function.update_of_ne hne _ _, Function.update_of_ne hne _ _,
      (isAlive_emplace hclosed id hne).1⟩
  have hemplaced : Accepts cfg s (s.emplace cfg fd) := by
    refine ⟨Nat.le_succ _, rfl, rfl, fun id hlt => hold id (Nat.ne_of_lt hlt),
      fun id hle halive => ?_⟩
    by_cases heq : id = s.nextId
    · rw [heq]
      exact ⟨⟨fd, Function.update_self _ _ _⟩, Function.update_self _ _ _⟩
    · exact absurd (h.lt_of_isAlive ((hold id heq).2.2.symm.trans halive)) (Nat.not_lt_of_le hle)
  obtain ⟨kernel, heq | heq⟩ := addClient_cases (s.emplace cfg fd) fd
  · rw [heq]
    exact ⟨hemplaced.nextId, hemplaced.pool, hemplaced.handlerCalls, hemplaced.old, hemplaced.new⟩
  · rw [heq]
    exact ⟨hemplaced.nextId, hemplaced.pool, hemplaced.handlerCalls, hemplaced.old, hemplaced.new⟩

/-- The descriptors that `accept(2)` returns before it has nothing more. -/
def acceptedFds : List AcceptAnswer → List Fd
  | .eintr :: rest => acceptedFds rest
  | .client fd :: rest => fd :: acceptedFds rest
  | _ => []

theorem connections_accept {fd' : Fd}
    (hconnections : ((s.emplace cfg fd).addClient fd).connections fd' = some id) :
    s.connections fd' = some id ∨ fd' = fd := by
  have hsame : ((s.emplace cfg fd).addClient fd).connections = (s.emplace cfg fd).connections := by
    obtain ⟨kernel, heq | heq⟩ := addClient_cases (s.emplace cfg fd) fd <;> rw [heq]
  by_cases hne : fd' = fd
  · exact Or.inr hne
  · rw [hsame] at hconnections
    change Function.update s.connections fd _ fd' = _ at hconnections
    rw [Function.update_of_ne hne] at hconnections
    exact Or.inl hconnections

/-- `on_listener_readable`: by induction on the answers of `accept(2)`. -/
theorem acceptLoop_spec (h : Coherent cfg d s) (hthrew : s.threw = false)
    (answers : List AcceptAnswer) :
    Coherent cfg d (acceptLoop cfg d answers s) ∧ Accepts cfg s (acceptLoop cfg d answers s) ∧
      ∀ fd id, (acceptLoop cfg d answers s).connections fd = some id →
        s.connections fd = some id ∨ fd ∈ acceptedFds answers := by
  induction answers generalizing s with
  | nil => exact ⟨h, h.accepts, fun _ _ hfd => Or.inl hfd⟩
  | cons answer rest ih =>
      cases answer with
      | eintr => exact ih h hthrew
      | nothing => exact ⟨h, h.accepts, fun _ _ hfd => Or.inl hfd⟩
      | failed =>
          refine ⟨⟨fun id => (h.recorded id).congr rfl rfl, fun hn =>
            absurd hn (by simp [acceptLoop]),
            h.owner, h.clients, fun hn => absurd hn (by simp [acceptLoop]), h.fixed⟩, ?_,
            fun _ _ hfd => Or.inl hfd⟩
          have haccepts := h.accepts
          exact ⟨haccepts.nextId, rfl, rfl, haccepts.old, haccepts.new⟩
      | client fd =>
          unfold acceptLoop
          cases hclosed : s.isOpen d fd with
          | true => exact ⟨h, h.accepts, fun _ _ hfd => Or.inl hfd⟩
          | false =>
              rw [if_neg (by simp)]
              have hcoherent := coherent_accept hclosed h hthrew
              have haccepts := accepts_accept h hclosed
              have hconnections : ∀ fd' id,
                  ((s.emplace cfg fd).addClient fd).connections fd' = some id →
                    s.connections fd' = some id ∨ fd' ∈ acceptedFds (.client fd :: rest) := by
                intro fd' id hfd
                rcases connections_accept hfd with hfd | rfl
                · exact Or.inl hfd
                · exact Or.inr List.mem_cons_self
              dsimp only
              split
              · exact ⟨hcoherent, haccepts, hconnections⟩
              · obtain ⟨hcoherent', haccepts', hconnections'⟩ :=
                  ih hcoherent (Bool.eq_false_iff.mpr ‹_›)
                refine ⟨hcoherent', haccepts.trans haccepts', fun fd' id hfd => ?_⟩
                rcases hconnections' fd' id hfd with hfd | hmem
                · exact hconnections fd' id hfd
                · exact Or.inr (List.mem_cons_of_mem _ hmem)

end NonblockingHttpServer

end PassionProjects.Arcserve.Server
