/-
  PassionProjects.Arcserve.Net.Socket

  Nonblocking reads and writes (`socket.cpp`).

  The answers of `recv(2)`, `send(2)` and `accept(2)` come from lists: each call
  takes the next one, and where there is none left nothing is ready.
-/

import PassionProjects.Arcserve.Protocol.HttpMessage

namespace PassionProjects.Arcserve.Net

inductive IoStatus where
  | Ok
  | WouldBlock
  | Closed
  | Error
  deriving DecidableEq, Repr

structure IoResult where
  bytesTransferred : Nat
  status : IoStatus
  deriving DecidableEq, Repr

/-- An answer of `send(2)`: `accepted n` takes `n + 1` bytes, or all there are. -/
inductive SendAnswer where
  | accepted (n : Nat)
  | eintr
  | eagain
  | epipe
  | failed
  deriving DecidableEq, Repr

/-- An answer of `recv(2)`. -/
inductive RecvAnswer where
  | data (bytes : Bytes)
  | eof
  | eintr
  | eagain
  | failed
  deriving DecidableEq, Repr

/-- An answer of `accept(2)`. -/
inductive AcceptAnswer where
  | client (fd : Nat)
  | eintr
  | nothing
  | failed
  deriving DecidableEq, Repr

/-- `write_all` of so many bytes, with the answers it leaves. -/
def writeAll : List SendAnswer → Nat → IoResult × List SendAnswer
  | answers, 0 => (⟨0, .Ok⟩, answers)
  | [], _ => (⟨0, .WouldBlock⟩, [])
  | .accepted n :: answers, length =>
    let sent := min (n + 1) length
    let (result, answers) := writeAll answers (length - sent)
    (⟨sent + result.bytesTransferred, result.status⟩, answers)
  | .eintr :: answers, length => writeAll answers length
  | .epipe :: answers, _ => (⟨0, .Closed⟩, answers)
  | .eagain :: answers, _ => (⟨0, .WouldBlock⟩, answers)
  | .failed :: answers, _ => (⟨0, .Error⟩, answers)

/-- `read_some`: the bytes and the status, with the answers it leaves.  A `recv(2)`
    of no bytes is the end of the stream. -/
def readSome : List RecvAnswer → Nat → Bytes × IoStatus × List RecvAnswer
  | [], _ => ([], .WouldBlock, [])
  | .data bytes :: answers, capacity =>
    if bytes.take capacity = [] then ([], .Closed, answers)
    else (bytes.take capacity, .Ok, answers)
  | .eof :: answers, _ => ([], .Closed, answers)
  | .eintr :: answers, capacity => readSome answers capacity
  | .eagain :: answers, _ => ([], .WouldBlock, answers)
  | .failed :: answers, _ => ([], .Error, answers)

theorem writeAll_zero (answers : List SendAnswer) : writeAll answers 0 = (⟨0, .Ok⟩, answers) := by
  rw [writeAll]

/-- `Ok` means that everything was sent, and any other status that something was not. -/
theorem writeAll_spec {answers answers' : List SendAnswer} {length : Nat} {result : IoResult}
    (h : writeAll answers length = (result, answers')) :
    result.bytesTransferred ≤ length ∧
      (result.status = .Ok ↔ result.bytesTransferred = length) := by
  induction answers generalizing length result answers' with
  | nil =>
      cases length with
      | zero =>
          obtain ⟨rfl, -⟩ := Prod.mk.inj ((writeAll_zero _).symm.trans h)
          exact ⟨Nat.le_refl _, by simp⟩
      | succ length =>
          obtain ⟨rfl, -⟩ := Prod.mk.inj h
          exact ⟨Nat.zero_le _, by simp⟩
  | cons answer rest ih =>
      cases length with
      | zero =>
          obtain ⟨rfl, -⟩ := Prod.mk.inj ((writeAll_zero _).symm.trans h)
          exact ⟨Nat.le_refl _, by simp⟩
      | succ length =>
          cases answer with
          | accepted n =>
              rcases hrest : writeAll rest (length + 1 - min (n + 1) (length + 1)) with ⟨r, left⟩
              obtain ⟨hle, hiff⟩ := ih hrest
              rw [writeAll, hrest] at h
              · obtain ⟨rfl, -⟩ := Prod.mk.inj h
                dsimp only
                exact ⟨by omega, hiff.trans (by omega)⟩
              · exact Nat.succ_ne_zero length
          | eintr =>
              rw [writeAll] at h
              · exact ih h
              · exact Nat.succ_ne_zero length
          | epipe | eagain | failed =>
              rw [writeAll] at h
              · obtain ⟨rfl, -⟩ := Prod.mk.inj h
                exact ⟨Nat.zero_le _, by simp⟩
              · exact Nat.succ_ne_zero length

end PassionProjects.Arcserve.Net
