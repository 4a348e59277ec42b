/-
  PassionProjects.Arcserve.Protocol.HttpParser

  The byte-incremental request parser (`http_parser.cpp`).

  `data` is what `feed` was given and has not consumed yet; a step returns what
  it leaves.  `parse_headers` and `feed` loop until they need more bytes: their
  recursions count down a number that no loop reaches.
-/

import Mathlib.Algebra.Order.Ring.Nat
import PassionProjects.Arcserve.Protocol.HttpMessage
import PassionProjects.Lib.Terminator

namespace PassionProjects.Arcserve.Protocol

/-- Outcome of one call of `feed`. -/
inductive ParseStatus where
  | kNeedMoreData
  | kComplete
  | kError
  deriving DecidableEq, Repr

inductive State where
  | kRequestLine
  | kHeaders
  | kBody
  | kDone
  deriving DecidableEq, Repr

inductive StepResult where
  | kNeedMoreData
  | kAdvanced
  | kFailed
  deriving DecidableEq, Repr

structure HttpRequestParser where
  state : State := .kRequestLine
  lineBuffer : Bytes := []
  headerBytesSeen : Nat := 0
  contentLength : Option Nat := none
  request : HttpRequest := {}
  errorResponse : HttpResponse := {}
  deriving DecidableEq, Repr

namespace HttpRequestParser

def kMaxRequestLineLength : Nat := 8192
def kMaxHeaderBytes : Nat := 8192
def kMaxHeaderCount : Nat := 100
def kMaxBodyBytes : Nat := 1048576

/-- `reset`. -/
def reset (_ : HttpRequestParser) : HttpRequestParser := {}

/-- `fail_step`. -/
def failStep (p : HttpRequestParser) (statusCode : Nat) (reasonPhrase body : String) :
    StepResult × HttpRequestParser :=
  (.kFailed, { p with
    errorResponse := makeErrorResponse statusCode reasonPhrase body false
    state := .kDone })

/-- `find(byte)`. -/
def findByte (byte : UInt8) (bytes : Bytes) : Option Nat := bytes.findIdx? (· == byte)

/-- `find("\r\n")`. -/
def findCrlf (bytes : Bytes) : Option Nat := Terminator.find cr lf bytes

-- ============================================================================
-- Request line
-- ============================================================================

/-- `finish_request_line` once method, target and version are apart. -/
def acceptRequestLine (p : HttpRequestParser) (method target version : Bytes) :
    StepResult × HttpRequestParser :=
  if target = [] ∨ version = [] ∨ space ∈ target then
    p.failStep 400 "Bad Request" "malformed request line\n"
  else if method ≠ ascii "GET" ∧ method ≠ ascii "POST" then
    p.failStep 501 "Not Implemented" "unsupported method\n"
  else
    let p := { p with request := { p.request with
      method := if method = ascii "GET" then .kGet else .kPost } }
    if target.head? ≠ some 47 then
      p.failStep 400 "Bad Request" "request target must be origin-form\n"
    else
      let p := { p with request := { p.request with target } }
      if version ≠ ascii "HTTP/1.1" then
        p.failStep 505 "HTTP Version Not Supported" "only HTTP/1.1 is supported\n"
      else
        (.kAdvanced, { p with
          request := { p.request with version }
          state := .kHeaders
          headerBytesSeen := 0 })

/-- `finish_request_line`. -/
def finishRequestLine (p : HttpRequestParser) (line : Bytes) : StepResult × HttpRequestParser :=
  match findByte space line with
  | none => p.failStep 400 "Bad Request" "malformed request line\n"
  | some firstSpace =>
    let rest := line.drop (firstSpace + 1)
    match findByte space rest with
    | none => p.failStep 400 "Bad Request" "malformed request line\n"
    | some secondSpace =>
      p.acceptRequestLine (line.take firstSpace) (rest.take secondSpace)
        (rest.drop (secondSpace + 1))

/-- The terminator was split: its CR ends the buffered line and its LF is next. -/
def terminatorSplit (p : HttpRequestParser) (data : Bytes) : Bool :=
  p.lineBuffer.getLast? == some cr && data.head? == some lf

/-- `line_buffer_.clear()` after a line was taken out of it. -/
def clearLine (x : StepResult × HttpRequestParser) : StepResult × HttpRequestParser :=
  (x.1, { x.2 with lineBuffer := [] })

/-- A step that leaves `data` as it is. -/
def leaving (data : Bytes) (x : StepResult × HttpRequestParser) :
    StepResult × HttpRequestParser × Bytes := (x.1, x.2, data)

/-- `parse_request_line`. -/
def parseRequestLine (p : HttpRequestParser) (data : Bytes) :
    StepResult × HttpRequestParser × Bytes :=
  if p.terminatorSplit data then
    leaving data.tail (clearLine (p.finishRequestLine p.lineBuffer.dropLast))
  else
    match findCrlf data with
    | some n =>
      if p.lineBuffer.length + n > kMaxRequestLineLength then
        leaving data (p.failStep 400 "Bad Request" "request line exceeds limit\n")
      else
        let p := { p with lineBuffer := p.lineBuffer ++ data.take n }
        leaving (data.drop (n + 2)) (clearLine (p.finishRequestLine p.lineBuffer))
    | none =>
      -- a lone CR may be the first half of the terminator
      let pendingCouldBeTerminatorStart := data = [cr]
      if ¬ pendingCouldBeTerminatorStart ∧
          p.lineBuffer.length + data.length > kMaxRequestLineLength then
        leaving data (p.failStep 400 "Bad Request" "request line exceeds limit\n")
      else (.kNeedMoreData, { p with lineBuffer := p.lineBuffer ++ data }, [])

-- ============================================================================
-- Headers
-- ============================================================================

/-- `std::from_chars` of a `std::size_t` that must use all of its input. -/
def fromChars (digits : Bytes) : Option Nat :=
  if digits ≠ [] ∧ digits.all (fun b => 48 ≤ b && b ≤ 57) then
    let value := digits.foldl (fun n b => n * 10 + (b.toNat - 48)) 0
    if value < 2 ^ 64 then some value else none
  else none

/-- The end of `finish_headers`. -/
def startBody (p : HttpRequestParser) (contentLength : Nat) : StepResult × HttpRequestParser :=
  (.kAdvanced, { p with
    contentLength := some contentLength
    request := { p.request with body := [] }
    state := if contentLength = 0 then .kDone else .kBody })

/-- `finish_headers`. -/
def finishHeaders (p : HttpRequestParser) : StepResult × HttpRequestParser :=
  match findHeader p.request.headers (ascii "Content-Length") with
  | some contentLengthHeader =>
    match fromChars contentLengthHeader with
    | none => p.failStep 400 "Bad Request" "invalid Content-Length\n"
    | some value =>
      if value > kMaxBodyBytes then p.failStep 413 "Payload Too Large" "body exceeds limit\n"
      else p.startBody value
  | none =>
    if p.request.method = .kPost then
      p.failStep 411 "Length Required" "POST requires Content-Length\n"
    else p.startBody 0

def isBlank (b : UInt8) : Bool := b == space || b == tab

/-- The two trimming loops of `consume_header_line`. -/
def trimBlanks (value : Bytes) : Bytes :=
  ((value.dropWhile isBlank).reverse.dropWhile isBlank).reverse

/-- `consume_header_line` of a header whose name and value are apart. -/
def addHeader (p : HttpRequestParser) (lineLength : Nat) (name value : Bytes) :
    StepResult × HttpRequestParser :=
  if p.headerBytesSeen + lineLength + 2 > kMaxHeaderBytes then
    p.failStep 431 "Request Header Fields Too Large" "headers exceed limit\n"
  else
    let p := { p with headerBytesSeen := p.headerBytesSeen + (lineLength + 2) }
    if asciiCaseInsensitiveEquals name (ascii "Content-Length") ∧
        (findHeader p.request.headers (ascii "Content-Length")).isSome then
      p.failStep 400 "Bad Request" "duplicate Content-Length header\n"
    else if p.request.headers.length ≥ kMaxHeaderCount then
      p.failStep 431 "Request Header Fields Too Large" "too many headers\n"
    else
      (.kAdvanced, { p with request := { p.request with
        headers := p.request.headers ++ [(name, value)] } })

/-- `consume_header_line`. -/
def consumeHeaderLine (p : HttpRequestParser) (line : Bytes) : StepResult × HttpRequestParser :=
  if line = [] then p.finishHeaders
  else if cr ∈ line ∨ lf ∈ line then
    p.failStep 400 "Bad Request" "malformed header line\n"
  else
    match findByte colon line with
    | none => p.failStep 400 "Bad Request" "malformed header line\n"
    | some 0 => p.failStep 400 "Bad Request" "malformed header line\n"
    | some (n + 1) =>
      let name := line.take (n + 1)
      let value := trimBlanks (line.drop (n + 2))
      if space ∈ name ∨ tab ∈ name then
        p.failStep 400 "Bad Request" "malformed header name\n"
      else p.addHeader line.length name value

/-- One turn of the loop of `parse_headers`. -/
def parseHeaderLine (p : HttpRequestParser) (data : Bytes) :
    StepResult × HttpRequestParser × Bytes :=
  if p.terminatorSplit data then
    leaving data.tail (clearLine (p.consumeHeaderLine p.lineBuffer.dropLast))
  else
    match findCrlf data with
    | none =>
      let pendingCouldStillBeTerminator := p.lineBuffer = [] ∧ (data = [] ∨ data = [cr])
      if ¬ pendingCouldStillBeTerminator ∧
          p.headerBytesSeen + p.lineBuffer.length + data.length > kMaxHeaderBytes then
        leaving data (p.failStep 431 "Request Header Fields Too Large" "headers exceed limit\n")
      else (.kNeedMoreData, { p with lineBuffer := p.lineBuffer ++ data }, [])
    | some n =>
      let isHeaderBlockTerminator := p.lineBuffer = [] ∧ n = 0
      if ¬ isHeaderBlockTerminator ∧
          p.headerBytesSeen + p.lineBuffer.length + n + 2 > kMaxHeaderBytes then
        leaving data (p.failStep 431 "Request Header Fields Too Large" "headers exceed limit\n")
      else
        let p := { p with lineBuffer := p.lineBuffer ++ data.take n }
        leaving (data.drop (n + 2)) (clearLine (p.consumeHeaderLine p.lineBuffer))

/-- The loop of `parse_headers`: on to the next line as long as a header was taken. -/
def parseHeadersLoop : Nat → HttpRequestParser → Bytes → StepResult × HttpRequestParser × Bytes
  | 0, p, data => (.kNeedMoreData, p, data)
  | fuel + 1, p, data =>
    match p.parseHeaderLine data with
    | (.kAdvanced, p, data) =>
      if p.state = .kHeaders then parseHeadersLoop fuel p data else (.kAdvanced, p, data)
    | result => result

/-- `parse_headers`: every turn consumes a byte. -/
def parseHeaders (p : HttpRequestParser) (data : Bytes) : StepResult × HttpRequestParser × Bytes :=
  parseHeadersLoop (data.length + 1) p data

-- ============================================================================
-- Body
-- ============================================================================

/-- `parse_body`. -/
def parseBody (p : HttpRequestParser) (data : Bytes) : StepResult × HttpRequestParser × Bytes :=
  let contentLength := p.contentLength.getD 0
  let take := min (contentLength - p.request.body.length) data.length
  let p := { p with request := { p.request with body := p.request.body ++ data.take take } }
  let data := data.drop take
  if p.request.body.length < contentLength then (.kNeedMoreData, p, data)
  else (.kAdvanced, { p with state := .kDone }, data)

-- ============================================================================
-- feed
-- ============================================================================

/-- The dispatch on the state in `feed`. -/
def dispatch (p : HttpRequestParser) (data : Bytes) : StepResult × HttpRequestParser × Bytes :=
  match p.state with
  | .kRequestLine => p.parseRequestLine data
  | .kHeaders => p.parseHeaders data
  | .kBody => p.parseBody data
  | .kDone => (.kAdvanced, p, data)

/-- The loop of `feed`: each turn leaves one of the three states before `kDone`. -/
def feedLoop : Nat → HttpRequestParser → Bytes → ParseStatus × HttpRequestParser × Bytes
  | 0, p, data => (.kNeedMoreData, p, data)
  | fuel + 1, p, data =>
    match p.dispatch data with
    | (.kNeedMoreData, p, data) => (.kNeedMoreData, p, data)
    | (.kFailed, p, data) => (.kError, p, data)
    | (.kAdvanced, p, data) =>
      if p.state = .kDone then (.kComplete, p, data) else feedLoop fuel p data

/-- `feed`: the status, the parser after it and what is left of `data`. -/
def feed (p : HttpRequestParser) (data : Bytes) : ParseStatus × HttpRequestParser × Bytes :=
  feedLoop 3 p data

end HttpRequestParser

end PassionProjects.Arcserve.Protocol
