/-
  PassionProjects.Arcserve.Protocol.HttpMessage

  HTTP messages (`http_message.cpp`): requests, responses and their wire form.
-/

import Mathlib.Data.List.Basic

namespace PassionProjects.Arcserve

abbrev Bytes := List UInt8

/-- The bytes of a string literal of the source. -/
def ascii (s : String) : Bytes := s.toList.map fun c => c.toNat.toUInt8

namespace Protocol

def cr : UInt8 := 13
def lf : UInt8 := 10
def space : UInt8 := 32
def tab : UInt8 := 9
def colon : UInt8 := 58

def crlf : Bytes := [cr, lf]

inductive HttpMethod where
  | kGet
  | kPost
  deriving DecidableEq, Repr

/-- `method_to_string`. -/
def methodToString : HttpMethod → Bytes
  | .kGet => ascii "GET"
  | .kPost => ascii "POST"

/-- `HeaderList`: names and values in wire order. -/
abbrev HeaderList := List (Bytes × Bytes)

/-- `std::tolower` in the C locale. -/
def toLower (b : UInt8) : UInt8 := if 65 ≤ b ∧ b ≤ 90 then b + 32 else b

/-- `ascii_case_insensitive_equals`. -/
def asciiCaseInsensitiveEquals (a b : Bytes) : Bool := a.map toLower == b.map toLower

/-- `find_header`: the value of the first header of that name. -/
def findHeader (headers : HeaderList) (name : Bytes) : Option Bytes :=
  (headers.find? fun h => asciiCaseInsensitiveEquals h.1 name).map Prod.snd

structure HttpRequest where
  method : HttpMethod := .kGet
  target : Bytes := []
  version : Bytes := []
  headers : HeaderList := []
  body : Bytes := []
  deriving DecidableEq, Repr

/-- `HttpRequest::keep_alive`. -/
def HttpRequest.keepAlive (request : HttpRequest) : Bool :=
  match findHeader request.headers (ascii "Connection") with
  | some connection => !asciiCaseInsensitiveEquals connection (ascii "close")
  | none => true

structure HttpResponse where
  statusCode : Nat := 200
  reasonPhrase : Bytes := ascii "OK"
  headers : HeaderList := []
  body : Bytes := []
  keepAlive : Bool := true
  deriving DecidableEq, Repr

/-- `std::to_string`. -/
def toDecimal (n : Nat) : Bytes := (Nat.toDigits 10 n).map fun c => c.toNat.toUInt8

/-- One line of the header section of `serialize`. -/
def serializeHeader (header : Bytes × Bytes) : Bytes :=
  header.1 ++ ascii ": " ++ header.2 ++ crlf

/-- `HttpResponse::serialize`. -/
def HttpResponse.serialize (response : HttpResponse) : Bytes :=
  ascii "HTTP/1.1 " ++ toDecimal response.statusCode ++ [space] ++ response.reasonPhrase ++ crlf ++
    response.headers.flatMap serializeHeader ++
    ascii "Content-Length: " ++ toDecimal response.body.length ++ crlf ++
    ascii "Connection: " ++ (if response.keepAlive then ascii "keep-alive" else ascii "close") ++
    crlf ++ crlf ++ response.body

/-- `make_error_response`. -/
def makeErrorResponse (statusCode : Nat) (reasonPhrase body : String) (keepAlive : Bool) :
    HttpResponse where
  statusCode := statusCode
  reasonPhrase := ascii reasonPhrase
  headers := [(ascii "Content-Type", ascii "text/plain")]
  body := ascii body
  keepAlive := keepAlive

end Protocol

end PassionProjects.Arcserve
