/-
  PassionProjects.Arcserve.Server.DefaultHandlers

  The routes of the server (`default_handlers.cpp`), and what a client reads of their
  responses.

  `/echo` copies the client's `Content-Type` and body into the response unescaped;
  that the copy stays one header is what the parser has seen to.
-/

import PassionProjects.Arcserve.Protocol.Client

namespace PassionProjects.Arcserve.Server

open Protocol Protocol.Client Protocol.HttpRequestParser

/-- `default_route`. -/
def defaultRoute (request : HttpRequest) : HttpResponse :=
  if request.method = .kGet ∧ request.target = ascii "/" then
    { statusCode := 200
      reasonPhrase := ascii "OK"
      headers := [(ascii "Content-Type", ascii "text/plain")]
      body := ascii "ArcServe Phase 1 blocking server is alive.\n" }
  else if request.method = .kPost ∧ request.target = ascii "/echo" then
    let contentType := findHeader request.headers (ascii "Content-Type")
    { statusCode := 200
      reasonPhrase := ascii "OK"
      headers := [(ascii "Content-Type", contentType.getD (ascii "text/plain"))]
      body := request.body }
  else makeErrorResponse 404 "Not Found" "no such route\n" true

/-- The value of a header that the parser stored. -/
theorem plain_findHeader {p : HttpRequestParser} (hp : p.Parsed) {name value : Bytes}
    (h : findHeader p.request.headers name = some value) :
    NoLineBreak value ∧ Trimmed value value := by
  obtain ⟨header, hfound, rfl⟩ := Option.map_eq_some_iff.mp h
  obtain ⟨line, hline⟩ := hp.lines header (List.mem_of_find?_eq_some hfound)
  obtain ⟨raw, -, htrimmed⟩ := hline.parts
  exact ⟨hline.noLineBreak.2, ⟨[], [], by simp, by simp, by simp⟩, htrimmed.first, htrimmed.last⟩

theorem plain_contentType {value : Bytes} (h : NoLineBreak value ∧ Trimmed value value) :
    ∀ header ∈ [(ascii "Content-Type", value)], Plain header := by
  intro header hmem
  obtain rfl := List.mem_singleton.mp hmem
  have hname : NoLineBreak (ascii "Content-Type") ∧ colon ∉ ascii "Content-Type" := by decide
  exact ⟨hname, h⟩

/-- Every route answers plainly. -/
theorem plain_defaultRoute {p : HttpRequestParser} (hp : p.Parsed) (keepAlive : Bool) :
    PlainResponse { defaultRoute p.request with keepAlive } := by
  have htext : NoLineBreak (ascii "text/plain") ∧
      Trimmed (ascii "text/plain") (ascii "text/plain") :=
    ⟨by decide, trimmed_iff.mpr (by decide)⟩
  have hunframed : ∀ value, findHeader [(ascii "Content-Type", value)] (ascii "Content-Length") =
      none := fun value => rfl
  have hreason : NoLineBreak (ascii "OK") ∧ NoLineBreak (ascii "Not Found") := by decide
  have hbody : (ascii "ArcServe Phase 1 blocking server is alive.\n").length < 2 ^ 64 ∧
      (ascii "no such route\n").length < 2 ^ 64 := by decide
  unfold defaultRoute
  split
  · exact ⟨hreason.1, plain_contentType htext, hunframed _, hbody.1⟩
  · split
    · refine ⟨hreason.1, plain_contentType ?_, hunframed _, ?_⟩
      · cases hfound : findHeader p.request.headers (ascii "Content-Type") with
        | none => exact htext
        | some value => exact plain_findHeader hp hfound
      · exact Nat.lt_of_le_of_lt hp.body (by decide)
    · exact ⟨hreason.2, plain_contentType htext, hunframed _, hbody.2⟩

variable {chunks : List Bytes} {request : HttpRequest} {n : Nat}

/-- Whatever was sent, the response is one response. -/
theorem no_response_splitting (h : feedAll {} 0 chunks = .complete request n) (keepAlive : Bool) :
    readReply ({ defaultRoute request with keepAlive } : HttpResponse).serialize =
      some (⟨ascii "HTTP/1.1 " ++ toDecimal (defaultRoute request).statusCode ++ [space] ++
          (defaultRoute request).reasonPhrase,
        (defaultRoute request).headers ++
          [(ascii "Content-Length", toDecimal (defaultRoute request).body.length),
            (ascii "Connection", if keepAlive then ascii "keep-alive" else ascii "close")],
        (defaultRoute request).body⟩, []) := by
  obtain ⟨p, hp, rfl⟩ := parsed_of_complete h
  exact readReply_serialize (plain_defaultRoute hp keepAlive)

/-- An echoed `Content-Type`, in two chunks. -/
theorem no_response_splitting_echo :
    feedAll {} 0 [ascii "POST /echo HTTP/1.1\r\nContent-Type: a\r",
        ascii "\nContent-Length: 2\r\n\r\nhi"] =
      .complete { method := .kPost, target := ascii "/echo", version := ascii "HTTP/1.1",
                  headers := [(ascii "Content-Type", ascii "a"),
                    (ascii "Content-Length", ascii "2")],
                  body := ascii "hi" } 61 ∧
    readReply ({ defaultRoute { method := .kPost, target := ascii "/echo",
                                version := ascii "HTTP/1.1",
                                headers := [(ascii "Content-Type", ascii "a"),
                                  (ascii "Content-Length", ascii "2")],
                                body := ascii "hi" } with
        keepAlive := false } : HttpResponse).serialize =
      some (⟨ascii "HTTP/1.1 200 OK",
        [(ascii "Content-Type", ascii "a"), (ascii "Content-Length", ascii "2"),
          (ascii "Connection", ascii "close")],
        ascii "hi"⟩, []) := by
  have hcomplete : feedAll {} 0 [ascii "POST /echo HTTP/1.1\r\nContent-Type: a\r",
        ascii "\nContent-Length: 2\r\n\r\nhi"] =
      .complete { method := .kPost, target := ascii "/echo", version := ascii "HTTP/1.1",
                  headers := [(ascii "Content-Type", ascii "a"),
                    (ascii "Content-Length", ascii "2")],
                  body := ascii "hi" } 61 := by decide
  exact ⟨hcomplete, no_response_splitting hcomplete false⟩

end PassionProjects.Arcserve.Server
