import ClavenarLite.Lib.Fallible
import ClavenarLite.Lib.JsonValue
import ClavenarLite.Lib.Text

/-! The wire contract with the upstream: what a request must look like before
it is sent, and a response before it is relayed. -/

namespace ClavenarLite

open Bytes Fallible Text TextJson

def requestBodyBytes : Nat := 1048576

def responseBodyBytes : Nat := 1048576

inductive UpstreamAdapter
  | rawJson
  | mcpJsonRpcV1
  deriving DecidableEq

/-- Texts that libraries put into messages. -/
structure LibraryTexts where
  /-- Why a slice is not a JSON value. -/
  notJson : Octets → String
  /-- Why a slice is not a request. -/
  notRequest : Octets → String
  /-- A string in quotes, escaped. -/
  debug : String → String

variable (F : FloatText) (X : LibraryTexts)

/-- The request's id, if the adapter looks at it. -/
def UpstreamAdapter.validateRequest (adapter : UpstreamAdapter) (body : Octets) :
    Except String (Option Json) :=
  if requestBodyBytes < body.length then
    .error ("upstream request body exceeds " ++ toString requestBodyBytes ++ " bytes")
  else if adapter = .rawJson then .ok none
  else
    match fromSlice F body with
    | none => .error ("MCP adapter request is not JSON: " ++ X.notJson body)
    | some request =>
      if (request.json.get? "jsonrpc").bind Json.asStr? ≠ some "2.0" then
        .error "MCP adapter request requires jsonrpc=\"2.0\""
      else
        match ((request.json.get? "method").bind Json.asStr?).filter (!·.isEmpty) with
        | none => .error "MCP adapter request requires a method"
        | some method =>
          let requestId := request.json.get? "id"
          if !(stripPrefix "notifications/" method).isSome && requestId.all Json.isNull then
            .error "MCP adapter request requires a non-null id"
          else .ok requestId

structure ForwardedResponse where
  status : UInt16
  contentType : Option String
  body : Octets

def isJsonContentType (contentType : String) : Bool :=
  toAsciiLowercase (trim ((split ';' contentType).headD "")) == "application/json"

/-- The text tells JSON values apart. -/
def sameJson (a b : Option Json) : Bool := a.map (printText F) == b.map (printText F)

def validateMcpResponse (response : ForwardedResponse) (requestId : Option Json) :
    Except String Unit :=
  if requestId.isNone && response.status == 204 && response.body.isEmpty then .ok ()
  else do
    refuse (!response.contentType.any isJsonContentType)
      "MCP adapter response requires application/json"
    let document ← (fromSlice F response.body).elim
      (.error ("MCP adapter response is not JSON: " ++ X.notJson response.body)) .ok
    refuse ((document.json.get? "jsonrpc").bind Json.asStr? != some "2.0")
      "MCP adapter response requires jsonrpc=\"2.0\""
    refuse (!sameJson F (document.json.get? "id") requestId)
      "MCP adapter response id does not match the request"
    refuse ((document.json.get? "result").isSome == (document.json.get? "error").isSome)
      "MCP adapter response requires exactly one of result or error"

/-- What `forward` makes of a response that has been read. -/
def UpstreamAdapter.accept (adapter : UpstreamAdapter) (requestId : Option Json)
    (response : ForwardedResponse) : Except String ForwardedResponse := do
  refuse (responseBodyBytes < response.body.length)
    ("upstream response body exceeds " ++ toString responseBodyBytes ++ " bytes")
  if adapter = .mcpJsonRpcV1 then validateMcpResponse F X response requestId
  return response

variable {F : FloatText} {X : LibraryTexts} {requestId : Option Json} {response : ForwardedResponse}

/-- A response as the protocol has it: empty to a notification, or a document that names the
request and holds either a result or an error. -/
def ValidMcpResponse (F : FloatText) (response : ForwardedResponse) (requestId : Option Json) :
    Prop :=
  (requestId = none ∧ response.status = 204 ∧ response.body = []) ∨
    (∃ contentType, response.contentType = some contentType ∧ isJsonContentType contentType = true) ∧
      ∃ document, fromSlice F response.body = some document ∧
        (document.json.get? "jsonrpc").bind Json.asStr? = some "2.0" ∧
        sameJson F (document.json.get? "id") requestId = true ∧
        ((document.json.get? "result").isSome ↔ (document.json.get? "error") = none)

theorem validateMcpResponse_ok {u : Unit}
    (h : validateMcpResponse F X response requestId = .ok u) :
    ValidMcpResponse F response requestId := by
  unfold validateMcpResponse at h
  split_ifs at h with hempty
  · simp only [Bool.and_eq_true, Option.isNone_iff_eq_none, beq_iff_eq, List.isEmpty_iff] at hempty
    exact Or.inl ⟨hempty.1.1, hempty.1.2, hempty.2⟩
  · obtain ⟨_, htype, h⟩ := bind_ok h
    obtain ⟨document, hdocument, h⟩ := bind_ok h
    obtain ⟨_, hversion, h⟩ := bind_ok h
    obtain ⟨_, hid, h⟩ := bind_ok h
    have htype := refuse_ok htype
    have hversion := refuse_ok hversion
    have hid := refuse_ok hid
    have hone := refuse_ok h
    refine Or.inr ⟨?_, document, elim_ok hdocument, ?_, ?_, ?_⟩
    · rwa [Bool.not_eq_false', Option.any_eq_true] at htype
    · simpa using hversion
    · simpa using hid
    · cases hr : (document.json.get? "result").isSome <;>
        cases he : document.json.get? "error" <;> simp [hr, he] at hone ⊢

/-- The id that the answer has to repeat is that of the request. -/
theorem UpstreamAdapter.validateRequest_id {adapter : UpstreamAdapter} {body : Octets}
    (h : adapter.validateRequest F X body = .ok requestId) (ha : adapter = .mcpJsonRpcV1) :
    ∃ request, fromSlice F body = some request ∧ requestId = request.json.get? "id" := by
  subst ha
  unfold UpstreamAdapter.validateRequest at h
  split_ifs at h with hlength hraw
  · exact hraw.elim
  · cases hbody : fromSlice F body with
    | none => simp [hbody] at h
    | some request =>
      rw [hbody] at h
      dsimp only at h
      split_ifs at h with hversion
      cases hmethod : ((request.json.get? "method").bind Json.asStr?).filter (!·.isEmpty) with
      | none => simp [hmethod] at h
      | some method =>
        rw [hmethod] at h
        dsimp only at h
        split_ifs at h with hnull
        exact ⟨request, rfl, (Except.ok.inj h).symm⟩

/-- A response that is accepted is passed on as it came. -/
theorem UpstreamAdapter.accept_ok {adapter : UpstreamAdapter} {accepted : ForwardedResponse}
    (h : adapter.accept F X requestId response = .ok accepted) : accepted = response ∧
      response.body.length ≤ responseBodyBytes ∧
      (adapter = .mcpJsonRpcV1 → ValidMcpResponse F response requestId) := by
  obtain ⟨_, hlength, h⟩ := bind_ok h
  have hlength := refuse_ok hlength
  refine ⟨?_, by simpa using hlength, ?_⟩
  · split_ifs at h
    · obtain ⟨_, _, h⟩ := bind_ok h
      exact (Except.ok.inj h).symm
    · exact (Except.ok.inj h).symm
  · intro hadapter
    rw [if_pos hadapter] at h
    obtain ⟨_, hvalid, _⟩ := bind_ok h
    exact validateMcpResponse_ok hvalid

end ClavenarLite
