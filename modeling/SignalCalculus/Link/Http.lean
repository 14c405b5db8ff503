import SignalCalculus.Link.Basic
import SignalCalculus.Link.Url

set_option autoImplicit false

namespace SignalCalculus.Http

open Text

structure Request where
  data : List Char
  timeout : Float

def Request.method : String := "POST"

def Request.contentType : String := "text/plain"

inductive Response where
  | answer (status : Int) (body : List UInt8)
  | refused (status : Int)
  | unreachable (reason : String)

abbrev Network (σ : Type) := Request → σ → Response × σ

/-- Where requests go, and how many seconds they may take. -/
structure Endpoint where
  url : List Char
  timeout : Float

def defaultTimeout : Float := 30.0

/-- The endpoint for a given address and key; what is not given is taken from the surroundings, and
    an empty address counts as none. -/
def Endpoint.make (url fallbackUrl key fallbackKey : Option (List Char)) (timeout : Option Float) :
    Except Fault Endpoint :=
  let nonempty := fun url : Option (List Char) => url.filter fun cs => !cs.isEmpty
  match (nonempty url).or (nonempty fallbackUrl) with
  | none => .error (.protocol (.link .noAddress))
  | some url =>
    match Url.withKey url (key.or fallbackKey) with
    | .error e => .error (.request e)
    | .ok url => .ok ⟨url, timeout.getD defaultTimeout⟩

/-- The place of the first run of characters beyond the ASCII range: its first character and its two
    ends. -/
def firstBeyondAscii? (pos : Nat) : List Char → Option (Char × Nat × Nat)
  | [] => none
  | c :: rest =>
    if c.toNat < 0x80 then firstBeyondAscii? (pos + 1) rest
    else some (c, pos, pos + (rest.takeWhile (0x80 ≤ ·.toNat)).length)

def asciiText? (body : List UInt8) : Option (List Char) :=
  if body.all (· < 0x80) then some (body.map fun byte => Char.ofNat byte.toNat) else none

def replyOf (url : List Char) : Response → Except LinkError (List Char)
  | .refused status => .error (.status status)
  | .unreachable reason => .error (.unreachable (String.ofList url) reason)
  | .answer status body =>
    if status ≠ 200 then .error (.status status)
    else
      match asciiText? body with
      | none => .error .notText
      | some text => .ok (trim text)

def link {σ : Type} (network : Network σ) (endpoint : Endpoint) : Link σ := fun bits state =>
  match firstBeyondAscii? 0 bits, Url.checkAddress endpoint.url with
  | some (c, first, last), _ => (.error (.request (.notAscii c first last)), state)
  | none, .error e => (.error (.request e), state)
  | none, .ok () =>
    let (response, state) := network ⟨bits, endpoint.timeout⟩ state
    ((replyOf endpoint.url response).mapError fun e => .protocol (.link e), state)

structure Stock where
  responses : List Response
  requests : List Request := []

def stocked : Network Stock := fun request state =>
  let requests := state.requests ++ [request]
  match state.responses with
  | [] => (.unreachable "<urlopen error no canned response>", ⟨[], requests⟩)
  | response :: responses => (response, ⟨responses, requests⟩)

end SignalCalculus.Http
