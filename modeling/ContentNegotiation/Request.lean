import ContentNegotiation.Negotiator

/-!
Answering a request from its `Accept` header values.

Only the first value counts. Without one, and when nothing supported is accepted, the first
supported value answers. A value that is not printable ASCII, or that cannot be negotiated on, is
refused.

How requests come in and replies go out is left to a transport, which finds the first value, reads
its text and sends a reply. `Transport.ofValues` takes a request for the list of its values.
-/

namespace ContentNegotiation

inductive Refusal where
  | unreadable
  | failed (cause : Error)
deriving DecidableEq, Repr

def Refusal.message : Refusal → String
  | unreadable => "invalid accept header"
  | failed cause => "negotiation failure: " ++ cause.message

structure Response where
  status : Nat
  contentType : String
  body : String
deriving DecidableEq, Repr

def isReadableByte (b : UInt8) : Bool := b == 9 || (32 ≤ b && b < 127)

def asciiText (bytes : List UInt8) : Text := bytes.map fun b => Char.ofNat b.toNat

/-- The text of a header value, if all of its bytes are readable. -/
def readHeaderValue? (bytes : List UInt8) : Option Text :=
  if bytes.all isReadableByte then some (asciiText bytes) else none

structure Transport (Request Reply : Type) where
  acceptValue? : Request → Option (List UInt8)
  text? : List UInt8 → Option Text
  reply : Nat → String → Reply

namespace Transport

variable {Request Reply α : Type}

def refuse (t : Transport Request Reply) (r : Refusal) : Reply := t.reply 400 r.message

/-- The value that answers a request. -/
def answer (t : Transport Request Reply) (n : Negotiator α) (request : Request) :
    Except Refusal α :=
  match t.acceptValue? request with
  | none => .ok n.first
  | some bytes =>
    match t.text? bytes with
    | none => .error .unreadable
    | some header =>
      match n.negotiate header with
      | .error e => .error (.failed e)
      | .ok value? => .ok (value?.getD n.first)

/-- The transport for requests that are lists of `Accept` header values. -/
def ofValues : Transport (List (List UInt8)) Response where
  acceptValue? := List.head?
  text? := readHeaderValue?
  reply status body := { status, contentType := "text/plain; charset=utf-8", body }

end Transport

def Refusal.response (r : Refusal) : Response := Transport.ofValues.refuse r

def Negotiator.answer {α : Type} (n : Negotiator α) (accept : List (List UInt8)) :
    Except Refusal α :=
  Transport.ofValues.answer n accept

end ContentNegotiation
