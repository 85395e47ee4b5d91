import OsLabs.Sockets.Common

/-!
# The client of the lab_03 servers (`client.c`)

`produce` and `consume` send one local `req_t` object and receive the reply into the same
object. The object is not initialised, so its bytes before the call are a parameter.
-/

namespace OsLabs.Sockets.Client

open Memory

inductive Command where
  | produce
  | consume
deriving DecidableEq

inductive Output where
  | text (s : String)
  | letter (c : UInt8)

/-- The request object when it is sent: `req` is what the local variable held before, and
`letter` the global variable. `consume` leaves the letter field as it was. -/
def request (cmd : Command) (letter : UInt8) (req : ReqT) : ReqT :=
  match cmd with
  | .produce => (req.setType 'p'.toUInt8).setLetter letter
  | .consume => req.setType 'c'.toUInt8

/-- The request object when the `switch` examines it, after the reply has been received. -/
def received (cmd : Command) (letter : UInt8) (req : ReqT) (reply : List UInt8) : ReqT :=
  recvInto (request cmd letter req) reply

def produceOutput (req : ReqT) : List Output :=
  .text "prod: " ::
    if req.status = OK then [.text "(ok)\n"]
    else if req.status = ERR_BUF_FULL then [.text "(buf_full)\n"]
    else if req.status = ERR_BUF_EMPTY then [.text "(buf_empty)\n"]
    else []

def consumeOutput (req : ReqT) : List Output :=
  .text "cons: " ::
    if req.status = OK then [.letter req.letter, .text "\n"]
    else if req.status = ERR_BUF_FULL then [.text "(buf_full)\n"]
    else if req.status = ERR_BUF_EMPTY then [.text "(buf_empty)\n"]
    else []

/-- What the client prints for a reply. -/
def output (cmd : Command) (letter : UInt8) (req : ReqT) (reply : List UInt8) : List Output :=
  match cmd with
  | .produce => produceOutput (received cmd letter req reply)
  | .consume => consumeOutput (received cmd letter req reply)

/-- The global `letter` after a `produce`, whatever the reply was. -/
def nextLetter (letter : UInt8) : UInt8 :=
  if letter = 'z'.toUInt8 then 'a'.toUInt8 else letter + 1

@[simp] theorem status_request (cmd : Command) (letter : UInt8) (req : ReqT) :
    (request cmd letter req).status = req.status := by
  cases cmd <;> simp [request]

@[simp] theorem type_request (cmd : Command) (letter : UInt8) (req : ReqT) :
    (request cmd letter req).type =
      if cmd = .produce then 'p'.toUInt8 else 'c'.toUInt8 := by
  cases cmd <;> simp [request]

end OsLabs.Sockets.Client
