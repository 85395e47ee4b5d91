import OsLabs.Sockets.Common

/-!
# Events of the lab_03 servers and the exchanges in them

Both servers of `lab_03` report the same observable statements: what `recv` returned,
accesses to the ring, the assignment of a status, output, and what was sent. From the
events of one server loop the exchanges can be read off: the request last received, the
status last assigned and the letter taken from the ring since then, and the reply.
-/

namespace OsLabs.Sockets

inductive Event where
  | recv (msg : List UInt8)
  | put (slot : Nat) (letter : UInt8)
  | got (slot : Nat) (letter : UInt8)
  | decide (status : BitVec 32)
  | print (text : String)
  | printLetter (text : String) (letter : UInt8)
  | perror (text : String)
  | send (msg : List UInt8)
  | log (op : UInt8)
deriving DecidableEq

/-- A request and what became of it. -/
structure Exchange where
  request : List UInt8
  decided : Option (BitVec 32)
  removed : Option UInt8
  reply : List UInt8

/-- Before the first request. -/
def Exchange.none : Exchange := ⟨[], .none, .none, []⟩

/-- The exchange in progress after one more event. -/
def Exchange.next (x : Exchange) : Event → Exchange
  | .recv msg => ⟨msg, .none, .none, []⟩
  | .decide status => { x with decided := some status }
  | .got _ letter => { x with removed := some letter }
  | .send msg => { x with reply := msg }
  | _ => x

/-- The exchange in progress after the events `es`. -/
def Exchange.after (x : Exchange) (es : List Event) : Exchange := es.foldl Exchange.next x

/-- The exchanges completed by a `send` among the events `es`. -/
def exchanges (x : Exchange) : List Event → List Exchange
  | [] => []
  | .send msg :: es => { x with reply := msg } :: exchanges (x.next (.send msg)) es
  | e :: es => exchanges (x.next e) es

theorem Exchange.after_append (x : Exchange) (es more : List Event) :
    x.after (es ++ more) = (x.after es).after more :=
  List.foldl_append

theorem exchanges_append (x : Exchange) (es more : List Event) :
    exchanges x (es ++ more) = exchanges x es ++ exchanges (x.after es) more := by
  induction es generalizing x with
  | nil => rfl
  | cons e es ih =>
    cases e with
    | send msg =>
      simp only [List.cons_append, exchanges, ih]
      rfl
    | _ =>
      simp only [List.cons_append, exchanges, ih]
      rfl

end OsLabs.Sockets
