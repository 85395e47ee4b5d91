import OsLabs.Multiplex.Server

/-!
# The retrying client (`multiplex/client.c`) and its connection

`produce` and `consume` open a connection, send one message of `BUF_SIZE` bytes, wait for
the reply, close the connection and start over while the server reports a full or an
empty buffer. A client has one connection at a time, so a party is a client together with
what is under way on its connection: a request the server has not received, or a reply
the client has not received.

`step` moves one party. Its inputs are a call made by the client's program (with the
contents of the uninitialised locals of that call), one statement of the client, or the
server receiving and executing the request on the connection.
-/

namespace OsLabs.Multiplex

open Memory

/-- The next statement of a client; `idle` is between two calls. -/
inductive Pc where
  | idle
  | produceSend
  | produceRecv
  | produceTest
  | consumeSend
  | consumeRecv
  | consumeTest

structure Party where
  pc : Pc
  letter : UInt8
  buf : Object BUF_SIZE
  status : Object 4
  request : Option (List UInt8)
  reply : Option (List UInt8)

inductive Input where
  | produce (buf : Object BUF_SIZE) (status : Object 4)
  | consume (buf : Object BUF_SIZE)
  | client
  | server

/-- The value of the local variable `status`. -/
def Party.statusValue (p : Party) : BitVec 32 :=
  intOf (p.status 0) (p.status 1) (p.status 2) (p.status 3)

/-- One statement of `produce` or `consume`. -/
def clientStep (p : Party) : Option (Party × List Event) :=
  match p.pc with
  | .idle => none
  | .produceSend =>
    let buf := setFirst p.buf 'P'.toUInt8 p.letter
    some ({ p with pc := .produceRecv, buf := buf, request := some (bytes buf) }, [])
  | .produceRecv =>
    match p.reply with
    | none => none
    | some msg =>
      some ({ p with pc := .produceTest, status := recvInto p.status msg, reply := none }, [])
  | .produceTest =>
    if p.statusValue = BUFFER_FULL_ERR then
      some ({ p with pc := .produceSend }, [.print "Producer: buffer full, retrying...\n"])
    else
      some ({ p with
        pc := .idle
        letter := if p.letter = 'z'.toUInt8 then 'a'.toUInt8 else p.letter + 1 },
        [.produced (p.buf 1)])
  | .consumeSend =>
    let buf := Function.update p.buf 0 'C'.toUInt8
    some ({ p with pc := .consumeRecv, buf := buf, request := some (bytes buf) }, [])
  | .consumeRecv =>
    match p.reply with
    | none => none
    | some msg =>
      some ({ p with pc := .consumeTest, buf := recvInto p.buf msg, reply := none }, [])
  | .consumeTest =>
    if p.buf 0 = toChar BUFFER_EMPTY_ERR then
      some ({ p with pc := .consumeSend }, [.print "Consumer: buffer empty, retrying...\n"])
    else some ({ p with pc := .idle }, [.returned (p.buf 1)])

def step (s : Server) (p : Party) : Input → Option (Server × Party × List Event)
  | .produce buf status =>
    match p.pc with
    | .idle => some (s, { p with pc := .produceSend, buf := buf, status := status }, [])
    | _ => none
  | .consume buf =>
    match p.pc with
    | .idle => some (s, { p with pc := .consumeSend, buf := buf }, [])
    | _ => none
  | .client =>
    match clientStep p with
    | none => none
    | some (p, es) => some (s, p, es)
  | .server =>
    if s.exited then none
    else match p.request with
    | none => none
    | some msg =>
      let (s, reply, es) := receive s msg
      some (s, { p with request := none, reply := reply }, es)

/-- A client before its first call. -/
def initParty (buf : Object BUF_SIZE) (status : Object 4) : Party :=
  ⟨.idle, 'a'.toUInt8, buf, status, none, none⟩

end OsLabs.Multiplex
