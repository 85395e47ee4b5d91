import OsLabs.Sockets.Buffer
import OsLabs.Sockets.Exchange

/-!
# The single-threaded server (`server_2.c`)

`serve` handles one connection to its end before the event loop of `main` accepts the
next one, so the server is a sequential program: `handle` is the `switch` of one request,
`serve` the loop over what `recv` returns, `mainLoop` the wake-ups. Every call that ends
in `exit` is `none` from there on; the events up to it are kept.

All four arrays carry `IPC_NOWAIT`. A call with it never sleeps, and `sleep` is treated
like any failure that is not `EAGAIN`.
-/

namespace OsLabs.Sockets.ServerEpoll

open Memory SysV

def startProduce : List (Sembuf CountSem) := [⟨.empty, -1, true⟩]
def stopProduce : List (Sembuf CountSem) := [⟨.full, 1, true⟩]
def startConsume : List (Sembuf CountSem) := [⟨.full, -1, true⟩]
def stopConsume : List (Sembuf CountSem) := [⟨.empty, 1, true⟩]

/-- The server state, unless `exit` was called, and the events so far. -/
abbrev Result (α : Type) := Option α × List Event

/-- The `switch` on a received request: the buffer and the request object after it. -/
def handle (b : Buffer) (req : ReqT) : Result (Buffer × ReqT) :=
  if req.type = 'p'.toUInt8 then
    match semop b.sems startProduce with
    | .eagain =>
      (some (b, req.setStatus ERR_BUF_FULL), [.decide ERR_BUF_FULL, .print "prod: buf_full\n"])
    | .sleep | .erange => (none, [.perror "semop"])
    | .done vals =>
      let b₁ := ({ b with sems := vals } : Buffer).put req.letter
      let req := req.setStatus OK
      let es := [.put b.tail req.letter, .decide OK]
      match semop b₁.sems stopProduce with
      | .done vals =>
        (some ({ b₁ with sems := vals }, req), es ++ [.printLetter "prod: " req.letter])
      | .eagain =>
        (some (b₁, req.setStatus ERR_BUF_EMPTY),
          es ++ [.decide ERR_BUF_EMPTY, .print "prod: buf_empty\n",
            .printLetter "prod: " req.letter])
      | .sleep | .erange => (none, es ++ [.perror "semop"])
  else if req.type = 'c'.toUInt8 then
    match semop b.sems startConsume with
    | .eagain =>
      (some (b, req.setStatus ERR_BUF_EMPTY),
        [.decide ERR_BUF_EMPTY, .print "cons: buf_empty\n"])
    | .sleep | .erange => (none, [.perror "semop"])
    | .done vals =>
      let b₁ := ({ b with sems := vals } : Buffer).drop
      let req := (req.setLetter (b.ring b.head)).setStatus OK
      let es := [.got b.head (b.ring b.head), .decide OK]
      match semop b₁.sems stopConsume with
      | .done vals =>
        (some ({ b₁ with sems := vals }, req), es ++ [.printLetter "cons: " req.letter])
      | .eagain =>
        (some (b₁, req.setStatus ERR_BUF_FULL),
          es ++ [.decide ERR_BUF_FULL, .print "cons: buf_full\n",
            .printLetter "cons: " req.letter])
      | .sleep | .erange => (none, es ++ [.perror "semop"])
  else (some (b, req), [])

/-- The loop over one connection. `req` is the local request object, which keeps the
bytes that a `recv` does not write. -/
def serve (b : Buffer) (req : ReqT) : List Recv → Result Buffer
  | [] => (some b, [])
  | .closed :: _ => (some b, [])
  | .error :: _ => (none, [.perror "recv"])
  | .data msg :: rest =>
    match handle b (recvInto req msg) with
    | (none, es) => (none, .recv msg :: es)
    | (some (b, req), es) =>
      let (result, more) := serve b req rest
      (result, .recv msg :: es ++ .send (bytes req) :: .log req.type :: more)

/-- One wake-up of the event loop: whether `accept` succeeded, the uninitialised request
object of the `serve` call it leads to, and what `recv` returns on the connection. -/
structure Wake where
  accepted : Bool
  req : ReqT
  stream : List Recv

/-- The event loop of `main`. A failed `accept` is reported and `serve` is called with the
descriptor `-1`, on which `recv` returns `-1`. -/
def mainLoop (b : Buffer) : List Wake → Result Buffer
  | [] => (some b, [])
  | w :: rest =>
    let (result, es) :=
      if w.accepted then serve b w.req w.stream
      else
        let (result, es) := serve b w.req [.error]
        (result, .perror "accept" :: es)
    match result with
    | none => (none, es)
    | some b =>
      let (result, more) := mainLoop b rest
      (result, es ++ more)

end OsLabs.Sockets.ServerEpoll
