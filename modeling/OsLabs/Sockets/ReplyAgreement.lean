import OsLabs.Sockets.Client
import OsLabs.Sockets.ServerEpoll
import OsLabs.Sockets.ServerThreads

/-!
# Do the client and its servers agree on the reply?

One client is used with both servers. `server_2.c` answers every request with a whole
`req_t`, and so does `server_1.c` for a consumer. To a producer `server_1.c` sends a bare
`int` of four bytes, which the client receives over the `type` field and the padding of
its request object; the `status` field that it then examines is whatever the
uninitialised object held before the call.

`Agrees` is the agreement of one client call with a server over all runs of the server.
The exact condition is at the end.
-/

namespace OsLabs.Sockets

open Memory Runs SysV Client

inductive Server where
  | threads
  | epoll
deriving DecidableEq

/-- The exchange happens in some run of the server, with any number of workers and any
schedule or with any sequence of wake-ups. -/
def Occurs (x : Exchange) : Server → Prop
  | .threads => ∃ (n : Nat) (req : Fin n → ReqT) (status : Fin n → BitVec 32)
      (sched : List (Fin n × Recv)) (t : Fin n),
      x ∈ exchanges .none (own t (ServerThreads.serve req status sched).2)
  | .epoll => ∃ wakes, x ∈ exchanges .none (ServerEpoll.mainLoop .init wakes).2

/-- Whenever the server answers the request of this call, the status examined by the
client is the one decided by the server, and after a successful `consume` the letter
examined is the one taken from the ring. -/
def Agrees (srv : Server) (cmd : Command) (letter : UInt8) (req : ReqT) : Prop :=
  ∀ x, Occurs x srv → x.request = bytes (request cmd letter req) →
    x.decided = some (received cmd letter req x.reply).status ∧
    (cmd = .consume → x.decided = some OK →
      x.removed = some (received cmd letter req x.reply).letter)

/-! ## The replies of `server_1.c` -/

namespace ServerThreads

/-- The request of an exchange, if it came as a whole object, has this type. -/
def Typed (type : UInt8) (x : Exchange) : Prop :=
  ∀ r : ReqT, x.request = bytes r → r.type = type

/-- A completed exchange of a worker. -/
def Answered (x : Exchange) : Prop :=
  x.decided = some OK ∧
    ((Typed 'p'.toUInt8 x ∧ x.reply = intBytes OK) ∨
      (Typed 'c'.toUInt8 x ∧
        ∃ r : ReqT, x.reply = bytes r ∧ r.status = OK ∧ x.removed = some r.letter))

/-- What the locals of a worker say about the exchange in progress. -/
def Progress (w : Worker) (x : Exchange) : Prop :=
  match w.pc with
  | .dispatch => Typed w.req.type x
  | .startProduce _ | .putRing | .putTail | .putStatus => Typed 'p'.toUInt8 x
  | .putPrint | .stopProduce _ | .sendStatus =>
    Typed 'p'.toUInt8 x ∧ w.status = OK ∧ x.decided = some OK
  | .startConsume _ | .getRing => Typed 'c'.toUInt8 x
  | .getHead | .getPrint | .stopConsume _ | .getStatus =>
    Typed 'c'.toUInt8 x ∧ x.removed = some w.req.letter
  | .sendReq =>
    Typed 'c'.toUInt8 x ∧ x.removed = some w.req.letter ∧ w.req.status = OK ∧
      x.decided = some OK
  | .recv | .logTime | .close | .finished => True

theorem typed_recv {req r : ReqT} {msg : List UInt8} (h : msg = bytes r) :
    r.type = ReqT.type (recvInto req msg) := by
  rw [h, recvInto_bytes]

/-- One statement keeps `Progress` and completes an exchange only as `Answered`. -/
theorem processClient_progress {sh sh' : Shared} {w w' : Worker} {input : Recv}
    {es : List Event} {x : Exchange} (hProgress : Progress w x)
    (h : processClient sh w input = some (sh', w', es)) :
    Progress w' (x.after es) ∧ ∀ y ∈ exchanges x es, Answered y := by
  obtain ⟨pc, req, status⟩ := w
  have hNone {y : Exchange} : y ∈ ([] : List Exchange) → Answered y := nofun
  unfold processClient at h
  split at h
  · cases h
  cases pc with
  | recv =>
    cases input with
    | data msg => cases h; exact ⟨fun r hr => typed_recv hr, fun _ => hNone⟩
    | closed => cases h; exact ⟨trivial, fun _ => hNone⟩
    | error => cases h; exact ⟨trivial, fun _ => hNone⟩
  | dispatch =>
    simp only at h
    split at h
    · next hp => cases h; exact ⟨fun r hr => (hProgress r hr).trans hp, fun _ => hNone⟩
    · split at h
      · next hc => cases h; exact ⟨fun r hr => (hProgress r hr).trans hc, fun _ => hNone⟩
      · cases h; exact ⟨trivial, fun _ => hNone⟩
  | startProduce asleep =>
    obtain ⟨vals, -, ⟨⟩⟩ | ⟨-, ⟨⟩⟩ | ⟨-, ⟨⟩⟩ := attempt_cases h
    · exact ⟨hProgress, fun _ => hNone⟩
    · exact ⟨hProgress, fun _ => hNone⟩
    · exact ⟨hProgress, fun _ => hNone⟩
  | putRing => cases h; exact ⟨hProgress, fun _ => hNone⟩
  | putTail => cases h; exact ⟨hProgress, fun _ => hNone⟩
  | putStatus => cases h; exact ⟨⟨hProgress, rfl, rfl⟩, fun _ => hNone⟩
  | putPrint => cases h; exact ⟨hProgress, fun _ => hNone⟩
  | stopProduce asleep =>
    obtain ⟨vals, -, ⟨⟩⟩ | ⟨-, ⟨⟩⟩ | ⟨-, ⟨⟩⟩ := attempt_cases h
    · exact ⟨hProgress, fun _ => hNone⟩
    · exact ⟨hProgress, fun _ => hNone⟩
    · exact ⟨hProgress, fun _ => hNone⟩
  | sendStatus =>
    cases h
    obtain ⟨hTyped, rfl, hDecided⟩ := hProgress
    refine ⟨trivial, fun y hy => ?_⟩
    obtain rfl := List.mem_singleton.mp hy
    exact ⟨hDecided, Or.inl ⟨hTyped, rfl⟩⟩
  | startConsume asleep =>
    obtain ⟨vals, -, ⟨⟩⟩ | ⟨-, ⟨⟩⟩ | ⟨-, ⟨⟩⟩ := attempt_cases h
    · exact ⟨hProgress, fun _ => hNone⟩
    · exact ⟨hProgress, fun _ => hNone⟩
    · exact ⟨hProgress, fun _ => hNone⟩
  | getRing =>
    cases h
    exact ⟨⟨hProgress, congrArg some (ReqT.letter_setLetter _ _).symm⟩, fun _ => hNone⟩
  | getHead => cases h; exact ⟨hProgress, fun _ => hNone⟩
  | getPrint => cases h; exact ⟨hProgress, fun _ => hNone⟩
  | stopConsume asleep =>
    obtain ⟨vals, -, ⟨⟩⟩ | ⟨-, ⟨⟩⟩ | ⟨-, ⟨⟩⟩ := attempt_cases h
    · exact ⟨hProgress, fun _ => hNone⟩
    · exact ⟨hProgress, fun _ => hNone⟩
    · exact ⟨hProgress, fun _ => hNone⟩
  | getStatus =>
    cases h
    obtain ⟨hTyped, hRemoved⟩ := hProgress
    refine ⟨⟨hTyped, ?_, ReqT.status_setStatus _ _, rfl⟩, fun _ => hNone⟩
    exact hRemoved.trans (congrArg some (ReqT.letter_setStatus _ _).symm)
  | sendReq =>
    cases h
    obtain ⟨hTyped, hRemoved, hStatus, hDecided⟩ := hProgress
    refine ⟨trivial, fun y hy => ?_⟩
    obtain rfl := List.mem_singleton.mp hy
    exact ⟨hDecided, Or.inr ⟨hTyped, req, rfl, hStatus, hRemoved⟩⟩
  | logTime => cases h; exact ⟨trivial, fun _ => hNone⟩
  | close => cases h; exact ⟨trivial, fun _ => hNone⟩
  | finished => cases h

theorem answered_of_occurs {x : Exchange} (h : Occurs x .threads) : Answered x := by
  obtain ⟨n, req, status, sched, t, hMem⟩ := h
  refine (local_invariant (c := init req status)
    (Q := fun w h => Progress w (Exchange.none.after h) ∧ ∀ y ∈ exchanges .none h, Answered y)
    (fun t => ⟨trivial, nofun⟩) ?_ sched t).2 x hMem
  intro sh w input sh' w' es h hBefore hStep
  obtain ⟨hProgress, hNew⟩ := processClient_progress hBefore.1 hStep
  refine ⟨by rw [Exchange.after_append]; exact hProgress, fun y hy => ?_⟩
  rw [exchanges_append, List.mem_append] at hy
  exact hy.elim (hBefore.2 y) (hNew y)

end ServerThreads

/-! ## The replies of `server_2.c` -/

namespace ServerEpoll

/-- The reply object `r` of a request tells what the exchange decided. -/
def Tells (x : Exchange) (type : UInt8) (r : ReqT) : Prop :=
  (type = 'p'.toUInt8 ∨ type = 'c'.toUInt8 → x.decided = some r.status) ∧
    (type = 'c'.toUInt8 → r.status = OK → x.removed = some r.letter)

def Answered (x : Exchange) : Prop :=
  ∃ r : ReqT, x.reply = bytes r ∧ ∀ r₀ : ReqT, x.request = bytes r₀ → Tells x r₀.type r

theorem handle_exchange {b : Buffer} {req : ReqT} {result : Option (Buffer × ReqT)}
    {es : List Event} (h : handle b req = (result, es)) (x : Exchange) :
    exchanges x es = [] ∧ (x.after es).request = x.request ∧
      ∀ b' r, result = some (b', r) → Tells (x.after es) req.type r := by
  have hFull : ERR_BUF_FULL ≠ OK := by decide
  have hEmpty : ERR_BUF_EMPTY ≠ OK := by decide
  unfold handle at h
  split at h
  · next hp =>
    have hc : req.type ≠ 'c'.toUInt8 := by rw [hp]; decide
    split at h
    · cases h
      refine ⟨rfl, rfl, ?_⟩
      rintro _ _ ⟨⟩
      exact ⟨fun _ => by simp [Exchange.after, Exchange.next], fun h => absurd h hc⟩
    · cases h; exact ⟨rfl, rfl, nofun⟩
    · cases h; exact ⟨rfl, rfl, nofun⟩
    · simp only at h
      split at h
      · cases h
        refine ⟨rfl, rfl, ?_⟩
        rintro _ _ ⟨⟩
        exact ⟨fun _ => by simp [Exchange.after, Exchange.next], fun h => absurd h hc⟩
      · cases h
        refine ⟨rfl, rfl, ?_⟩
        rintro _ _ ⟨⟩
        exact ⟨fun _ => by simp [Exchange.after, Exchange.next], fun h => absurd h hc⟩
      · cases h; exact ⟨rfl, rfl, nofun⟩
      · cases h; exact ⟨rfl, rfl, nofun⟩
  · next hp =>
    split at h
    · split at h
      · cases h
        refine ⟨rfl, rfl, ?_⟩
        rintro _ _ ⟨⟩
        exact ⟨fun _ => by simp [Exchange.after, Exchange.next],
          fun _ h => absurd (by simpa using h) hEmpty⟩
      · cases h; exact ⟨rfl, rfl, nofun⟩
      · cases h; exact ⟨rfl, rfl, nofun⟩
      · simp only at h
        split at h
        · cases h
          refine ⟨rfl, rfl, ?_⟩
          rintro _ _ ⟨⟩
          exact ⟨fun _ => by simp [Exchange.after, Exchange.next],
            fun _ _ => by simp [Exchange.after, Exchange.next]⟩
        · cases h
          refine ⟨rfl, rfl, ?_⟩
          rintro _ _ ⟨⟩
          exact ⟨fun _ => by simp [Exchange.after, Exchange.next],
            fun _ h => absurd (by simpa using h) hFull⟩
        · cases h; exact ⟨rfl, rfl, nofun⟩
        · cases h; exact ⟨rfl, rfl, nofun⟩
    · next hc =>
      cases h
      refine ⟨rfl, rfl, ?_⟩
      rintro _ _ ⟨⟩
      exact ⟨fun h => absurd h (not_or.mpr ⟨hp, hc⟩), fun h => absurd h hc⟩

theorem serve_answered (b : Buffer) (req : ReqT) (stream : List Recv) (x : Exchange) :
    ∀ y ∈ exchanges x (serve b req stream).2, Answered y := by
  induction stream generalizing b req x with
  | nil => exact nofun
  | cons outcome rest ih =>
    cases outcome with
    | closed => exact nofun
    | error => exact nofun
    | data msg =>
      intro y hy
      unfold serve at hy
      split at hy
      · next es hHandle =>
        have hNone := (handle_exchange hHandle (x.next (.recv msg))).1
        simp [exchanges, hNone] at hy
      · next b' r es hHandle =>
        obtain ⟨hNone, hRequest, hTells⟩ := handle_exchange hHandle (x.next (.recv msg))
        simp only [exchanges, List.cons_append, exchanges_append, hNone, List.nil_append,
          List.mem_cons] at hy
        rcases hy with rfl | hy
        · refine ⟨r, rfl, fun r₀ hr₀ => ?_⟩
          have hType : r₀ = recvInto req msg := by
            rw [show msg = bytes r₀ from hRequest.symm.trans hr₀, recvInto_bytes]
          rw [hType]
          exact hTells b' r rfl
        · exact ih _ _ _ y hy

theorem mainLoop_answered (b : Buffer) (wakes : List Wake) (x : Exchange) :
    ∀ y ∈ exchanges x (mainLoop b wakes).2, Answered y := by
  induction wakes generalizing b x with
  | nil => exact nofun
  | cons w rest ih =>
    have hBody (x : Exchange) :
        ∀ y ∈ exchanges x (if w.accepted then serve b w.req w.stream
          else ((serve b w.req [.error]).1, .perror "accept" :: (serve b w.req [.error]).2)).2,
          Answered y := by
      split
      · exact serve_answered b w.req w.stream x
      · exact serve_answered b w.req [.error] x
    intro y hy
    unfold mainLoop at hy
    simp only at hy
    split at hy
    · exact hBody x y hy
    · rw [exchanges_append, List.mem_append] at hy
      exact hy.elim (hBody x y) (ih _ _ y)

end ServerEpoll

/-! ## Agreement -/

theorem agrees_epoll (cmd : Command) (letter : UInt8) (req : ReqT) :
    Agrees .epoll cmd letter req := by
  rintro x ⟨wakes, hMem⟩ hRequest
  obtain ⟨r, hReply, hTells⟩ := ServerEpoll.mainLoop_answered .init wakes .none x hMem
  have hReceived : received cmd letter req x.reply = r := by
    rw [received, hReply, recvInto_bytes]
  obtain ⟨hDecided, hRemoved⟩ := hTells _ hRequest
  rw [type_request] at hDecided hRemoved
  rw [hReceived]
  have hStatus : x.decided = some r.status := hDecided (by cases cmd <;> simp)
  refine ⟨hStatus, fun hConsume hOk => ?_⟩
  subst hConsume
  exact hRemoved (by simp) (Option.some.inj (hStatus.symm.trans hOk))

theorem agrees_threads_consume (letter : UInt8) (req : ReqT) :
    Agrees .threads .consume letter req := by
  intro x hOccurs hRequest
  obtain ⟨hDecided, ⟨hTyped, -⟩ | ⟨-, r, hReply, hStatus, hRemoved⟩⟩ :=
    ServerThreads.answered_of_occurs hOccurs
  · have hType := hTyped _ hRequest
    rw [type_request] at hType
    exact absurd hType (by decide)
  · have hReceived : received .consume letter req x.reply = r := by
      rw [received, hReply, recvInto_bytes]
    rw [hReceived, hStatus]
    exact ⟨hDecided, fun _ _ => hRemoved⟩

/-- The bare `int` does not reach the status field. -/
theorem status_recvInto_intBytes (r : ReqT) (v : BitVec 32) :
    ReqT.status (recvInto r (intBytes v)) = r.status := by
  simp [ReqT.status, recvInto, intBytes]

/-- `server_1.c` can always answer a producer: one worker alone does it. -/
theorem produce_occurs (letter : UInt8) (req : ReqT) :
    ∃ x, Occurs x .threads ∧ x.request = bytes (request .produce letter req) ∧
      x.decided = some OK ∧ x.reply = intBytes OK := by
  obtain ⟨vals, hStart⟩ :
      ∃ vals, semop ServerThreads.initSems ServerThreads.startProduce = .done vals := ⟨_, rfl⟩
  obtain ⟨vals', hStop⟩ : ∃ vals', semop vals ServerThreads.stopProduce = .done vals' := by
    cases hStart
    exact ⟨_, rfl⟩
  refine ⟨⟨bytes (request .produce letter req), some OK, none, intBytes OK⟩,
    ⟨1, fun _ => req, fun _ => OK,
      List.replicate 9 (0, .data (bytes (request .produce letter req))), 0, ?_⟩, rfl, rfl, rfl⟩
  simp [ServerThreads.serve, run, resume, advance, poolStep, ServerThreads.processClient,
    ServerThreads.init, ServerThreads.initShared, ServerThreads.call, attempt, hStart, hStop,
    own, exchanges, Exchange.next, List.replicate]

theorem agrees_threads_produce (letter : UInt8) (req : ReqT) :
    Agrees .threads .produce letter req ↔ req.status = OK := by
  constructor
  · intro hAgrees
    obtain ⟨x, hOccurs, hRequest, hDecided, hReply⟩ := produce_occurs letter req
    have hStatus := (hAgrees x hOccurs hRequest).1
    rw [hDecided, hReply, received, status_recvInto_intBytes, status_request] at hStatus
    exact (Option.some.inj hStatus).symm
  · intro hOk x hOccurs hRequest
    obtain ⟨hDecided, ⟨-, hReply⟩ | ⟨hTyped, -⟩⟩ := ServerThreads.answered_of_occurs hOccurs
    · refine ⟨?_, fun h => nomatch h⟩
      rw [hDecided, hReply, received, status_recvInto_intBytes, status_request, hOk]
    · have hType := hTyped _ hRequest
      rw [type_request] at hType
      exact absurd hType (by decide)

/-- The client agrees with its server unless it is a producer of `server_1.c` whose
request object happened to hold another status than `OK`. -/
theorem agrees_iff (srv : Server) (cmd : Command) (letter : UInt8) (req : ReqT) :
    Agrees srv cmd letter req ↔ (srv = .threads → cmd = .produce → req.status = OK) := by
  cases srv with
  | epoll => simp [agrees_epoll cmd letter req]
  | threads =>
    cases cmd with
    | consume => simp [agrees_threads_consume letter req]
    | produce => simp [agrees_threads_produce letter req]

/-- A request object that held the status 1. -/
theorem not_agrees_dirty :
    ¬ Agrees .threads .produce 'a'.toUInt8 (ReqT.setStatus (fun _ => 0) 1) := by
  rw [agrees_threads_produce]
  decide

end OsLabs.Sockets
