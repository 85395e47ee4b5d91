import OsLabs.Multiplex.Delivery
import OsLabs.Runs.Fairness

/-!
# The clients' mains (`main` of `multiplex/client.c`)

A client makes three hundred calls, two of one kind and one of the other in turn: with mode `p`
it puts in a hundred letters more than it takes out, otherwise a hundred fewer. A call only
returns when the server has executed it, so when all clients have finished, the buffer holds
the difference. It holds at most `ARR_SIZE` letters, so there were as many clients of the one
mode as of the other.
-/

namespace OsLabs.Multiplex.Mains

open Memory Runs Sockets

/-- A client in iteration `iter` of its loop; `locals` are the uninitialised variables of its
calls. -/
structure Process where
  party : Party
  iter : Nat
  producerMode : Bool
  locals : Nat → Object BUF_SIZE × Object 4

/-- Whether iteration `iter` calls `produce`. -/
def produces (producerMode : Bool) (iter : Nat) : Bool :=
  if producerMode then iter % 3 != 2 else iter % 3 == 2

inductive Action where
  | call
  | client
  | server

def step (s : Server) (p : Process) : Action → Option (Server × Process × List Event)
  | .call =>
    if p.iter < 300 then
      let (buf, status) := p.locals p.iter
      (Multiplex.step s p.party
        (if produces p.producerMode p.iter then .produce buf status else .consume buf)).map
        fun r => (r.1, { p with party := r.2.1 }, r.2.2)
    else none
  | .client =>
    (Multiplex.step s p.party .client).map fun r =>
      match r.2.1.pc with
      | .idle => (r.1, { p with party := r.2.1, iter := p.iter + 1 }, r.2.2)
      | _ => (r.1, { p with party := r.2.1 }, r.2.2)
  | .server =>
    (Multiplex.step s p.party .server).map fun r => (r.1, { p with party := r.2.1 }, r.2.2)

variable {τ : Type}

def init (buf : Object BUF_SIZE) (producerMode : τ → Bool)
    (locals : τ → Nat → Object BUF_SIZE × Object 4) : Conf τ Server Process :=
  ⟨initServer buf, fun t => ⟨initParty (fun _ => 0) (fun _ => 0), 0, producerMode t, locals t⟩⟩

def execute [DecidableEq τ] (buf : Object BUF_SIZE) (producerMode : τ → Bool)
    (locals : τ → Nat → Object BUF_SIZE × Object 4) (sched : List (τ × Action)) :
    Conf τ Server Process × List (τ × Event) :=
  run (poolStep step) (init buf producerMode locals) sched

/-- All calls have returned. -/
def Process.Done (p : Process) : Prop := p.iter = 300 ∧ p.party.pc = .idle

/-! ## Calls that have returned -/

/-- The calls of either kind in the first `k` iterations. -/
def made (producerMode : Bool) (k : Nat) : Nat := (List.range k).countP (produces producerMode)
def taken (producerMode : Bool) (k : Nat) : Nat :=
  (List.range k).countP fun i => !produces producerMode i

theorem made_succ (producerMode : Bool) (k : Nat) :
    made producerMode (k + 1) = made producerMode k + (produces producerMode k).toNat := by
  rw [made, List.range_succ, List.countP_append, ← made]
  cases h : produces producerMode k <;> simp [h]

theorem taken_succ (producerMode : Bool) (k : Nat) :
    taken producerMode (k + 1) = taken producerMode k + (!produces producerMode k).toNat := by
  rw [taken, List.range_succ, List.countP_append, ← taken]
  cases h : produces producerMode k <;> simp [h]

/-- A letter that the server has enqueued for a `produce` that has not returned. -/
def granted (p : Party) : Nat :=
  match p.pc with
  | .produceRecv => if p.reply = some (intBytes OK) then 1 else 0
  | .produceTest => if p.statusValue = OK then 1 else 0
  | _ => 0

/-- The call a client is in is that of its iteration. -/
def Process.InCall (p : Process) : Prop :=
  match p.party.pc with
  | .idle => p.iter ≤ 300
  | .produceSend | .produceRecv | .produceTest =>
    p.iter < 300 ∧ produces p.producerMode p.iter = true
  | .consumeSend | .consumeRecv | .consumeTest =>
    p.iter < 300 ∧ produces p.producerMode p.iter = false

/-- The letters that the server has enqueued, and dequeued, for a client. -/
def Process.given (p : Process) : Nat := made p.producerMode p.iter + granted p.party
def Process.got (p : Process) : Nat := taken p.producerMode p.iter + (inFlight p.party).length

theorem intBytes_ok_iff (v : BitVec 32) (h : v = OK ∨ v = BUFFER_FULL_ERR) :
    intBytes v = intBytes OK ↔ v = OK := by
  rcases h with rfl | rfl
  · simp
  · decide

/-- What a step of a client tells about the letters enqueued and returned for it. -/
structure Tells (p p' : Process) (es : List Event) : Prop where
  inCall : p'.InCall
  given : p'.given = p.given + (enqueued es).length
  returned : taken p'.producerMode p'.iter = taken p.producerMode p.iter + (returned es).length
  mode : p'.producerMode = p.producerMode

theorem call_tells {s s' : Server} {p p' : Process} {h es : List Event}
    (hGood : Good p.party h) (hStep : step s p .call = some (s', p', es)) : Tells p p' es := by
  obtain ⟨⟨pc, l, buf, status, request, reply⟩, iter, mode, locals⟩ := p
  simp only [step] at hStep
  split at hStep
  · next hLess =>
    cases pc with
    | idle =>
      cases hKind : produces mode iter with
      | true =>
        simp only [hKind, if_true, Multiplex.step, Option.map_some] at hStep
        cases hStep
        exact ⟨⟨hLess, hKind⟩, rfl, rfl, rfl⟩
      | false =>
        simp only [hKind, Bool.false_eq_true, if_false, Multiplex.step, Option.map_some] at hStep
        cases hStep
        exact ⟨⟨hLess, hKind⟩, rfl, rfl, rfl⟩
    | _ =>
      exfalso
      split at hStep <;> cases hStep
  · cases hStep

theorem client_tells {s s' : Server} {p p' : Process} {h es : List Event}
    (hGood : Good p.party h) (hCall : p.InCall) (hStep : step s p .client = some (s', p', es)) :
    Tells p p' es := by
  have hAt := hGood.call
  obtain ⟨⟨pc, l, buf, status, request, reply⟩, iter, mode, locals⟩ := p
  cases pc with
  | idle => cases hStep
  | produceSend =>
    cases hStep
    obtain ⟨-, -, hReply⟩ := hAt
    obtain rfl : reply = none := hReply
    exact ⟨hCall, rfl, rfl, rfl⟩
  | produceRecv =>
    cases reply with
    | none => cases hStep
    | some msg =>
      cases hStep
      obtain ⟨-, hNone, -⟩ | ⟨-, v, hReply, hSettled⟩ := hAt
      · cases hNone
      · cases hReply
        refine ⟨hCall, ?_, rfl, rfl⟩
        have hValue : v = OK ∨ v = BUFFER_FULL_ERR := hSettled.imp And.left And.left
        have hStatus : Party.statusValue
            ⟨.produceTest, l, buf, recvInto status (intBytes v), request, none⟩ = v := by
          simp [Party.statusValue, recvInto, intBytes]
        simp only [Process.given, granted, hStatus, Option.some.injEq, intBytes_ok_iff v hValue]
        rfl
  | produceTest =>
    obtain ⟨-, -, hSettled⟩ := hAt
    obtain ⟨hLess, hKind⟩ := hCall
    by_cases hFull : Party.statusValue ⟨.produceTest, l, buf, status, request, reply⟩ =
        BUFFER_FULL_ERR
    · simp only [step, Multiplex.step, clientStep, if_pos hFull] at hStep
      cases hStep
      refine ⟨⟨hLess, hKind⟩, ?_, rfl, rfl⟩
      have hNot : ¬ Party.statusValue ⟨.produceTest, l, buf, status, request, reply⟩ = OK := by
        rw [hFull]
        decide
      simp only [Process.given, granted, if_neg hNot]
      rfl
    · simp only [step, Multiplex.step, clientStep, if_neg hFull] at hStep
      cases hStep
      obtain ⟨hOk, -⟩ | ⟨hStatus, -⟩ := hSettled
      · refine ⟨hLess, ?_, ?_, rfl⟩
        · simp only [Process.given, granted, if_pos hOk, made_succ]
          rw [show produces mode iter = true from hKind]
          rfl
        · show taken mode (iter + 1) = taken mode iter + 0
          rw [taken_succ, show produces mode iter = true from hKind]
          rfl
      · exact absurd hStatus hFull
  | consumeSend =>
    cases hStep
    exact ⟨hCall, rfl, rfl, rfl⟩
  | consumeRecv =>
    cases reply with
    | none => cases hStep
    | some msg =>
      cases hStep
      exact ⟨hCall, rfl, rfl, rfl⟩
  | consumeTest =>
    obtain ⟨hLess, hKind⟩ := hCall
    by_cases hEmpty : buf 0 = toChar BUFFER_EMPTY_ERR
    · simp only [step, Multiplex.step, clientStep, if_pos hEmpty] at hStep
      cases hStep
      exact ⟨⟨hLess, hKind⟩, rfl, rfl, rfl⟩
    · simp only [step, Multiplex.step, clientStep, if_neg hEmpty] at hStep
      cases hStep
      refine ⟨hLess, ?_, ?_, rfl⟩
      · show made mode (iter + 1) + 0 = made mode iter + 0 + 0
        rw [made_succ, show produces mode iter = false from hKind]
        rfl
      · show taken mode (iter + 1) = taken mode iter + 1
        rw [taken_succ, show produces mode iter = false from hKind]
        rfl

theorem server_tells {s s' : Server} {p p' : Process} {h g es : List Event}
    (hGood : Good p.party h) (hServer : Conserves s g) (hCall : p.InCall)
    (hStep : step s p .server = some (s', p', es)) : Tells p p' es := by
  obtain ⟨⟨pc, l, buf, status, request, reply⟩, iter, mode, locals⟩ := p
  simp only [step, Multiplex.step, hServer.1, Bool.false_eq_true, if_false] at hStep
  cases request with
  | none => cases hStep
  | some msg =>
    obtain ⟨b, rfl, hReply, -, ⟨hPc, hP, -⟩ | ⟨hPc, hC⟩⟩ := hGood.request_cases rfl
    · obtain rfl : pc = .produceRecv := hPc
      obtain rfl : reply = none := hReply
      obtain ⟨-, q, hHolds, -⟩ := hServer
      simp only [receive, recvInto_bytes] at hStep
      by_cases hRoom : q.length < ARR_SIZE
      · obtain ⟨buffer, hHandle, -⟩ := handle_produce (s := { s with buf := b }) hHolds hP hRoom
        rw [hHandle] at hStep
        cases hStep
        exact ⟨hCall, rfl, rfl, rfl⟩
      · rw [handle_full (s := { s with buf := b }) hHolds hP hRoom] at hStep
        cases hStep
        exact ⟨hCall, rfl, rfl, rfl⟩
    · obtain rfl : pc = .consumeRecv := hPc
      obtain rfl : reply = none := hReply
      obtain ⟨-, q, hHolds, -⟩ := hServer
      simp only [receive, recvInto_bytes] at hStep
      cases q with
      | nil =>
        rw [handle_empty (s := { s with buf := b }) hHolds hC] at hStep
        cases hStep
        exact ⟨hCall, rfl, rfl, rfl⟩
      | cons c q =>
        obtain ⟨buffer, hHandle, -⟩ := handle_consume (s := { s with buf := b }) hHolds hC
        rw [hHandle] at hStep
        cases hStep
        exact ⟨hCall, rfl, rfl, rfl⟩

theorem step_party {s s' : Server} {p p' : Process} {a : Action} {es : List Event}
    (hStep : step s p a = some (s', p', es)) :
    ∃ i, Multiplex.step s p.party i = some (s', p'.party, es) := by
  cases a with
  | call =>
    simp only [step] at hStep
    split at hStep
    · obtain ⟨⟨s₁, party, es₁⟩, hMove, hEq⟩ := Option.map_eq_some_iff.mp hStep
      cases hEq
      exact ⟨_, hMove⟩
    · cases hStep
  | client =>
    obtain ⟨⟨s₁, party, es₁⟩, hMove, hEq⟩ := Option.map_eq_some_iff.mp hStep
    refine ⟨.client, ?_⟩
    obtain ⟨pc, l, buf, status, request, reply⟩ := party
    cases pc <;> cases hEq <;> exact hMove
  | server =>
    obtain ⟨⟨s₁, party, es₁⟩, hMove, hEq⟩ := Option.map_eq_some_iff.mp hStep
    cases hEq
    exact ⟨.server, hMove⟩

theorem step_tells {s s' : Server} {p p' : Process} {a : Action} {h g es : List Event}
    (hGood : Good p.party h) (hServer : Conserves s g) (hCall : p.InCall)
    (hStep : step s p a = some (s', p', es)) : Tells p p' es := by
  cases a with
  | call => exact call_tells hGood hStep
  | client => exact client_tells hGood hCall hStep
  | server => exact server_tells hGood hServer hCall hStep

/-! ## Whole runs -/

variable [Fintype τ] [DecidableEq τ]

/-- A client after the events `h` of its calls. -/
structure Client (producerMode : Bool) (p : Process) (h : List Event) : Prop where
  good : Good p.party h
  inCall : p.InCall
  mode : p.producerMode = producerMode
  returned : (returned h).length = taken p.producerMode p.iter

theorem Client.got {producerMode : Bool} {p : Process} {h : List Event}
    (hClient : Client producerMode p h) : (dequeued h).length = p.got := by
  rw [hClient.good.delivered, List.length_append, hClient.returned]
  rfl

/-- The server and its clients after the events `h`. -/
structure Inv (producerMode : τ → Bool) (c : Conf τ Server Process) (h : List (τ × Event)) :
    Prop where
  client : ∀ t, Client (producerMode t) (c.procs t) (own t h)
  conserves : Conserves c.shared (h.map Prod.snd)
  given : (enqueued (h.map Prod.snd)).length = totalRank Process.given c.procs
  got : (dequeued (h.map Prod.snd)).length = totalRank Process.got c.procs

theorem inv_init (buf : Object BUF_SIZE) (producerMode : τ → Bool)
    (locals : τ → Nat → Object BUF_SIZE × Object 4) :
    Inv producerMode (init buf producerMode locals) [] := by
  refine ⟨fun t => ⟨good_init _ _, Nat.zero_le _, rfl, rfl⟩, conserves_init buf, ?_, ?_⟩
  · exact (Finset.sum_eq_zero fun t _ => rfl).symm
  · exact (Finset.sum_eq_zero fun t _ => rfl).symm

theorem Inv.step {producerMode : τ → Bool} {c : Conf τ Server Process} {h : List (τ × Event)}
    (hInv : Inv producerMode c h) {t : τ} {a : Action} {s : Server} {p : Process}
    {es : List Event} (hStep : Mains.step c.shared (c.procs t) a = some (s, p, es)) :
    Inv producerMode ⟨s, Function.update c.procs t p⟩ (h ++ es.map (Prod.mk t)) := by
  have hOld := hInv.client t
  obtain ⟨i, hParty⟩ := step_party hStep
  obtain ⟨hGood, hConserves⟩ := step_good hOld.good hInv.conserves hParty
  have hTells := step_tells hOld.good hInv.conserves hOld.inCall hStep
  have hNew : Client (producerMode t) p (own t h ++ es) := by
    refine ⟨hGood, hTells.inCall, hTells.mode.trans hOld.mode, ?_⟩
    rw [returned_append, List.length_append, hOld.returned, hTells.returned]
  refine ⟨fun u => ?_, ?_, ?_, ?_⟩
  · by_cases hu : t = u
    · subst hu
      simpa only [own_append_self, Function.update_self] using hNew
    · simpa only [own_append_ne hu, Function.update_of_ne (Ne.symm hu)] using hInv.client u
  · rw [map_snd_append]
    exact hConserves
  · have hSum := totalRank_update Process.given c.procs t p
    have hGiven := hInv.given
    have hMore := hTells.given
    rw [map_snd_append, enqueued_append, List.length_append]
    dsimp only
    omega
  · have hSum := totalRank_update Process.got c.procs t p
    have hGot := hInv.got
    have hBefore := hOld.got
    have hAfter := hNew.got
    rw [dequeued_append, List.length_append] at hAfter
    rw [map_snd_append, dequeued_append, List.length_append]
    dsimp only
    omega

theorem inv_execute (buf : Object BUF_SIZE) (producerMode : τ → Bool)
    (locals : τ → Nat → Object BUF_SIZE × Object 4) (sched : List (τ × Action)) :
    Inv producerMode (execute buf producerMode locals sched).1
      (execute buf producerMode locals sched).2 :=
  pool_invariant (inv_init buf producerMode locals)
    (fun _ _ _ _ _ _ _ hInv hStep => hInv.step hStep) sched

/-- The clients of a mode. -/
def clients (producerMode : τ → Bool) (mode : Bool) : Nat :=
  (Finset.univ.filter fun t => producerMode t = mode).card

omit [DecidableEq τ] in
theorem totalRank_done {rank : Process → Nat} {procs : τ → Process} (producerMode : τ → Bool)
    {k m : Nat} (hRank : ∀ t, rank (procs t) = if producerMode t = true then k else m) :
    totalRank rank procs = clients producerMode true * k + clients producerMode false * m := by
  unfold totalRank clients
  rw [Finset.sum_congr rfl fun t _ => hRank t, Finset.sum_ite, Finset.sum_const, Finset.sum_const]
  simp only [Bool.not_eq_true, nsmul_eq_mul, Nat.cast_id]

theorem Process.Done.given {p : Process} (h : p.Done) :
    p.given = if p.producerMode = true then 200 else 100 := by
  obtain ⟨hIter, hIdle⟩ := h
  have hMade : ∀ mode, made mode 300 = if mode = true then 200 else 100 := by decide +kernel
  rw [Process.given, hIter, granted, hIdle, hMade]
  rfl

theorem Process.Done.got {p : Process} (h : p.Done) :
    p.got = if p.producerMode = true then 100 else 200 := by
  obtain ⟨hIter, hIdle⟩ := h
  have hTaken : ∀ mode, taken mode 300 = if mode = true then 100 else 200 := by decide +kernel
  rw [Process.got, hIter, inFlight, hIdle, hTaken]
  rfl

/-- When everybody has finished, the buffer holds what the one mode has put in too much. -/
theorem Inv.balanced {producerMode : τ → Bool} {c : Conf τ Server Process} {h : List (τ × Event)}
    (hInv : Inv producerMode c h) (hDone : ∀ t, (c.procs t).Done) :
    clients producerMode true = clients producerMode false := by
  have hGiven := hInv.given
  have hGot := hInv.got
  rw [totalRank_done producerMode (k := 200) (m := 100)] at hGiven
  · rw [totalRank_done producerMode (k := 100) (m := 200)] at hGot
    · obtain ⟨-, q, hHolds, hQueue⟩ := hInv.conserves
      have hLength := congrArg List.length hQueue
      have hRoom := hHolds.empty
      rw [List.length_append] at hLength
      simp only [ARR_SIZE] at hRoom
      omega
    · exact fun t => by rw [(hDone t).got, (hInv.client t).mode]
  · exact fun t => by rw [(hDone t).given, (hInv.client t).mode]

/-! ## A pair of clients can serve each other -/

/-- The server waits, with the letters `q` in its buffer. -/
def Waits (s : Server) (q : List UInt8) : Prop := s.exited = false ∧ s.buffer.Holds q

/-- The client is between two calls. -/
structure Between (mode : Bool) (k : Nat) (p : Process) : Prop where
  idle : p.party.pc = .idle
  iter : p.iter = k
  mode : p.producerMode = mode

theorem call_idle (s : Server) (l : UInt8) (buf : Object BUF_SIZE) (status : Object 4)
    (request reply : Option (List UInt8)) {k : Nat} (mode : Bool)
    (locals : Nat → Object BUF_SIZE × Object 4) (hLess : k < 300) :
    step s ⟨⟨.idle, l, buf, status, request, reply⟩, k, mode, locals⟩ .call =
      some (s, ⟨if produces mode k then
          ⟨.produceSend, l, (locals k).1, (locals k).2, request, reply⟩
        else ⟨.consumeSend, l, (locals k).1, status, request, reply⟩, k, mode, locals⟩, []) := by
  simp only [step, if_pos hLess]
  cases produces mode k <;> rfl

theorem serve_request {s s' : Server} {p : Process} {b : Object BUF_SIZE} {es : List Event}
    {reply : Option (List UInt8)} (hExited : s.exited = false)
    (hRequest : p.party.request = some (bytes b))
    (hHandle : handleClientCommand { s with buf := b } = (s', reply, es)) :
    step s p .server =
      some (s', { p with party := { p.party with request := none, reply := reply } }, es) := by
  rw [hExited] at hHandle
  simp only [step, Multiplex.step, hExited, Bool.false_eq_true, if_false, hRequest, receive,
    recvInto_bytes]
  rw [hHandle]
  rfl

theorem produce_solo {s : Server} {p : Process} {q : List UInt8} {mode : Bool} {k : Nat}
    (hWaits : Waits s q) (hp : Between mode k p) (hLess : k < 300)
    (hKind : produces mode k = true) (hRoom : q.length < ARR_SIZE) :
    ∃ s' p' x, Solo step s p s' p' ∧ Waits s' (q ++ [x]) ∧ Between mode (k + 1) p' := by
  obtain ⟨⟨pc, l, buf, status, request, reply⟩, iter, m, locals⟩ := p
  obtain ⟨rfl, rfl, rfl⟩ := hp
  dsimp only at hLess hKind
  obtain ⟨hExited, hHolds⟩ := hWaits
  let b := setFirst (locals iter).1 'P'.toUInt8 l
  obtain ⟨buffer, hHandle, hHolds'⟩ := handle_produce (s := { s with buf := b }) hHolds rfl hRoom
  have hCall := call_idle s l buf status request reply m locals hLess
  rw [hKind, if_pos rfl] at hCall
  have hServe := serve_request (s := s) (p := ⟨⟨.produceRecv, l, b, (locals iter).2,
    some (bytes b), reply⟩, iter, m, locals⟩) hExited rfl hHandle
  have hStatus : ¬ Party.statusValue ⟨.produceTest, l, b, recvInto (locals iter).2 (intBytes OK),
      none, none⟩ = BUFFER_FULL_ERR := by
    simp [Party.statusValue, recvInto, intBytes, OK, BUFFER_FULL_ERR]
  have hReturn : step { s with buf := b, buffer := buffer } ⟨⟨.produceTest, l, b,
      recvInto (locals iter).2 (intBytes OK), none, none⟩, iter, m, locals⟩ .client =
      some ({ s with buf := b, buffer := buffer },
        ⟨⟨.idle, if l = 'z'.toUInt8 then 'a'.toUInt8 else l + 1, b,
          recvInto (locals iter).2 (intBytes OK), none, none⟩, iter + 1, m, locals⟩,
        [.produced (b 1)]) := by
    simp only [step, Multiplex.step, clientStep, if_neg hStatus]
    rfl
  exact ⟨_, _, _, .step hCall (.step (i := .client) rfl (.step hServe (.step (i := .client) rfl
    (.step hReturn (.refl _ _))))), ⟨hExited, hHolds'⟩, ⟨rfl, rfl, rfl⟩⟩

theorem consume_solo {s : Server} {p : Process} {x : UInt8} {q : List UInt8} {mode : Bool} {k : Nat}
    (hWaits : Waits s (x :: q)) (hp : Between mode k p) (hLess : k < 300)
    (hKind : produces mode k = false) :
    ∃ s' p', Solo step s p s' p' ∧ Waits s' q ∧ Between mode (k + 1) p' := by
  obtain ⟨⟨pc, l, buf, status, request, reply⟩, iter, m, locals⟩ := p
  obtain ⟨rfl, rfl, rfl⟩ := hp
  dsimp only at hLess hKind
  obtain ⟨hExited, hHolds⟩ := hWaits
  let b := Function.update (locals iter).1 0 'C'.toUInt8
  have hC : b 0 = 'C'.toUInt8 := Function.update_self _ _ _
  obtain ⟨buffer, hHandle, hHolds'⟩ := handle_consume (s := { s with buf := b }) hHolds hC
  have hCall := call_idle s l buf status request reply m locals hLess
  rw [hKind, if_neg (by decide)] at hCall
  have hServe := serve_request (s := s) (p := ⟨⟨.consumeRecv, l, b, status, some (bytes b), reply⟩,
    iter, m, locals⟩) hExited rfl hHandle
  let got := recvInto b ((bytes (setFirst b (toChar OK) x)).take SIZEOF_POINTER)
  have hLetter : ¬ got 0 = toChar BUFFER_EMPTY_ERR := by
    simp [got, recvInto, bytes, SIZEOF_POINTER, setFirst, toChar, OK, BUFFER_EMPTY_ERR]
  have hReturn : ∀ s, step s ⟨⟨.consumeTest, l, got, status, none, none⟩, iter, m, locals⟩
      .client = some (s, ⟨⟨.idle, l, got, status, none, none⟩, iter + 1, m, locals⟩,
        [.returned (got 1)]) := by
    intro s
    simp only [step, Multiplex.step, clientStep, if_neg hLetter]
    rfl
  exact ⟨_, _, .step hCall (.step (i := .client) rfl (.step hServe (.step (i := .client) rfl
    (.step (hReturn _) (.refl _ _))))), ⟨hExited, hHolds'⟩, ⟨rfl, rfl, rfl⟩⟩

omit [Fintype τ] in
/-- A client takes out the letter that another puts into the empty buffer. -/
theorem exchange {c : Conf τ Server Process} {t u : τ} {k : Nat} {mode mode' : Bool} (hne : t ≠ u)
    (hLess : k < 300) (hWaits : Waits c.shared []) (ht : Between mode k (c.procs t))
    (hu : Between mode' k (c.procs u)) (hPut : produces mode k = true)
    (hTake : produces mode' k = false) :
    ∃ c', Leads (poolStep step) c c' ∧ Waits c'.shared [] ∧ Between mode (k + 1) (c'.procs t) ∧
      Between mode' (k + 1) (c'.procs u) ∧ ∀ v, v ≠ t → v ≠ u → c'.procs v = c.procs v := by
  obtain ⟨s, p, x, hProduce, hFull, hp⟩ := produce_solo hWaits ht hLess hPut (by decide)
  obtain ⟨s', p', hConsume, hEmpty, hp'⟩ := consume_solo hFull hu hLess hTake
  have hFirst := hProduce.leads c.procs (t := t) rfl
  have hSecond := hConsume.leads (Function.update c.procs t p) (t := u)
    (Function.update_of_ne hne.symm _ _)
  refine ⟨_, hFirst.trans hSecond, hEmpty, ?_, ?_, fun v hvt hvu => ?_⟩
  · dsimp only
    rwa [Function.update_of_ne hne, Function.update_self]
  · dsimp only
    rwa [Function.update_self]
  · dsimp only
    rw [Function.update_of_ne hvu, Function.update_of_ne hvt]

theorem produces_other (k : Nat) : produces false k = !produces true k := by
  simp [produces, bne]

omit [Fintype τ] in
/-- Two clients of different modes make their first `k` calls together. -/
theorem pair_calls {c : Conf τ Server Process} {t u : τ} {k : Nat} (hne : t ≠ u) (hLe : k ≤ 300)
    (hWaits : Waits c.shared []) (ht : Between true 0 (c.procs t))
    (hu : Between false 0 (c.procs u)) :
    ∃ c', Leads (poolStep step) c c' ∧ Waits c'.shared [] ∧ Between true k (c'.procs t) ∧
      Between false k (c'.procs u) ∧ ∀ v, v ≠ t → v ≠ u → c'.procs v = c.procs v := by
  induction k with
  | zero => exact ⟨c, .refl _ _, hWaits, ht, hu, fun _ _ _ => rfl⟩
  | succ k ih =>
    obtain ⟨c₁, hLeads, hWaits₁, ht₁, hu₁, hSame₁⟩ := ih (Nat.le_of_succ_le hLe)
    have hOther := produces_other k
    cases hKind : produces true k with
    | true =>
      rw [hKind] at hOther
      obtain ⟨c₂, hNext, hWaits₂, ht₂, hu₂, hSame₂⟩ :=
        exchange hne hLe hWaits₁ ht₁ hu₁ hKind hOther
      exact ⟨c₂, hLeads.trans hNext, hWaits₂, ht₂, hu₂,
        fun v hvt hvu => (hSame₂ v hvt hvu).trans (hSame₁ v hvt hvu)⟩
    | false =>
      rw [hKind] at hOther
      obtain ⟨c₂, hNext, hWaits₂, hu₂, ht₂, hSame₂⟩ :=
        exchange hne.symm hLe hWaits₁ hu₁ ht₁ hOther hKind
      exact ⟨c₂, hLeads.trans hNext, hWaits₂, ht₂, hu₂,
        fun v hvt hvu => (hSame₂ v hvu hvt).trans (hSame₁ v hvt hvu)⟩

omit [Fintype τ] in
/-- Without `t` and `u` there is one client less of the mode of `t`, when `u` has the other. -/
theorem card_erase_pair {producerMode : τ → Bool} {waiting : Finset τ} {t u : τ} {mode : Bool}
    (ht : t ∈ waiting) (htMode : producerMode t = mode) (huMode : producerMode u ≠ mode) :
    (((waiting.erase t).erase u).filter fun v => producerMode v = mode).card + 1 =
      (waiting.filter fun v => producerMode v = mode).card := by
  have hIn : t ∈ waiting.filter fun v => producerMode v = mode :=
    Finset.mem_filter.mpr ⟨ht, htMode⟩
  have hOut : u ∉ (waiting.erase t).filter fun v => producerMode v = mode :=
    fun h => huMode (Finset.mem_filter.mp h).2
  rw [Finset.filter_erase, Finset.erase_eq_of_notMem hOut, Finset.filter_erase,
    Finset.card_erase_of_mem hIn]
  exact Nat.sub_add_cancel (Finset.card_pos.mpr ⟨t, hIn⟩)

omit [Fintype τ] in
/-- Pair after pair, as long as as many clients of the one mode have not begun as of the other. -/
theorem pairs_call (producerMode : τ → Bool) {c : Conf τ Server Process} {waiting : Finset τ}
    {n : Nat} (hWaits : Waits c.shared [])
    (hNew : ∀ t ∈ waiting, Between (producerMode t) 0 (c.procs t))
    (hOld : ∀ t ∉ waiting, Between (producerMode t) 300 (c.procs t))
    (hCount : ∀ mode, (waiting.filter fun t => producerMode t = mode).card = n) :
    ∃ c', Leads (poolStep step) c c' ∧ ∀ t, Between (producerMode t) 300 (c'.procs t) := by
  induction n generalizing c waiting with
  | zero =>
    refine ⟨c, .refl _ _, fun t => hOld t fun ht => ?_⟩
    have hNone := Finset.card_eq_zero.mp (hCount (producerMode t))
    exact Finset.filter_eq_empty_iff.mp hNone ht rfl
  | succ n ih =>
    have hSome : ∀ mode, ∃ t ∈ waiting, producerMode t = mode := by
      intro mode
      have hPos : 0 < (waiting.filter fun t => producerMode t = mode).card := by
        rw [hCount mode]
        exact Nat.succ_pos n
      obtain ⟨t, ht⟩ := Finset.card_pos.mp hPos
      exact ⟨t, Finset.mem_filter.mp ht⟩
    obtain ⟨t, htWaits, htMode⟩ := hSome true
    obtain ⟨u, huWaits, huMode⟩ := hSome false
    have hne : t ≠ u := by
      rintro rfl
      rw [htMode] at huMode
      cases huMode
    obtain ⟨c₁, hLeads, hWaits₁, ht₁, hu₁, hSame⟩ := pair_calls hne (Nat.le_refl 300) hWaits
      (htMode ▸ hNew t htWaits) (huMode ▸ hNew u huWaits)
    have hLess : ∀ mode,
        (((waiting.erase t).erase u).filter fun v => producerMode v = mode).card = n := by
      intro mode
      have hAll := hCount mode
      cases mode with
      | true =>
        have hErase := card_erase_pair htWaits htMode (u := u) (by rw [huMode]; decide)
        omega
      | false =>
        have hErase := card_erase_pair huWaits huMode (u := t) (by rw [htMode]; decide)
        rw [Finset.erase_right_comm] at hErase
        omega
    have hNew₁ : ∀ v ∈ (waiting.erase t).erase u, Between (producerMode v) 0 (c₁.procs v) := by
      intro v hv
      obtain ⟨hvu, hv⟩ := Finset.mem_erase.mp hv
      obtain ⟨hvt, hv⟩ := Finset.mem_erase.mp hv
      rw [hSame v hvt hvu]
      exact hNew v hv
    have hOld₁ : ∀ v ∉ (waiting.erase t).erase u,
        Between (producerMode v) 300 (c₁.procs v) := by
      intro v hv
      by_cases hvt : v = t
      · rw [hvt, htMode]
        exact ht₁
      · by_cases hvu : v = u
        · rw [hvu, huMode]
          exact hu₁
        · rw [hSame v hvt hvu]
          refine hOld v fun hIn => hv ?_
          exact Finset.mem_erase.mpr ⟨hvu, Finset.mem_erase.mpr ⟨hvt, hIn⟩⟩
    obtain ⟨c₂, hRest, hDone⟩ := ih hWaits₁ hNew₁ hOld₁ hLess
    exact ⟨c₂, hLeads.trans hRest, hDone⟩

/-- Some run lets every client finish exactly when as many clients have mode `p` as have another
mode; otherwise no run does. -/
theorem can_finish_iff (buf : Object BUF_SIZE) (producerMode : τ → Bool)
    (locals : τ → Nat → Object BUF_SIZE × Object 4) :
    (∃ sched, ∀ t, ((execute buf producerMode locals sched).1.procs t).Done) ↔
      clients producerMode true = clients producerMode false := by
  constructor
  · intro hDone
    obtain ⟨sched, hDone⟩ := hDone
    exact (inv_execute buf producerMode locals sched).balanced hDone
  · intro hBalanced
    obtain ⟨c', hLeads, hDone⟩ := pairs_call producerMode
      (c := init buf producerMode locals) ⟨rfl, Buffer.holds_init⟩
      (fun t (_ : t ∈ Finset.univ) => ⟨rfl, rfl, rfl⟩)
      (fun t ht => absurd (Finset.mem_univ t) ht)
      (n := clients producerMode true) fun mode => by
        cases mode with
        | true => rfl
        | false => exact hBalanced.symm
    obtain ⟨sched, rfl⟩ := hLeads
    exact ⟨sched, fun t => ⟨(hDone t).iter, (hDone t).idle⟩⟩

end OsLabs.Multiplex.Mains
