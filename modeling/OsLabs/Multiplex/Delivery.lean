import OsLabs.Memory.Letters
import OsLabs.Multiplex.Client
import OsLabs.Runs.Pool

/-!
# Exactly-once delivery through the multiplexed server

Any number of clients call `produce` and `consume` in any order, and the server takes
their requests one at a time in any order. `Good` says how far a client and the
server agree at every point of a call: a letter is enqueued exactly when the reply under
way is `OK`, and the client moves to its next letter only after it has seen that reply;
a letter taken from the queue is the one the client is about to return.

The server's side is one equation: everything enqueued is everything dequeued followed by
the contents of the buffer.
-/

namespace OsLabs.Multiplex

open Memory Runs Sockets

def enqueuedItem : Event → Option UInt8
  | .enqueued item => some item
  | _ => none

def dequeuedItem : Event → Option UInt8
  | .dequeued item => some item
  | _ => none

def returnedItem : Event → Option UInt8
  | .returned item => some item
  | _ => none

/-- The letters put into the ring, taken from it, and returned by `consume` calls. -/
def enqueued (h : List Event) : List UInt8 := h.filterMap enqueuedItem
def dequeued (h : List Event) : List UInt8 := h.filterMap dequeuedItem
def returned (h : List Event) : List UInt8 := h.filterMap returnedItem

@[simp] theorem enqueued_append (h es : List Event) :
    enqueued (h ++ es) = enqueued h ++ enqueued es := List.filterMap_append
@[simp] theorem dequeued_append (h es : List Event) :
    dequeued (h ++ es) = dequeued h ++ dequeued es := List.filterMap_append
@[simp] theorem returned_append (h es : List Event) :
    returned (h ++ es) = returned h ++ returned es := List.filterMap_append

/-- The letter that a `consume` call finds in its buffer, unless it is an empty-buffer
reply. -/
def letterIn (buf : Object BUF_SIZE) : List UInt8 :=
  if buf 0 = toChar BUFFER_EMPTY_ERR then [] else [buf 1]

/-- The letter that is on its way to a client, from the server's reply to the `return` of
`consume`. -/
def inFlight (p : Party) : List UInt8 :=
  match p.pc with
  | .consumeRecv =>
    match p.reply with
    | some msg => letterIn (recvInto p.buf msg)
    | none => []
  | .consumeTest => letterIn p.buf
  | _ => []

/-! ## The agreement of a client with the server -/

/-- A reply to a producer, or the status read from it, against the number of letters
enqueued for the client. -/
def Settled (p : Party) (n : Nat) (status : BitVec 32) : Prop :=
  (status = OK ∧ ∃ m, n = m + 1 ∧ p.letter = letter m) ∨
    (status = BUFFER_FULL_ERR ∧ p.letter = letter n)

/-- Where a client is in its call, after `n` letters have been enqueued for it. -/
def CallAt (p : Party) (n : Nat) : Prop :=
  match p.pc with
  | .idle | .produceSend | .consumeSend | .consumeTest =>
    p.letter = letter n ∧ p.request = none ∧ p.reply = none
  | .produceRecv =>
    (p.letter = letter n ∧ p.reply = none ∧
      ∃ b : Object BUF_SIZE, p.request = some (bytes b) ∧ b 0 = 'P'.toUInt8 ∧ b 1 = p.letter) ∨
    (p.request = none ∧ ∃ v, p.reply = some (intBytes v) ∧ Settled p n v)
  | .produceTest => p.request = none ∧ p.reply = none ∧ Settled p n p.statusValue
  | .consumeRecv =>
    p.letter = letter n ∧
      ((p.reply = none ∧ ∃ b : Object BUF_SIZE, p.request = some (bytes b) ∧ b 0 = 'C'.toUInt8) ∨
        p.request = none)

/-- The client `p` agrees with the server about the events `h` of its calls. -/
structure Good (p : Party) (h : List Event) : Prop where
  alphabet : enqueued h = letters (enqueued h).length
  call : CallAt p (enqueued h).length
  delivered : dequeued h = returned h ++ inFlight p

/-- The server runs, and everything enqueued has been dequeued or is in the buffer. -/
def Conserves (s : Server) (h : List Event) : Prop :=
  s.exited = false ∧ ∃ q, s.buffer.Holds q ∧ enqueued h = dequeued h ++ q

theorem good_init (buf : Object BUF_SIZE) (status : Object 4) : Good (initParty buf status) [] :=
  ⟨rfl, ⟨rfl, rfl, rfl⟩, rfl⟩

theorem conserves_init (buf : Object BUF_SIZE) : Conserves (initServer buf) [] :=
  ⟨rfl, [], Buffer.holds_init, rfl⟩

/-! ## Steps of the client -/

/-- A step of a client that touches neither the queue nor the agreement on it. -/
theorem Good.keep {p p' : Party} {h es : List Event} (hGood : Good p h)
    (hEnqueued : enqueued es = []) (hDequeued : dequeued es = [])
    (hCall : CallAt p' (enqueued h).length) (hFlight : inFlight p = returned es ++ inFlight p') :
    Good p' (h ++ es) := by
  have hSame : enqueued (h ++ es) = enqueued h := by
    rw [enqueued_append, hEnqueued, List.append_nil]
  refine ⟨by rw [hSame]; exact hGood.alphabet, by rw [hSame]; exact hCall, ?_⟩
  rw [dequeued_append, returned_append, hDequeued, List.append_nil, hGood.delivered, hFlight,
    List.append_assoc]

theorem statusValue_recvInto {p : Party} {v : BitVec 32} {pc : Pc} {msg : Option (List UInt8)} :
    Party.statusValue
      { p with pc := pc, status := recvInto p.status (intBytes v), reply := msg } = v := by
  simp [Party.statusValue, recvInto, intBytes]

theorem clientStep_good {p p' : Party} {h es : List Event} (hGood : Good p h)
    (hStep : clientStep p = some (p', es)) :
    Good p' (h ++ es) ∧ enqueued es = [] ∧ dequeued es = [] := by
  have hCall := hGood.call
  obtain ⟨pc, l, buf, status, request, reply⟩ := p
  cases pc with
  | idle => cases hStep
  | produceSend =>
    cases hStep
    obtain ⟨hLetter, -, hReply⟩ := hCall
    refine ⟨hGood.keep rfl rfl (Or.inl ⟨hLetter, hReply, _, rfl, ?_, ?_⟩) rfl, rfl, rfl⟩
    · simp [setFirst]
    · simp [setFirst]
  | produceRecv =>
    cases reply with
    | none => cases hStep
    | some msg =>
      cases hStep
      obtain ⟨-, hNone, -⟩ | ⟨hRequest, v, hReply, hSettled⟩ := hCall
      · cases hNone
      · cases hReply
        refine ⟨hGood.keep rfl rfl ⟨hRequest, rfl, ?_⟩ rfl, rfl, rfl⟩
        rw [statusValue_recvInto]
        exact hSettled
  | produceTest =>
    obtain ⟨hRequest, hReply, hSettled⟩ := hCall
    simp only [clientStep] at hStep
    split at hStep
    · next hFull =>
      cases hStep
      obtain ⟨hOk, -⟩ | ⟨-, hLetter⟩ := hSettled
      · exact absurd (hOk.symm.trans hFull) (by decide)
      · exact ⟨hGood.keep rfl rfl ⟨hLetter, hRequest, hReply⟩ rfl, rfl, rfl⟩
    · next hFull =>
      cases hStep
      obtain ⟨-, m, hm, hLetter⟩ | ⟨hStatus, -⟩ := hSettled
      · refine ⟨hGood.keep rfl rfl ⟨?_, hRequest, hReply⟩ rfl, rfl, rfl⟩
        rw [hm, letter_succ, ← show l = letter m from hLetter]
      · exact absurd hStatus hFull
  | consumeSend =>
    cases hStep
    obtain ⟨hLetter, -, hReply⟩ := hCall
    refine ⟨hGood.keep rfl rfl ⟨hLetter, Or.inl ⟨hReply, _, rfl, ?_⟩⟩ ?_, rfl, rfl⟩
    · simp
    · cases hReply
      rfl
  | consumeRecv =>
    cases reply with
    | none => cases hStep
    | some msg =>
      cases hStep
      obtain ⟨hLetter, ⟨hNone, -⟩ | hRequest⟩ := hCall
      · cases hNone
      · exact ⟨hGood.keep rfl rfl ⟨hLetter, hRequest, rfl⟩ rfl, rfl, rfl⟩
  | consumeTest =>
    simp only [clientStep] at hStep
    split at hStep
    · next hEmpty =>
      cases hStep
      exact ⟨hGood.keep rfl rfl hCall (if_pos hEmpty), rfl, rfl⟩
    · next hEmpty =>
      cases hStep
      exact ⟨hGood.keep rfl rfl hCall (if_neg hEmpty), rfl, rfl⟩

/-! ## Steps of the server -/

/-- The first two bytes of a reply are all that `consume` looks at. -/
theorem letterIn_reply (buf b : Object BUF_SIZE) (code c : UInt8) :
    letterIn (recvInto buf ((bytes (setFirst b code c)).take SIZEOF_POINTER)) =
      if code = toChar BUFFER_EMPTY_ERR then [] else [c] := by
  have h₀ : recvInto buf ((bytes (setFirst b code c)).take SIZEOF_POINTER) 0 = code := by
    simp [recvInto, bytes, SIZEOF_POINTER, setFirst]
  have h₁ : recvInto buf ((bytes (setFirst b code c)).take SIZEOF_POINTER) 1 = c := by
    simp [recvInto, bytes, SIZEOF_POINTER, setFirst]
  rw [letterIn, h₀, h₁]

/-- A request on a connection is a whole message of the call the client is in. -/
theorem Good.request_cases {p : Party} {h : List Event} {msg : List UInt8} (hGood : Good p h)
    (hRequest : p.request = some msg) :
    ∃ b : Object BUF_SIZE, msg = bytes b ∧ p.reply = none ∧
      p.letter = letter (enqueued h).length ∧
      ((p.pc = .produceRecv ∧ b 0 = 'P'.toUInt8 ∧ b 1 = p.letter) ∨
        (p.pc = .consumeRecv ∧ b 0 = 'C'.toUInt8)) := by
  have hCall := hGood.call
  obtain ⟨pc, l, buf, status, request, reply⟩ := p
  subst hRequest
  cases pc with
  | idle | produceSend | consumeSend | consumeTest =>
    obtain ⟨-, hNone, -⟩ := hCall
    cases hNone
  | produceTest =>
    obtain ⟨hNone, -⟩ := hCall
    cases hNone
  | produceRecv =>
    obtain ⟨hLetter, hReply, b, hb, hP, hItem⟩ | ⟨hNone, -⟩ := hCall
    · cases hb
      exact ⟨b, rfl, hReply, hLetter, Or.inl ⟨rfl, hP, hItem⟩⟩
    · cases hNone
  | consumeRecv =>
    obtain ⟨hLetter, ⟨hReply, b, hb, hC⟩ | hNone⟩ := hCall
    · cases hb
      exact ⟨b, rfl, hReply, hLetter, Or.inr ⟨rfl, hC⟩⟩
    · cases hNone

theorem conserved_append {g es : List Event} {q q' : List UInt8}
    (hQueue : enqueued g = dequeued g ++ q) (hNew : q ++ enqueued es = dequeued es ++ q') :
    enqueued (g ++ es) = dequeued (g ++ es) ++ q' := by
  rw [enqueued_append, dequeued_append, hQueue, List.append_assoc, hNew, List.append_assoc]

/-- A producer's request: the letter is enqueued and acknowledged, or neither. -/
theorem produce_request {s : Server} {p : Party} {h g : List Event} {b : Object BUF_SIZE}
    (hGood : Good p h) (hServer : Conserves s g) (hReply : p.reply = none)
    (hLetter : p.letter = letter (enqueued h).length) (hPc : p.pc = .produceRecv)
    (hP : b 0 = 'P'.toUInt8) (hItem : b 1 = p.letter) :
    ∃ s' reply es, receive s (bytes b) = (s', reply, es) ∧
      Good { p with request := none, reply := reply } (h ++ es) ∧ Conserves s' (g ++ es) := by
  obtain ⟨hExited, q, hHolds, hQueue⟩ := hServer
  obtain ⟨pc, l, buf, status, request, reply⟩ := p
  subst hPc hReply
  rw [receive, recvInto_bytes]
  by_cases hRoom : q.length < ARR_SIZE
  · obtain ⟨buffer, hHandle, hHolds'⟩ :=
      handle_produce (s := { s with buf := b }) hHolds hP hRoom
    refine ⟨_, _, _, hHandle, ⟨?_, ?_, ?_⟩, hExited, _, hHolds',
      conserved_append hQueue rfl⟩
    · have hLast : enqueued [.command (commandOf b), .enqueued (b 1), .log (b 0)] =
          [letter (enqueued h).length] := by rw [← hLetter, ← hItem]; rfl
      rw [enqueued_append, hLast, List.length_append, List.length_singleton, letters_succ,
        ← hGood.alphabet]
    · rw [enqueued_append, List.length_append]
      exact Or.inr ⟨rfl, OK, rfl, Or.inl ⟨rfl, _, rfl, hLetter⟩⟩
    · rw [dequeued_append, returned_append, hGood.delivered]
      rfl
  · rw [handle_full (s := { s with buf := b }) hHolds hP hRoom]
    refine ⟨_, _, _, rfl, hGood.keep rfl rfl ?_ rfl, hExited, q, hHolds,
      conserved_append hQueue (List.append_nil q)⟩
    exact Or.inr ⟨rfl, BUFFER_FULL_ERR, rfl, Or.inr ⟨rfl, hLetter⟩⟩

/-- A consumer's request: the oldest letter goes to this client, or the reply says that
there is none. -/
theorem consume_request {s : Server} {p : Party} {h g : List Event} {b : Object BUF_SIZE}
    (hGood : Good p h) (hServer : Conserves s g) (hReply : p.reply = none)
    (hLetter : p.letter = letter (enqueued h).length) (hPc : p.pc = .consumeRecv)
    (hC : b 0 = 'C'.toUInt8) :
    ∃ s' reply es, receive s (bytes b) = (s', reply, es) ∧
      Good { p with request := none, reply := reply } (h ++ es) ∧ Conserves s' (g ++ es) := by
  obtain ⟨hExited, q, hHolds, hQueue⟩ := hServer
  obtain ⟨pc, l, buf, status, request, reply⟩ := p
  subst hPc hReply
  rw [receive, recvInto_bytes]
  cases q with
  | nil =>
    rw [handle_empty (s := { s with buf := b }) hHolds hC]
    refine ⟨_, _, _, rfl, hGood.keep rfl rfl ⟨hLetter, Or.inr rfl⟩ ?_, hExited, [], hHolds,
      conserved_append hQueue rfl⟩
    exact (letterIn_reply buf b (toChar BUFFER_EMPTY_ERR) 0).symm
  | cons c q =>
    obtain ⟨buffer, hHandle, hHolds'⟩ := handle_consume (s := { s with buf := b }) hHolds hC
    refine ⟨_, _, _, hHandle, ⟨?_, ?_, ?_⟩, hExited, q, hHolds',
      conserved_append hQueue (List.append_nil _)⟩
    · rw [enqueued_append]
      exact (List.append_nil _).symm ▸ hGood.alphabet
    · rw [enqueued_append]
      exact ⟨(List.append_nil _).symm ▸ hLetter, Or.inr rfl⟩
    · have hFlight : inFlight ⟨.consumeRecv, l, buf, status, none,
          some ((bytes (setFirst b (toChar OK) c)).take SIZEOF_POINTER)⟩ = [c] :=
        letterIn_reply buf b _ c
      rw [dequeued_append, returned_append, hGood.delivered, hFlight]
      rfl

/-! ## Whole runs -/

theorem step_good {s s' : Server} {p p' : Party} {i : Input} {h g es : List Event}
    (hGood : Good p h) (hServer : Conserves s g) (hStep : step s p i = some (s', p', es)) :
    Good p' (h ++ es) ∧ Conserves s' (g ++ es) := by
  cases i with
  | produce buf status | consume buf =>
    simp only [step] at hStep
    split at hStep
    · next hIdle =>
      cases hStep
      have hCall := hGood.call
      rw [CallAt, hIdle] at hCall
      have hFlight : inFlight p = [] := by rw [inFlight, hIdle]
      refine ⟨hGood.keep rfl rfl hCall hFlight, ?_⟩
      rw [List.append_nil]
      exact hServer
    · cases hStep
  | client =>
    simp only [step] at hStep
    split at hStep
    · cases hStep
    · next hClient =>
      cases hStep
      obtain ⟨hGood', hEnqueued, hDequeued⟩ := clientStep_good hGood hClient
      obtain ⟨hExited, q, hHolds, hQueue⟩ := hServer
      refine ⟨hGood', hExited, q, hHolds, ?_⟩
      rw [enqueued_append, dequeued_append, hEnqueued, hDequeued, List.append_nil,
        List.append_nil, hQueue]
  | server =>
    simp only [step, hServer.1, Bool.false_eq_true, if_false] at hStep
    split at hStep
    · cases hStep
    · next msg hRequest =>
      obtain ⟨b, rfl, hReply, hLetter, ⟨hPc, hP, hItem⟩ | ⟨hPc, hC⟩⟩ :=
        hGood.request_cases hRequest
      · obtain ⟨s', reply, es, hReceive, hGood', hServer'⟩ :=
          produce_request hGood hServer hReply hLetter hPc hP hItem
        rw [hReceive] at hStep
        cases hStep
        exact ⟨hGood', hServer'⟩
      · obtain ⟨s', reply, es, hReceive, hGood', hServer'⟩ :=
          consume_request hGood hServer hReply hLetter hPc hC
        rw [hReceive] at hStep
        cases hStep
        exact ⟨hGood', hServer'⟩

variable {τ : Type} [DecidableEq τ]

/-- The clients `τ` before their first calls, and the server. -/
def initConf (buf : Object BUF_SIZE) (bufs : τ → Object BUF_SIZE) (statuses : τ → Object 4) :
    Conf τ Server Party :=
  ⟨initServer buf, fun k => initParty (bufs k) (statuses k)⟩

theorem run_good (buf : Object BUF_SIZE) (bufs : τ → Object BUF_SIZE) (statuses : τ → Object 4)
    (sched : List (τ × Input)) :
    let r := run (poolStep step) (initConf buf bufs statuses) sched
    (∀ k, Good (r.1.procs k) (own k r.2)) ∧ Conserves r.1.shared (r.2.map Prod.snd) := by
  refine pool_invariant
    (P := fun c h => (∀ k, Good (c.procs k) (own k h)) ∧ Conserves c.shared (h.map Prod.snd))
    ⟨fun k => good_init (bufs k) (statuses k), conserves_init buf⟩ ?_ sched
  intro c h t i s p es hInv hStep
  obtain ⟨hAll, hServer⟩ := hInv
  obtain ⟨hGood, hServer'⟩ := step_good (hAll t) hServer hStep
  refine ⟨fun k => ?_, ?_⟩
  · by_cases hk : t = k
    · subst hk
      simpa only [own_append_self, Function.update_self] using hGood
    · simpa only [own_append_ne hk, Function.update_of_ne (Ne.symm hk)] using hAll k
  · simpa only [List.map_append, List.map_map, Function.comp_def, List.map_id'] using hServer'

/-- In every run of any number of clients, the letters enqueued for each client are the
alphabet in order; the letters dequeued are a prefix of the letters enqueued; and what was
dequeued for a client is what its `consume` calls returned, followed by the letter on its
way to it. -/
theorem exactly_once_delivery (buf : Object BUF_SIZE) (bufs : τ → Object BUF_SIZE)
    (statuses : τ → Object 4) (sched : List (τ × Input)) :
    let r := run (poolStep step) (initConf buf bufs statuses) sched
    (∀ k, enqueued (own k r.2) = letters (enqueued (own k r.2)).length) ∧
      dequeued (r.2.map Prod.snd) <+: enqueued (r.2.map Prod.snd) ∧
      ∀ k, dequeued (own k r.2) = returned (own k r.2) ++ inFlight (r.1.procs k) := by
  obtain ⟨hAll, -, q, -, hQueue⟩ := run_good buf bufs statuses sched
  exact ⟨fun k => (hAll k).alphabet, ⟨q, hQueue.symm⟩, fun k => (hAll k).delivered⟩

/-- One client consumes what the other has produced. -/
example :
    let h := (run (poolStep step) (initConf (fun _ => 0) (fun _ : Bool => fun _ => 0) fun _ _ => 0)
      [(false, .produce (fun _ => 0) fun _ => 0), (false, .client), (false, .server),
        (false, .client), (false, .client), (true, .consume fun _ => 0), (true, .client),
        (true, .server), (true, .client), (true, .client)]).2
    enqueued (own false h) = [97] ∧ returned (own true h) = [97] := by
  decide +kernel

end OsLabs.Multiplex
