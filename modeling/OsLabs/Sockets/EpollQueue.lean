import OsLabs.Sockets.ServerEpoll

/-!
# The single-threaded server refines a bounded queue

`Queue.answer` is what the server is for: a queue of at most `ARR_SIZE` letters that
appends, removes or refuses. `handle_simulates` relates one request of the code to it;
the buffer is untouched whenever the queue is. `serve_simulates` and
`mainLoop_simulates` carry the relation through a connection and through the wake-ups of
the event loop.
-/

namespace OsLabs.Sockets.ServerEpoll

open Memory SysV

/-! ## The abstract queue -/

/-- The queue after a request, and the request object that is sent back. -/
def Queue.answer (q : List UInt8) (req : ReqT) : List UInt8 × ReqT :=
  if req.type = 'p'.toUInt8 then
    if q.length < ARR_SIZE then (q ++ [req.letter], req.setStatus OK)
    else (q, req.setStatus ERR_BUF_FULL)
  else if req.type = 'c'.toUInt8 then
    match q with
    | [] => ([], req.setStatus ERR_BUF_EMPTY)
    | c :: rest => (rest, (req.setLetter c).setStatus OK)
  else (q, req)

/-- The queue after a sequence of requests, and the replies in order. -/
def Queue.run (q : List UInt8) : List ReqT → List UInt8 × List ReqT
  | [] => (q, [])
  | req :: rest =>
    let (q, reply) := Queue.answer q req
    let (q, replies) := Queue.run q rest
    (q, reply :: replies)

theorem Queue.run_append (q : List UInt8) (xs ys : List ReqT) :
    Queue.run q (xs ++ ys) =
      ((Queue.run (Queue.run q xs).1 ys).1,
        (Queue.run q xs).2 ++ (Queue.run (Queue.run q xs).1 ys).2) := by
  induction xs generalizing q with
  | nil => rfl
  | cons req rest ih => simp only [List.cons_append, Queue.run, ih]

/-! ## One request -/

/-- The branches taken when a `stop` call fails with `EAGAIN` announce themselves. -/
def StopFails (es : List Event) : Prop :=
  .print "prod: buf_empty\n" ∈ es ∨ .print "cons: buf_full\n" ∈ es

def sentMsg : Event → Option (List UInt8)
  | .send msg => some msg
  | _ => none

/-- The replies among the events, in order. -/
def sent (es : List Event) : List (List UInt8) := es.filterMap sentMsg

/-- A request on a buffer that holds `q` gets the answer of the queue, and leaves a buffer
that holds the queue's new contents. -/
theorem handle_simulates {b : Buffer} {q : List UInt8} (h : b.Holds q) (req : ReqT) :
    ∃ b' es, handle b req = (some (b', (Queue.answer q req).2), es) ∧
      b'.Holds (Queue.answer q req).1 ∧ ((Queue.answer q req).1 = q → b' = b) ∧
      ¬ StopFails es ∧ sent es = [] := by
  unfold handle Queue.answer
  by_cases hp : req.type = 'p'.toUInt8
  · rw [if_pos hp, if_pos hp]
    by_cases hRoom : q.length < ARR_SIZE
    · obtain ⟨vals, vals', hStart, hStop, hHolds⟩ := h.produce hRoom req.letter true
      have hStop' : semop (({ b with sems := vals } : Buffer).put req.letter).sems stopProduce =
          .done vals' := hStop
      simp only [startProduce, hStart, hStop', if_pos hRoom, ReqT.letter_setStatus]
      exact ⟨_, _, rfl, hHolds, by simp, by simp [StopFails], rfl⟩
    · simp only [startProduce, h.startProduce_full hRoom, if_neg hRoom]
      exact ⟨b, _, rfl, h, fun _ => rfl, by simp [StopFails], rfl⟩
  · rw [if_neg hp, if_neg hp]
    by_cases hc : req.type = 'c'.toUInt8
    · rw [if_pos hc, if_pos hc]
      cases q with
      | nil =>
        simp only [startConsume, h.startConsume_empty]
        exact ⟨b, _, rfl, h, fun _ => rfl, by simp [StopFails], rfl⟩
      | cons c rest =>
        obtain ⟨hCell, vals, vals', hStart, hStop, hHolds⟩ := h.consume true
        have hStop' : semop ({ b with sems := vals } : Buffer).drop.sems stopConsume =
            .done vals' := hStop
        simp only [startConsume, hStart, hStop', hCell]
        exact ⟨_, _, rfl, hHolds, by simp, by simp [StopFails], rfl⟩
    · rw [if_neg hc, if_neg hc]
      exact ⟨b, _, rfl, h, fun _ => rfl, by simp [StopFails], rfl⟩

/-! ## Connections and wake-ups -/

/-- What `recv` returns on a connection that carries whole requests and is then closed. -/
def stream (reqs : List ReqT) : List Recv := reqs.map (fun r => .data (bytes r)) ++ [.closed]

theorem stopFails_append {es more : List Event} :
    StopFails (es ++ more) ↔ StopFails es ∨ StopFails more := by
  simp only [StopFails, List.mem_append]
  tauto

theorem serve_simulates {b : Buffer} {q : List UInt8} (h : b.Holds q) (req : ReqT)
    (reqs : List ReqT) :
    ∃ b' es, serve b req (stream reqs) = (some b', es) ∧ b'.Holds (Queue.run q reqs).1 ∧
      sent es = (Queue.run q reqs).2.map bytes ∧ ¬ StopFails es := by
  induction reqs generalizing b q req with
  | nil => exact ⟨b, [], rfl, h, rfl, by simp [StopFails]⟩
  | cons r rest ih =>
    obtain ⟨b₁, es₁, hHandle, hHolds₁, -, hFails₁, hSent₁⟩ := handle_simulates h r
    obtain ⟨b₂, es₂, hServe, hHolds₂, hSent₂, hFails₂⟩ := ih hHolds₁ (Queue.answer q r).2
    have hStream : stream (r :: rest) = .data (bytes r) :: stream rest := rfl
    refine ⟨b₂, .recv (bytes r) :: es₁ ++
      .send (bytes (Queue.answer q r).2) :: .log (Queue.answer q r).2.type :: es₂,
      ?_, hHolds₂, ?_, ?_⟩
    · rw [hStream, serve, recvInto_bytes, hHandle]
      simp only [hServe]
    · simp only [sent, List.filterMap_append, List.filterMap_cons, sentMsg] at hSent₁ hSent₂ ⊢
      rw [hSent₁, hSent₂]
      rfl
    · rw [stopFails_append]
      rintro (hFails | hFails)
      · exact hFails₁ (by simpa [StopFails] using hFails)
      · exact hFails₂ (by simpa [StopFails] using hFails)

/-- An accepted connection with its uninitialised request object and its requests. -/
def wake (conn : ReqT × List ReqT) : Wake := ⟨true, conn.1, stream conn.2⟩

theorem mainLoop_simulates {b : Buffer} {q : List UInt8} (h : b.Holds q)
    (conns : List (ReqT × List ReqT)) :
    ∃ b' es, mainLoop b (conns.map wake) = (some b', es) ∧
      b'.Holds (Queue.run q (conns.flatMap Prod.snd)).1 ∧
      sent es = (Queue.run q (conns.flatMap Prod.snd)).2.map bytes ∧ ¬ StopFails es := by
  induction conns generalizing b q with
  | nil => exact ⟨b, [], rfl, h, rfl, by simp [StopFails]⟩
  | cons conn rest ih =>
    obtain ⟨b₁, es₁, hServe, hHolds₁, hSent₁, hFails₁⟩ := serve_simulates h conn.1 conn.2
    obtain ⟨b₂, es₂, hLoop, hHolds₂, hSent₂, hFails₂⟩ := ih hHolds₁
    rw [List.flatMap_cons, Queue.run_append]
    refine ⟨b₂, es₁ ++ es₂, ?_, hHolds₂, ?_, ?_⟩
    · simp only [List.map_cons, mainLoop, wake, if_true, hServe]
      change ((mainLoop b₁ (rest.map wake)).1, es₁ ++ (mainLoop b₁ (rest.map wake)).2) = _
      rw [hLoop]
    · simp only [sent, List.filterMap_append, List.map_append] at hSent₁ hSent₂ ⊢
      rw [hSent₁, hSent₂]
    · rw [stopFails_append]
      exact fun hFails => hFails.elim hFails₁ hFails₂

/-- What one request does to a buffer that holds `q`, in the terms of its type. -/
structure Serves (b : Buffer) (q : List UInt8) (req : ReqT) (b' : Buffer) (reply : ReqT) :
    Prop where
  produce : req.type = 'p'.toUInt8 → q.length < ARR_SIZE →
    reply.status = OK ∧ b'.Holds (q ++ [req.letter])
  full : req.type = 'p'.toUInt8 → ¬ q.length < ARR_SIZE →
    reply.status = ERR_BUF_FULL ∧ b' = b
  consume : req.type = 'c'.toUInt8 → ∀ c rest, q = c :: rest →
    reply.status = OK ∧ reply.letter = c ∧ b'.Holds rest
  empty : req.type = 'c'.toUInt8 → q = [] → reply.status = ERR_BUF_EMPTY ∧ b' = b
  other : req.type ≠ 'p'.toUInt8 → req.type ≠ 'c'.toUInt8 → b' = b

theorem handle_serves {b : Buffer} {q : List UInt8} (h : b.Holds q) (req : ReqT) :
    ∃ b' reply es, handle b req = (some (b', reply), es) ∧ Serves b q req b' reply ∧
      ¬ StopFails es := by
  obtain ⟨b', es, hHandle, hHolds, hSame, hFails, -⟩ := handle_simulates h req
  have hType : 'c'.toUInt8 ≠ 'p'.toUInt8 := by decide
  refine ⟨b', _, es, hHandle, ⟨?_, ?_, ?_, ?_, ?_⟩, hFails⟩
  · intro hp hRoom
    simp only [Queue.answer, if_pos hp, if_pos hRoom] at hHolds ⊢
    exact ⟨ReqT.status_setStatus _ _, hHolds⟩
  · intro hp hFull
    simp only [Queue.answer, if_pos hp, if_neg hFull] at hSame ⊢
    exact ⟨ReqT.status_setStatus _ _, hSame trivial⟩
  · rintro hc c rest rfl
    simp only [Queue.answer, hc, hType, if_false, if_true] at hHolds ⊢
    exact ⟨ReqT.status_setStatus _ _, by simp, hHolds⟩
  · rintro hc rfl
    simp only [Queue.answer, hc, hType, if_false, if_true] at hSame ⊢
    exact ⟨ReqT.status_setStatus _ _, hSame trivial⟩
  · intro hp hc
    simp only [Queue.answer, if_neg hp, if_neg hc] at hSame
    exact hSame trivial

/-- For every sequence of connections with whole requests the server keeps running, its
buffer holds the contents of the abstract queue, its replies are the queue's, no `stop`
call fails, and the next request, whatever it is, is served as the queue would. -/
theorem epoll_refines_queue (conns : List (ReqT × List ReqT)) :
    ∃ b es, mainLoop .init (conns.map wake) = (some b, es) ∧
      b.Holds (Queue.run [] (conns.flatMap Prod.snd)).1 ∧
      sent es = (Queue.run [] (conns.flatMap Prod.snd)).2.map bytes ∧ ¬ StopFails es ∧
      ∀ req, ∃ b' reply es', handle b req = (some (b', reply), es') ∧
        Serves b (Queue.run [] (conns.flatMap Prod.snd)).1 req b' reply ∧ ¬ StopFails es' := by
  obtain ⟨b, es, hLoop, hHolds, hSent, hFails⟩ := mainLoop_simulates Buffer.holds_init conns
  exact ⟨b, es, hLoop, hHolds, hSent, hFails, handle_serves hHolds⟩

end OsLabs.Sockets.ServerEpoll
