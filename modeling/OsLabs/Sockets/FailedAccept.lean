import OsLabs.Sockets.EpollQueue

/-!
# A failed `accept` ends the single-threaded server

The event loop only reports that `accept` returned `-1` and passes the descriptor on to
`serve`, whose `recv` then fails and ends the process. Two runs are compared after every
wake-up: the run itself and the one in which the wake-ups with a failed `accept` are left
out. They agree as long as no `accept` fails while the server is running, and no longer.
-/

namespace OsLabs.Sockets.ServerEpoll

open Memory

/-- The ring, its indices and the semaphores, unless the server has ended, and the replies. -/
def outcome (b : Buffer) (wakes : List Wake) : Option Buffer × List (List UInt8) :=
  ((mainLoop b wakes).1, sent (mainLoop b wakes).2)

def succeeded (wakes : List Wake) : List Wake := wakes.filter Wake.accepted

/-- No `recv` fails on an accepted connection. -/
def RecvsSucceed (wakes : List Wake) : Prop := ∀ w ∈ wakes, w.accepted = true → .error ∉ w.stream

/-- After every wake-up the server is where it would be without the failed ones, and it keeps
running as long as `recv` succeeds on the accepted connections. -/
def CostsNothing (b : Buffer) (wakes : List Wake) : Prop :=
  (∀ k, outcome b (wakes.take k) = outcome b (succeeded (wakes.take k))) ∧
    (RecvsSucceed wakes → (mainLoop b wakes).1.isSome)

/-- No `accept` fails while the server is running. -/
def AcceptsSucceed (b : Buffer) (wakes : List Wake) : Prop :=
  ∀ before w after, wakes = before ++ w :: after → (mainLoop b before).1.isSome →
    w.accepted = true

theorem mainLoop_failed {b : Buffer} {w : Wake} (hFailed : w.accepted = false)
    (rest : List Wake) : (mainLoop b (w :: rest)).1 = none := by
  simp [mainLoop, hFailed, serve]

/-- An accepted connection that the server survives. -/
theorem mainLoop_survived {b b' : Buffer} {w : Wake} {es : List Event}
    (hAccepted : w.accepted = true) (hServe : serve b w.req w.stream = (some b', es))
    (rest : List Wake) :
    mainLoop b (w :: rest) = ((mainLoop b' rest).1, es ++ (mainLoop b' rest).2) := by
  simp [mainLoop, hAccepted, hServe]

/-- An accepted connection on which the server ends. -/
theorem mainLoop_ended {b : Buffer} {w : Wake} {es : List Event} (hAccepted : w.accepted = true)
    (hServe : serve b w.req w.stream = (none, es)) (rest : List Wake) :
    mainLoop b (w :: rest) = (none, es) := by
  simp [mainLoop, hAccepted, hServe]

/-- What has happened up to a failed `accept` decides whether it is reached. -/
theorem mainLoop_append_failed {b : Buffer} {before : List Wake} {w : Wake}
    (hFailed : w.accepted = false) : (mainLoop b (before ++ [w])).1 = none := by
  induction before generalizing b with
  | nil => exact mainLoop_failed hFailed []
  | cons v rest ih =>
    cases hAccepted : v.accepted with
    | false => exact mainLoop_failed hAccepted _
    | true =>
      rcases hServe : serve b v.req v.stream with ⟨_ | b', es⟩
      · rw [List.cons_append, mainLoop_ended hAccepted hServe]
      · rw [List.cons_append, mainLoop_survived hAccepted hServe]
        exact ih

theorem AcceptsSucceed.rest {b b' : Buffer} {w : Wake} {rest : List Wake} {es : List Event}
    (h : AcceptsSucceed b (w :: rest)) (hAccepted : w.accepted = true)
    (hServe : serve b w.req w.stream = (some b', es)) : AcceptsSucceed b' rest := by
  intro before v after hSplit hRunning
  apply h (w :: before) v after
  · rw [hSplit, List.cons_append]
  · rw [mainLoop_survived hAccepted hServe]
    exact hRunning

/-- As long as no `accept` fails, leaving out the failed ones changes nothing. -/
theorem mainLoop_succeeded {b : Buffer} {wakes : List Wake} (h : AcceptsSucceed b wakes) :
    mainLoop b (succeeded wakes) = mainLoop b wakes := by
  induction wakes generalizing b with
  | nil => rfl
  | cons w rest ih =>
    have hAccepted : w.accepted = true := h [] w rest rfl rfl
    have hKeep : succeeded (w :: rest) = w :: succeeded rest :=
      List.filter_cons_of_pos hAccepted
    rw [hKeep]
    rcases hServe : serve b w.req w.stream with ⟨_ | b', es⟩
    · rw [mainLoop_ended hAccepted hServe, mainLoop_ended hAccepted hServe]
    · rw [mainLoop_survived hAccepted hServe, mainLoop_survived hAccepted hServe,
        ih (h.rest hAccepted hServe)]

/-- The server survives a connection on which no `recv` fails. -/
theorem serve_survives {b : Buffer} {q : List UInt8} (h : b.Holds q) (req : ReqT)
    {stream : List Recv} (hStream : .error ∉ stream) :
    ∃ b' q', (serve b req stream).1 = some b' ∧ b'.Holds q' := by
  induction stream generalizing b q req with
  | nil => exact ⟨b, q, rfl, h⟩
  | cons msg rest ih =>
    rw [List.mem_cons, not_or] at hStream
    cases msg with
    | closed => exact ⟨b, q, rfl, h⟩
    | error => exact absurd rfl hStream.1
    | data bytes =>
      obtain ⟨b₁, es₁, hHandle, hHolds₁, -⟩ := handle_simulates h (recvInto req bytes)
      obtain ⟨b₂, q₂, hServe, hHolds₂⟩ := ih hHolds₁ (Queue.answer q (recvInto req bytes)).2
        hStream.2
      refine ⟨b₂, q₂, ?_, hHolds₂⟩
      rw [serve, hHandle]
      exact hServe

theorem mainLoop_survives {b : Buffer} {q : List UInt8} (h : b.Holds q) {wakes : List Wake}
    (hAccepts : AcceptsSucceed b wakes) (hRecvs : RecvsSucceed wakes) :
    (mainLoop b wakes).1.isSome := by
  induction wakes generalizing b q with
  | nil => rfl
  | cons w rest ih =>
    have hAccepted : w.accepted = true := hAccepts [] w rest rfl rfl
    obtain ⟨b', q', hRuns, hHolds⟩ :=
      serve_survives h w.req (hRecvs w List.mem_cons_self hAccepted)
    have hServe : serve b w.req w.stream = (some b', (serve b w.req w.stream).2) :=
      Prod.ext hRuns rfl
    rw [mainLoop_survived hAccepted hServe]
    refine ih hHolds ?_ fun v hv => hRecvs v (List.mem_cons_of_mem w hv)
    exact hAccepts.rest hAccepted hServe

/-- Failed `accept` calls cost nothing exactly if there are none while the server runs. -/
theorem failed_accept_costs_nothing_iff (wakes : List Wake) :
    CostsNothing .init wakes ↔ AcceptsSucceed .init wakes := by
  constructor
  · rintro ⟨hSame, -⟩ before w after hSplit hRunning
    by_contra hAccepted
    have hFailed : w.accepted = false := Bool.eq_false_iff.mpr hAccepted
    have hBefore := hSame before.length
    have hThere := hSame (before.length + 1)
    have hTake : wakes.take (before.length + 1) = before ++ [w] := by
      rw [hSplit, List.take_length_add_append]
      rfl
    have hLeft : succeeded (before ++ [w]) = succeeded before := by
      simp [succeeded, hFailed]
    rw [hTake, hLeft] at hThere
    rw [hSplit, List.take_left] at hBefore
    have hEnded : (mainLoop .init before).1 = none := by
      rw [← mainLoop_append_failed hFailed]
      exact (congrArg Prod.fst (hThere.trans hBefore.symm)).symm
    rw [hEnded] at hRunning
    cases hRunning
  · intro h
    refine ⟨fun k => ?_, mainLoop_survives Buffer.holds_init h⟩
    have hPart : AcceptsSucceed .init (wakes.take k) := by
      intro before w after hSplit
      apply h before w (after ++ wakes.drop k)
      rw [← List.cons_append, ← List.append_assoc, ← hSplit, List.take_append_drop]
    rw [outcome, outcome, mainLoop_succeeded hPart]

/-- One wake-up whose `accept` fails. -/
def failedAccept : List Wake := [⟨false, fun _ => 0, []⟩]

theorem not_costsNothing_failedAccept : ¬ CostsNothing .init failedAccept := by
  rintro ⟨hSame, -⟩
  have hEnd : none = some Buffer.init := congrArg Prod.fst (hSame 1)
  cases hEnd

end OsLabs.Sockets.ServerEpoll
