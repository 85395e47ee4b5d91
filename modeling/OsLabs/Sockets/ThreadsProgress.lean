import OsLabs.Sockets.ThreadsFifo

/-!
# The semaphores of the threaded server are conserved, and its workers do not deadlock

The lock of `ThreadsFifo` counts the workers inside, so the values of the three semaphores
follow from their number alone. No `semop` ever fails: a `start` can only sleep, and a
`stop` raises values that the invariant bounds. A worker inside can therefore always move
on, and while nobody is inside one of the two kinds of `start` can return.
-/

namespace OsLabs.Sockets.ServerThreads

open Memory Runs SysV RingBuffer RwLock

variable {τ : Type}

/-- Between a `start` and the end of its `stop`. -/
abbrev Worker.Inside (w : Worker) : Prop := w.role = .writing

/-! ## The indices stay in the ring -/

theorem Stage.bounds {sh : Shared} {acc : List (Access UInt8)} {stored read taken : Nat}
    (h : Stage (dataOf sh acc) stored read taken) : sh.head < ARR_SIZE ∧ sh.tail < ARR_SIZE := by
  have hHead : sh.head = read % ARR_SIZE := h.head
  have hTail : sh.tail = stored % ARR_SIZE := h.tail
  rw [hHead, hTail]
  exact ⟨Nat.mod_lt _ (by decide), Nat.mod_lt _ (by decide)⟩

theorem Asserts.bounds {sh : Shared} {acc : List (Access UInt8)} {w : Worker}
    (h : Asserts (dataOf sh acc) w) (hInside : w.Inside) :
    sh.head < ARR_SIZE ∧ sh.tail < ARR_SIZE := by
  obtain ⟨pc, req, status⟩ := w
  cases pc with
  | recv | dispatch | startProduce asleep | sendStatus | startConsume asleep | getStatus
  | sendReq | logTime | close | finished => cases hInside
  | putRing | putStatus | putPrint | stopProduce asleep | getRing | getPrint
  | stopConsume asleep => exact Stage.bounds h
  | putTail =>
    obtain ⟨k, -, hStage⟩ := h
    exact hStage.bounds
  | getHead =>
    obtain ⟨k, -, hStage⟩ := h
    exact hStage.bounds

/-! ## No `semop` fails -/

theorem processClient_running {l : Lock} {sh sh' : Shared} {w w' : Worker} {input : Recv}
    {es : List Event} (hLock : Locked sh.sems l) (hInside : w.Inside → l = ⟨0, 1⟩)
    (hRunning : sh.exited = false)
    (hStep : processClient sh w input = some (sh', w', es)) : sh'.exited = false := by
  obtain ⟨pc, req, status⟩ := w
  unfold processClient at hStep
  split at hStep
  · cases hStep
  cases pc with
  | recv => cases input <;> cases hStep <;> exact hRunning
  | dispatch =>
    simp only at hStep
    split at hStep
    · cases hStep; exact hRunning
    · split at hStep <;> cases hStep <;> exact hRunning
  | startProduce asleep | startConsume asleep =>
    obtain ⟨vals, -, ⟨⟩⟩ | ⟨-, ⟨⟩⟩ | ⟨hFail, -⟩ := attempt_cases hStep
    · exact hRunning
    · exact hRunning
    · exact absurd hFail (acquire_safe _ _ _)
  | stopProduce asleep =>
    obtain rfl := hInside rfl
    obtain ⟨vals, hLeave, -, -⟩ := hLock.stopProduce (by decide)
    obtain ⟨⟩ := attempt_done hLeave hStep
    exact hRunning
  | stopConsume asleep =>
    obtain rfl := hInside rfl
    obtain ⟨vals, hLeave, -, -⟩ := hLock.stopConsume (by decide)
    obtain ⟨⟩ := attempt_done hLeave hStep
    exact hRunning
  | putRing | putTail | putStatus | putPrint | sendStatus | getRing | getHead | getPrint
  | getStatus | sendReq | logTime | close => cases hStep; exact hRunning
  | finished => cases hStep

/-- A worker inside can always execute its next statement. -/
theorem processClient_inside {sh : Shared} {w : Worker} (hLock : Locked sh.sems ⟨0, 1⟩)
    (hInside : w.Inside) (hRunning : sh.exited = false) (input : Recv) :
    processClient sh w input ≠ none := by
  obtain ⟨pc, req, status⟩ := w
  unfold processClient
  rw [if_neg (by simp [hRunning])]
  cases pc with
  | recv | dispatch | startProduce asleep | sendStatus | startConsume asleep | getStatus
  | sendReq | logTime | close | finished => cases hInside
  | putRing | putTail | putStatus | putPrint | getRing | getHead | getPrint =>
    exact Option.some_ne_none _
  | stopProduce asleep =>
    obtain ⟨vals, hLeave, -, -⟩ := hLock.stopProduce (by decide)
    exact attempt_enabled hLeave
  | stopConsume asleep =>
    obtain ⟨vals, hLeave, -, -⟩ := hLock.stopConsume (by decide)
    exact attempt_enabled hLeave

theorem processClient_startProduce {sh : Shared} {w : Worker} {vals : SemSet Sem}
    (hRunning : sh.exited = false) (hWaits : w.pc = .startProduce true)
    (hDone : semop sh.sems startProduce = .done vals) (input : Recv) :
    processClient sh w input ≠ none := by
  simp only [processClient, hRunning, hWaits]
  exact attempt_enabled hDone

theorem processClient_startConsume {sh : Shared} {w : Worker} {vals : SemSet Sem}
    (hRunning : sh.exited = false) (hWaits : w.pc = .startConsume true)
    (hDone : semop sh.sems startConsume = .done vals) (input : Recv) :
    processClient sh w input ≠ none := by
  simp only [processClient, hRunning, hWaits]
  exact attempt_enabled hDone

/-! ## Whole runs -/

variable [Fintype τ] [DecidableEq τ]

theorem serve_running (req : τ → ReqT) (status : τ → BitVec 32) (sched : List (τ × Recv)) :
    (serve req status sched).1.shared.exited = false := by
  suffices hBoth : Inv (serve req status sched).1 (accesses (serve req status sched).2) ∧
      (serve req status sched).1.shared.exited = false from hBoth.2
  refine pool_invariant
    (P := fun c h => Inv c (accesses h) ∧ c.shared.exited = false)
    ⟨inv_init req status, rfl⟩ ?_ sched
  rintro c h t input sh w es ⟨hInv, hRunning⟩ hStep
  rw [accesses_append]
  refine ⟨hInv.step hStep, ?_⟩
  obtain ⟨⟨l, hLock, hGuarded⟩, -⟩ := hInv
  refine processClient_running hLock (fun hInside => ?_) hRunning hStep
  exact hLock.occupied (hGuarded.owned.one_le_writers hInside)

/-- A statement that a worker can execute whatever the clients send. -/
def CanMove (c : Conf τ Shared Worker) (t : τ) : Prop :=
  (c.procs t).pc ≠ .recv ∧ ∀ input, poolStep processClient c (t, input) ≠ none

omit [Fintype τ] in
theorem canMove_of_step {c : Conf τ Shared Worker} {t : τ} (hPc : (c.procs t).pc ≠ .recv)
    (hStep : ∀ input, processClient c.shared (c.procs t) input ≠ none) : CanMove c t := by
  exact ⟨hPc, fun input hNone => hStep input (poolStep_eq_none.mp hNone)⟩

/-- In every reachable state the semaphores and the workers inside add up, the indices are
in the ring, and a producer and a consumer never wait for each other. -/
theorem semaphores_conserved (req : τ → ReqT) (status : τ → BitVec 32)
    (sched : List (τ × Recv)) :
    let c := (serve req status sched).1
    c.shared.sems .empty + c.shared.sems .full + count Worker.Inside c.procs = ARR_SIZE ∧
      c.shared.sems .mutex + count Worker.Inside c.procs = 1 ∧
      c.shared.head < ARR_SIZE ∧ c.shared.tail < ARR_SIZE ∧
      ∀ t u, (c.procs t).pc = .startProduce true → (c.procs u).pc = .startConsume true →
        ∃ v, CanMove c v := by
  intro c
  have hRunning : c.shared.exited = false := serve_running req status sched
  obtain ⟨⟨l, hLock, hGuarded⟩, -⟩ := serve_inv req status sched
  have hWriters : l.writers = count Worker.Inside c.procs := hGuarded.owned.writers
  refine ⟨hWriters ▸ hLock.total, hWriters ▸ hLock.free, ?_⟩
  rw [← and_assoc]
  by_cases hNobody : l.writers = 0
  · refine ⟨(hGuarded.rest hNobody).bounds, fun t u hProduce hConsume => ?_⟩
    obtain rfl : l = ⟨0, 0⟩ := hLock.vacant (by have := hLock.free; omega)
    rcases hLock.enterable (by decide) with ⟨vals, hDone⟩ | ⟨vals, hDone⟩
    · refine ⟨t, canMove_of_step ?_ (processClient_startProduce hRunning hProduce hDone)⟩
      rw [hProduce]
      nofun
    · refine ⟨u, canMove_of_step ?_ (processClient_startConsume hRunning hConsume hDone)⟩
      rw [hConsume]
      nofun
  · have hOccupied : l = ⟨0, 1⟩ := hLock.occupied (by omega)
    have hSome : ¬ ∀ t, ¬ (c.procs t).Inside := by
      rw [← count_eq_zero, ← hWriters]
      exact hNobody
    obtain ⟨v, hInside⟩ := not_forall_not.mp hSome
    refine ⟨(hGuarded.asserted v).bounds hInside, fun t u _ _ => ⟨v, canMove_of_step ?_ ?_⟩⟩
    · intro hRecv
      simp [Worker.Inside, Worker.role, hRecv] at hInside
    · exact processClient_inside (hOccupied ▸ hLock) hInside hRunning

end OsLabs.Sockets.ServerThreads
