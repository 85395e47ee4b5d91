import OsLabs.Runs.Schedule
import Mathlib.Data.Int.Notation
import Mathlib.Data.List.Count

/-!
# Handing connections over to the workers of `mt/server.c`

`main` accepts into the one variable `connfd` and passes its address to every thread it
creates. A worker reads the variable only after fifty `mmap` calls and a sleep, so the
next `accept` may come first. `server_1.c` allocates an `int` for each connection instead.

`accept` returns `-1` or a descriptor that is not open, and the server closes none. Its
result is not examined. `connfd` is not initialised.
-/

namespace OsLabs.Mt.HandOver

open Runs

/-- The next statement of the loop of `main`. -/
inductive Pc where
  | accept
  | create
  | detach
  | exited
deriving DecidableEq

/-- The loop of `main`, the descriptors of the accepted connections, and the threads with
the value each has read through `args`. -/
structure State where
  pc : Pc
  connfd : Int
  fds : List Int
  workers : List (Option Int)

inductive Action where
  | accept (result : Int)
  | create (ok : Bool)
  | detach (ok : Bool)
  | read (k : Nat)

inductive Event where
  | perror (text : String)
  | got (k : Nat) (fd : Int)

def step (s : State) : Action → Option (State × List Event)
  | .accept result =>
    if s.pc = .accept then
      if result = -1 then some ({ s with pc := .create, connfd := -1 }, [])
      else if 0 ≤ result ∧ result ∉ s.fds then
        some ({ s with pc := .create, connfd := result, fds := result :: s.fds }, [])
      else none
    else none
  | .create ok =>
    if s.pc = .create then
      if ok then some ({ s with pc := .detach, workers := s.workers ++ [none] }, [])
      else some ({ s with pc := .exited }, [.perror "pthread_create"])
    else none
  | .detach ok =>
    if s.pc = .detach then
      if ok then some ({ s with pc := .accept }, [])
      else some ({ s with pc := .exited }, [.perror "pthread_detach"])
    else none
  | .read k =>
    if s.pc ≠ .exited ∧ s.workers[k]? = some none then
      some ({ s with workers := s.workers.set k (some s.connfd) }, [.got k s.connfd])
    else none

def init (connfd : Int) : State := ⟨.accept, connfd, [], []⟩

/-- No accepted connection is read by two workers, and once every thread created has read
`connfd` and `main` is about to accept again, each has been read by one. -/
def HandedOver (s : State) : Prop :=
  ∀ fd ∈ s.fds, s.workers.count (some fd) ≤ 1 ∧
    (s.pc = .accept → none ∉ s.workers → s.workers.count (some fd) = 1)

instance (s : State) : Decidable (HandedOver s) := by
  unfold HandedOver
  infer_instance

/-- An `accept` does not change `connfd` under a thread that has not read it. -/
def Undisturbed (s : State) : Action → Prop
  | .accept result => none ∈ s.workers → result = s.connfd
  | _ => True

/-! ## The invariant -/

/-- The threads that will read the present value of `connfd`, with the one about to be
created. -/
def State.due (s : State) : Nat :=
  s.workers.count none + if s.pc = .create then 1 else 0

/-- The threads that have read `fd` or will read it. -/
def State.readers (s : State) (fd : Int) : Nat :=
  s.workers.count (some fd) + if s.connfd = fd then s.due else 0

structure Inv (s : State) : Prop where
  nonneg : ∀ fd ∈ s.fds, 0 ≤ fd
  known : ∀ fd, some fd ∈ s.workers → fd ∈ s.fds ∨ fd = -1
  current : 0 < s.due → s.connfd ∈ s.fds ∨ s.connfd = -1
  once : ∀ fd ∈ s.fds, s.readers fd ≤ 1
  all : s.pc ≠ .exited → ∀ fd ∈ s.fds, s.readers fd = 1

theorem inv_init (connfd : Int) : Inv (init connfd) := by
  constructor <;> simp [init, State.due]

theorem Inv.handedOver {s : State} (h : Inv s) : HandedOver s := by
  intro fd hfd
  have hOnce := h.once fd hfd
  rw [State.readers] at hOnce
  refine ⟨by omega, ?_⟩
  intro hPc hNone
  have hAll := h.all (by rw [hPc]; decide) fd hfd
  have hDue : s.due = 0 := by
    rw [State.due, hPc, List.count_eq_zero.mpr hNone]
    rfl
  rw [State.readers, hDue, ite_self, Nat.add_zero] at hAll
  exact hAll

/-- A step that keeps the descriptors and what has been and will be read. -/
theorem Inv.keep {s s' : State} (h : Inv s) (hFds : s'.fds = s.fds)
    (hWorkers : ∀ fd, some fd ∈ s'.workers → some fd ∈ s.workers)
    (hConnfd : s'.connfd = s.connfd) (hDue : s'.due = s.due)
    (hReaders : ∀ fd, s'.workers.count (some fd) = s.workers.count (some fd))
    (hPc : s.pc ≠ .exited) : Inv s' := by
  have hSame (fd : Int) : s'.readers fd = s.readers fd := by
    rw [State.readers, State.readers, hConnfd, hDue, hReaders]
  constructor
  · rw [hFds]
    exact h.nonneg
  · rw [hFds]
    exact fun fd hfd => h.known fd (hWorkers fd hfd)
  · rw [hFds, hConnfd, hDue]
    exact h.current
  · rw [hFds]
    intro fd hfd
    rw [hSame]
    exact h.once fd hfd
  · rw [hFds]
    intro _ fd hfd
    rw [hSame]
    exact h.all hPc fd hfd

/-- The process ends; nothing is read any more. -/
theorem Inv.exit {s : State} (h : Inv s) : Inv { s with pc := .exited } := by
  have hDue : State.due { s with pc := .exited } ≤ s.due := by simp [State.due]
  refine ⟨h.nonneg, h.known, fun hPos => h.current (by omega), fun fd hfd => ?_, ?_⟩
  · refine Nat.le_trans ?_ (h.once fd hfd)
    apply Nat.add_le_add_left
    show (if s.connfd = fd then _ else 0) ≤ _
    split
    · exact hDue
    · exact Nat.le_refl 0
  · exact fun hPc => absurd rfl hPc

/-- A new value of `connfd` takes nothing from a connection accepted before. -/
theorem readers_accept {s : State} {x fd : Int} (fds : List Int) (hPc : s.pc = .accept)
    (hQuiet : none ∈ s.workers → x = s.connfd) (hne : x ≠ fd) :
    State.readers { s with pc := .create, connfd := x, fds := fds } fd = s.readers fd := by
  show s.workers.count (some fd) + (if x = fd then _ else 0) = _
  rw [if_neg hne, State.readers]
  by_cases hNone : none ∈ s.workers
  · rw [← hQuiet hNone, if_neg hne]
  · rw [State.due, List.count_eq_zero.mpr hNone, hPc]
    simp

theorem Inv.accept_failed {s : State} (h : Inv s) (hPc : s.pc = .accept)
    (hQuiet : none ∈ s.workers → -1 = s.connfd) :
    Inv { s with pc := .create, connfd := -1 } := by
  have hReaders (fd : Int) (hfd : fd ∈ s.fds) :
      State.readers { s with pc := .create, connfd := -1 } fd = 1 := by
    have hNonneg := h.nonneg fd hfd
    rw [readers_accept s.fds hPc hQuiet (by omega)]
    exact h.all (by rw [hPc]; decide) fd hfd
  refine ⟨h.nonneg, h.known, fun _ => Or.inr rfl, ?_, fun _ => hReaders⟩
  exact fun fd hfd => Nat.le_of_eq (hReaders fd hfd)

theorem Inv.accept {s : State} (h : Inv s) (hPc : s.pc = .accept) {x : Int} (hx : 0 ≤ x)
    (hFresh : x ∉ s.fds) (hQuiet : none ∈ s.workers → x = s.connfd) :
    Inv { s with pc := .create, connfd := x, fds := x :: s.fds } := by
  have hNone : none ∉ s.workers := by
    intro hNone
    have hDue : 0 < s.due := Nat.add_pos_left (List.count_pos_iff.mpr hNone) _
    rcases h.current hDue with hMem | hMinus
    · rw [← hQuiet hNone] at hMem
      exact hFresh hMem
    · have hEq := hQuiet hNone
      omega
  have hUnread : s.workers.count (some x) = 0 := by
    rw [List.count_eq_zero]
    intro hMem
    rcases h.known x hMem with hFds | hMinus
    · exact hFresh hFds
    · omega
  have hReaders (fd : Int) (hfd : fd ∈ x :: s.fds) :
      State.readers { s with pc := .create, connfd := x, fds := x :: s.fds } fd = 1 := by
    rcases List.mem_cons.mp hfd with rfl | hOld
    · show s.workers.count (some fd) + (if fd = fd then s.workers.count none + 1 else 0) = 1
      rw [if_pos rfl, hUnread, List.count_eq_zero.mpr hNone]
    · have hne : x ≠ fd := fun hEq => hFresh (hEq ▸ hOld)
      rw [readers_accept _ hPc hQuiet hne]
      exact h.all (by rw [hPc]; decide) fd hOld
  refine ⟨?_, ?_, fun _ => Or.inl List.mem_cons_self, ?_, fun _ => hReaders⟩
  · intro fd hfd
    rcases List.mem_cons.mp hfd with rfl | hOld
    · exact hx
    · exact h.nonneg fd hOld
  · intro fd hfd
    rcases h.known fd hfd with hMem | hMinus
    · exact Or.inl (List.mem_cons_of_mem x hMem)
    · exact Or.inr hMinus
  · exact fun fd hfd => Nat.le_of_eq (hReaders fd hfd)

/-- A thread reads the present value of `connfd`. -/
theorem Inv.read {s : State} (h : Inv s) (hPc : s.pc ≠ .exited) {k : Nat}
    (hk : s.workers[k]? = some none) :
    Inv { s with workers := s.workers.set k (some s.connfd) } := by
  obtain ⟨hLt, hCell⟩ := List.getElem?_eq_some_iff.mp hk
  have hMem : none ∈ s.workers := List.mem_of_getElem? hk
  have hPos : 0 < s.workers.count none := List.count_pos_iff.mpr hMem
  have hDue : State.due { s with workers := s.workers.set k (some s.connfd) } + 1 = s.due := by
    simp only [State.due, List.count_set hLt, hCell]
    simp
    omega
  have hCount (fd : Int) : (s.workers.set k (some s.connfd)).count (some fd) =
      s.workers.count (some fd) + if s.connfd = fd then 1 else 0 := by
    simp [List.count_set hLt, hCell]
  have hReaders (fd : Int) :
      State.readers { s with workers := s.workers.set k (some s.connfd) } fd = s.readers fd := by
    show (s.workers.set k (some s.connfd)).count (some fd) +
      (if s.connfd = fd then State.due { s with workers := _ } else 0) = s.readers fd
    rw [hCount, State.readers]
    split
    · omega
    · rfl
  refine ⟨h.nonneg, ?_, fun _ => h.current (by omega), ?_, ?_⟩
  · intro fd hfd
    rcases List.mem_or_eq_of_mem_set hfd with hOld | hNew
    · exact h.known fd hOld
    · cases hNew
      exact h.current (by omega)
  · intro fd hfd
    rw [hReaders]
    exact h.once fd hfd
  · intro _ fd hfd
    rw [hReaders]
    exact h.all hPc fd hfd

theorem Inv.step {s s' : State} {a : Action} {es : List Event} (h : Inv s)
    (hQuiet : Undisturbed s a) (hStep : step s a = some (s', es)) : Inv s' := by
  cases a with
  | accept result =>
    simp only [HandOver.step] at hStep
    split at hStep
    · next hPc =>
      split at hStep
      · next hFailed =>
        cases hStep
        subst hFailed
        exact h.accept_failed hPc hQuiet
      · split at hStep
        · next hFresh =>
          cases hStep
          exact h.accept hPc hFresh.1 hFresh.2 hQuiet
        · cases hStep
    · cases hStep
  | create ok =>
    simp only [HandOver.step] at hStep
    split at hStep
    · next hPc =>
      split at hStep
      · cases hStep
        refine h.keep rfl ?_ rfl ?_ ?_ (by rw [hPc]; decide)
        · intro fd hfd
          simpa using hfd
        · simp [State.due, hPc]
        · simp
      · cases hStep
        exact h.exit
    · cases hStep
  | detach ok =>
    simp only [HandOver.step] at hStep
    split at hStep
    · next hPc =>
      split at hStep
      · cases hStep
        refine h.keep rfl (fun _ hfd => hfd) rfl ?_ (fun _ => rfl) (by rw [hPc]; decide)
        simp [State.due, hPc]
      · cases hStep
        exact h.exit
    · cases hStep
  | read k =>
    simp only [HandOver.step] at hStep
    split at hStep
    · next hRead =>
      cases hStep
      exact h.read hRead.1 hRead.2
    · cases hStep

/-! ## Whole runs -/

/-- In every run in which no `accept` changes `connfd` while a thread has still to read
it, every accepted connection is handed over to one worker. -/
theorem handedOver_of_undisturbed (connfd : Int) (sched : List Action)
    (h : Along step Undisturbed (init connfd) sched) :
    HandedOver (run step (init connfd) sched).1 := by
  refine (run_invariant_along (P := fun s _ => Inv s) (inv_init connfd) ?_ h).handedOver
  intro s _ a s' es hInv hQuiet hStep
  exact hInv.step hQuiet hStep

/-- Two connections, the second accepted after the first worker has read its own. -/
def calmSchedule : List Action :=
  [.accept 4, .create true, .detach true, .read 0, .accept 5, .create true, .detach true, .read 1]

theorem handedOver_calm :
    Along step Undisturbed (init 0) calmSchedule ∧
      HandedOver (run step (init 0) calmSchedule).1 := by
  have hAlong : Along step Undisturbed (init 0) calmSchedule := by
    simp [calmSchedule, Along, Undisturbed, advance, step, init]
  exact ⟨hAlong, handedOver_of_undisturbed 0 calmSchedule hAlong⟩

/-- Two connections accepted before the first worker has read `connfd`. -/
def hastySchedule : List Action :=
  [.accept 4, .create true, .detach true, .accept 5, .create true, .detach true, .read 0, .read 1]

theorem not_handedOver_hasty : ¬ HandedOver (run step (init 0) hastySchedule).1 := by decide

end OsLabs.Mt.HandOver
