import Mathlib.Data.Int.Notation
import OsLabs.Runs.Schedule

/-!
# The bakery server with ticket pick-up (`sem_05/rpc/new_bakery`)

`REGISTER_PROC` starts a detached `find_max_number` thread for the slot of the client,
which takes the next ticket under `mutex` and leaves it in `numbers` and `results`.
`GET_NUMBER_PROC` picks the ticket up from `results`, and `RESULT_PROC` busy-waits until no
other slot holds a smaller ticket. All three run to their end on the single dispatcher
thread, without the mutex. A client repeats the three calls, polling with the second one
until it gets something other than -1. The clients have distinct slots, so a client is
identified with its slot.

A step is one access to a shared variable (one comparison in the condition of the busy
wait), one mutex call, or the sending or taking of a message. `created` tells whether
`malloc` and `pthread_create` succeed; if not, there is no reply and the client goes on when
its call has failed. Of the time that `RESULT_PROC` returns nothing is modelled. The tickets
are unbounded.
-/

namespace OsLabs.Rpc.NewBakery

open Runs

def MAX_CLIENTS : Nat := 5000

abbrev Slot := Fin MAX_CLIENTS

/-- What a client does next, or which of its calls is under way: sent, or taken by the
dispatcher. -/
inductive ClientPc where
  | register
  | registerSent
  | registerWait
  | getNumber
  | getNumberSent
  | getNumberWait
  | result
  | resultSent
  | resultWait
deriving DecidableEq

/-- A `find_max_number` thread for the slot `idx`. -/
inductive ThreadPc where
  | absent
  | lock (idx : Slot)
  | incMax (idx : Slot)
  | storeNumber (idx : Slot)
  | storeResult (idx : Slot)
  | unlock
  | ended
deriving DecidableEq

/-- The dispatcher in `svc_run` or in one of the three procedures: in
`get_number_proc_1_svc`, or in `result_proc_1_svc` at the test of the `for` loop or at one of
the three comparisons in the condition of the `while` loop. -/
inductive DispatcherPc where
  | svcRun
  | registerReply (id : Slot)
  | getTest (id : Slot)
  | getRead (id : Slot)
  | getReset (id : Slot) (result : Int)
  | getReply (id : Slot) (result : Int)
  | forTest (j : Slot) (i : Nat)
  | whileZero (j i : Slot)
  | whileLess (j i : Slot)
  | whileEqual (j i : Slot)
  | clear (j : Slot)
  | resultReply (j : Slot)
deriving DecidableEq

/-- The globals of the server, its threads (numbered in the order of their creation) and the
clients. -/
structure State where
  numbers : Slot → Int
  results : Slot → Int
  maxNumber : Int
  mutex : Option Nat
  thread : Nat → ThreadPc
  threads : Nat
  client : Slot → ClientPc
  dispatcher : DispatcherPc

/-- A `REGISTER_PROC` with the thread it has started, a ticket assigned by a thread, and what
a `GET_NUMBER_PROC` returns to its client. -/
inductive Event where
  | registered (id : Slot) (thread : Option Nat)
  | assigned (thread : Nat) (id : Slot) (number : Int)
  | returned (id : Slot) (result : Int)
deriving DecidableEq

inductive Action where
  | client (id : Slot)
  | take (id : Slot) (created : Bool)
  | thread (k : Nat)
  | dispatcher
deriving DecidableEq

def State.setClient (s : State) (id : Slot) (pc : ClientPc) : State :=
  { s with client := Function.update s.client id pc }

def State.setThread (s : State) (k : Nat) (pc : ThreadPc) : State :=
  { s with thread := Function.update s.thread k pc }

/-- A client sends its next request. -/
def clientStep (s : State) (id : Slot) : Option (State × List Event) :=
  match s.client id with
  | .register => some (s.setClient id .registerSent, [])
  | .getNumber => some (s.setClient id .getNumberSent, [])
  | .result => some (s.setClient id .resultSent, [])
  | _ => none

/-- The dispatcher takes the request of a client. -/
def take (s : State) (id : Slot) (created : Bool) : Option (State × List Event) :=
  if s.dispatcher = .svcRun then
    match s.client id with
    | .registerSent =>
      if created then
        some ({ (s.setClient id .registerWait).setThread s.threads (.lock id) with
          threads := s.threads + 1, dispatcher := .registerReply id },
          [.registered id (some s.threads)])
      else some (s.setClient id .getNumber, [.registered id none])
    | .getNumberSent =>
      some ({ s.setClient id .getNumberWait with dispatcher := .getTest id }, [])
    | .resultSent => some ({ s.setClient id .resultWait with dispatcher := .forTest id 0 }, [])
    | _ => none
  else none

def findMaxNumber (s : State) (k : Nat) : Option (State × List Event) :=
  match s.thread k with
  | .lock idx =>
    if s.mutex = none then some ({ s.setThread k (.incMax idx) with mutex := some k }, [])
    else none
  | .incMax idx =>
    some ({ s.setThread k (.storeNumber idx) with maxNumber := s.maxNumber + 1 }, [])
  | .storeNumber idx =>
    some ({ s.setThread k (.storeResult idx) with
      numbers := Function.update s.numbers idx s.maxNumber }, [.assigned k idx s.maxNumber])
  | .storeResult idx =>
    some ({ s.setThread k .unlock with
      results := Function.update s.results idx s.maxNumber }, [])
  | .unlock => some ({ s.setThread k .ended with mutex := none }, [])
  | .absent | .ended => none

/-- How a client goes on after a reply to `GET_NUMBER_PROC`. -/
def receive (result : Int) : ClientPc := if result ≠ -1 then .result else .getNumber

/-- The rest of the procedure that the dispatcher is in. -/
def dispatcherStep (s : State) : Option (State × List Event) :=
  match s.dispatcher with
  | .svcRun => none
  | .registerReply id => some ({ s.setClient id .getNumber with dispatcher := .svcRun }, [])
  | .getTest id =>
    if s.results id = -1 then some ({ s with dispatcher := .getReply id (-1) }, [])
    else some ({ s with dispatcher := .getRead id }, [])
  | .getRead id => some ({ s with dispatcher := .getReset id (s.results id) }, [])
  | .getReset id result =>
    some ({ s with
      results := Function.update s.results id (-1), dispatcher := .getReply id result }, [])
  | .getReply id result =>
    some ({ s.setClient id (receive result) with dispatcher := .svcRun }, [.returned id result])
  | .forTest j i =>
    if h : i < MAX_CLIENTS then some ({ s with dispatcher := .whileZero j ⟨i, h⟩ }, [])
    else some ({ s with dispatcher := .clear j }, [])
  | .whileZero j i =>
    if s.numbers i ≠ 0 then some ({ s with dispatcher := .whileLess j i }, [])
    else some ({ s with dispatcher := .forTest j (i + 1) }, [])
  | .whileLess j i =>
    if s.numbers i < s.numbers j then some ({ s with dispatcher := .whileZero j i }, [])
    else some ({ s with dispatcher := .whileEqual j i }, [])
  | .whileEqual j i =>
    if s.numbers i = s.numbers j ∧ i < j then
      some ({ s with dispatcher := .whileZero j i }, [])
    else some ({ s with dispatcher := .forTest j (i + 1) }, [])
  | .clear j =>
    some ({ s with numbers := Function.update s.numbers j 0, dispatcher := .resultReply j }, [])
  | .resultReply j => some ({ s.setClient j .register with dispatcher := .svcRun }, [])

def step (s : State) : Action → Option (State × List Event)
  | .client id => clientStep s id
  | .take id created => take s id created
  | .thread k => findMaxNumber s k
  | .dispatcher => dispatcherStep s

/-- The initialiser `{-1}` of `results` sets its first element only. -/
def init : State :=
  ⟨fun _ => 0, fun id => if id.val = 0 then -1 else 0, 0, none, fun _ => .absent, 0,
    fun _ => .register, .svcRun⟩

def serve (sched : List Action) : State × List Event := run step init sched

/-! ## The mutex -/

/-- Between `lock` and `unlock`. -/
def ThreadPc.Inside : ThreadPc → Prop
  | .incMax _ | .storeNumber _ | .storeResult _ | .unlock => True
  | _ => False

/-- The thread that is inside owns the mutex, and a thread to be created is absent. -/
structure Mutexed (mutex : Option Nat) (thread : Nat → ThreadPc) (threads : Nat) : Prop where
  inside : ∀ k, (thread k).Inside → mutex = some k
  absent : ∀ k, threads ≤ k → thread k = .absent

section

variable {mutex : Option Nat} {thread : Nat → ThreadPc} {threads k : Nat} {pc : ThreadPc}

theorem Mutexed.lt (h : Mutexed mutex thread threads) (hk : thread k ≠ .absent) :
    k < threads := by
  by_contra hLe
  exact hk (h.absent k (Nat.not_lt.mp hLe))

theorem Mutexed.alone (h : Mutexed mutex thread threads) (hk : (thread k).Inside) {m : Nat}
    (hm : (thread m).Inside) : m = k :=
  Option.some.inj ((h.inside m hm).symm.trans (h.inside k hk))

/-- When the thread that is inside moves on, nobody else comes in. -/
theorem eq_of_inside_update (hAlone : ∀ m, (thread m).Inside → m = k) {m : Nat}
    (hm : (Function.update thread k pc m).Inside) : m = k := by
  by_contra hne
  rw [Function.update_of_ne hne] at hm
  exact hne (hAlone m hm)

theorem Mutexed.create (h : Mutexed mutex thread threads) (hPc : ¬ pc.Inside) :
    Mutexed mutex (Function.update thread threads pc) (threads + 1) := by
  refine ⟨fun m hm => ?_, fun m hm => ?_⟩
  · rcases eq_or_ne m threads with rfl | hne
    · rw [Function.update_self] at hm
      exact absurd hm hPc
    · rw [Function.update_of_ne hne] at hm
      exact h.inside m hm
  · rw [Function.update_of_ne (by omega)]
    exact h.absent m (by omega)

/-- The thread that holds the mutex afterwards, and held it before if anyone did. -/
theorem Mutexed.hold (h : Mutexed mutex thread threads) (hk : thread k ≠ .absent)
    (hAlone : ∀ m, (thread m).Inside → m = k) :
    Mutexed (some k) (Function.update thread k pc) threads := by
  have hLt := h.lt hk
  refine ⟨fun m hm => ?_, fun m hm => ?_⟩
  · rw [eq_of_inside_update hAlone hm]
  · rw [Function.update_of_ne (by omega)]
    exact h.absent m hm

theorem Mutexed.release (h : Mutexed mutex thread threads) (hk : thread k ≠ .absent)
    (hAlone : ∀ m, (thread m).Inside → m = k) (hPc : ¬ pc.Inside) :
    Mutexed none (Function.update thread k pc) threads := by
  have hLt := h.lt hk
  refine ⟨fun m hm => ?_, fun m hm => ?_⟩
  · obtain rfl := eq_of_inside_update hAlone hm
    rw [Function.update_self] at hm
    exact absurd hm hPc
  · rw [Function.update_of_ne (by omega)]
    exact h.absent m hm

end

variable {s s' : State} {es : List Event}

theorem clientStep_eq {id : Slot} (hStep : clientStep s id = some (s', es)) :
    ∃ pc, s' = s.setClient id pc ∧ es = [] ∧
      (s.client id = .register ∧ pc = .registerSent ∨
        s.client id = .getNumber ∧ pc = .getNumberSent ∨
        s.client id = .result ∧ pc = .resultSent) := by
  unfold clientStep at hStep
  split at hStep
  · next hPc => cases hStep; exact ⟨_, rfl, rfl, Or.inl ⟨hPc, rfl⟩⟩
  · next hPc => cases hStep; exact ⟨_, rfl, rfl, Or.inr (Or.inl ⟨hPc, rfl⟩)⟩
  · next hPc => cases hStep; exact ⟨_, rfl, rfl, Or.inr (Or.inr ⟨hPc, rfl⟩)⟩
  · cases hStep

/-- The dispatcher leaves the threads and their ticket counter alone. -/
theorem dispatcherStep_threads (hStep : dispatcherStep s = some (s', es)) :
    s'.mutex = s.mutex ∧ s'.thread = s.thread ∧ s'.threads = s.threads ∧
      s'.maxNumber = s.maxNumber := by
  unfold dispatcherStep at hStep
  split at hStep
  case h_1 => cases hStep
  case h_3 | h_7 | h_8 | h_9 | h_10 => split at hStep <;> cases hStep <;> exact ⟨rfl, rfl, rfl, rfl⟩
  all_goals
    cases hStep
    exact ⟨rfl, rfl, rfl, rfl⟩

theorem Mutexed.findMaxNumber {k : Nat} (h : Mutexed s.mutex s.thread s.threads)
    (hStep : findMaxNumber s k = some (s', es)) : Mutexed s'.mutex s'.thread s'.threads := by
  have hHold (hInside : (s.thread k).Inside) {pc : ThreadPc} :
      Mutexed s.mutex (Function.update s.thread k pc) s.threads := by
    rw [h.inside k hInside]
    refine h.hold (fun hAbsent => ?_) fun m hm => h.alone hInside hm
    rw [hAbsent] at hInside
    exact hInside
  unfold NewBakery.findMaxNumber at hStep
  split at hStep
  · next idx hPc =>
    split at hStep
    · next hFree =>
      cases hStep
      refine h.hold (by rw [hPc]; nofun) fun m hm => ?_
      have hOwner := h.inside m hm
      rw [hFree] at hOwner
      cases hOwner
    · cases hStep
  · next idx hPc => cases hStep; exact hHold (by rw [hPc]; trivial)
  · next idx hPc => cases hStep; exact hHold (by rw [hPc]; trivial)
  · next idx hPc => cases hStep; exact hHold (by rw [hPc]; trivial)
  · next hPc =>
    cases hStep
    have hInside : (s.thread k).Inside := by rw [hPc]; trivial
    exact h.release (by rw [hPc]; nofun) (fun m hm => h.alone hInside hm) nofun
  · cases hStep
  · cases hStep

theorem Mutexed.step {a : Action} (h : Mutexed s.mutex s.thread s.threads)
    (hStep : step s a = some (s', es)) : Mutexed s'.mutex s'.thread s'.threads := by
  cases a with
  | client id =>
    obtain ⟨pc, rfl, -, -⟩ := clientStep_eq hStep
    exact h
  | take id created =>
    simp only [NewBakery.step, take] at hStep
    split at hStep
    · split at hStep
      · split at hStep
        · cases hStep
          exact h.create nofun
        · cases hStep
          exact h
      · cases hStep
        exact h
      · cases hStep
        exact h
      · cases hStep
    · cases hStep
  | thread k => exact h.findMaxNumber hStep
  | dispatcher =>
    obtain ⟨hMutex, hThread, hThreads, -⟩ := dispatcherStep_threads hStep
    rw [hMutex, hThread, hThreads]
    exact h

/-! ## Parts of schedules -/

def slot0 : Slot := ⟨0, by decide⟩

def slot1 : Slot := ⟨1, by decide⟩

/-- The client in slot `j` registers, and its thread `k` runs to the end. -/
def registering (j : Slot) (k : Nat) : List Action :=
  [.client j, .take j true, .dispatcher, .thread k, .thread k, .thread k, .thread k, .thread k]

end OsLabs.Rpc.NewBakery
