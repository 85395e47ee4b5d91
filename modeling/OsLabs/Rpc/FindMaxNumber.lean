import Mathlib.Order.Bounds.Basic
import Mathlib.Order.Nat
import OsLabs.Runs.Schedule

/-!
# The ticket server that starts one number late (`sem_05/rpc/for-review/bakery_3`)

`get_number_1_svc` starts a detached `find_max_number` thread, which takes the next number
and sends it under `number_mutex`; `bakery_service_1_svc` runs on the dispatcher thread and
refuses every number but `current_number`. A client gets one number and then presents it
until the answer is positive.

Both counters start at 1, but `find_max_number` counts up before it reads `next_number`.
The first number handed out is 2, and `current_number` stays at 1 for ever.

A step is one access to a shared variable, one mutex call, or the sending or taking of a
message. The input of a step of the dispatcher is whether the thread could be created, or
the time in milliseconds.
-/

namespace OsLabs.Rpc.FindMaxNumber

open Runs

variable {τ : Type}

/-- What a client does next, or which of its calls is under way. -/
inductive ClientPc where
  | getNumber
  | getNumberSent
  | getNumberWait
  | service (num : Nat)
  | serviceSent (num : Nat)
  | serviceWait (num : Nat)
  | received (num : Nat)
deriving DecidableEq

/-- The `find_max_number` thread of a client. -/
inductive FinderPc where
  | absent
  | lock
  | incNext
  | readNext
  | sendreply
  | unlock
  | ended
deriving DecidableEq

/-- The dispatcher in `svc_run` or in `bakery_service_1_svc` for the client `t`. -/
inductive DispatcherPc (τ : Type) where
  | svcRun
  | compare (t : τ) (num : Nat)
  | incCurrent (t : τ) (num : Nat) (result : Int)
  | reply (t : τ) (num : Nat) (result : Int)
deriving DecidableEq

/-- `result` is the static variable of `find_max_number`. -/
structure State (τ : Type) where
  nextNumber : Nat
  currentNumber : Nat
  numberMutex : Option τ
  result : Nat
  client : τ → ClientPc
  finder : τ → FinderPc
  dispatcher : DispatcherPc τ

inductive Event (τ : Type) where
  | issued (t : τ) (num : Nat)
  | served (t : τ) (num : Nat)
  | refused (t : τ) (num : Nat)
deriving DecidableEq

inductive Action (τ : Type) where
  | client (t : τ)
  | finder (t : τ)
  | take (t : τ) (created : Bool)
  | dispatcher (time : Int)
deriving DecidableEq

variable [DecidableEq τ]

def State.setClient (s : State τ) (t : τ) (pc : ClientPc) : State τ :=
  { s with client := Function.update s.client t pc }

def State.setFinder (s : State τ) (t : τ) (pc : FinderPc) : State τ :=
  { s with finder := Function.update s.finder t pc }

def clientStep (s : State τ) (t : τ) : Option (State τ × List (Event τ)) :=
  match s.client t with
  | .getNumber => some (s.setClient t .getNumberSent, [])
  | .service num => some (s.setClient t (.serviceSent num), [])
  | _ => none

/-- The dispatcher takes the request of client `t`; for `GET_NUMBER` this is all of
`get_number_1_svc`. Without a thread the client gets no reply. -/
def take (s : State τ) (t : τ) (created : Bool) : Option (State τ × List (Event τ)) :=
  if s.dispatcher = .svcRun then
    match s.client t with
    | .getNumberSent =>
      if created then some ((s.setClient t .getNumberWait).setFinder t .lock, [])
      else some (s.setClient t .getNumberWait, [])
    | .serviceSent num =>
      some ({ s.setClient t (.serviceWait num) with dispatcher := .compare t num }, [])
    | _ => none
  else none

def findMaxNumber (s : State τ) (t : τ) : Option (State τ × List (Event τ)) :=
  match s.finder t with
  | .lock =>
    if s.numberMutex = none then
      some ({ s.setFinder t .incNext with numberMutex := some t }, [])
    else none
  | .incNext => some ({ s.setFinder t .readNext with nextNumber := s.nextNumber + 1 }, [])
  | .readNext => some ({ s.setFinder t .sendreply with result := s.nextNumber }, [])
  | .sendreply =>
    some ((s.setClient t (.service s.result)).setFinder t .unlock, [.issued t s.result])
  | .unlock => some ({ s.setFinder t .ended with numberMutex := none }, [])
  | .absent | .ended => none

/-- `bakery_service_1_svc` and its reply. -/
def bakeryService (s : State τ) (time : Int) : Option (State τ × List (Event τ)) :=
  match s.dispatcher with
  | .svcRun => none
  | .compare t num =>
    if num ≠ s.currentNumber then
      some ({ s with dispatcher := .reply t num (-1) }, [.refused t num])
    else some ({ s with dispatcher := .incCurrent t num time }, [])
  | .incCurrent t num result =>
    some ({ s with currentNumber := s.currentNumber + 1, dispatcher := .reply t num result },
      [.served t num])
  | .reply t num result =>
    some ({ s.setClient t (if result > 0 then .received num else .service num) with
      dispatcher := .svcRun }, [])

def step (s : State τ) : Action τ → Option (State τ × List (Event τ))
  | .client t => clientStep s t
  | .finder t => findMaxNumber s t
  | .take t created => take s t created
  | .dispatcher time => bakeryService s time

omit [DecidableEq τ] in
def init : State τ := ⟨1, 1, none, 0, fun _ => .getNumber, fun _ => .absent, .svcRun⟩

def serve (sched : List (Action τ)) : State τ × List (Event τ) := run step init sched

/-! ## Nobody is ever served -/

omit [DecidableEq τ] in
def issued (h : List (Event τ)) : List Nat :=
  h.filterMap fun
    | .issued _ num => some num
    | _ => none

omit [DecidableEq τ] in
def served (h : List (Event τ)) : List Nat :=
  h.filterMap fun
    | .served _ num => some num
    | _ => none

omit [DecidableEq τ] in
/-- The smallest number that was handed out and not served, if there is one, is the one the
service accepts. -/
def Serviceable (s : State τ) (h : List (Event τ)) : Prop :=
  ∀ num, IsLeast {num | num ∈ issued h ∧ num ∉ served h} num → num = s.currentNumber

/-- The number a client has got is at least 2. -/
def ClientPc.Late : ClientPc → Prop
  | .service num | .serviceSent num | .serviceWait num | .received num => 2 ≤ num
  | _ => True

/-- A thread past its `next_number++` has seen at least 2. -/
def FinderPc.Late (nextNumber result : Nat) : FinderPc → Prop
  | .readNext => 2 ≤ nextNumber
  | .sendreply => 2 ≤ result
  | _ => True

omit [DecidableEq τ] in
def DispatcherPc.Late : DispatcherPc τ → Prop
  | .svcRun => True
  | .compare _ num | .reply _ num _ => 2 ≤ num
  | .incCurrent _ _ _ => False

omit [DecidableEq τ] in
structure Inv (s : State τ) (h : List (Event τ)) : Prop where
  next : 1 ≤ s.nextNumber
  current : s.currentNumber = 1
  client : ∀ t, (s.client t).Late
  finder : ∀ t, (s.finder t).Late s.nextNumber s.result
  dispatcher : s.dispatcher.Late
  issued : ∀ num ∈ issued h, 2 ≤ num
  served : served h = []

omit [DecidableEq τ] in
theorem inv_init : Inv (init : State τ) [] :=
  ⟨Nat.le_refl 1, rfl, fun _ => trivial, fun _ => trivial, trivial, nofun, rfl⟩

variable {s s' : State τ} {h es : List (Event τ)} {t : τ}

theorem Inv.setClient (hInv : Inv s h) (t : τ) (pc : ClientPc) (hPc : pc.Late) :
    Inv (s.setClient t pc) h :=
  ⟨hInv.next, hInv.current, forall_update hInv.client hPc t, hInv.finder, hInv.dispatcher,
    hInv.issued, hInv.served⟩

theorem Inv.setFinder (hInv : Inv s h) (t : τ) (pc : FinderPc)
    (hPc : pc.Late s.nextNumber s.result) : Inv (s.setFinder t pc) h :=
  ⟨hInv.next, hInv.current, hInv.client, forall_update hInv.finder hPc t, hInv.dispatcher,
    hInv.issued, hInv.served⟩

omit [DecidableEq τ] in
theorem Inv.setDispatcher (hInv : Inv s h) (d : DispatcherPc τ) (hd : d.Late) :
    Inv { s with dispatcher := d } h :=
  ⟨hInv.next, hInv.current, hInv.client, hInv.finder, hd, hInv.issued, hInv.served⟩

omit [DecidableEq τ] in
theorem Inv.setMutex (hInv : Inv s h) (numberMutex : Option τ) :
    Inv { s with numberMutex := numberMutex } h :=
  ⟨hInv.next, hInv.current, hInv.client, hInv.finder, hInv.dispatcher, hInv.issued, hInv.served⟩

theorem Inv.clientStep (hInv : Inv s h) (hStep : clientStep s t = some (s', es)) :
    Inv s' (h ++ es) := by
  have hClient := hInv.client t
  unfold FindMaxNumber.clientStep at hStep
  split at hStep
  · cases hStep
    rw [List.append_nil]
    exact hInv.setClient t .getNumberSent trivial
  · next num hPc =>
    cases hStep
    rw [List.append_nil]
    rw [hPc] at hClient
    exact hInv.setClient t (.serviceSent num) hClient
  · cases hStep

theorem Inv.take (hInv : Inv s h) {created : Bool} (hStep : take s t created = some (s', es)) :
    Inv s' (h ++ es) := by
  have hClient := hInv.client t
  unfold FindMaxNumber.take at hStep
  split at hStep
  · split at hStep
    · split at hStep
      · cases hStep
        rw [List.append_nil]
        exact (hInv.setClient t .getNumberWait trivial).setFinder t .lock trivial
      · cases hStep
        rw [List.append_nil]
        exact hInv.setClient t .getNumberWait trivial
    · next num hPc =>
      cases hStep
      rw [List.append_nil]
      rw [hPc] at hClient
      exact (hInv.setClient t (.serviceWait num) hClient).setDispatcher (.compare t num) hClient
    · cases hStep
  · cases hStep

theorem Inv.findMaxNumber (hInv : Inv s h) (hStep : findMaxNumber s t = some (s', es)) :
    Inv s' (h ++ es) := by
  have hFinder := hInv.finder t
  unfold FindMaxNumber.findMaxNumber at hStep
  split at hStep
  · split at hStep
    · cases hStep
      rw [List.append_nil]
      exact (hInv.setFinder t .incNext trivial).setMutex (some t)
    · cases hStep
  · cases hStep
    rw [List.append_nil]
    have hNext := hInv.next
    have hUp : ∀ u, (s.finder u).Late (s.nextNumber + 1) s.result := by
      intro u
      have hOld := hInv.finder u
      cases hPc : s.finder u with
      | readNext =>
        show 2 ≤ s.nextNumber + 1
        omega
      | sendreply => rwa [hPc] at hOld
      | absent | lock | incNext | unlock | ended => trivial
    refine ⟨Nat.le_succ_of_le hNext, hInv.current, hInv.client, forall_update hUp ?_ t,
      hInv.dispatcher, hInv.issued, hInv.served⟩
    show 2 ≤ s.nextNumber + 1
    omega
  · next hPc =>
    cases hStep
    rw [List.append_nil]
    rw [hPc] at hFinder
    have hSeen : ∀ u, (s.finder u).Late s.nextNumber s.nextNumber := by
      intro u
      cases s.finder u with
      | readNext | sendreply => exact hFinder
      | absent | lock | incNext | unlock | ended => trivial
    have hAll : ∀ u, (Function.update s.finder t .sendreply u).Late s.nextNumber s.nextNumber :=
      forall_update hSeen (show FinderPc.Late _ _ .sendreply from hFinder) t
    exact ⟨hInv.next, hInv.current, hInv.client, hAll, hInv.dispatcher, hInv.issued, hInv.served⟩
  · next hPc =>
    cases hStep
    rw [hPc] at hFinder
    have hMoved := (hInv.setClient t (.service s.result) hFinder).setFinder t .unlock trivial
    refine ⟨hMoved.next, hMoved.current, hMoved.client, hMoved.finder, hMoved.dispatcher, ?_, ?_⟩
    · intro num hNum
      simp only [FindMaxNumber.issued, List.filterMap_append, List.mem_append] at hNum
      rcases hNum with hOld | hNew
      · exact hInv.issued num hOld
      · obtain rfl : num = s.result := by simpa using hNew
        exact hFinder
    · rw [FindMaxNumber.served, List.filterMap_append]
      exact (List.append_nil _).trans hInv.served
  · cases hStep
    rw [List.append_nil]
    exact (hInv.setFinder t .ended trivial).setMutex none
  · cases hStep
  · cases hStep

theorem Inv.bakeryService (hInv : Inv s h) {time : Int}
    (hStep : bakeryService s time = some (s', es)) : Inv s' (h ++ es) := by
  have hDispatcher := hInv.dispatcher
  unfold FindMaxNumber.bakeryService at hStep
  split at hStep
  · cases hStep
  · next u num hd =>
    rw [hd] at hDispatcher
    split at hStep
    · cases hStep
      have hMoved := hInv.setDispatcher (.reply u num (-1)) hDispatcher
      refine ⟨hMoved.next, hMoved.current, hMoved.client, hMoved.finder, hMoved.dispatcher,
        ?_, ?_⟩
      · intro m hm
        refine hInv.issued m ?_
        simpa [FindMaxNumber.issued] using hm
      · rw [FindMaxNumber.served, List.filterMap_append]
        exact (List.append_nil _).trans hInv.served
    · next hEq =>
      have hLate : 2 ≤ num := hDispatcher
      rw [not_not.mp hEq, hInv.current] at hLate
      omega
  · next u num result hd =>
    rw [hd] at hDispatcher
    exact absurd hDispatcher id
  · next u num result hd =>
    cases hStep
    rw [List.append_nil]
    rw [hd] at hDispatcher
    refine (hInv.setClient u _ ?_).setDispatcher .svcRun trivial
    split
    · exact hDispatcher
    · exact hDispatcher

theorem serve_inv (sched : List (Action τ)) : Inv (serve sched).1 (serve sched).2 := by
  refine run_invariant inv_init ?_ sched
  intro s h a s' es hInv hStep
  cases a with
  | client t => exact hInv.clientStep hStep
  | finder t => exact hInv.findMaxNumber hStep
  | take t created => exact hInv.take hStep
  | dispatcher time => exact hInv.bakeryService hStep

/-- As soon as a number has been handed out, every waiting client is refused: the smallest
waiting number is at least 2 and `current_number` is 1. -/
theorem serviceable_iff (sched : List (Action τ)) :
    Serviceable (serve sched).1 (serve sched).2 ↔ issued (serve sched).2 = [] := by
  have hInv := serve_inv sched
  constructor
  · intro hServiceable
    by_contra hSome
    have hWaiting : ∃ num, num ∈ issued (serve sched).2 ∧ num ∉ served (serve sched).2 := by
      obtain ⟨num, hNum⟩ := List.exists_mem_of_ne_nil _ hSome
      refine ⟨num, hNum, ?_⟩
      rw [hInv.served]
      exact List.not_mem_nil
    classical
    have hCurrent := hServiceable (Nat.find hWaiting)
      ⟨Nat.find_spec hWaiting, fun num hNum => Nat.find_min' hWaiting hNum⟩
    have hLate := hInv.issued _ (Nat.find_spec hWaiting).1
    rw [hCurrent, hInv.current] at hLate
    omega
  · intro hNone num hLeast
    have hMem := hLeast.1.1
    rw [hNone] at hMem
    cases hMem

/-- One client that has got its number. -/
def oneClient : List (Action Unit) :=
  [.client (), .take () true, .finder (), .finder (), .finder (), .finder (), .finder ()]

theorem not_serviceable_first : ¬ Serviceable (serve oneClient).1 (serve oneClient).2 := by
  intro hServiceable
  have hIssued : issued (serve oneClient).2 = [2] := by decide
  have hServed : served (serve oneClient).2 = [] := by decide
  have hCurrent : 2 = (serve oneClient).1.currentNumber := by
    refine hServiceable 2 ⟨?_, ?_⟩
    · rw [hIssued, hServed]
      simp
    · rintro num ⟨hNum, -⟩
      rw [hIssued, List.mem_singleton] at hNum
      exact Nat.le_of_eq hNum.symm
  revert hCurrent
  decide

end OsLabs.Rpc.FindMaxNumber
