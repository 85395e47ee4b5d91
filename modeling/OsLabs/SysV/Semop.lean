import Mathlib.Algebra.Ring.Int.Defs
import Mathlib.Logic.Function.Basic

/-!
# System V semaphore sets

`semop` performs an array of operations on a set of semaphores in array order, as one
atomic action: either all of them apply, or the set is left as it was. A positive
`sem_op` is added (and fails with `ERANGE` past `SEMVMX`), zero waits for the value
zero, a negative one waits until it can be subtracted. An operation that cannot apply
puts the caller to sleep, or fails with `EAGAIN` if it carries `IPC_NOWAIT`.

The semaphores of a set are indexed by a type of their own. A caller that sleeps in a
call retries the whole array, so `attempt` gives what one attempt leads to for a caller
which is, or is not yet, asleep.
-/

namespace OsLabs.SysV

variable {ι : Type}

/-- One `struct sembuf`; `nowait` is the flag `IPC_NOWAIT`. -/
structure Sembuf (ι : Type) where
  num : ι
  op : Int
  nowait : Bool

/-- The values of the semaphores of a set. -/
abbrev SemSet (ι : Type) := ι → Nat

/-- The largest value of a semaphore. -/
def SEMVMX : Nat := 32767

inductive SemResult (ι : Type) where
  | done (vals : SemSet ι)
  | sleep
  | eagain
  | erange

/-- The result of an operation that cannot apply. -/
def wouldBlock (nowait : Bool) : SemResult ι :=
  if nowait then .eagain else .sleep

variable [DecidableEq ι]

/-- All operations of the array in order, on a copy of the values. -/
def semop (vals : SemSet ι) : List (Sembuf ι) → SemResult ι
  | [] => .done vals
  | b :: rest =>
    if 0 < b.op then
      if SEMVMX < vals b.num + b.op.toNat then .erange
      else semop (Function.update vals b.num (vals b.num + b.op.toNat)) rest
    else if b.op = 0 then
      if vals b.num = 0 then semop vals rest else wouldBlock b.nowait
    else if vals b.num < b.op.natAbs then wouldBlock b.nowait
    else semop (Function.update vals b.num (vals b.num - b.op.natAbs)) rest

@[simp] theorem semop_nil (vals : SemSet ι) : semop vals [] = .done vals := rfl

@[simp] theorem semop_up (vals : SemSet ι) (i : ι) (nowait : Bool) (rest : List (Sembuf ι)) :
    semop vals (⟨i, 1, nowait⟩ :: rest) =
      if SEMVMX < vals i + 1 then .erange
      else semop (Function.update vals i (vals i + 1)) rest := rfl

@[simp] theorem semop_zero (vals : SemSet ι) (i : ι) (nowait : Bool)
    (rest : List (Sembuf ι)) :
    semop vals (⟨i, 0, nowait⟩ :: rest) =
      if vals i = 0 then semop vals rest else wouldBlock nowait := rfl

@[simp] theorem semop_down (vals : SemSet ι) (i : ι) (nowait : Bool)
    (rest : List (Sembuf ι)) :
    semop vals (⟨i, -1, nowait⟩ :: rest) =
      if vals i < 1 then wouldBlock nowait
      else semop (Function.update vals i (vals i - 1)) rest := rfl

/-! ## The effect of a call that returns -/

/-- What an array adds to one semaphore. -/
def net (ops : List (Sembuf ι)) (i : ι) : Int :=
  (ops.map fun b => if b.num = i then b.op else 0).sum

@[simp] theorem net_nil (i : ι) : net [] i = 0 := rfl

@[simp] theorem net_cons (b : Sembuf ι) (rest : List (Sembuf ι)) (i : ι) :
    net (b :: rest) i = (if b.num = i then b.op else 0) + net rest i := by
  simp only [net, List.map_cons, List.sum_cons]

/-- A call that returns has changed every semaphore by what its array adds to it. -/
theorem semop_net {vals vals' : SemSet ι} {ops : List (Sembuf ι)}
    (h : semop vals ops = .done vals') (i : ι) : (vals' i : Int) = vals i + net ops i := by
  induction ops generalizing vals with
  | nil =>
    cases h
    simp
  | cons b rest ih =>
    have hUpdate (v : Nat) : Function.update vals b.num v i = if b.num = i then v else vals i := by
      by_cases hi : b.num = i
      · subst hi
        simp
      · simp [hi, Function.update_of_ne (Ne.symm hi)]
    have hOld : b.num = i → vals b.num = vals i := fun hi => by rw [hi]
    unfold semop at h
    split at h
    · split at h
      · cases h
      · rw [ih h, net_cons, hUpdate]
        split
        · next hi => have := hOld hi; omega
        · omega
    · split at h
      · split at h
        · rw [ih h, net_cons]
          split <;> omega
        · unfold wouldBlock at h
          split at h <;> cases h
      · split at h
        · unfold wouldBlock at h
          split at h <;> cases h
        · rw [ih h, net_cons, hUpdate]
          split
          · next hi => have := hOld hi; omega
          · omega

/-! ## A `semop` statement of a program -/

/-- Why a call that may sleep returns `-1`: a signal, or a value past `SEMVMX`. -/
inductive Errno where
  | eintr
  | erange
deriving DecidableEq

variable {α : Type}

/-- What one attempt of a `semop` statement leads to, for a caller which is, or is not
yet, asleep in it: `enter` if the call returns, `sleep` if the caller falls asleep, `fail`
if the call returns `-1`. A caller that stays asleep does not move. -/
def attempt (vals : SemSet ι) (ops : List (Sembuf ι)) (asleep : Bool) (enter : SemSet ι → α)
    (sleep fail : α) : Option α :=
  match semop vals ops with
  | .done vals' => some (enter vals')
  | .sleep => if asleep then none else some sleep
  | .eagain | .erange => some fail

theorem attempt_cases {vals : SemSet ι} {ops : List (Sembuf ι)} {asleep : Bool}
    {enter : SemSet ι → α} {sleep fail x : α}
    (h : attempt vals ops asleep enter sleep fail = some x) :
    (∃ vals', semop vals ops = .done vals' ∧ x = enter vals') ∨
      (semop vals ops = .sleep ∧ x = sleep) ∨
      ((semop vals ops = .eagain ∨ semop vals ops = .erange) ∧ x = fail) := by
  unfold attempt at h
  split at h
  · next vals' hDone =>
    cases h
    exact Or.inl ⟨vals', hDone, rfl⟩
  · next hSleep =>
    split at h
    · cases h
    · cases h
      exact Or.inr (Or.inl ⟨hSleep, rfl⟩)
  · next hAgain =>
    cases h
    exact Or.inr (Or.inr ⟨Or.inl hAgain, rfl⟩)
  · next hRange =>
    cases h
    exact Or.inr (Or.inr ⟨Or.inr hRange, rfl⟩)

theorem attempt_done {vals vals' : SemSet ι} {ops : List (Sembuf ι)} {asleep : Bool}
    {enter : SemSet ι → α} {sleep fail x : α} (hDone : semop vals ops = .done vals')
    (h : attempt vals ops asleep enter sleep fail = some x) : x = enter vals' := by
  simp only [attempt, hDone, Option.some.injEq] at h
  exact h.symm

/-- The rule for an attempt: a caller falls asleep only when it is awake. -/
theorem attempt_elim {P : α → Prop} {vals : SemSet ι} {ops : List (Sembuf ι)} {asleep : Bool}
    {enter : SemSet ι → α} {sleep fail x : α}
    (h : attempt vals ops asleep enter sleep fail = some x)
    (hEnter : ∀ vals', semop vals ops = .done vals' → P (enter vals'))
    (hSleep : asleep = false → P sleep)
    (hFail : semop vals ops = .eagain ∨ semop vals ops = .erange → P fail) : P x := by
  unfold attempt at h
  split at h
  · next vals' hDone =>
    cases h
    exact hEnter vals' hDone
  · split at h
    · cases h
    · next hAwake =>
      cases h
      exact hSleep (by simpa using hAwake)
  · next hAgain =>
    cases h
    exact hFail (Or.inl hAgain)
  · next hRange =>
    cases h
    exact hFail (Or.inr hRange)

theorem attempt_enabled {vals vals' : SemSet ι} {ops : List (Sembuf ι)} {asleep : Bool}
    {enter : SemSet ι → α} {sleep fail : α} (hDone : semop vals ops = .done vals') :
    attempt vals ops asleep enter sleep fail ≠ none := by
  simp [attempt, hDone]

end OsLabs.SysV
