import OsLabs.Rpc.FindMaxNumber
import OsLabs.Rpc.Timespec

/-!
# What a served client is told

`bakery_service_1_svc` answers a client that is served with the time in milliseconds, narrowed
to an `int`, and one that is refused with -1. The client takes a positive answer for having
been served. From `2 ^ 31` milliseconds (25 days) on the narrowed time is negative half of the
time. A client that is served then goes on polling with a number that never comes up again.

The state in which the call begins is arbitrary: with numbers from `get_number_1_svc` alone
nobody is ever served, but the server takes any number.
-/

namespace OsLabs.Rpc.FindMaxNumber

open Runs

variable {τ : Type} [DecidableEq τ] {s s' : State τ} {es : List (Event τ)} {t : τ} {num : Nat}

omit [DecidableEq τ] in
/-- The rest of a call with the number `num` by client `t`: `current` is `current_number` at the
comparison, and `time` the answer if the number is accepted. -/
inductive Serving (t : τ) (num current : Nat) (time : Int) (s : State τ) : Prop where
  | refused (hNum : num ≠ current) (hPc : s.dispatcher = .reply t num (-1))
      (hCurrent : s.currentNumber = current)
  | accepted (hNum : num = current) (hPc : s.dispatcher = .incCurrent t num time)
      (hCurrent : s.currentNumber = current)
  | counted (hNum : num = current) (hPc : s.dispatcher = .reply t num time)
      (hCurrent : s.currentNumber = current + 1)
  | told (hPc : s.dispatcher = .svcRun)
      (hRefused : num ≠ current → s.client t = .service num ∧ s.currentNumber = current)
      (hServed : num = current → s.currentNumber = current + 1 ∧
        s.client t = if time > 0 then .received num else .service num)

/-- Nobody but the dispatcher changes `current_number` or the place of the dispatcher. -/
theorem others_step {a : Action τ} (hBusy : s.dispatcher ≠ .svcRun)
    (ha : ∀ time, a ≠ .dispatcher time) (hStep : step s a = some (s', es)) :
    s'.dispatcher = s.dispatcher ∧ s'.currentNumber = s.currentNumber := by
  cases a with
  | client u =>
    simp only [step, clientStep] at hStep
    split at hStep <;> cases hStep <;> exact ⟨rfl, rfl⟩
  | finder u =>
    simp only [step, findMaxNumber] at hStep
    split at hStep
    case h_1 =>
      split at hStep
      · cases hStep
        exact ⟨rfl, rfl⟩
      · cases hStep
    case h_6 | h_7 => cases hStep
    all_goals
      cases hStep
      exact ⟨rfl, rfl⟩
  | take u created =>
    simp only [step, take, if_neg hBusy] at hStep
    cases hStep
  | dispatcher time => exact absurd rfl (ha time)

theorem Serving.dispatcher {current : Nat} {time x : Int} (h : Serving t num current time s)
    (hBusy : s.dispatcher ≠ .svcRun) (hStep : bakeryService s x = some (s', es)) :
    Serving t num current time s' := by
  cases h with
  | refused hNum hPc hCurrent =>
    simp only [bakeryService, hPc, Option.some.injEq, Prod.mk.injEq] at hStep
    obtain ⟨rfl, -⟩ := hStep
    refine .told rfl (fun _ => ⟨?_, hCurrent⟩) fun hEq => absurd hEq hNum
    exact Function.update_self t _ _
  | accepted hNum hPc hCurrent =>
    simp only [bakeryService, hPc, Option.some.injEq, Prod.mk.injEq] at hStep
    obtain ⟨rfl, -⟩ := hStep
    refine .counted hNum rfl ?_
    rw [← hCurrent]
  | counted hNum hPc hCurrent =>
    simp only [bakeryService, hPc, Option.some.injEq, Prod.mk.injEq] at hStep
    obtain ⟨rfl, -⟩ := hStep
    refine .told rfl (fun hNe => absurd hNum hNe) fun _ => ⟨hCurrent, ?_⟩
    exact Function.update_self t _ _
  | told hPc => exact absurd hPc hBusy

theorem Serving.step {current : Nat} {time : Int} {a : Action τ}
    (h : Serving t num current time s) (hBusy : s.dispatcher ≠ .svcRun)
    (hStep : step s a = some (s', es)) : Serving t num current time s' := by
  by_cases ha : ∃ x, a = .dispatcher x
  · obtain ⟨x, rfl⟩ := ha
    exact h.dispatcher hBusy hStep
  · obtain ⟨hPc', hCurrent'⟩ := others_step hBusy (fun x hEq => ha ⟨x, hEq⟩) hStep
    cases h with
    | refused hNum hPc hCurrent =>
      exact .refused hNum (hPc'.trans hPc) (hCurrent'.trans hCurrent)
    | accepted hNum hPc hCurrent =>
      exact .accepted hNum (hPc'.trans hPc) (hCurrent'.trans hCurrent)
    | counted hNum hPc hCurrent =>
      exact .counted hNum (hPc'.trans hPc) (hCurrent'.trans hCurrent)
    | told hPc => exact absurd hPc hBusy

/-- The comparison. -/
theorem serving_compare (hCompare : s.dispatcher = .compare t num) (time : Int) :
    Serving t num s.currentNumber time (advance step (s, []) (.dispatcher time)).1 := by
  by_cases hNum : num = s.currentNumber
  · have hStep : step s (.dispatcher time) =
        some ({ s with dispatcher := .incCurrent t num time }, []) := by
      simp only [step, bakeryService, hCompare, if_neg (not_not.mpr hNum)]
    rw [advance_eq_some (x := (s, [])) hStep]
    exact .accepted hNum rfl rfl
  · have hStep : step s (.dispatcher time) =
        some ({ s with dispatcher := .reply t num (-1) }, [.refused t num]) := by
      simp only [step, bakeryService, hCompare, if_pos hNum]
    rw [advance_eq_some (x := (s, [])) hStep]
    exact .refused hNum rfl rfl

theorem serving_of_call {time : Int} {rest : List (Action τ)}
    (hCompare : s.dispatcher = .compare t num)
    (hCall : Along step (fun s _ => s.dispatcher ≠ .svcRun) s (.dispatcher time :: rest)) :
    Serving t num s.currentNumber time (run step s (.dispatcher time :: rest)).1 := by
  rw [run_cons_state]
  exact run_invariant_along (P := fun s' _ => Serving t num s.currentNumber time s')
    (serving_compare hCompare time) (fun _ _ _ _ _ h hBusy hStep => h.step hBusy hStep) hCall.2

/-- A call that begins in the state `s` and ends in the state `s'`, with any steps of the clients
and of the other threads in between: the client takes itself for served exactly if
`current_number` has been advanced, except if the number is accepted and the narrowed time is
not positive. -/
theorem received_iff_advanced_iff {ts : Timespec} {rest : List (Action τ)}
    (hCompare : s.dispatcher = .compare t num)
    (hCall : Along step (fun s _ => s.dispatcher ≠ .svcRun) s
      (.dispatcher (toInt ts.milliseconds) :: rest))
    (hAfter : (run step s (.dispatcher (toInt ts.milliseconds) :: rest)).1 = s')
    (hReturned : s'.dispatcher = .svcRun) :
    (s'.client t = .received num ↔ s'.currentNumber = s.currentNumber + 1) ↔
      num ≠ s.currentNumber ∨
        0 < ts.milliseconds % 2 ^ 32 ∧ ts.milliseconds % 2 ^ 32 < 2 ^ 31 := by
  have hServing := serving_of_call hCompare hCall
  rw [hAfter] at hServing
  rw [← toInt_pos_iff]
  cases hServing with
  | refused _ hPc => rw [hPc] at hReturned; cases hReturned
  | accepted _ hPc => rw [hPc] at hReturned; cases hReturned
  | counted _ hPc => rw [hPc] at hReturned; cases hReturned
  | told _ hRefused hServed =>
    by_cases hNum : num = s.currentNumber
    · obtain ⟨hCurrent, hClient⟩ := hServed hNum
      rw [hClient, hCurrent]
      by_cases hTime : toInt ts.milliseconds > 0
      · rw [if_pos hTime]
        exact iff_of_true (iff_of_true rfl rfl) (Or.inr hTime)
      · rw [if_neg hTime]
        refine iff_of_false (fun hIff => ?_) (not_or.mpr ⟨not_not.mpr hNum, hTime⟩)
        cases hIff.mpr rfl
    · obtain ⟨hClient, hCurrent⟩ := hRefused hNum
      rw [hClient, hCurrent]
      refine iff_of_true (iff_of_false nofun ?_) (Or.inl hNum)
      omega

/-- A fresh server takes a call with the number 1. -/
def calledWithOne : State Unit :=
  { init with client := fun _ => .serviceWait 1, dispatcher := .compare () 1 }

theorem received_calledWithOne :
    (run step calledWithOne [.dispatcher (toInt (Timespec.mk 1 0).milliseconds), .dispatcher 0,
      .dispatcher 0]).1.client () = .received 1 ∧
    ((run step calledWithOne [.dispatcher (toInt (Timespec.mk 1 0).milliseconds), .dispatcher 0,
      .dispatcher 0]).1.client () = .received 1 ↔
      (run step calledWithOne [.dispatcher (toInt (Timespec.mk 1 0).milliseconds), .dispatcher 0,
        .dispatcher 0]).1.currentNumber = calledWithOne.currentNumber + 1) := by
  have hCall : Along step (fun s _ => s.dispatcher ≠ .svcRun) calledWithOne
      [.dispatcher (toInt (Timespec.mk 1 0).milliseconds), .dispatcher 0, .dispatcher 0] := by
    decide
  exact ⟨by decide, (received_iff_advanced_iff rfl hCall rfl (by decide)).mpr
    (Or.inr (by decide))⟩

/-- After `2 ^ 31` milliseconds `current_number` is advanced and the client is told a negative
number. -/
theorem not_received_calledWithOne :
    ¬ ((run step calledWithOne [.dispatcher (toInt (Timespec.mk 2147483 648000000).milliseconds),
      .dispatcher 0, .dispatcher 0]).1.client () = .received 1 ↔
      (run step calledWithOne [.dispatcher (toInt (Timespec.mk 2147483 648000000).milliseconds),
        .dispatcher 0, .dispatcher 0]).1.currentNumber = calledWithOne.currentNumber + 1) := by
  decide

/-! ## A client that polls for ever -/

/-- Client `t` is polling with the number `num`. -/
def ClientPc.Polls (num : Nat) (pc : ClientPc) : Prop :=
  pc = .service num ∨ pc = .serviceSent num ∨ pc = .serviceWait num

omit [DecidableEq τ] in
/-- A call of client `t` that is under way has the number `num` and is not accepted. -/
def DispatcherPc.Refuses (t : τ) (num : Nat) : DispatcherPc τ → Prop
  | .svcRun => True
  | .compare u m => u = t → m = num
  | .incCurrent u _ _ => u ≠ t
  | .reply u m result => u = t → m = num ∧ result = -1

omit [DecidableEq τ] in
/-- Client `t` polls with a number that has been consumed, and gets no new one. -/
structure Lost (t : τ) (num : Nat) (s : State τ) : Prop where
  consumed : num < s.currentNumber
  client : (s.client t).Polls num
  finder : s.finder t = .absent ∨ s.finder t = .unlock ∨ s.finder t = .ended
  dispatcher : s.dispatcher.Refuses t num

/-- This is what becomes of a client whose number is accepted when the narrowed time is not
positive. -/
theorem lost_of_call {time : Int} {rest : List (Action τ)}
    (hCompare : s.dispatcher = .compare t num) (hNum : num = s.currentNumber) (hTime : ¬ time > 0)
    (hCall : Along step (fun s _ => s.dispatcher ≠ .svcRun) s (.dispatcher time :: rest))
    (hAfter : (run step s (.dispatcher time :: rest)).1 = s')
    (hReturned : s'.dispatcher = .svcRun)
    (hFinder : s'.finder t = .absent ∨ s'.finder t = .unlock ∨ s'.finder t = .ended) :
    Lost t num s' := by
  have hServing := serving_of_call hCompare hCall
  rw [hAfter] at hServing
  cases hServing with
  | refused _ hPc => rw [hPc] at hReturned; cases hReturned
  | accepted _ hPc => rw [hPc] at hReturned; cases hReturned
  | counted _ hPc => rw [hPc] at hReturned; cases hReturned
  | told _ _ hServed =>
    obtain ⟨hCurrent, hClient⟩ := hServed hNum
    rw [if_neg hTime] at hClient
    refine ⟨by omega, Or.inl hClient, hFinder, ?_⟩
    rw [hReturned]
    trivial

theorem Lost.setClient {u : τ} (h : Lost t num s) (hne : u ≠ t) (pc : ClientPc) :
    Lost t num (s.setClient u pc) := by
  refine ⟨h.consumed, ?_, h.finder, h.dispatcher⟩
  show (Function.update s.client u pc t).Polls num
  rw [Function.update_of_ne hne.symm]
  exact h.client

theorem Lost.setFinder {u : τ} (h : Lost t num s) (hne : u ≠ t) (pc : FinderPc) :
    Lost t num (s.setFinder u pc) := by
  refine ⟨h.consumed, h.client, ?_, h.dispatcher⟩
  dsimp only [State.setFinder]
  rw [Function.update_of_ne hne.symm]
  exact h.finder

theorem Lost.clientStep {u : τ} (h : Lost t num s) (hStep : clientStep s u = some (s', es)) :
    Lost t num s' := by
  unfold FindMaxNumber.clientStep at hStep
  rcases eq_or_ne u t with rfl | hne
  · rcases h.client with hPc | hPc | hPc
    · rw [hPc] at hStep
      cases hStep
      refine ⟨h.consumed, Or.inr (Or.inl ?_), h.finder, h.dispatcher⟩
      exact Function.update_self u _ _
    · rw [hPc] at hStep
      cases hStep
    · rw [hPc] at hStep
      cases hStep
  · split at hStep
    · cases hStep
      exact h.setClient hne _
    · cases hStep
      exact h.setClient hne _
    · cases hStep

theorem Lost.take {u : τ} {created : Bool} (h : Lost t num s)
    (hStep : take s u created = some (s', es)) : Lost t num s' := by
  unfold FindMaxNumber.take at hStep
  split at hStep
  · rcases eq_or_ne u t with rfl | hne
    · rcases h.client with hPc | hPc | hPc
      · rw [hPc] at hStep
        cases hStep
      · rw [hPc] at hStep
        cases hStep
        refine ⟨h.consumed, Or.inr (Or.inr ?_), h.finder, fun _ => rfl⟩
        exact Function.update_self u _ _
      · rw [hPc] at hStep
        cases hStep
    · split at hStep
      · split at hStep
        · cases hStep
          exact (h.setClient hne _).setFinder hne _
        · cases hStep
          exact h.setClient hne _
      · next m _ =>
        cases hStep
        have hKept := h.setClient hne (.serviceWait m)
        exact ⟨hKept.consumed, hKept.client, hKept.finder, fun hEq => absurd hEq hne⟩
      · cases hStep
  · cases hStep

theorem Lost.findMaxNumber {u : τ} (h : Lost t num s)
    (hStep : findMaxNumber s u = some (s', es)) : Lost t num s' := by
  unfold FindMaxNumber.findMaxNumber at hStep
  rcases eq_or_ne u t with rfl | hne
  · rcases h.finder with hPc | hPc | hPc
    · rw [hPc] at hStep
      cases hStep
    · rw [hPc] at hStep
      cases hStep
      refine ⟨h.consumed, h.client, Or.inr (Or.inr ?_), h.dispatcher⟩
      exact Function.update_self u _ _
    · rw [hPc] at hStep
      cases hStep
  · have hKept (pc : FinderPc) := h.setFinder hne pc
    split at hStep
    case h_1 =>
      split at hStep
      · cases hStep
        exact ⟨h.consumed, h.client, (hKept _).finder, h.dispatcher⟩
      · cases hStep
    case h_4 =>
      cases hStep
      exact (h.setClient hne _).setFinder hne _
    case h_6 | h_7 => cases hStep
    all_goals
      cases hStep
      exact ⟨h.consumed, h.client, (hKept _).finder, h.dispatcher⟩

theorem Lost.bakeryService {x : Int} (h : Lost t num s)
    (hStep : bakeryService s x = some (s', es)) : Lost t num s' := by
  have hDispatcher := h.dispatcher
  have hConsumed := h.consumed
  unfold FindMaxNumber.bakeryService at hStep
  split at hStep
  · cases hStep
  · next u m hPc =>
    rw [hPc] at hDispatcher
    split at hStep
    · cases hStep
      exact ⟨hConsumed, h.client, h.finder, fun hEq => ⟨hDispatcher hEq, rfl⟩⟩
    · next hNum =>
      cases hStep
      refine ⟨hConsumed, h.client, h.finder, fun hEq => ?_⟩
      have hm : m = num := hDispatcher hEq
      omega
  · next u m result hPc =>
    cases hStep
    rw [hPc] at hDispatcher
    exact ⟨Nat.lt_succ_of_lt hConsumed, h.client, h.finder, fun hEq => absurd hEq hDispatcher⟩
  · next u m result hPc =>
    cases hStep
    rw [hPc] at hDispatcher
    refine ⟨hConsumed, ?_, h.finder, trivial⟩
    rcases eq_or_ne u t with rfl | hne
    · obtain ⟨rfl, rfl⟩ := hDispatcher rfl
      exact Or.inl (Function.update_self u _ _)
    · dsimp only [State.setClient]
      rw [Function.update_of_ne hne.symm]
      exact h.client

/-- A client that was served without being told is never told. -/
theorem Lost.run (h : Lost t num s) (sched : List (Action τ)) :
    Lost t num (run step s sched).1 := by
  refine run_invariant (P := fun s _ => Lost t num s) h ?_ sched
  intro s _ a s' es h hStep
  cases a with
  | client u => exact h.clientStep hStep
  | finder u => exact h.findMaxNumber hStep
  | take u created => exact h.take hStep
  | dispatcher x => exact h.bakeryService hStep

end OsLabs.Rpc.FindMaxNumber
