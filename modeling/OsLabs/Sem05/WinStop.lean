import OsLabs.Runs.Fairness
import OsLabs.Sem05.WinTokens

/-!
# What happens when `cnt` reaches its limit

The writer that sets `cnt` to 3 leaves its loop without `stop_write`, so it keeps the token
for ever and both events stay reset. Nobody enters a section any more: a thread returns if
it still comes to the test of `cnt`, and one that has passed the test is caught in its
`start` call.

The process ends when `main`, which waits for all threads, returns. `GenerateConsoleCtrlEvent`
asks for its end too: no handler is registered, so that the default one ends the process, in a
thread of its own and at any time after the call. Threads that are caught end in no other way.
-/

namespace OsLabs.Sem05.WinReaderWriter

open Runs RwLock

/-- The writer that leaves its loop, from `cnt++` on. -/
def Pc.stops : Pc → Bool
  | .testCnt | .resetSymbol | .testStop | .leaveLoop | .leftInside => true
  | _ => false

/-- The threads that return by themselves once `cnt` is at its limit. -/
def Pc.returns : Pc → Bool
  | .readLoop | .writeLoop | .finished => true
  | pc => pc.stops

/-- A thread that has returned. -/
def Pc.ended : Pc → Bool
  | .finished | .leftInside => true
  | _ => false

/-- The statements that a thread has left at most once `cnt` is at its limit. -/
def Pc.rank : Pc → Nat
  | .readLoop | .writeLoop | .tryCanWrite | .tryCanRead | .leaveLoop => 1
  | .testWriteQueue | .testActiveReaders | .testStop => 2
  | .incReadQueue | .incWriteQueue | .resetSymbol => 3
  | .testCnt => 4
  | _ => 0

theorem role_of_stops {pc : Pc} (h : pc.stops = true) : pc.role = .writing := by
  cases pc with
  | testCnt | resetSymbol | testStop | leaveLoop | leftInside => rfl
  | _ => cases h

/-- `cnt` is at its limit, and the writer that has brought it there still holds the token. -/
structure Stopped {τ : Type} (c : Conf τ Shared Pc) : Prop where
  limit : 3 ≤ c.shared.cnt
  holder : ∃ t, (c.procs t).stops = true

/-! ## One statement -/

/-- With `cnt` at its limit, the writer that stops does so to the end. -/
theorem statement_stops {sh sh' : Shared} {pc pc' : Pc} {es : List Event} (hLimit : 3 ≤ sh.cnt)
    (hStops : pc.stops = true) (hStep : statement sh pc () = some (sh', pc', es)) :
    pc'.stops = true ∧ sh'.cnt = sh.cnt := by
  have hOver : ¬ sh.cnt < 3 := Int.not_lt.mpr hLimit
  cases pc with
  | testCnt =>
    simp only [statement] at hStep
    split at hStep <;> cases hStep <;> exact ⟨rfl, rfl⟩
  | resetSymbol =>
    cases hStep
    exact ⟨rfl, rfl⟩
  | testStop | leaveLoop =>
    simp only [statement, if_neg hOver] at hStep
    cases hStep
    exact ⟨rfl, rfl⟩
  | leftInside => cases hStep
  | _ => cases hStops

theorem statement_cnt {sh sh' : Shared} {pc pc' : Pc} {es : List Event}
    (hStep : statement sh pc () = some (sh', pc', es)) :
    sh'.cnt = sh.cnt ∨ (pc = .incCnt ∧ pc' = .testCnt ∧ sh'.cnt = sh.cnt + 1) := by
  cases pc with
  | incCnt =>
    cases hStep
    exact Or.inr ⟨rfl, rfl, rfl⟩
  | readLoop | testWriteQueue | tryCanWrite | testActive | writeLoop | testActiveReaders
  | tryCanRead | testSymbol | testCnt | testStop | testReadQueue | leaveLoop | waitCanRead
  | waitMutex | waitCanWrite =>
    simp only [statement] at hStep
    split at hStep <;> cases hStep <;> exact Or.inl rfl
  | incReadQueue | incActiveLoad | incActiveStore value | decReadQueue | releaseMutex
  | readSymbol | decActiveLoad | decActiveStore value | lastReader | incSymbol | writeSymbol
  | resetCanWrite | setCanRead | setCanWrite | resetSymbol | incWriteQueue | decWriteQueue =>
    cases hStep
    exact Or.inl rfl
  | leftInside | finished => cases hStep

/-- A statement of a thread while `cnt` is at its limit and both events are reset. -/
structure Winds (pc pc' : Pc) : Prop where
  rank : pc'.rank < pc.rank
  returns : pc'.returns = pc.returns

theorem statement_winds {sh sh' : Shared} {pc pc' : Pc} {es : List Event} (hLimit : 3 ≤ sh.cnt)
    (hReset : sh.canRead = false ∧ sh.canWrite = false)
    (hPlace : pc.role = .out ∨ pc.stops = true)
    (hStep : statement sh pc () = some (sh', pc', es)) : Winds pc pc' := by
  have hOver : ¬ sh.cnt < 3 := Int.not_lt.mpr hLimit
  obtain ⟨hRead, hWrite⟩ := hReset
  cases pc with
  | readLoop | writeLoop | testStop | leaveLoop =>
    simp only [statement, if_neg hOver] at hStep
    cases hStep
    exact ⟨by decide, rfl⟩
  | incReadQueue | incWriteQueue | resetSymbol =>
    cases hStep
    exact ⟨by decide, rfl⟩
  | testWriteQueue | testActiveReaders | testCnt =>
    simp only [statement] at hStep
    split at hStep
    · cases hStep
      exact ⟨by decide, rfl⟩
    · cases hStep
      exact ⟨by decide, rfl⟩
  | tryCanWrite | tryCanRead =>
    simp only [statement, hRead, hWrite] at hStep
    cases hStep
    exact ⟨by decide, rfl⟩
  | waitCanRead | waitCanWrite =>
    simp only [statement, hRead, hWrite] at hStep
    cases hStep
  | leftInside | finished => cases hStep
  | waitMutex | incActiveLoad | incActiveStore value | decReadQueue | releaseMutex | readSymbol
  | decActiveLoad | decActiveStore value | testActive | lastReader | decWriteQueue | testSymbol
  | incCnt | incSymbol | writeSymbol | resetCanWrite | testReadQueue | setCanRead | setCanWrite =>
    rcases hPlace with hOut | hStops
    · cases hOut
    · cases hStops

theorem returns_of_ended {pc : Pc} (h : pc.ended = true) : pc.returns = true := by
  cases pc with
  | finished | leftInside => rfl
  | _ => cases h

/-- A thread that cannot go on then has returned or is caught in its `start` call. -/
theorem caught_of_idle {sh : Shared} {pc : Pc} (hPlace : pc.role = .out ∨ pc.stops = true)
    (hIdle : statement sh pc () = none) :
    if pc.returns = true then pc.ended = true else pc = .waitCanRead ∨ pc = .waitCanWrite := by
  cases pc with
  | waitCanRead => exact Or.inl rfl
  | waitCanWrite => exact Or.inr rfl
  | leftInside | finished => rfl
  | readLoop | writeLoop | testStop | leaveLoop | testWriteQueue | testActiveReaders | testCnt
  | tryCanWrite | tryCanRead =>
    simp only [statement] at hIdle
    split at hIdle <;> cases hIdle
  | incReadQueue | incWriteQueue | resetSymbol => cases hIdle
  | waitMutex | incActiveLoad | incActiveStore value | decReadQueue | releaseMutex | readSymbol
  | decActiveLoad | decActiveStore value | testActive | lastReader | decWriteQueue | testSymbol
  | incCnt | incSymbol | writeSymbol | resetCanWrite | testReadQueue | setCanRead | setCanWrite =>
    rcases hPlace with hOut | hStops
    · cases hOut
    · cases hStops

/-! ## Whole runs -/

variable {τ : Type}

/-- The holder has the token, so both events are reset and all others are outside. -/
theorem Stopped.frozen [Fintype τ] {c : Conf τ Shared Pc} (hStopped : Stopped c) (hInv : Inv c) :
    (c.shared.canRead = false ∧ c.shared.canWrite = false) ∧
      ∀ t, (c.procs t).role = .out ∨ (c.procs t).stops = true := by
  obtain ⟨u, hu⟩ := hStopped.holder
  obtain ⟨l, hTokens, hGuarded⟩ := hInv
  have hInside := role_of_stops hu
  obtain rfl := hTokens.occupied (hGuarded.owned.one_le_writers hInside)
  refine ⟨hTokens.reset, fun t => ?_⟩
  by_cases ht : u = t
  · subst ht
    exact Or.inr hu
  · exact Or.inl (hGuarded.owned.alone hInside ht)

variable [DecidableEq τ]

/-- The writer that brings `cnt` to its limit is the one that stops. -/
theorem stopped_of_limit {c : Conf τ Shared Pc} {t : τ} {sh : Shared} {pc : Pc}
    {es : List Event} (hOld : 3 ≤ c.shared.cnt → Stopped c)
    (hStep : statement c.shared (c.procs t) () = some (sh, pc, es)) (hLimit : 3 ≤ sh.cnt) :
    Stopped ⟨sh, Function.update c.procs t pc⟩ := by
  refine ⟨hLimit, ?_⟩
  rcases statement_cnt hStep with hSame | ⟨-, rfl, -⟩
  · rw [hSame] at hLimit
    obtain ⟨u, hu⟩ := (hOld hLimit).holder
    by_cases ht : u = t
    · subst ht
      refine ⟨u, ?_⟩
      dsimp only
      rw [Function.update_self]
      exact (statement_stops hLimit hu hStep).1
    · refine ⟨u, ?_⟩
      dsimp only
      rw [Function.update_of_ne ht]
      exact hu
  · refine ⟨t, ?_⟩
    dsimp only
    rw [Function.update_self]
    rfl

/-! ## The process -/

/-- How a process has ended: `main` has returned, or the default handler was called. -/
inductive Ending where
  | returned
  | ctrlBreak
deriving DecidableEq

/-- The threads, whether the event has been generated, and how the process has ended. -/
structure Process (τ : Type) where
  threads : Conf τ Shared Pc
  asked : Bool
  ending : Option Ending

/-- A statement of a thread, the return of `main`, or the default handler. -/
inductive Act (τ : Type) where
  | thread (t : τ)
  | main
  | console

def processStep [Fintype τ] (p : Process τ) (a : Act τ) :
    Option (Process τ × List (τ × Event)) :=
  match p.ending, a with
  | some _, _ => none
  | none, .thread t =>
    match poolStep statement p.threads (t, ()) with
    | none => none
    | some (c, es) => some (⟨c, p.asked || es.any fun e => e.2 = .ctrlBreak, none⟩, es)
  -- WaitForMultipleObjects
  | none, .main =>
    if ∀ t, (p.threads.procs t).ended = true then some ({ p with ending := some .returned }, [])
    else none
  | none, .console =>
    if p.asked then some ({ p with ending := some .ctrlBreak }, []) else none

def Process.init (writes : τ → Bool) : Process τ := ⟨WinReaderWriter.init writes, false, none⟩

/-- The process before moment `n` of an endless schedule. -/
def process [Fintype τ] (writes : τ → Bool) (σ : Nat → Act τ) (n : Nat) : Process τ :=
  moment processStep (.init writes) σ n

variable [Fintype τ]

/-- What a step of the process does. -/
inductive Moves (p : Process τ) : Act τ → Process τ → Prop where
  | thread (t : τ) (sh : Shared) (pc : Pc) (own : List Event)
      (hStep : statement p.threads.shared (p.threads.procs t) () = some (sh, pc, own)) :
      Moves p (.thread t) ⟨⟨sh, Function.update p.threads.procs t pc⟩,
        p.asked || own.any fun e => e = .ctrlBreak, none⟩
  | main (hAll : ∀ t, (p.threads.procs t).ended = true) :
      Moves p .main { p with ending := some .returned }
  | console (hAsked : p.asked = true) : Moves p .console { p with ending := some .ctrlBreak }

theorem moves_of_step {p p' : Process τ} {a : Act τ} {es : List (τ × Event)}
    (hStep : processStep p a = some (p', es)) : p.ending = none ∧ Moves p a p' := by
  unfold processStep at hStep
  split at hStep
  · cases hStep
  · next t hEnding =>
    refine ⟨hEnding, ?_⟩
    split at hStep
    · cases hStep
    · next c es hPool =>
      cases hStep
      obtain ⟨sh, pc, own, hMove, rfl, rfl⟩ := poolStep_eq_some hPool
      rw [List.any_map]
      exact .thread t sh pc own hMove
  · next hEnding =>
    split at hStep
    · next hAll =>
      cases hStep
      exact ⟨hEnding, .main hAll⟩
    · cases hStep
  · next hEnding =>
    split at hStep
    · next hAsked =>
      cases hStep
      exact ⟨hEnding, .console hAsked⟩
    · cases hStep

/-- What holds of every process that has been started. -/
structure Valid (p : Process τ) : Prop where
  inv : Inv p.threads
  stopped : 3 ≤ p.threads.shared.cnt → Stopped p.threads
  asked : 3 ≤ p.threads.shared.cnt → p.asked = true ∨ ∃ t, p.threads.procs t = .testCnt
  returned : p.ending = some .returned → ∀ t, (p.threads.procs t).ended = true

omit [DecidableEq τ] in
theorem valid_init (writes : τ → Bool) : Valid (.init writes) := by
  have hBelow : ¬ (3 : Int) ≤ 0 := by decide
  exact ⟨inv_init writes, fun hLimit => absurd hLimit hBelow, fun hLimit => absurd hLimit hBelow,
    nofun⟩

omit [Fintype τ] in
/-- The writer that brings `cnt` to its limit asks for the end of the process. -/
theorem asked_of_limit {p : Process τ} {t : τ} {sh : Shared} {pc : Pc} {own : List Event}
    (hOld : 3 ≤ p.threads.shared.cnt → p.asked = true ∨ ∃ u, p.threads.procs u = .testCnt)
    (hStep : statement p.threads.shared (p.threads.procs t) () = some (sh, pc, own))
    (hLimit : 3 ≤ sh.cnt) :
    (p.asked || own.any fun e => e = .ctrlBreak) = true ∨
      ∃ u, Function.update p.threads.procs t pc u = .testCnt := by
  rcases statement_cnt hStep with hSame | ⟨-, rfl, -⟩
  · rw [hSame] at hLimit
    rcases hOld hLimit with hAsked | ⟨u, hu⟩
    · rw [hAsked]
      exact Or.inl rfl
    · by_cases ht : u = t
      · subst ht
        left
        rw [hu, statement, if_pos hLimit] at hStep
        cases hStep
        exact Bool.or_true _
      · right
        refine ⟨u, ?_⟩
        rw [Function.update_of_ne ht]
        exact hu
  · right
    exact ⟨t, Function.update_self ..⟩

theorem Valid.step {p p' : Process τ} {a : Act τ} (h : Valid p) (hMoves : Moves p a p') :
    Valid p' := by
  cases hMoves with
  | thread t sh pc own hStep =>
    exact ⟨h.inv.step hStep, stopped_of_limit h.stopped hStep, asked_of_limit h.asked hStep, nofun⟩
  | main hAll => exact ⟨h.inv, h.stopped, h.asked, fun _ => hAll⟩
  | console hAsked => exact ⟨h.inv, h.stopped, h.asked, nofun⟩

/-- `cnt` is at its limit, and `returns` tells which threads still return. -/
structure Limited (returns : τ → Bool) (p : Process τ) : Prop where
  valid : Valid p
  limit : 3 ≤ p.threads.shared.cnt
  returns : ∀ t, (p.threads.procs t).returns = returns t

variable {p p' : Process τ} {returns : τ → Bool}

omit [DecidableEq τ] in
theorem Limited.frozen (h : Limited returns p) :
    (p.threads.shared.canRead = false ∧ p.threads.shared.canWrite = false) ∧
      ∀ t, (p.threads.procs t).role = .out ∨ (p.threads.procs t).stops = true :=
  (h.valid.stopped h.limit).frozen h.valid.inv

omit [DecidableEq τ] in
theorem Limited.winds (h : Limited returns p) {t : τ} {sh : Shared} {pc : Pc} {own : List Event}
    (hStep : statement p.threads.shared (p.threads.procs t) () = some (sh, pc, own)) :
    Winds (p.threads.procs t) pc := by
  obtain ⟨hReset, hPlace⟩ := h.frozen
  exact statement_winds h.limit hReset (hPlace t) hStep

theorem Limited.step {a : Act τ} (h : Limited returns p) (hMoves : Moves p a p') :
    Limited returns p' := by
  refine ⟨h.valid.step hMoves, ?_, ?_⟩
  · cases hMoves with
    | thread t sh pc own hStep =>
      dsimp only
      rcases statement_cnt hStep with hSame | ⟨-, -, hMore⟩
      · rw [hSame]
        exact h.limit
      · rw [hMore]
        exact Int.le_trans h.limit (Int.le_add_one (Int.le_refl _))
    | main | console => exact h.limit
  · cases hMoves with
    | thread t sh pc own hStep =>
      intro u
      dsimp only
      rw [Function.update_apply]
      split
      · next ht => rw [(h.winds hStep).returns, ht, h.returns]
      · exact h.returns u
    | main | console => exact h.returns

omit [DecidableEq τ] in
/-- A thread that has returned is one of those that return. -/
theorem Limited.ended (h : Limited returns p) {t : τ} (hEnded : (p.threads.procs t).ended = true) :
    returns t = true := by
  rw [← h.returns]
  exact returns_of_ended hEnded

/-- What is still to be done once `cnt` is at its limit. -/
def Process.rank (p : Process τ) : Nat :=
  totalRank Pc.rank p.threads.procs + if p.ending = none then 1 else 0

theorem Limited.rank_lt {a : Act τ} (h : Limited returns p) (hEnding : p.ending = none)
    (hMoves : Moves p a p') : p'.rank < p.rank := by
  cases hMoves with
  | thread t sh pc own hStep =>
    have hSum := totalRank_update Pc.rank p.threads.procs t pc
    have hLess := (h.winds hStep).rank
    simp only [Process.rank, hEnding]
    omega
  | main | console =>
    simp only [Process.rank, hEnding, reduceCtorEq, if_true, if_false]
    omega

/-- A process that goes on, and in which only the default handler could move, has been asked to
end, and some of its threads are caught. -/
theorem Limited.caught (h : Limited returns p) (hEnding : p.ending = none)
    (hIdle : ∀ a, a ≠ .console → processStep p a = none) :
    p.asked = true ∧ (∃ t, returns t = false) ∧ ∀ t, if returns t = true
      then (p.threads.procs t).ended = true
      else p.threads.procs t = .waitCanRead ∨ p.threads.procs t = .waitCanWrite := by
  obtain ⟨threads, asked, ending⟩ := p
  obtain rfl : ending = none := hEnding
  have hThread (t : τ) : statement threads.shared (threads.procs t) () = none := by
    have hNone := hIdle (.thread t) (by simp)
    simp only [processStep] at hNone
    split at hNone
    · next hPool => exact poolStep_eq_none.mp hPool
    · cases hNone
  have hCaught (t : τ) : if returns t = true then (threads.procs t).ended = true
      else threads.procs t = .waitCanRead ∨ threads.procs t = .waitCanWrite := by
    rw [← h.returns t]
    exact caught_of_idle (h.frozen.2 t) (hThread t)
  refine ⟨?_, ?_, hCaught⟩
  · rcases h.valid.asked h.limit with hAsked | ⟨t, ht⟩
    · exact hAsked
    · have hNone := hThread t
      dsimp only at ht
      rw [ht, statement] at hNone
      split at hNone <;> cases hNone
  · by_contra hAll
    have hEnded (t : τ) : (threads.procs t).ended = true := by
      have hReturns := Bool.eq_true_of_not_eq_false fun hNot => hAll ⟨t, hNot⟩
      have hNow := hCaught t
      rwa [if_pos hReturns] at hNow
    have hNone := hIdle .main (by simp)
    simp only [processStep, if_pos hEnded] at hNone
    cases hNone

/-- In every run that starves no thread and not `main`, from any moment at which `cnt` is at its
limit: both events stay reset and nobody is in a section but the writer that stops; only the
threads that were then at their test of `cnt`, with this writer, still return; and the process
comes to rest. If the default handler is not starved either, then the process has ended: by the
return of `main` only if all threads were at their test. Without the handler all others would
sleep in their `start` call. -/
theorem ends_at_limit (writes : τ → Bool) {σ : Nat → Act τ} (hFair : Fair (· ≠ .console) σ)
    {n : Nat} (hLimit : 3 ≤ (process writes σ n).threads.shared.cnt) :
    let returns := fun t => ((process writes σ n).threads.procs t).returns
    (∀ m, n ≤ m → let c := (process writes σ m).threads
      (c.shared.canRead = false ∧ c.shared.canWrite = false) ∧
      ∀ t, ((c.procs t).role = .out ∨ (c.procs t).stops = true) ∧
        ((c.procs t).ended = true → returns t = true)) ∧
    ∃ k, n ≤ k ∧ (∀ m, k ≤ m → process writes σ m = process writes σ k) ∧
      let p := process writes σ k
      (Fair (fun _ => True) σ → p.ending ≠ none) ∧
      (p.ending = some .returned → ∀ t, returns t = true ∧ (p.threads.procs t).ended = true) ∧
      (p.ending = none → p.asked = true ∧ (∃ t, returns t = false) ∧
        ∀ t, if returns t = true then (p.threads.procs t).ended = true
          else p.threads.procs t = .waitCanRead ∨ p.threads.procs t = .waitCanWrite) := by
  intro returns
  have hValid : Valid (process writes σ n) :=
    moment_keeps (fun p a p' es h hStep => h.step (moves_of_step hStep).2)
      (show Valid (process writes σ 0) from valid_init writes) (Nat.zero_le n)
  have hLater (m : Nat) (hm : n ≤ m) : Limited returns (process writes σ m) :=
    moment_keeps (fun p a p' es h hStep => h.step (moves_of_step hStep).2)
      ⟨hValid, hLimit, fun _ => rfl⟩ hm
  refine ⟨fun m hm => ⟨(hLater m hm).frozen.1, fun t =>
    ⟨(hLater m hm).frozen.2 t, (hLater m hm).ended⟩⟩, ?_⟩
  obtain ⟨k, hk, hRests, hEnd, hIdle⟩ := fair_rests processStep Process.rank hLater hFair
    fun p a p' es h hStep => by
      obtain ⟨hEnding, hMoves⟩ := moves_of_step hStep
      exact Or.inr (h.rank_lt hEnding hMoves)
  refine ⟨k, hk, hRests, fun hAll hGoesOn => ?_, fun hReturned t => ?_, fun hGoesOn => ?_⟩
  · -- the handler would have its turn again
    have hAsked : (process writes σ k).asked = true := (hEnd.caught hGoesOn hIdle).1
    have hStep : processStep (process writes σ k) .console =
        some ({ process writes σ k with ending := some .ctrlBreak }, []) := by
      simp only [processStep, hGoesOn, if_pos hAsked]
    have hSame := congrArg Process.ending (hRests.idle hAll trivial hStep)
    rw [← process, hGoesOn] at hSame
    cases hSame
  · have hEnded := hEnd.valid.returned hReturned t
    exact ⟨hEnd.ended hEnded, hEnded⟩
  · exact hEnd.caught hGoesOn hIdle

/-- Two writers and a reader: the reader comes into its `start_read` while the first writer is in
its section, and this writer goes on alone till `cnt` is at its limit. -/
def oneCaught (k : Nat) : Act (Fin 3) :=
  if 6 ≤ k ∧ k < 10 then .thread 1
  else if k < 1000 ∨ k % 5 = 0 then .thread 0
  else match k % 5 with
    | 1 => .thread 1
    | 2 => .thread 2
    | 3 => .main
    | _ => .console

theorem fair_oneCaught : Fair (fun _ => True) oneCaught := by
  have hTurn (n i : Nat) (hi : i < 5) : ∃ k, n ≤ k ∧ 1000 ≤ k ∧ k % 5 = i :=
    ⟨5 * (n + 200) + i, by omega, by omega, by omega⟩
  have hLate {k : Nat} (hk : 1000 ≤ k) : ¬ (6 ≤ k ∧ k < 10) ∧ ¬ k < 1000 := by omega
  rintro a - n
  cases a with
  | thread t =>
    obtain ⟨k, hn, hk, hTurn⟩ := hTurn n t.val (by omega)
    refine ⟨k, hn, ?_⟩
    simp only [oneCaught, hLate hk, hTurn, if_false, false_or]
    match t with
    | 0 | 1 | 2 => rfl
  | main =>
    obtain ⟨k, hn, hk, hTurn⟩ := hTurn n 3 (by decide)
    refine ⟨k, hn, ?_⟩
    simp [oneCaught, hLate hk, hTurn]
  | console =>
    obtain ⟨k, hn, hk, hTurn⟩ := hTurn n 4 (by decide)
    refine ⟨k, hn, ?_⟩
    simp [oneCaught, hLate hk, hTurn]

/-- The process ends by the event, since the reader does not return. -/
theorem ends_at_limit_oneCaught :
    ∃ k, (process (fun t : Fin 3 => t ≠ 1) oneCaught k).ending = some .ctrlBreak := by
  have hFair : Fair (· ≠ .console) oneCaught := fun a _ => fair_oneCaught a trivial
  obtain ⟨-, k, -, -, hEnds, hReturned, -⟩ :=
    ends_at_limit (fun t : Fin 3 => t ≠ 1) hFair (n := 1000) (by decide +kernel)
  have hCaught :
      ((process (fun t : Fin 3 => t ≠ 1) oneCaught 1000).threads.procs 1).returns = false := by
    decide +kernel
  refine ⟨k, ?_⟩
  cases hEnding : (process (fun t : Fin 3 => t ≠ 1) oneCaught k).ending with
  | none => exact absurd hEnding (hEnds fair_oneCaught)
  | some e =>
    cases e with
    | returned => exact absurd (hReturned hEnding 1).1 (Bool.eq_false_iff.mp hCaught)
    | ctrlBreak => rfl

end OsLabs.Sem05.WinReaderWriter
