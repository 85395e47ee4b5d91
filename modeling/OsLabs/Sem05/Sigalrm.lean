import OsLabs.Runs.Fairness
import OsLabs.Sem05.SegmentBounds

/-!
# Who is left after `SIGALRM`

Every producer and consumer gets one `SIGALRM`. If it comes while the process sleeps in its
`start` call, the call fails and the process exits; if it comes inside the section or before
the test of `flag`, the process exits at the next test. Between the test and the `start`
call the signal is lost: the process enters the call all the same and may sleep there for
ever, since nobody is left to give it a place.
-/

namespace OsLabs.Sem05.ProducerConsumer

open Memory Runs SysV RwLock

/-- The statements that a process with a cleared `flag` has left at most; falling asleep is
one of them. -/
def Pc.rank : Pc → Nat
  | .exited => 0
  | .produceLoop | .consumeLoop => 1
  | .stopProduce asleep | .stopConsume asleep => if asleep then 2 else 3
  | .printPut | .conStore _ => 4
  | .prStore _ | .conLoad => 5
  | .prLoad | .getRead _ => 6
  | .putStore _ | .getLoad => 7
  | .putLoad => 8
  | .startConsume asleep => if asleep then 8 else 9
  | .wrapStore => 9
  | .wrapTest => 10
  | .letterStore _ => 11
  | .letterLoad => 12
  | .startProduce asleep => if asleep then 13 else 14

/-- Between the test of `flag` and the `start` call. -/
def Pc.tested : Pc → Bool
  | .startProduce asleep | .startConsume asleep => !asleep
  | _ => false

def Process.Leaving (p : Process) : Prop := p.flag = false ∨ p.pc = .exited

/-- A process that is leaving and does not come to its `start` call any more. -/
def Process.Released (p : Process) : Prop :=
  p.Leaving ∧ ∀ asleep, p.pc ≠ .startProduce asleep ∧ p.pc ≠ .startConsume asleep

/-- What a statement does to a process with a cleared `flag`. -/
structure Winds (p p' : Process) : Prop where
  flag : p'.flag = false
  rank : p'.pc.rank < p.pc.rank
  start : ∀ asleep, (p'.pc = .startProduce asleep → p.pc = .startProduce false) ∧
    (p'.pc = .startConsume asleep → p.pc = .startConsume false)

theorem statement_winds {pageSize : Nat} {sh sh' : Shared} {p p' : Process} {es : List Event}
    (hFlag : p.flag = false) (hStep : statement pageSize sh p = some (sh', p', es)) :
    Winds p p' := by
  obtain ⟨pc, flag, symb⟩ := p
  obtain rfl : flag = false := hFlag
  cases pc with
  | startProduce asleep | startConsume asleep | stopProduce asleep | stopConsume asleep =>
    apply attempt_elim (P := fun x => Winds _ x.2.1) hStep
    · exact fun vals _ => ⟨rfl, by cases asleep <;> simp [Pc.rank], by simp⟩
    · rintro rfl
      exact ⟨rfl, by simp [Pc.rank], by simp⟩
    · exact fun _ => ⟨rfl, by cases asleep <;> simp [Pc.rank], by simp⟩
  | wrapTest | putStore ptr | getRead ptr =>
    simp only [statement] at hStep
    split at hStep
    · cases hStep
      exact ⟨rfl, by simp [Pc.rank], by simp⟩
    · cases hStep
      exact ⟨rfl, by simp [Pc.rank], by simp⟩
  | produceLoop | letterLoad | letterStore value | wrapStore | putLoad | prLoad | prStore ptr
  | printPut | consumeLoop | getLoad | conLoad | conStore ptr =>
    cases hStep
    exact ⟨rfl, by simp [Pc.rank], by simp⟩
  | exited => cases hStep

theorem Process.Leaving.statement {pageSize : Nat} {sh sh' : Shared} {p p' : Process}
    {es : List Event} (h : p.Leaving)
    (hStep : statement pageSize sh p = some (sh', p', es)) : Winds p p' := by
  rcases h with hFlag | hExited
  · exact statement_winds hFlag hStep
  · obtain ⟨pc, flag, symb⟩ := p
    obtain rfl : pc = .exited := hExited
    cases hStep

/-- A signal clears `flag`, and ends a process that sleeps. -/
theorem deliver_cases {sh sh' : Shared} {p p' : Process} {es : List Event}
    (hStep : deliver sh p = some (sh', p', es)) :
    sh' = sh ∧ p.pc ≠ .exited ∧ p'.flag = false ∧
      (p' = { p with flag := false } ∧ p.pc.asleep = false ∨
        p.pc.asleep = true ∧ p'.pc = .exited) := by
  unfold deliver at hStep
  split at hStep
  · cases hStep
  · next hRuns =>
    split at hStep
    · next hAsleep =>
      cases hStep
      exact ⟨rfl, hRuns, rfl, Or.inr ⟨hAsleep, rfl⟩⟩
    · next hAwake =>
      cases hStep
      exact ⟨rfl, hRuns, rfl, Or.inl ⟨rfl, by simpa using hAwake⟩⟩

theorem rank_of_asleep {p p' : Process} (hAsleep : p.pc.asleep = true)
    (hExited : p'.pc = .exited) : p'.pc.rank < p.pc.rank := by
  rw [hExited]
  generalize p.pc = pc at hAsleep
  cases pc with
  | startProduce asleep | stopProduce asleep | startConsume asleep | stopConsume asleep =>
    obtain rfl : asleep = true := hAsleep
    simp [Pc.rank]
  | produceLoop | letterLoad | letterStore value | wrapTest | wrapStore | putLoad | putStore ptr
  | prLoad | prStore ptr | printPut => cases hAsleep
  | consumeLoop | getLoad | getRead ptr | conLoad | conStore ptr | exited => cases hAsleep

theorem Process.Leaving.step {pageSize : Nat} {sh sh' : Shared} {p p' : Process} {input : Input}
    {es : List Event} (h : p.Leaving) (hStep : step pageSize sh p input = some (sh', p', es)) :
    p'.Leaving ∧ (((sh' = sh ∧ p' = p) ∧ input ≠ .run) ∨ p'.pc.rank < p.pc.rank) := by
  cases input with
  | run =>
    have hWinds := h.statement hStep
    exact ⟨Or.inl hWinds.flag, Or.inr hWinds.rank⟩
  | sigalrm =>
    obtain ⟨rfl, hRuns, hFlag, ⟨rfl, -⟩ | ⟨hAsleep, hExited⟩⟩ := deliver_cases hStep
    · refine ⟨Or.inl rfl, Or.inl ⟨⟨rfl, ?_⟩, nofun⟩⟩
      rw [← h.resolve_right hRuns]
    · exact ⟨Or.inl hFlag, Or.inr (rank_of_asleep hAsleep hExited)⟩

/-- A released process stays released. -/
theorem Process.Released.step {pageSize : Nat} {sh sh' : Shared} {p p' : Process}
    {input : Input} {es : List Event} (h : p.Released)
    (hStep : step pageSize sh p input = some (sh', p', es)) : p'.Released := by
  obtain ⟨hLeaving, hStart⟩ := h
  refine ⟨(hLeaving.step hStep).1, fun asleep => ?_⟩
  cases input with
  | run =>
    have hWinds := (hLeaving.statement hStep).start asleep
    exact ⟨fun hPc => (hStart false).1 (hWinds.1 hPc), fun hPc => (hStart false).2 (hWinds.2 hPc)⟩
  | sigalrm =>
    obtain ⟨-, -, -, ⟨rfl, -⟩ | ⟨-, hExited⟩⟩ := deliver_cases hStep
    · exact hStart asleep
    · rw [hExited]
      exact ⟨nofun, nofun⟩

theorem exited_of_deliver {sh : Shared} {p : Process} (hStuck : deliver sh p = none) :
    p.pc = .exited := by
  unfold deliver at hStuck
  split at hStuck
  · next hExited => exact hExited
  · split at hStuck <;> cases hStuck

theorem released_of_exited {p : Process} (hExited : p.pc = .exited) : p.Released := by
  refine ⟨Or.inr hExited, fun asleep => ?_⟩
  rw [hExited]
  exact ⟨nofun, nofun⟩

/-- A signal that does not come between the test and the `start` call releases the process. -/
theorem released_of_deliver {sh sh' : Shared} {p p' : Process} {es : List Event}
    (hTested : p.pc.tested = false) (hStep : deliver sh p = some (sh', p', es)) :
    p'.Released := by
  obtain ⟨-, -, hFlag, ⟨rfl, hAwake⟩ | ⟨-, hExited⟩⟩ := deliver_cases hStep
  · refine ⟨Or.inl rfl, fun asleep => ?_⟩
    obtain ⟨pc, flag, symb⟩ := p
    constructor
    · rintro rfl
      obtain rfl : asleep = false := hAwake
      cases hTested
    · rintro rfl
      obtain rfl : asleep = false := hAwake
      cases hTested
  · exact released_of_exited hExited

/-! ## Where nobody can run -/

/-- A process inside its section can go on. -/
theorem statement_inside {pageSize : Nat} {sh : Shared} {p : Process}
    (hLock : Locked sh.sems ⟨0, 1⟩) (hInside : p.role = .writing) :
    statement pageSize sh p ≠ none := by
  obtain ⟨pc, flag, symb⟩ := p
  cases pc with
  | produceLoop | startProduce asleep | consumeLoop | startConsume asleep | exited => cases hInside
  | stopProduce asleep =>
    obtain ⟨vals, hDone, -⟩ := hLock.stopProduce (by decide)
    exact attempt_enabled hDone
  | stopConsume asleep =>
    obtain ⟨vals, hDone, -⟩ := hLock.stopConsume (by decide)
    exact attempt_enabled hDone
  | wrapTest | putStore ptr | getRead ptr =>
    simp only [statement]
    split <;> exact Option.some_ne_none _
  | letterLoad | letterStore value | wrapStore | putLoad | prLoad | prStore ptr | printPut
  | getLoad | conLoad | conStore ptr => exact Option.some_ne_none _

/-- Asleep in a `start` call that waits for a place. -/
def Waits (sems : SemSet Sem) (p : Process) : Prop :=
  (p.pc = .startProduce true ∧ sems .bufferEmpty = 0) ∨
    (p.pc = .startConsume true ∧ sems .bufferFull = 0)

/-- While nobody is inside, a process that cannot go on has exited or waits for a place. -/
theorem waits_of_idle {pageSize : Nat} {sh : Shared} {p : Process} (hLock : Locked sh.sems ⟨0, 0⟩)
    (hOut : p.role = .out) (hIdle : statement pageSize sh p = none) :
    p.pc = .exited ∨ Waits sh.sems p := by
  obtain ⟨hEF, hEM, hFM⟩ := hLock.distinct
  have hFree : 1 ≤ sh.sems .binSem := Nat.le_of_eq hLock.free.symm
  obtain ⟨pc, flag, symb⟩ := p
  cases pc with
  | produceLoop | consumeLoop =>
    simp only [statement] at hIdle
    split at hIdle <;> cases hIdle
  | startProduce asleep =>
    refine Or.inr (Or.inl ⟨?_, ?_⟩)
    · cases asleep with
      | true => rfl
      | false =>
        simp only [statement, call, attempt] at hIdle
        split at hIdle <;> cases hIdle
    · by_contra hPlace
      obtain ⟨vals, hDone⟩ := acquire_eq hEM (Nat.pos_of_ne_zero hPlace) hFree
      exact attempt_enabled hDone hIdle
  | startConsume asleep =>
    refine Or.inr (Or.inr ⟨?_, ?_⟩)
    · cases asleep with
      | true => rfl
      | false =>
        simp only [statement, call, attempt] at hIdle
        split at hIdle <;> cases hIdle
    · by_contra hPlace
      obtain ⟨vals, hDone⟩ := acquire_eq hFM (Nat.pos_of_ne_zero hPlace) hFree
      exact attempt_enabled hDone hIdle
  | exited => exact Or.inl rfl
  | letterLoad | letterStore value | wrapTest | wrapStore | putLoad | putStore ptr | prLoad
  | prStore ptr | printPut | stopProduce asleep => cases hOut
  | getLoad | getRead ptr | conLoad | conStore ptr | stopConsume asleep => cases hOut

/-! ## Whole runs -/

variable {τ : Type} [Fintype τ]

theorem vacant_of_idle {pageSize : Nat} {c : Conf τ Shared Process} {h : List Event}
    (hInv : Inv c h) (hIdle : ∀ t, statement pageSize c.shared (c.procs t) = none) :
    Locked c.shared.sems ⟨0, 0⟩ ∧ ∀ t, (c.procs t).role = .out := by
  obtain ⟨⟨l, hLock, hGuarded⟩, -, -, -⟩ := hInv
  have hNone (t : τ) : (c.procs t).role ≠ .writing := by
    intro hInside
    obtain rfl := hLock.occupied (hGuarded.owned.one_le_writers hInside)
    exact statement_inside hLock hInside (hIdle t)
  obtain ⟨rfl, hOut⟩ := hLock.vacant_of_owned hGuarded.owned hNone
  exact ⟨hLock, hOut⟩

variable [DecidableEq τ] {pageSize : Nat} {kind : τ → Kind} {mem : Nat → UInt8}
  {σ : Nat → τ × Input}

/-- The system before moment `n` of an endless schedule. -/
def system (pageSize : Nat) (kind : τ → Kind) (mem : Nat → UInt8) (σ : Nat → τ × Input)
    (n : Nat) : Conf τ Shared Process :=
  moment (poolStep (step pageSize)) (init kind mem) σ n

/-- No process ever leaves the segment. -/
def StaysInSegment (pageSize : Nat) (kind : τ → Kind) (mem : Nat → UInt8)
    (σ : Nat → τ × Input) : Prop :=
  ∀ n addr, .segv addr ∉ events pageSize kind mem ((List.range n).map σ)

theorem system_inv (hInSegment : StaysInSegment pageSize kind mem σ) (n : Nat) :
    ∃ h, Inv (system pageSize kind mem σ n) h :=
  ⟨_, execute_inv kind mem ((List.range n).map σ) (hInSegment n)⟩

omit [Fintype τ] in
theorem leaving_of_signal {t : τ} {k m : Nat} (hSignal : σ k = (t, .sigalrm)) (hLater : k < m) :
    ((system pageSize kind mem σ m).procs t).Leaving :=
  pool_holds_after hSignal (fun _ _ _ hStep => Or.inl (deliver_cases hStep).2.2.1)
    (fun hStuck => Or.inr (exited_of_deliver hStuck))
    (fun _ _ _ _ _ _ h hStep => (h.step hStep).1) hLater

omit [Fintype τ] in
theorem released_of_signal {t : τ} {k m : Nat} (hSignal : σ k = (t, .sigalrm))
    (hTested : ((system pageSize kind mem σ k).procs t).pc.tested = false) (hLater : k < m) :
    ((system pageSize kind mem σ m).procs t).Released :=
  pool_holds_after hSignal (fun _ _ _ hStep => released_of_deliver hTested hStep)
    (fun hStuck => released_of_exited (exited_of_deliver hStuck))
    (fun _ _ _ _ _ _ h hStep => h.step hStep) hLater

/-- In every run in which no process starves, each is sent `SIGALRM` and none leaves the
segment: the system comes to rest with the mutex free, and a process that has not exited by
then sleeps for ever in a `start` call for want of a place, and every signal it was sent came
between its test of `flag` and this call. -/
theorem survivors_lost_their_signal (hFair : Fair (fun a => a.2 = .run) σ)
    (hSignalled : ∀ t, ∃ k, σ k = (t, .sigalrm))
    (hInSegment : StaysInSegment pageSize kind mem σ) :
    ∃ n, ∀ m, n ≤ m → system pageSize kind mem σ m = system pageSize kind mem σ n ∧
      (system pageSize kind mem σ m).shared.sems .binSem = 1 ∧
      ∀ t, ((system pageSize kind mem σ m).procs t).pc = .exited ∨
        (Waits (system pageSize kind mem σ m).shared.sems
            ((system pageSize kind mem σ m).procs t) ∧
          ∀ k, σ k = (t, .sigalrm) →
            ((system pageSize kind mem σ k).procs t).pc.tested = true) := by
  obtain ⟨start, hSent⟩ := exists_all_before hSignalled
  have hLeaving (m : Nat) (hm : start ≤ m) (t : τ) :
      ((system pageSize kind mem σ m).procs t).Leaving := by
    obtain ⟨k, hk, hSignal⟩ := hSent t
    exact leaving_of_signal hSignal (hk.trans_le hm)
  obtain ⟨n, -, hRests, ⟨⟨h, hInv⟩, -⟩, hIdle⟩ := pool_rests (step pageSize)
    (I := fun c => (∃ h, Inv c h) ∧ ∀ t, (c.procs t).Leaving) (fun p : Process => p.pc.rank)
    start (fun m hm => ⟨system_inv hInSegment m, hLeaving m hm⟩) hFair
    (fun c t i sh w es hI hMove => ((hI.2 t).step hMove).2)
  obtain ⟨hLock, hOut⟩ := vacant_of_idle hInv fun t => hIdle t .run rfl
  refine ⟨n, fun m hm => ⟨hRests m hm, ?_⟩⟩
  rw [system, hRests m hm]
  refine ⟨hLock.free, fun t => ?_⟩
  refine (waits_of_idle hLock (hOut t) (hIdle t .run rfl)).imp_right fun hWaits => ?_
  refine ⟨hWaits, fun k hSignal => ?_⟩
  by_contra hTested
  -- a released process is not in a `start` call at any later moment
  have hReleased := released_of_signal (m := max n (k + 1)) hSignal (by simpa using hTested)
    (Nat.lt_of_lt_of_le (Nat.lt_succ_self k) (le_max_right n (k + 1)))
  rw [system, hRests _ (le_max_left n (k + 1))] at hReleased
  rcases hWaits with ⟨hPc, -⟩ | ⟨hPc, -⟩
  · exact (hReleased.2 true).1 hPc
  · exact (hReleased.2 true).2 hPc

/-- The signal of the consumer comes between its test of `flag` and its `start` call, and that of
the producer before its test. -/
def lost : Nat → Fin 2 × Input
  | 0 | 2 => (0, .run)
  | 1 => (0, .sigalrm)
  | 3 => (1, .sigalrm)
  | n + 4 => (Fin.ofNat 2 (n + 1), .run)

def lostKind (t : Fin 2) : Kind := if t = 0 then .consumer else .producer

def lostRun (n : Nat) : Conf (Fin 2) Shared Process × List (Fin 2 × Event) :=
  execute 4096 lostKind (fun _ => 0) ((List.range n).map lost)

theorem lostRun_rests (n : Nat) : lostRun (5 + n) = lostRun 5 := by
  induction n with
  | zero => rfl
  | succ n ih =>
    have hRun : lost (5 + n) = (Fin.ofNat 2 (n + 2), .run) := by rw [Nat.add_comm]; rfl
    have hIdle : ∀ t, poolStep (step 4096) (lostRun 5).1 (t, .run) = none := fun t =>
      match t with
      | 0 | 1 => rfl
    rw [← Nat.add_assoc, lostRun, List.range_succ, List.map_append, List.map_singleton, execute,
      run_snoc, hRun]
    show advance (poolStep (step 4096)) (lostRun (5 + n)) (Fin.ofNat 2 (n + 2), .run) = lostRun 5
    rw [ih, advance, hIdle]

theorem survivors_lost_their_signal_lost :
    ∃ n, ∀ m, n ≤ m → ((system 4096 lostKind (fun _ => 0) lost m).procs 1).pc = .exited ∧
      Waits (system 4096 lostKind (fun _ => 0) lost m).shared.sems
        ((system 4096 lostKind (fun _ => 0) lost m).procs 0) := by
  have hFair : Fair (fun a => a.2 = .run) lost := by
    rintro ⟨t, input⟩ rfl n
    refine ⟨2 * n + 1 + t.val + 4, by omega, Prod.ext (Fin.ext ?_) rfl⟩
    show (2 * n + 1 + t.val + 1) % 2 = t.val
    omega
  have hSignalled (t : Fin 2) : ∃ k, lost k = (t, .sigalrm) :=
    match t with
    | 0 => ⟨1, rfl⟩
    | 1 => ⟨3, rfl⟩
  have hInSegment : StaysInSegment 4096 lostKind (fun _ => 0) lost := by
    intro n addr
    show .segv addr ∉ (lostRun n).2.map Prod.snd
    have hFirst : ∀ k < 6, ∀ e ∈ (lostRun k).2.map Prod.snd, e = .caught := by decide
    have hAll : ∀ e ∈ (lostRun n).2.map Prod.snd, e = .caught := by
      by_cases hn : n < 6
      · exact hFirst n hn
      · rw [← Nat.add_sub_of_le (show 5 ≤ n by omega), lostRun_rests]
        exact hFirst 5 (by decide)
    intro hSegv
    cases hAll _ hSegv
  obtain ⟨n, hRest⟩ := survivors_lost_their_signal hFair hSignalled hInSegment
  refine ⟨max n 5, fun m hm => ?_⟩
  have hLast : system 4096 lostKind (fun _ => 0) lost m = (lostRun 5).1 := by
    rw [← lostRun_rests (m - 5), Nat.add_sub_of_le ((le_max_right n 5).trans hm)]
    rfl
  obtain ⟨-, -, hEnds⟩ := hRest m ((le_max_left n 5).trans hm)
  refine ⟨(hEnds 1).resolve_right fun hLost => ?_, ((hEnds 0).resolve_left ?_).1⟩
  · have hTested := hLost.2 3 rfl
    cases hTested
  · rw [hLast]
    exact nofun

end OsLabs.Sem05.ProducerConsumer
