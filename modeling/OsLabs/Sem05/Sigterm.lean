import OsLabs.Runs.Fairness
import OsLabs.Sem05.Register

/-!
# Readers and writers end after `SIGTERM`

A process tests `flag` at the head of its loop only, so one that has caught `SIGTERM` still
passes through the section it is in, or is about to enter, and then exits. `Pc.rank` counts
the statements it has left. It may sleep in a `start` call, but only as long as somebody is
inside, and whoever is inside can go on to the `stop` call.

A process that catches no signal never exits: its loop has no other end, and with at most
`SEMVMX` processes no semaphore leaves its range.
-/

namespace OsLabs.Sem05.ReaderWriter

open Memory Runs SysV RwLock

/-- The statements that a process with a cleared `flag` has left at most; falling asleep is
one of them. -/
def Pc.rank : Pc → Nat
  | .exited => 0
  | .readLoop | .writeLoop => 1
  | .stopRead asleep | .stopWrite asleep => if asleep then 2 else 3
  | .readLetter | .printLetter => 4
  | .startRead asleep => if asleep then 5 else 6
  | .killTest => 5
  | .wrapStore => 6
  | .wrapTest => 7
  | .incStore _ => 8
  | .incLoad => 9
  | .startWrite asleep => if asleep then 10 else 11

/-- A process that exits at the next test of `flag`, or has exited. -/
def Process.Leaving (p : Process) : Prop := p.flag = false ∨ p.pc = .exited

/-- A statement of a process with a cleared `flag` brings it closer to its end. -/
theorem statement_rank {sh sh' : Shared} {p p' : Process} {es : List Event}
    (hFlag : p.flag = false) (hStep : statement sh p = some (sh', p', es)) :
    p'.flag = false ∧ p'.pc.rank < p.pc.rank := by
  obtain ⟨pc, flag, count⟩ := p
  obtain rfl : flag = false := hFlag
  cases pc with
  | readLoop | writeLoop =>
    cases hStep
    exact ⟨rfl, by simp [Pc.rank]⟩
  | startRead asleep | stopRead asleep | startWrite asleep | stopWrite asleep =>
    apply attempt_elim (P := fun x => x.2.1.flag = false ∧ x.2.1.pc.rank < _) hStep
    · exact fun vals _ => ⟨rfl, by cases asleep <;> simp [Pc.rank]⟩
    · rintro rfl
      exact ⟨rfl, by simp [Pc.rank]⟩
    · exact fun _ => ⟨rfl, by cases asleep <;> simp [Pc.rank]⟩
  | readLetter | incLoad | incStore value | wrapStore | killTest | printLetter =>
    cases hStep
    exact ⟨rfl, by simp [Pc.rank]⟩
  | wrapTest =>
    simp only [statement] at hStep
    split at hStep
    · cases hStep
      exact ⟨rfl, by simp [Pc.rank]⟩
    · cases hStep
      exact ⟨rfl, by simp [Pc.rank]⟩
  | exited => cases hStep

theorem Process.Leaving.statement {sh sh' : Shared} {p p' : Process} {es : List Event}
    (h : p.Leaving) (hStep : statement sh p = some (sh', p', es)) :
    p'.flag = false ∧ p'.pc.rank < p.pc.rank := by
  rcases h with hFlag | hExited
  · exact statement_rank hFlag hStep
  · obtain ⟨pc, flag, count⟩ := p
    obtain rfl : pc = .exited := hExited
    cases hStep

theorem deliver_eq_some {sh sh' : Shared} {p p' : Process} {es : List Event}
    (hStep : deliver sh p = some (sh', p', es)) :
    sh' = sh ∧ p'.flag = false ∧ (p' = { p with flag := false } ∨
      p.pc.asleep = true ∧ p'.pc = .exited) := by
  unfold deliver at hStep
  split at hStep
  · cases hStep
  · split at hStep
    · next hAsleep =>
      cases hStep
      exact ⟨rfl, rfl, Or.inr ⟨hAsleep, rfl⟩⟩
    · cases hStep
      exact ⟨rfl, rfl, Or.inl rfl⟩

theorem exited_of_deliver {sh : Shared} {p : Process} (hStuck : deliver sh p = none) :
    p.pc = .exited := by
  unfold deliver at hStuck
  split at hStuck
  · next hExited => exact hExited
  · split at hStuck <;> cases hStuck

/-- A process that is leaving comes closer to its end with every step, or stays as it is. -/
theorem Process.Leaving.step {sh sh' : Shared} {p p' : Process} {input : Input}
    {es : List Event} (h : p.Leaving) (hStep : step sh p input = some (sh', p', es)) :
    p'.Leaving ∧ (((sh' = sh ∧ p' = p) ∧ input ≠ .run) ∨ p'.pc.rank < p.pc.rank) := by
  cases input with
  | run =>
    obtain ⟨hFlag, hRank⟩ := h.statement hStep
    exact ⟨Or.inl hFlag, Or.inr hRank⟩
  | sigterm =>
    obtain ⟨rfl, hFlag, rfl | ⟨hAsleep, hExited⟩⟩ := deliver_eq_some hStep
    · refine ⟨Or.inl rfl, ?_⟩
      rcases h with hOld | hExited
      · left
        rw [← hOld]
        exact ⟨⟨rfl, rfl⟩, nofun⟩
      · simp only [ReaderWriter.step, deliver, if_pos hExited, reduceCtorEq] at hStep
    · refine ⟨Or.inl hFlag, Or.inr ?_⟩
      rw [hExited]
      obtain ⟨pc, flag, count⟩ := p
      cases pc with
      | startRead asleep | stopRead asleep | startWrite asleep | stopWrite asleep =>
        obtain rfl : asleep = true := hAsleep
        simp [Pc.rank]
      | readLoop | readLetter | writeLoop | incLoad | incStore value | wrapTest | wrapStore
      | killTest | printLetter | exited => cases hAsleep

/-! ## Nobody waits for ever -/

/-- A process inside its section can go on. -/
theorem statement_inside {sh : Shared} {p : Process} {l : Lock}
    (hLock : Locked sh.sems l) (hReading : p.role = .reading → 1 ≤ l.readers)
    (hWriting : p.role = .writing → 1 ≤ l.writers) (hInside : p.role ≠ .out) :
    statement sh p ≠ none := by
  obtain ⟨pc, flag, count⟩ := p
  obtain ⟨r, w⟩ := l
  cases pc with
  | readLoop | startRead asleep | writeLoop | startWrite asleep | exited =>
    exact absurd rfl hInside
  | stopRead asleep =>
    obtain ⟨k, rfl⟩ : ∃ k, r = k + 1 := ⟨r - 1, by have := hReading rfl; dsimp only at this; omega⟩
    obtain ⟨vals, hDone, -⟩ := stopRead_eq hLock
    exact attempt_enabled hDone
  | stopWrite asleep =>
    obtain ⟨k, rfl⟩ : ∃ k, w = k + 1 := ⟨w - 1, by have := hWriting rfl; dsimp only at this; omega⟩
    obtain ⟨vals, hDone, -⟩ := stopWrite_eq hLock
    exact attempt_enabled hDone
  | wrapTest =>
    simp only [statement]
    split <;> exact Option.some_ne_none _
  | readLetter | incLoad | incStore value | wrapStore | killTest | printLetter =>
    exact Option.some_ne_none _

theorem startWrite_eq {sems : SemSet Sem} {l : Lock} (h : Locked sems l) :
    semop sems startWrite =
      if l.readers = 0 ∧ l.writers = 0 then
        .done (Function.update (Function.update (Function.update sems .writeCount 1)
          .activeWriter 1) .writeCount 0)
      else .sleep := by
  have hSmall : ¬ SEMVMX < 1 := by decide
  by_cases hReaders : l.readers = 0
  · by_cases hWriters : l.writers = 0
    · simp [startWrite, h.readers, h.writers, h.writeCount, hSmall, hReaders, hWriters]
    · simp [startWrite, h.readers, h.writers, h.writeCount, hSmall, hReaders, hWriters,
        wouldBlock]
  · simp [startWrite, h.readers, h.writeCount, hSmall, hReaders, wouldBlock]

/-- While nobody is inside, every process can go on that has not exited. -/
theorem statement_vacant {sh : Shared} {p : Process} (hLock : Locked sh.sems ⟨0, 0⟩)
    (hOut : p.role = .out) (hRuns : p.pc ≠ .exited) : statement sh p ≠ none := by
  obtain ⟨pc, flag, count⟩ := p
  cases pc with
  | readLoop | writeLoop =>
    simp only [statement]
    split <;> exact Option.some_ne_none _
  | startRead asleep =>
    have hSmall : ¬ SEMVMX < 0 + 1 := by decide
    have hDone := startRead_eq hLock
    rw [if_pos rfl, if_neg hSmall] at hDone
    exact attempt_enabled hDone
  | startWrite asleep =>
    have hDone := startWrite_eq hLock
    rw [if_pos ⟨rfl, rfl⟩] at hDone
    exact attempt_enabled hDone
  | readLetter | stopRead asleep => cases hOut
  | incLoad | incStore value | wrapTest | wrapStore | killTest | printLetter
  | stopWrite asleep => cases hOut
  | exited => exact absurd rfl hRuns

/-! ## Whole runs -/

variable {τ : Type} [Fintype τ]

/-- Where no process can run, all have exited. -/
theorem exited_of_idle {c : Conf τ Shared Process} {h : List Event} (hInv : Inv c h)
    (hIdle : ∀ t, statement c.shared (c.procs t) = none) :
    (∀ t, (c.procs t).pc = .exited) ∧ Locked c.shared.sems ⟨0, 0⟩ := by
  obtain ⟨⟨l, hLock, hGuarded⟩, -, -⟩ := hInv
  have hOut (u : τ) : (c.procs u).role = .out := by
    by_contra hInside
    exact statement_inside hLock hGuarded.owned.one_le_readers hGuarded.owned.one_le_writers
      hInside (hIdle u)
  obtain rfl : l = ⟨0, 0⟩ := by
    have hReaders := hGuarded.owned.readers
    have hWriters := hGuarded.owned.writers
    rw [count_eq_zero.mpr fun u hu => by rw [hOut u] at hu; cases hu] at hReaders hWriters
    obtain ⟨r, w⟩ := l
    obtain rfl : r = 0 := hReaders
    obtain rfl : w = 0 := hWriters
    rfl
  refine ⟨fun t => ?_, hLock⟩
  by_contra hRuns
  exact statement_vacant hLock (hOut t) hRuns (hIdle t)

/-- With at most `SEMVMX` processes, one that is not signalled stays in its loop. -/
theorem statement_keeps_flag {c : Conf τ Shared Process} {h : List Event} {t : τ} {sh : Shared}
    {p : Process} {es : List Event} (hInv : Inv c h) (hFew : Fintype.card τ ≤ SEMVMX)
    (hFlag : (c.procs t).flag = true) (hStep : statement c.shared (c.procs t) = some (sh, p, es)) :
    p.flag = true ∧ p.pc ≠ .exited := by
  obtain ⟨⟨l, hLock, hGuarded⟩, -, -⟩ := hInv
  have hReading := hGuarded.owned.one_le_readers (t := t)
  have hWriting := hGuarded.owned.one_le_writers (t := t)
  have hReaders := hGuarded.owned.readers
  generalize hProc : c.procs t = q at hFlag hStep hReading hWriting
  obtain ⟨pc, flag, count⟩ := q
  obtain rfl : flag = true := hFlag
  cases pc with
  | readLoop | writeLoop | readLetter | incLoad | incStore value | wrapStore | killTest
  | printLetter =>
    cases hStep
    exact ⟨rfl, by simp⟩
  | wrapTest =>
    simp only [statement] at hStep
    split at hStep
    · cases hStep
      exact ⟨rfl, by simp⟩
    · cases hStep
      exact ⟨rfl, by simp⟩
  | startRead asleep =>
    obtain ⟨vals, -, ⟨⟩⟩ | ⟨-, ⟨⟩⟩ | ⟨hFail, -⟩ := attempt_cases hStep
    · exact ⟨rfl, by simp⟩
    · exact ⟨rfl, by simp⟩
    · -- the caller itself is not counted among the readers
      have hOthers : l.readers < Fintype.card τ := by
        rw [hReaders]
        refine Finset.card_lt_card (Finset.ssubset_univ_iff.mpr fun hAll => ?_)
        have hMem := Finset.mem_univ t
        rw [← hAll, Finset.mem_filter, hProc] at hMem
        cases hMem.2
      rw [startRead_eq hLock, if_neg (c := SEMVMX < l.readers + 1) (by omega)] at hFail
      split at hFail
      · simp at hFail
      · simp at hFail
  | startWrite asleep =>
    obtain ⟨vals, -, ⟨⟩⟩ | ⟨-, ⟨⟩⟩ | ⟨hFail, -⟩ := attempt_cases hStep
    · exact ⟨rfl, by simp⟩
    · exact ⟨rfl, by simp⟩
    · rw [startWrite_eq hLock] at hFail
      split at hFail
      · simp at hFail
      · simp at hFail
  | stopRead asleep =>
    have hOne := hReading rfl
    obtain ⟨r, w⟩ := l
    obtain ⟨r, rfl⟩ : ∃ k, r = k + 1 := ⟨r - 1, by dsimp only at hOne; omega⟩
    obtain ⟨vals, hDone, -⟩ := stopRead_eq hLock
    obtain ⟨⟩ := attempt_done hDone hStep
    exact ⟨rfl, by simp⟩
  | stopWrite asleep =>
    have hOne := hWriting rfl
    obtain ⟨r, w⟩ := l
    obtain ⟨w, rfl⟩ : ∃ k, w = k + 1 := ⟨w - 1, by dsimp only at hOne; omega⟩
    obtain ⟨vals, hDone, -⟩ := stopWrite_eq hLock
    obtain ⟨⟩ := attempt_done hDone hStep
    exact ⟨rfl, by simp⟩
  | exited => cases hStep

variable [DecidableEq τ]

/-- The system before moment `n` of an endless schedule. -/
def system (kind : τ → Kind) (σ : Nat → τ × Input) (n : Nat) : Conf τ Shared Process :=
  moment (poolStep step) (init kind) σ n

theorem system_inv (kind : τ → Kind) (σ : Nat → τ × Input) (n : Nat) :
    ∃ h, Inv (system kind σ n) h :=
  ⟨_, execute_inv kind ((List.range n).map σ)⟩

omit [Fintype τ] in
/-- From the moment of its signal on, a process is leaving. -/
theorem leaving_of_signal (kind : τ → Kind) {σ : Nat → τ × Input} {t : τ} {k m : Nat}
    (hSignal : σ k = (t, .sigterm)) (hLater : k < m) :
    ((system kind σ m).procs t).Leaving :=
  pool_holds_after hSignal (fun _ _ _ hStep => Or.inl (deliver_eq_some hStep).2.1)
    (fun hStuck => Or.inr (exited_of_deliver hStuck))
    (fun _ _ _ _ _ _ h hMove => (h.step hMove).1) hLater

/-- A process that no signal reaches never exits. -/
theorem flag_of_no_signal (kind : τ → Kind) {σ : Nat → τ × Input} {t : τ}
    (hFew : Fintype.card τ ≤ SEMVMX) (hNone : ∀ k, σ k ≠ (t, .sigterm)) (m : Nat) :
    ((system kind σ m).procs t).flag = true ∧ ((system kind σ m).procs t).pc ≠ .exited := by
  induction m with
  | zero =>
    refine ⟨rfl, ?_⟩
    show (kind t).start ≠ .exited
    cases kind t <;> nofun
  | succ m ih =>
    obtain ⟨h, hInv⟩ := system_inv kind σ m
    rcases pool_moment_cases step (init kind) σ m t with hSame | ⟨i, es, hNow, hMove⟩
    · rw [system, hSame]
      exact ih
    · cases i with
      | run => exact statement_keeps_flag hInv hFew ih.1 hMove
      | sigterm => exact absurd hNow (hNone m)

/-- In every run in which no process starves, all processes exit, and leave the four
semaphores at zero, if and only if each of them is sent `SIGTERM`. -/
theorem exits_iff_signalled (kind : τ → Kind) (hFew : Fintype.card τ ≤ SEMVMX)
    {σ : Nat → τ × Input} (hFair : Fair (fun a => a.2 = .run) σ) :
    (∃ n, ∀ m, n ≤ m → (∀ t, ((system kind σ m).procs t).pc = .exited) ∧
      ∀ i, (system kind σ m).shared.sems i = 0) ↔ ∀ t, ∃ k, σ k = (t, .sigterm) := by
  constructor
  · rintro ⟨n, hExited⟩ t
    by_contra hNone
    exact (flag_of_no_signal kind hFew (not_exists.mp hNone) n).2 ((hExited n le_rfl).1 t)
  · intro hSignalled
    obtain ⟨start, hSent⟩ := exists_all_before hSignalled
    have hLeaving (m : Nat) (hm : start ≤ m) (t : τ) : ((system kind σ m).procs t).Leaving := by
      obtain ⟨k, hk, hSignal⟩ := hSent t
      exact leaving_of_signal kind hSignal (hk.trans_le hm)
    obtain ⟨n, -, hRests, ⟨⟨h, hInv⟩, -⟩, hIdle⟩ := pool_rests step
      (I := fun c => (∃ h, Inv c h) ∧ ∀ t, (c.procs t).Leaving) (fun p : Process => p.pc.rank)
      start (fun m hm => ⟨system_inv kind σ m, hLeaving m hm⟩)
      hFair (fun c t i sh w es hI hMove => ((hI.2 t).step hMove).2)
    refine ⟨n, fun m hm => ?_⟩
    rw [system, hRests m hm]
    obtain ⟨hEnd, hLock⟩ := exited_of_idle hInv fun t => hIdle t .run rfl
    refine ⟨hEnd, fun i => ?_⟩
    cases i with
    | countActiveReaders => exact hLock.readers
    | activeWriter => exact hLock.writers
    | readCount => exact hLock.readCount
    | writeCount => exact hLock.writeCount

def readerAndWriter (t : Fin 2) : Kind := if t = 0 then .reader else .writer

/-- Both run in turn and are signalled in turn. -/
def inTurn (n : Nat) : Fin 2 × Input :=
  (if n % 2 = 0 then 0 else 1, if n % 4 < 2 then .run else .sigterm)

theorem fair_inTurn : Fair (fun a => a.2 = .run) inTurn := by
  rintro ⟨t, input⟩ rfl n
  refine ⟨4 * n + t.val, by omega, ?_⟩
  match t with
  | 0 => simp [inTurn, show 4 * n % 2 = 0 by omega, show 4 * n % 4 = 0 by omega]
  | 1 => simp [inTurn, show (4 * n + 1) % 2 = 1 by omega, show (4 * n + 1) % 4 = 1 by omega]

theorem exits_iff_signalled_inTurn :
    ∃ n, ∀ t, ((system readerAndWriter inTurn n).procs t).pc = .exited := by
  have hSignalled (t : Fin 2) : ∃ k, inTurn k = (t, .sigterm) :=
    match t with
    | 0 => ⟨2, rfl⟩
    | 1 => ⟨3, rfl⟩
  obtain ⟨n, hEnd⟩ := (exits_iff_signalled readerAndWriter (by decide) fair_inTurn).mpr hSignalled
  exact ⟨n, (hEnd n le_rfl).1⟩

end OsLabs.Sem05.ReaderWriter
