import OsLabs.Sem05.WinTokens

/-!
# When readers wait only for writers

A reader should wait in `WaitForSingleObject(can_read, INFINITE)` only for a writer: while
none is in its section and none is queued, `can_read` should be set for it. Three
statements break this. A reader that fails to get `can_write` because another reader holds
it waits for a `SetEvent(can_read)` that no reader makes. A reader that begins to wait
after the leaving writer has looked at `read_queue` is not seen by it. And one
`SetEvent(can_read)` lets one reader in, however many wait. `Undisturbed` excludes exactly
these three.
-/

namespace OsLabs.Sem05.WinReaderWriter

open Runs RwLock

variable {τ : Type}

/-- No reader is blocked while no writer is in its section or queued. -/
def WaitsForWriters (c : Conf τ Shared Pc) : Prop :=
  (∀ t, (c.procs t).inWrite = false) → c.shared.writeQueue = 0 →
    ∀ t, c.procs t = .waitCanRead → c.shared.canRead = true

/-- Unless a writer is queued, no reader fails to get `can_write` because of a reader, no
reader passes its wait while another one waits, and no leaving writer sets `can_write`
while a reader waits. -/
def Undisturbed (c : Conf τ Shared Pc) (a : τ × Unit) : Prop :=
  match c.procs a.1 with
  | .tryCanWrite => c.shared.canWrite = true ∨ c.shared.writeQueue > 0 ∨
      ∀ u, (c.procs u).holdsAsReader = false
  | .waitCanRead => c.shared.canRead = false ∨ c.shared.writeQueue > 0 ∨
      ∀ u, u ≠ a.1 → c.procs u ≠ .waitCanRead
  | .setCanWrite => c.shared.writeQueue > 0 ∨ ∀ u, c.procs u ≠ .waitCanRead
  | _ => True

/-! ## The queue of writers -/

/-- A writer between its two operations on `write_queue`. -/
def Pc.queued : Pc → Bool
  | .testActiveReaders | .tryCanRead | .waitCanWrite | .decWriteQueue => true
  | _ => false

theorem statement_queue {sh sh' : Shared} {pc pc' : Pc} {es : List Event}
    (hStep : statement sh pc () = some (sh', pc', es)) :
    sh'.writeQueue + (if pc.queued = true then 1 else 0) =
      sh.writeQueue + (if pc'.queued = true then 1 else 0) := by
  cases pc with
  | readLoop | testWriteQueue | tryCanWrite | testActive | writeLoop | testActiveReaders
  | tryCanRead | testSymbol | testCnt | testStop | testReadQueue | leaveLoop | waitCanRead
  | waitMutex | waitCanWrite =>
    simp only [statement] at hStep
    split at hStep <;> cases hStep <;> rfl
  | incReadQueue | incActiveLoad | incActiveStore value | decReadQueue | releaseMutex
  | readSymbol | decActiveLoad | decActiveStore value | lastReader | incCnt | resetSymbol
  | incSymbol | writeSymbol | resetCanWrite | setCanRead | setCanWrite =>
    cases hStep
    rfl
  | incWriteQueue =>
    cases hStep
    simp [Pc.queued]
  | decWriteQueue =>
    cases hStep
    simp [Pc.queued]
  | leftInside | finished => cases hStep

variable [Fintype τ]

/-- The token, and `write_queue` as the number of queued writers. -/
structure Good (c : Conf τ Shared Pc) : Prop where
  inv : Inv c
  queue : c.shared.writeQueue = count (fun pc => pc.queued = true) c.procs

theorem good_init (writes : τ → Bool) : Good (init writes) := by
  refine ⟨inv_init writes, ?_⟩
  have hNone : count (fun pc => pc.queued = true) (init writes).procs = 0 := by
    rw [count_eq_zero]
    intro t
    simp only [init]
    split
    · exact Bool.false_ne_true
    · exact Bool.false_ne_true
  rw [hNone]
  rfl

theorem Good.step [DecidableEq τ] {c : Conf τ Shared Pc} {t : τ} {sh : Shared} {pc : Pc}
    {es : List Event} (h : Good c)
    (hStep : statement c.shared (c.procs t) () = some (sh, pc, es)) :
    Good ⟨sh, Function.update c.procs t pc⟩ := by
  refine ⟨h.inv.step hStep, ?_⟩
  have hQueue := statement_queue hStep
  have hCount := count_update (fun pc => pc.queued = true) c.procs t pc
  have hOld := h.queue
  dsimp only
  split_ifs at hQueue hCount <;> omega

theorem Good.queue_pos {c : Conf τ Shared Pc} (h : Good c) {t : τ}
    (ht : (c.procs t).queued = true) : c.shared.writeQueue > 0 := by
  have hLe := le_count (fun pc => pc.queued = true) c.procs t
  rw [if_pos ht] at hLe
  rw [h.queue]
  omega

theorem Good.queue_zero {c : Conf τ Shared Pc} (h : Good c) (hQueue : ¬ c.shared.writeQueue > 0) :
    c.shared.writeQueue = 0 := by
  have hCount := h.queue
  omega

/-- If nobody holds the token, one of the events does. -/
theorem Good.event_set {c : Conf τ Shared Pc} (h : Good c)
    (hWriters : ∀ t, (c.procs t).inWrite = false) (hQueue : c.shared.writeQueue = 0)
    (hReaders : ∀ t, (c.procs t).holdsAsReader = false) (hWrite : c.shared.canWrite = false) :
    c.shared.canRead = true := by
  have hOut (t : τ) : (c.procs t).role ≠ .writing := by
    intro hRole
    unfold Pc.role at hRole
    split at hRole
    · next hPc =>
      have hPos := h.queue_pos (t := t) (by rw [hPc]; rfl)
      omega
    · rw [hWriters t, hReaders t] at hRole
      cases hRole
  obtain ⟨l, hTokens, hGuarded⟩ := h.inv
  have hNone : l.writers = 0 := hGuarded.owned.writers_eq_zero.mpr hOut
  have hTotal := hTokens.total
  cases hRead : c.shared.canRead with
  | true => rfl
  | false =>
    rw [hRead, hWrite, hNone] at hTotal
    cases hTotal

/-- While a thread holds the token, no other thread is in its section and `can_read` is
reset. -/
theorem Good.holder {c : Conf τ Shared Pc} (h : Good c) {t : τ}
    (ht : (c.procs t).role = .writing) :
    c.shared.canRead = false ∧ ∀ u, u ≠ t → (c.procs u).inWrite = false := by
  refine ⟨?_, fun u hne => ?_⟩
  · obtain ⟨l, hTokens, hGuarded⟩ := h.inv
    obtain rfl := hTokens.occupied (hGuarded.owned.one_le_writers ht)
    exact hTokens.reset.1
  · rw [← Bool.not_eq_true]
    intro hu
    exact hne (h.inv.alone (role_of_inWrite hu) ht)

/-- While `can_read` is set nobody holds the token. -/
theorem Good.nobody {c : Conf τ Shared Pc} (h : Good c) (hRead : c.shared.canRead = true) (t : τ) :
    (c.procs t).inWrite = false := by
  rw [← Bool.not_eq_true]
  intro ht
  have hReset := (h.holder (role_of_inWrite ht)).1
  rw [hRead] at hReset
  cases hReset

/-! ## One statement -/

variable [DecidableEq τ] {c : Conf τ Shared Pc} {t : τ} {sh : Shared} {pc : Pc}

omit [Fintype τ] in
theorem WaitsForWriters.of_inWrite (hPc : pc.inWrite = true) :
    WaitsForWriters ⟨sh, Function.update c.procs t pc⟩ := by
  intro hNone
  have hSelf := hNone t
  dsimp only at hSelf
  rw [Function.update_self, hPc] at hSelf
  cases hSelf

omit [Fintype τ] [DecidableEq τ] in
theorem WaitsForWriters.of_queue {procs : τ → Pc} (hQueue : sh.writeQueue > 0) :
    WaitsForWriters ⟨sh, procs⟩ := by
  intro _ hZero
  dsimp only at hZero
  omega

omit [Fintype τ] in
/-- A statement of a thread outside a writer's section that does not begin to wait. -/
theorem WaitsForWriters.keep (h : WaitsForWriters c) (hWrite : (c.procs t).inWrite = false)
    (hQueue : sh.writeQueue = c.shared.writeQueue) (hRead : sh.canRead = c.shared.canRead)
    (hPc : pc ≠ .waitCanRead) : WaitsForWriters ⟨sh, Function.update c.procs t pc⟩ := by
  intro hNone hZero u hu
  dsimp only at hNone hZero hu ⊢
  have hWaits : c.procs u = .waitCanRead := by
    rcases eq_or_ne u t with rfl | hne
    · rw [Function.update_self] at hu
      exact absurd hu hPc
    · rwa [Function.update_of_ne hne] at hu
  rw [hRead]
  refine h (fun v => ?_) (hQueue.symm.trans hZero) u hWaits
  rcases eq_or_ne v t with rfl | hne
  · exact hWrite
  · have hOther := hNone v
    rwa [Function.update_of_ne hne] at hOther

/-- A reader whose attempt on `can_write` fails. -/
theorem Good.join_iff (hGood : Good c) (hPc : c.procs t = .tryCanWrite)
    (hWrite : c.shared.canWrite = false) :
    WaitsForWriters ⟨c.shared, Function.update c.procs t .waitCanRead⟩ ↔
      c.shared.writeQueue > 0 ∨ ∀ u, (c.procs u).holdsAsReader = false := by
  have hSections (u : τ) : (Function.update c.procs t Pc.waitCanRead u).inWrite =
      (c.procs u).inWrite := by
    rcases eq_or_ne u t with rfl | hne
    · rw [Function.update_self, hPc]
      rfl
    · rw [Function.update_of_ne hne]
  constructor
  · intro hWaits
    by_cases hQueue : c.shared.writeQueue > 0
    · exact Or.inl hQueue
    refine Or.inr fun u => ?_
    rw [← Bool.not_eq_true]
    intro hu
    have hHolder := hGood.holder (role_of_holdsAsReader hu)
    have hRead : c.shared.canRead = true := by
      refine hWaits (fun v => ?_) (hGood.queue_zero hQueue) t (Function.update_self t _ _)
      dsimp only
      rw [hSections v]
      rcases eq_or_ne v u with rfl | hne
      · exact inWrite_of_holdsAsReader hu
      · exact hHolder.2 v hne
    rw [hHolder.1] at hRead
    cases hRead
  · rintro (hQueue | hReaders)
    · exact .of_queue hQueue
    · intro hNone hZero u _
      dsimp only at hNone hZero ⊢
      refine hGood.event_set (fun v => ?_) hZero hReaders hWrite
      rw [← hSections v]
      exact hNone v

/-- A reader that passes its wait on `can_read`. -/
theorem Good.pass_iff (hGood : Good c)
    (hRead : c.shared.canRead = true) :
    WaitsForWriters ⟨{ c.shared with canRead := false },
        Function.update c.procs t .waitMutex⟩ ↔
      c.shared.writeQueue > 0 ∨ ∀ u, u ≠ t → c.procs u ≠ .waitCanRead := by
  constructor
  · intro hWaits
    by_cases hQueue : c.shared.writeQueue > 0
    · exact Or.inl hQueue
    refine Or.inr fun u hne hu => ?_
    have hSet : false = true := by
      refine hWaits (fun v => ?_) (hGood.queue_zero hQueue) u ?_
      · exact forall_update (p := fun pc : Pc => pc.inWrite = false) (hGood.nobody hRead) rfl t v
      · dsimp only
        rwa [Function.update_of_ne hne]
    cases hSet
  · rintro (hQueue | hOthers)
    · exact .of_queue hQueue
    · intro _ _ u hu
      dsimp only at hu
      rcases eq_or_ne u t with rfl | hne
      · rw [Function.update_self] at hu
        cases hu
      · rw [Function.update_of_ne hne] at hu
        exact absurd hu (hOthers u hne)

/-- A writer that leaves through `SetEvent(can_write)`. -/
theorem Good.leave_iff (hGood : Good c) (hPc : c.procs t = .setCanWrite) :
    WaitsForWriters ⟨{ c.shared with canWrite := true },
        Function.update c.procs t .writeLoop⟩ ↔
      c.shared.writeQueue > 0 ∨ ∀ u, c.procs u ≠ .waitCanRead := by
  have hHolder := hGood.holder (t := t) (by rw [hPc]; rfl)
  constructor
  · intro hWaits
    by_cases hQueue : c.shared.writeQueue > 0
    · exact Or.inl hQueue
    refine Or.inr fun u hu => ?_
    have hRead : c.shared.canRead = true := by
      refine hWaits (fun v => ?_) (hGood.queue_zero hQueue) u ?_
      · dsimp only
        rcases eq_or_ne v t with rfl | hne
        · rw [Function.update_self]
          rfl
        · rw [Function.update_of_ne hne]
          exact hHolder.2 v hne
      · dsimp only
        rw [Function.update_of_ne, hu]
        rintro rfl
        rw [hPc] at hu
        cases hu
    rw [hHolder.1] at hRead
    cases hRead
  · rintro (hQueue | hOthers)
    · exact .of_queue hQueue
    · intro _ _ u hu
      dsimp only at hu
      rcases eq_or_ne u t with rfl | hne
      · rw [Function.update_self] at hu
        cases hu
      · rw [Function.update_of_ne hne] at hu
        exact absurd hu (hOthers u)

/-- One statement keeps readers waiting only for writers exactly if it is none of the
three. -/
theorem Good.step_iff {es : List Event} (hGood : Good c) (hWaits : WaitsForWriters c)
    (hStep : statement c.shared (c.procs t) () = some (sh, pc, es)) :
    WaitsForWriters ⟨sh, Function.update c.procs t pc⟩ ↔ Undisturbed c (t, ()) := by
  have hPos := hGood.queue_pos (t := t)
  simp only [Undisturbed]
  cases hPc : c.procs t with
  | tryCanWrite =>
    simp only [hPc, statement] at hStep
    split at hStep
    · next hSet =>
      cases hStep
      exact iff_of_true (hWaits.keep (by rw [hPc]; rfl) rfl rfl (by simp)) (Or.inl hSet)
    · next hReset =>
      cases hStep
      rw [Bool.not_eq_true] at hReset
      rw [hGood.join_iff hPc hReset, hReset]
      simp
  | waitCanRead =>
    simp only [hPc, statement] at hStep
    split at hStep
    · next hSet =>
      cases hStep
      rw [hGood.pass_iff hSet, hSet]
      simp
    · cases hStep
  | setCanWrite =>
    rw [hPc] at hStep
    cases hStep
    exact hGood.leave_iff hPc
  | testWriteQueue =>
    simp only [hPc, statement] at hStep
    split at hStep
    · next hQueue =>
      cases hStep
      exact iff_of_true (.of_queue hQueue) trivial
    · cases hStep
      exact iff_of_true (hWaits.keep (by rw [hPc]; rfl) rfl rfl (by simp)) trivial
  | readLoop | waitMutex | testActive | writeLoop =>
    simp only [hPc, statement] at hStep
    split at hStep <;> cases hStep <;>
      exact iff_of_true (hWaits.keep (by rw [hPc]; rfl) rfl rfl (by simp)) trivial
  | incReadQueue | incActiveLoad | incActiveStore value | decReadQueue | releaseMutex
  | readSymbol | decActiveLoad | decActiveStore value | lastReader =>
    rw [hPc] at hStep
    cases hStep
    exact iff_of_true (hWaits.keep (by rw [hPc]; rfl) rfl rfl (by simp)) trivial
  | incWriteQueue =>
    rw [hPc] at hStep
    cases hStep
    have hQueue := hGood.queue
    refine iff_of_true (.of_queue ?_) trivial
    dsimp only
    omega
  | testActiveReaders | tryCanRead | waitCanWrite =>
    have hQueue := hPos (by rw [hPc]; rfl)
    simp only [hPc, statement] at hStep
    split at hStep <;> cases hStep <;> exact iff_of_true (.of_queue hQueue) trivial
  | testSymbol | testCnt | testStop | testReadQueue =>
    simp only [hPc, statement] at hStep
    split at hStep <;> cases hStep <;> exact iff_of_true (.of_inWrite rfl) trivial
  | decWriteQueue | incCnt | resetSymbol | incSymbol | writeSymbol | resetCanWrite =>
    rw [hPc] at hStep
    cases hStep
    exact iff_of_true (.of_inWrite rfl) trivial
  | setCanRead =>
    rw [hPc] at hStep
    cases hStep
    exact iff_of_true (fun _ _ _ _ => rfl) trivial
  | leaveLoop =>
    obtain ⟨l, -, hGuarded⟩ := hGood.inv
    have hAsserts := hGuarded.asserted t
    rw [hPc] at hAsserts
    simp only [hPc, statement] at hStep
    split at hStep
    · next hBelow => exact absurd hBelow (Int.not_lt.mpr hAsserts.2)
    · cases hStep
      exact iff_of_true (.of_inWrite rfl) trivial
  | leftInside | finished =>
    rw [hPc] at hStep
    cases hStep

/-! ## Whole runs -/

theorem good_advance (c : Conf τ Shared Pc) (a : τ × Unit) (hGood : Good c) :
    Good (advance (poolStep statement) (c, []) a).1 := by
  unfold advance
  split
  · exact hGood
  · next hEnabled =>
    obtain ⟨sh, pc, own, hStep, rfl, -⟩ := poolStep_eq_some hEnabled
    exact hGood.step hStep

omit [Fintype τ] in
theorem undisturbed_of_blocked {a : τ × Unit} (h : poolStep statement c a = none) :
    Undisturbed c a := by
  obtain ⟨t, ⟨⟩⟩ := a
  rw [poolStep_eq_none] at h
  unfold Undisturbed
  split
  · next hPc =>
    have hSome : statement c.shared .tryCanWrite () ≠ none := by
      simp only [statement]
      split <;> exact Option.some_ne_none _
    exact absurd (hPc ▸ h) hSome
  · next hPc =>
    have hReset : ¬ c.shared.canRead = true := by
      intro hSet
      simp [hPc, statement, hSet] at h
    exact Or.inl (Bool.eq_false_iff.mpr hReset)
  · next hPc =>
    rw [hPc] at h
    cases h
  · trivial

theorem advance_iff (c : Conf τ Shared Pc) (a : τ × Unit) (hGood : Good c)
    (hWaits : WaitsForWriters c) :
    WaitsForWriters (advance (poolStep statement) (c, []) a).1 ↔ Undisturbed c a := by
  unfold advance
  split
  · next hBlocked => exact iff_of_true hWaits (undisturbed_of_blocked hBlocked)
  · next hEnabled =>
    obtain ⟨sh, pc, own, hStep, rfl, -⟩ := poolStep_eq_some hEnabled
    exact hGood.step_iff hWaits hStep

omit [Fintype τ] [DecidableEq τ] in
theorem waitsForWriters_init (writes : τ → Bool) : WaitsForWriters (init writes) := by
  intro _ _ t ht
  simp only [init] at ht
  split at ht <;> cases ht

/-- In a run readers wait only for writers at every moment, if and only if none of the three
statements is executed in it. -/
theorem waits_for_writers_iff (writes : τ → Bool) (sched : List (τ × Unit)) :
    (∀ k, WaitsForWriters (execute writes (sched.take k)).1) ↔
      Along (poolStep statement) Undisturbed (init writes) sched :=
  always_iff_along good_advance advance_iff (good_init writes) (waitsForWriters_init writes) sched

/-- Two readers and no writer: the second one waits for the first. -/
def twoReaders : List (Bool × Unit) :=
  [(false, ()), (false, ()), (false, ()), (false, ()), (true, ()), (true, ()), (true, ()),
    (true, ())]

theorem not_waitsForWriters_twoReaders :
    ¬ WaitsForWriters (execute (fun _ : Bool => false) twoReaders).1 := by
  intro hWaits
  have hRead := hWaits (by decide) (by decide) true (by decide)
  revert hRead
  decide

end OsLabs.Sem05.WinReaderWriter
