import OsLabs.Sem05.InOrder

/-!
# The letters run out of the segment

The semaphores keep the two pointers at most `N` letters apart, but nothing takes them back
to `start_addr`: the letter produced as number `i` goes to `START + i`. So the accesses
stay inside the segment exactly as long as no producer comes to store a letter when the
`pageSize - START` places behind `start_addr` are used up.
-/

namespace OsLabs.Sem05.ProducerConsumer

open Memory Runs SysV

/-- Every access is to an address from `start_addr` to the end of the segment. -/
def InSegment (pageSize : Nat) (h : List Event) : Prop :=
  ∀ e ∈ h, ∀ addr, e.address = some addr → START ≤ addr ∧ addr < pageSize

def Process.storing (p : Process) : Bool :=
  match p.pc with
  | .putStore _ => true
  | _ => false

theorem mem_puts {h : List Event} {addr : Nat} {c : UInt8} :
    (addr, c) ∈ puts h ↔ .put addr c ∈ h := by
  rw [puts, List.mem_filterMap]
  constructor
  · rintro ⟨e, he, hCell⟩
    cases e with
    | put addr' c' =>
      cases hCell
      exact he
    | got | segv | printPut | caught | semop => cases hCell
  · intro hMem
    exact ⟨_, hMem, rfl⟩

theorem mem_gots {h : List Event} {addr : Nat} {c : UInt8} (hMem : .got addr c ∈ h) :
    (addr, c) ∈ gots h :=
  List.mem_filterMap.mpr ⟨_, hMem, rfl⟩

theorem start_le_of_mem_cells {n addr : Nat} {c : UInt8} (h : (addr, c) ∈ cells n) :
    START ≤ addr := by
  obtain ⟨i, -, hCell⟩ := List.mem_map.mp h
  cases hCell
  exact Nat.le_add_right _ _

variable {τ : Type} [DecidableEq τ] {pageSize : Nat} {kind : τ → Kind} {mem : Nat → UInt8}
  {sched : List (τ × Input)}

/-- The accesses of a run, without the processes that make them. -/
def events (pageSize : Nat) (kind : τ → Kind) (mem : Nat → UInt8) (sched : List (τ × Input)) :
    List Event :=
  (execute pageSize kind mem sched).2.map Prod.snd

/-- A producer stores a letter only while there is a place left for it. -/
def PlaceLeft (pageSize : Nat) (kind : τ → Kind) (mem : Nat → UInt8)
    (sched : List (τ × Input)) : Prop :=
  ∀ before t after, sched = before ++ (t, .run) :: after →
    ((execute pageSize kind mem before).1.procs t).storing = true →
    (puts (events pageSize kind mem before)).length < pageSize - START

theorem events_append (before after : List (τ × Input)) :
    events pageSize kind mem before <+: events pageSize kind mem (before ++ after) :=
  (run_history _ _ before after).map Prod.snd

/-- Only a stopped access is to an address behind the segment. -/
theorem execute_address :
    ∀ e ∈ events pageSize kind mem sched, ∀ addr, e.address = some addr →
      (pageSize ≤ addr ↔ e = .segv addr) := by
  refine pool_invariant
    (P := fun _ (h : List (τ × Event)) => ∀ e ∈ h.map Prod.snd, ∀ addr,
      e.address = some addr → (pageSize ≤ addr ↔ e = .segv addr)) nofun ?_ sched
  intro c h t input sh p es hOld hStep e he addr hAddr
  rw [map_snd_append] at he
  rcases List.mem_append.mp he with hBefore | hLast
  · exact hOld e hBefore addr hAddr
  · exact (step_address hStep hLast hAddr).2.2

variable [Fintype τ]

theorem inSegment_iff_no_segv :
    InSegment pageSize (events pageSize kind mem sched) ↔
      ∀ addr, .segv addr ∉ events pageSize kind mem sched := by
  constructor
  · intro hIn addr hSegv
    have hOver := (execute_address _ hSegv addr rfl).mpr rfl
    have hBelow := (hIn _ hSegv addr rfl).2
    omega
  · intro hNone e he addr hAddr
    have hInv := execute_inv kind mem sched hNone
    have hEnd := execute_address e he addr hAddr
    cases e with
    | put addr' c =>
      cases hAddr
      rw [← mem_puts, events, hInv.putOrder] at he
      exact ⟨start_le_of_mem_cells he, Nat.not_le.mp fun hOver => nomatch hEnd.mp hOver⟩
    | got addr' c =>
      cases hAddr
      have hCell := mem_gots he
      rw [events, hInv.gotOrder] at hCell
      exact ⟨start_le_of_mem_cells hCell, Nat.not_le.mp fun hOver => nomatch hEnd.mp hOver⟩
    | segv addr' => exact absurd he (hNone addr')
    | printPut | caught | semop => cases hAddr

/-- A run inside the segment has not stored more letters than it has places for. -/
theorem length_puts_le (hNone : ∀ addr, .segv addr ∉ events pageSize kind mem sched) :
    (puts (events pageSize kind mem sched)).length ≤ pageSize - START := by
  have hIn := inSegment_iff_no_segv.mpr hNone
  have hPuts := (execute_inv kind mem sched hNone).putOrder
  rw [← events] at hPuts
  cases hCount : (puts (events pageSize kind mem sched)).length with
  | zero => exact Nat.zero_le _
  | succ n =>
    have hLast : (START + n, letter n) ∈ puts (events pageSize kind mem sched) := by
      rw [hPuts, hCount]
      exact mem_cells (Nat.lt_succ_self n)
    have hBelow := (hIn _ (mem_puts.mp hLast) _ rfl).2
    omega

/-- An action after a run inside the segment leaves it only if it stores one letter too many. -/
theorem no_segv_snoc {t : τ} {input : Input}
    (hNone : ∀ addr, .segv addr ∉ events pageSize kind mem sched)
    (hPlace : input = .run → ((execute pageSize kind mem sched).1.procs t).storing = true →
      (puts (events pageSize kind mem sched)).length < pageSize - START) (addr : Nat) :
    .segv addr ∉ events pageSize kind mem (sched ++ [(t, input)]) := by
  have hInv := execute_inv kind mem sched hNone
  have hCount := length_puts_le hNone
  rw [events, execute, run_snoc, ← execute]
  unfold advance
  split
  · exact hNone addr
  · next s' es hEnabled =>
    obtain ⟨sh, p, own, hStep, rfl, rfl⟩ := poolStep_eq_some hEnabled
    intro hSegv
    rw [map_snd_append] at hSegv
    rcases List.mem_append.mp hSegv with hBefore | hLast
    · exact hNone addr hBefore
    · rw [← events] at hInv
      obtain ⟨hOver, ⟨hRun, hStore, hAddr⟩ | ⟨k, hk, hAddr⟩⟩ := hInv.segv hStep hLast
      · have hRoom := hPlace hRun (by simp [Process.storing, hStore])
        omega
      · omega

/-- A producer that comes to store a letter when all places are used up leaves the segment. -/
theorem segv_of_full {t : τ} (hNone : ∀ addr, .segv addr ∉ events pageSize kind mem sched)
    (hStoring : ((execute pageSize kind mem sched).1.procs t).storing = true)
    (hFull : pageSize - START ≤ (puts (events pageSize kind mem sched)).length) :
    .segv (START + (puts (events pageSize kind mem sched)).length) ∈
      events pageSize kind mem (sched ++ [(t, .run)]) := by
  have hInv := execute_inv kind mem sched hNone
  rw [← events] at hInv
  obtain ⟨⟨l, -, hGuarded⟩, -, -, -⟩ := hInv
  have hAsserts := hGuarded.asserted t
  unfold Process.storing at hStoring
  split at hStoring
  · next ptr hPc =>
    simp only [Asserts, hPc] at hAsserts
    obtain ⟨-, -, rfl⟩ := hAsserts
    have hOver : ¬ START + (puts (events pageSize kind mem sched)).length < pageSize := by omega
    have hStep : poolStep (step pageSize) (execute pageSize kind mem sched).1 (t, .run) =
        some (⟨(execute pageSize kind mem sched).1.shared,
          Function.update (execute pageSize kind mem sched).1.procs t
            { (execute pageSize kind mem sched).1.procs t with pc := .exited }⟩,
          [(t, .segv (START + (puts (events pageSize kind mem sched)).length))]) := by
      simp only [poolStep, step, statement, hPc, if_neg hOver, List.map_cons, List.map_nil]
    rw [events, execute, run_snoc, ← execute, advance_eq_some hStep, List.map_append]
    exact List.mem_append_right _ (List.mem_singleton_self _)
  · cases hStoring

/-- Every access of a run is inside the segment exactly if no producer comes to store a
letter when all places are used up. -/
theorem inSegment_iff (kind : τ → Kind) (mem : Nat → UInt8) (sched : List (τ × Input)) :
    InSegment pageSize (events pageSize kind mem sched) ↔ PlaceLeft pageSize kind mem sched := by
  rw [inSegment_iff_no_segv]
  constructor
  · intro hNone before t after hSplit hStoring
    by_contra hFull
    have hBefore : ∀ addr, .segv addr ∉ events pageSize kind mem before := by
      intro addr hSegv
      apply hNone addr
      rw [hSplit]
      exact (events_append before _).subset hSegv
    apply hNone (START + (puts (events pageSize kind mem before)).length)
    rw [hSplit, List.append_cons before]
    apply (events_append _ after).subset
    exact segv_of_full hBefore hStoring (Nat.not_lt.mp hFull)
  · intro hPlace
    induction sched using List.reverseRecOn with
    | nil => exact fun _ => List.not_mem_nil
    | append_singleton before a ih =>
      obtain ⟨t, input⟩ := a
      refine no_segv_snoc (ih ?_) ?_
      · intro first u rest hSplit
        apply hPlace first u (rest ++ [(t, input)])
        rw [hSplit, List.append_assoc, List.cons_append]
      · rintro rfl
        exact hPlace before t [] rfl

/-! ## A producer and a consumer that take turns -/

/-- Both at the beginning of their loops, after `n` letters have been passed on. -/
def atLoops (n : Nat) (mem : Nat → UInt8) (symb : UInt8) : Conf (Fin 2) Shared Process :=
  ⟨⟨initSems, START + n, START + n, letter n, mem⟩,
    fun t => if t = 0 then ⟨.produceLoop, true, symb⟩ else ⟨.consumeLoop, true, 0⟩⟩

/-- Letter `n` is produced and consumed. -/
def turn (n : Nat) : List (Fin 2 × Input) :=
  List.replicate (if letter n = 'z'.toUInt8 then 12 else 11) (0, .run) ++
    List.replicate 7 (1, .run)

def turns : Nat → List (Fin 2 × Input)
  | 0 => []
  | n + 1 => turns n ++ turn n

theorem update_first (procs : Fin 2 → Process) (p : Process) :
    Function.update procs 0 p = fun t => if t = 0 then p else procs 1 := by
  ext t
  match t with
  | 0 => simp
  | 1 => simp

theorem update_second (procs : Fin 2 → Process) (p : Process) :
    Function.update procs 1 p = fun t => if t = 0 then procs 0 else p := by
  ext t
  match t with
  | 0 => simp
  | 1 => simp

theorem turn_run {n : Nat} (hFits : START + n < pageSize) (mem : Nat → UInt8) (symb : UInt8) :
    (run (poolStep (step pageSize)) (atLoops n mem symb) (turn n)).1 =
      atLoops (n + 1) (Function.update mem (START + n) (letter n)) (letter n) := by
  have hSems : Function.update (Function.update (Function.update (Function.update
      (Function.update initSems .bufferEmpty 25) .binSem 1) .bufferFull 0) .binSem 1)
      .bufferEmpty 26 = initSems := by
    ext i
    cases i with
    | bufferEmpty | bufferFull | binSem => rfl
  have hNext := letter_succ_wrap n
  by_cases hWrap : letter n = 'z'.toUInt8
  · rw [if_pos (by rw [hWrap])] at hNext
    simp [turn, hWrap, hNext, hFits, hSems, atLoops, run, resume, List.replicate, advance,
      poolStep, step, statement, call, attempt, update_first, update_second, startProduce,
      stopProduce, startConsume, stopConsume, initSems, N, SEMVMX, Nat.add_assoc]
  · have hLess : ¬ letter n + 1 = 'z'.toUInt8 + 1 := fun h => hWrap ((UInt8.add_left_inj 1).mp h)
    rw [if_neg hLess] at hNext
    simp [turn, hWrap, hLess, hNext, hFits, hSems, atLoops, run, resume, List.replicate, advance,
      poolStep, step, statement, call, attempt, update_first, update_second, startProduce,
      stopProduce, startConsume, stopConsume, initSems, N, SEMVMX, Nat.add_assoc]

theorem turns_run {n : Nat} (hFits : START + n ≤ pageSize) :
    ∃ mem symb, (execute pageSize firstKind (fun _ => 0) (turns n)).1 = atLoops n mem symb := by
  induction n with
  | zero =>
    refine ⟨fun _ => 0, 0, ?_⟩
    have hProcs : (fun t => ⟨(firstKind t).start, true, 0⟩ : Fin 2 → Process) =
        fun t => if t = 0 then ⟨.produceLoop, true, 0⟩ else ⟨.consumeLoop, true, 0⟩ := by
      ext t
      match t with
      | 0 => rfl
      | 1 => rfl
    show init firstKind (fun _ => 0) = atLoops 0 (fun _ => 0) 0
    rw [init, hProcs]
    rfl
  | succ n ih =>
    obtain ⟨mem, symb, hBefore⟩ := ih (by omega)
    refine ⟨_, _, Eq.trans ?_ (turn_run (by omega : START + n < pageSize) mem symb)⟩
    rw [execute, turns, run_append, ← execute, ← Prod.eta (execute _ _ _ _), resume_state, hBefore]

/-- The producer comes back when the places are used up. -/
def overrun (pageSize : Nat) : List (Fin 2 × Input) :=
  turns (pageSize - START) ++ List.replicate 8 (0, .run)

theorem overrun_leaves (hPage : START ≤ pageSize) :
    ¬ InSegment pageSize (events pageSize firstKind (fun _ => 0) (overrun pageSize)) := by
  intro hIn
  have hEnd : START + (pageSize - START) = pageSize := Nat.add_sub_of_le hPage
  obtain ⟨mem, symb, hState⟩ := turns_run (Nat.le_of_eq hEnd)
  have hSegv : .segv pageSize ∈ events pageSize firstKind (fun _ => 0) (overrun pageSize) := by
    rw [events, execute, overrun, run_append, ← execute, ← Prod.eta (execute _ _ _ _), hState]
    by_cases hWrap : letter (pageSize - START) + 1 = 'z'.toUInt8 + 1
    · simp [hWrap, hEnd, atLoops, resume, List.replicate, advance, poolStep, step, statement,
        call, attempt, update_first, startProduce, initSems, N]
    · simp [hWrap, hEnd, atLoops, resume, List.replicate, advance, poolStep, step, statement,
        call, attempt, update_first, startProduce, initSems, N]
  exact absurd (hIn _ hSegv pageSize rfl).2 (Nat.lt_irrefl pageSize)

/-- On pages of 4096 bytes the 4080th letter goes behind the segment. -/
theorem not_inSegment_overrun :
    ¬ InSegment 4096 (events 4096 firstKind (fun _ => 0) (overrun 4096)) :=
  overrun_leaves (by decide)

end OsLabs.Sem05.ProducerConsumer
