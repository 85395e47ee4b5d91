import OsLabs.Sem05.ProducerConsumer

/-!
# The letters are consumed in the order of the alphabet

The letter produced as number `i` is stored at `START + i` and stays there. `Stage` gives
the shared variables after `produced` stores and `consumed` reads, with the two pointers
and `BUFFER_FULL` late by what the process inside has still to do; `Asserts` says which
stage each statement starts from. As in the reader-writer program nobody sleeps in a
`stop` call, so a signal ends a process only outside its section.

The segment holds `pageSize - START` letters, and everything is said of the runs that stay
inside it, as those do that have produced fewer.
-/

namespace OsLabs.Sem05.ProducerConsumer

open Memory Runs SysV RwLock

def putCell : Event → Option (Nat × UInt8)
  | .put addr c => some (addr, c)
  | _ => none

def gotCell : Event → Option (Nat × UInt8)
  | .got addr c => some (addr, c)
  | _ => none

/-- The letters produced, and those consumed, with their addresses. -/
def puts (h : List Event) : List (Nat × UInt8) := h.filterMap putCell
def gots (h : List Event) : List (Nat × UInt8) := h.filterMap gotCell

theorem puts_append (h es : List Event) : puts (h ++ es) = puts h ++ puts es :=
  List.filterMap_append
theorem gots_append (h es : List Event) : gots (h ++ es) = gots h ++ gots es :=
  List.filterMap_append

/-- The first `n` letters, each at its address. -/
def cells (n : Nat) : List (Nat × UInt8) := (List.range n).map fun i => (START + i, letter i)

theorem cells_succ (n : Nat) : cells (n + 1) = cells n ++ [(START + n, letter n)] := by
  simp [cells, List.range_succ]

theorem mem_cells {n i : Nat} (h : i < n) : (START + i, letter i) ∈ cells n :=
  List.mem_map.mpr ⟨i, List.mem_range.mpr h, rfl⟩

/-! ## Statements inside a section -/

/-- The shared variables, with the numbers of letters produced and consumed. -/
structure Data where
  sh : Shared
  produced : Nat
  consumed : Nat

/-- The letter is `next`, `pr` and `con` letters are behind the two pointers, and
`BUFFER_FULL` counts the letters produced without the first `taken`. -/
structure Stage (d : Data) (next : UInt8) (pr con taken : Nat) : Prop where
  next : d.sh.letter = next
  pr : d.sh.prPtr = START + pr
  con : d.sh.conPtr = START + con
  full : d.sh.sems .bufferFull + taken = d.produced
  mem : ∀ i < d.produced, d.sh.mem (START + i) = letter i

def AtRest (d : Data) : Prop := Stage d (letter d.produced) d.produced d.consumed d.consumed

def Asserts (d : Data) (p : Process) : Prop :=
  match p.pc with
  | .produceLoop | .startProduce _ | .consumeLoop | .startConsume _ | .exited => True
  | .letterLoad => AtRest d
  | .letterStore value => AtRest d ∧ value = letter d.produced
  | .wrapTest =>
    Stage d (letter d.produced + 1) d.produced d.consumed d.consumed ∧ p.symb = letter d.produced
  | .wrapStore =>
    Stage d (letter d.produced + 1) d.produced d.consumed d.consumed ∧
      p.symb = letter d.produced ∧ letter d.produced + 1 = 'z'.toUInt8 + 1
  | .putLoad =>
    Stage d (letter (d.produced + 1)) d.produced d.consumed d.consumed ∧
      p.symb = letter d.produced
  | .putStore ptr =>
    Stage d (letter (d.produced + 1)) d.produced d.consumed d.consumed ∧
      p.symb = letter d.produced ∧ ptr = START + d.produced
  | .prLoad =>
    ∃ k, d.produced = k + 1 ∧ Stage d (letter d.produced) k d.consumed (d.consumed + 1)
  | .prStore ptr =>
    ∃ k, d.produced = k + 1 ∧ Stage d (letter d.produced) k d.consumed (d.consumed + 1) ∧
      ptr = START + k
  | .printPut => Stage d (letter d.produced) d.produced d.consumed (d.consumed + 1)
  | .stopProduce asleep =>
    asleep = false ∧ Stage d (letter d.produced) d.produced d.consumed (d.consumed + 1)
  | .getLoad => Stage d (letter d.produced) d.produced d.consumed (d.consumed + 1)
  | .getRead ptr =>
    Stage d (letter d.produced) d.produced d.consumed (d.consumed + 1) ∧ ptr = START + d.consumed
  | .conLoad =>
    ∃ j, d.consumed = j + 1 ∧ Stage d (letter d.produced) d.produced j d.consumed
  | .conStore ptr =>
    ∃ j, d.consumed = j + 1 ∧ Stage d (letter d.produced) d.produced j d.consumed ∧
      ptr = START + j
  | .stopConsume asleep => asleep = false ∧ AtRest d

theorem asserts_out (d : Data) (p : Process) (h : p.role = .out) : Asserts d p := by
  obtain ⟨pc, flag, symb⟩ := p
  cases pc with
  | produceLoop | startProduce asleep | consumeLoop | startConsume asleep | exited => trivial
  | letterLoad | letterStore value | wrapTest | wrapStore | putLoad | putStore ptr | prLoad
  | prStore ptr | printPut | stopProduce asleep => cases h
  | getLoad | getRead ptr | conLoad | conStore ptr | stopConsume asleep => cases h

/-- A letter stored behind those that are there. -/
theorem Stage.store {d : Data} {next : UInt8} {pr con taken : Nat}
    (h : Stage d next pr con taken) :
    Stage ⟨{ d.sh with mem := Function.update d.sh.mem (START + d.produced) (letter d.produced) },
      d.produced + 1, d.consumed⟩ next pr con (taken + 1) := by
  refine ⟨h.next, h.pr, h.con, ?_, ?_⟩
  · have hFull := h.full
    dsimp only
    omega
  · intro i hi
    show Function.update d.sh.mem (START + d.produced) (letter d.produced) (START + i) = letter i
    by_cases hLast : i = d.produced
    · subst hLast
      rw [Function.update_self]
    · rw [Function.update_of_ne (by omega)]
      exact h.mem i (Nat.lt_of_le_of_ne (Nat.le_of_lt_succ hi) hLast)

/-- The data after a step to `sh` with the events `es`. -/
def Data.after (d : Data) (sh : Shared) (es : List Event) : Data :=
  ⟨sh, d.produced + (puts es).length, d.consumed + (gots es).length⟩

theorem Data.after_quiet {d : Data} {es : List Event} (hPuts : puts es = [])
    (hGots : gots es = []) (sh : Shared) : d.after sh es = { d with sh := sh } := by
  rw [Data.after, hPuts, hGots]
  rfl

/-- What one step does, seen from the lock `l` and the data. -/
structure Follows (l : Lock) (d : Data) (p : Process) (sh : Shared) (p' : Process)
    (es : List Event) : Prop where
  guard : ∃ l', Locked sh.sems l' ∧
    Advance Process.role Asserts AtRest l l' d (d.after sh es) p p'
  putOrder : puts es = [] ∨ puts es = [(START + d.produced, letter d.produced)]
  gotOrder : gots es = [] ∨
    (es = [.got (START + d.consumed) (letter d.consumed)] ∧ d.consumed < d.produced)

/-- A step that neither moves the lock nor produces or consumes. -/
theorem Follows.quiet {l : Lock} {d : Data} {p p' : Process} {sh : Shared} {es : List Event}
    (hPuts : puts es = []) (hGots : gots es = [])
    (hLock : Locked sh.sems l) (hRole : p'.role = p.role)
    (hData : sh = d.sh ∨ p.role = .writing) (hAsserts : Asserts { d with sh := sh } p') :
    Follows l d p sh p' es := by
  have hAfter : d.after sh es = { d with sh := sh } := Data.after_quiet hPuts hGots sh
  refine ⟨⟨l, hLock, .inside hRole ?_ ?_⟩, Or.inl hPuts, Or.inl hGots⟩
  · rw [hAfter]
    exact hData.imp_left fun hSame => by rw [hSame]
  · rwa [hAfter]

theorem Follows.enter {d : Data} {p p' : Process} {vals : SemSet Sem} (hLock : Locked vals ⟨0, 1⟩)
    (hOut : p.role = .out) (hInside : p'.role = .writing)
    (hAsserts : Asserts { d with sh := { d.sh with sems := vals } } p') :
    Follows ⟨0, 0⟩ d p { d.sh with sems := vals } p' [] := by
  refine ⟨⟨⟨0, 1⟩, hLock, ?_, Or.inr (Or.inr hInside), hAsserts, ?_⟩, Or.inl rfl, Or.inl rfl⟩
  · rw [hOut, hInside]
    exact .startWrite
  · intro hWriting
    rw [hOut] at hWriting
    cases hWriting

theorem Follows.leave {d : Data} {p p' : Process} {vals : SemSet Sem} (hLock : Locked vals ⟨0, 0⟩)
    (hInside : p.role = .writing) (hOut : p'.role = .out)
    (hRest : AtRest { d with sh := { d.sh with sems := vals } }) :
    Follows ⟨0, 1⟩ d p { d.sh with sems := vals } p' [] := by
  refine ⟨⟨⟨0, 0⟩, hLock, ?_, Or.inr (Or.inl hInside), asserts_out _ _ hOut, fun _ _ => hRest⟩,
    Or.inl rfl, Or.inl rfl⟩
  rw [hInside, hOut]
  exact .stopWrite 0 0

/-- The statements of `producer` and `consumer`, by a process that the lock has counted and
that stays inside the segment. -/
theorem statement_follows {pageSize : Nat} {sh : Shared} {p p' : Process} {es : List Event}
    {l : Lock} {d : Data} (hLock : Locked d.sh.sems l)
    (hInside : p.role = .writing → l = ⟨0, 1⟩) (hAsserts : Asserts d p)
    (hRest : l.writers = 0 → AtRest d) (hStep : statement pageSize d.sh p = some (sh, p', es))
    (hInSegment : ∀ addr, .segv addr ∉ es) : Follows l d p sh p' es := by
  obtain ⟨pc, flag, symb⟩ := p
  cases pc with
  | produceLoop | consumeLoop =>
    simp only [statement] at hStep
    split at hStep
    · cases hStep; exact .quiet rfl rfl hLock rfl (Or.inl rfl) trivial
    · cases hStep; exact .quiet rfl rfl hLock rfl (Or.inl rfl) trivial
  | startProduce asleep =>
    obtain ⟨vals, hDone, ⟨⟩⟩ | ⟨-, ⟨⟩⟩ | ⟨-, ⟨⟩⟩ := attempt_cases hStep
    · obtain ⟨rfl, hLock', hFull⟩ := hLock.startProduce hDone
      have hStage := hRest rfl
      refine .enter hLock' rfl rfl ⟨hStage.next, hStage.pr, hStage.con, ?_, hStage.mem⟩
      rw [← hStage.full, ← hFull]
    · exact .quiet rfl rfl hLock rfl (Or.inl rfl) trivial
    · exact .quiet rfl rfl hLock rfl (Or.inl rfl) trivial
  | letterLoad =>
    cases hStep
    exact .quiet rfl rfl hLock rfl (Or.inl rfl) ⟨hAsserts, hAsserts.next⟩
  | letterStore value =>
    cases hStep
    obtain ⟨hStage, rfl⟩ := hAsserts
    exact .quiet rfl rfl hLock rfl (Or.inr rfl)
      ⟨⟨rfl, hStage.pr, hStage.con, hStage.full, hStage.mem⟩, rfl⟩
  | wrapTest =>
    obtain ⟨hStage, hSymb⟩ := hAsserts
    simp only [statement] at hStep
    split at hStep
    · next hZ =>
      cases hStep
      rw [hStage.next] at hZ
      exact .quiet rfl rfl hLock rfl (Or.inl rfl) ⟨hStage, hSymb, hZ⟩
    · next hZ =>
      cases hStep
      rw [hStage.next] at hZ
      refine .quiet rfl rfl hLock rfl (Or.inl rfl) ⟨?_, hSymb⟩
      rw [letter_succ_wrap, if_neg hZ]
      exact hStage
  | wrapStore =>
    cases hStep
    obtain ⟨hStage, hSymb, hZ⟩ := hAsserts
    refine .quiet rfl rfl hLock rfl (Or.inr rfl)
      ⟨⟨?_, hStage.pr, hStage.con, hStage.full, hStage.mem⟩, hSymb⟩
    rw [letter_succ_wrap, if_pos hZ]
  | putLoad =>
    cases hStep
    obtain ⟨hStage, hSymb⟩ := hAsserts
    exact .quiet rfl rfl hLock rfl (Or.inl rfl) ⟨hStage, hSymb, hStage.pr⟩
  | putStore ptr =>
    obtain ⟨hStage, rfl, rfl⟩ := hAsserts
    simp only [statement] at hStep
    split at hStep
    · cases hStep
      refine ⟨⟨l, hLock, .inside rfl (Or.inr rfl) ⟨d.produced, rfl, ?_⟩⟩, Or.inr rfl, Or.inl rfl⟩
      exact hStage.store
    · cases hStep
      exact absurd (List.mem_singleton_self _) (hInSegment _)
  | prLoad =>
    cases hStep
    obtain ⟨k, hk, hStage⟩ := hAsserts
    exact .quiet rfl rfl hLock rfl (Or.inl rfl) ⟨k, hk, hStage, hStage.pr⟩
  | prStore ptr =>
    cases hStep
    obtain ⟨k, hk, hStage, rfl⟩ := hAsserts
    refine .quiet rfl rfl hLock rfl (Or.inr rfl)
      ⟨hStage.next, ?_, hStage.con, hStage.full, hStage.mem⟩
    rw [hk]
    rfl
  | printPut =>
    cases hStep
    exact .quiet rfl rfl hLock rfl (Or.inl rfl) ⟨rfl, hAsserts⟩
  | stopProduce asleep =>
    obtain rfl := hInside rfl
    obtain ⟨rfl, hStage⟩ := hAsserts
    obtain ⟨vals', hLeave, hLock', hFull⟩ := hLock.stopProduce (by decide)
    obtain ⟨⟩ := attempt_done hLeave hStep
    refine .leave hLock' rfl rfl ⟨hStage.next, hStage.pr, hStage.con, ?_, hStage.mem⟩
    have hOld := hStage.full
    dsimp only
    omega
  | startConsume asleep =>
    obtain ⟨vals, hDone, ⟨⟩⟩ | ⟨-, ⟨⟩⟩ | ⟨-, ⟨⟩⟩ := attempt_cases hStep
    · obtain ⟨rfl, hLock', hFull⟩ := hLock.startConsume hDone
      have hStage := hRest rfl
      refine .enter hLock' rfl rfl ⟨hStage.next, hStage.pr, hStage.con, ?_, hStage.mem⟩
      have hOld := hStage.full
      dsimp only
      omega
    · exact .quiet rfl rfl hLock rfl (Or.inl rfl) trivial
    · exact .quiet rfl rfl hLock rfl (Or.inl rfl) trivial
  | getLoad =>
    cases hStep
    exact .quiet rfl rfl hLock rfl (Or.inl rfl) ⟨hAsserts, hAsserts.con⟩
  | getRead ptr =>
    obtain ⟨hStage, rfl⟩ := hAsserts
    have hSome : d.consumed < d.produced := by
      have hFull := hStage.full
      omega
    simp only [statement] at hStep
    split at hStep
    · cases hStep
      refine ⟨⟨l, hLock, .inside rfl (Or.inr rfl) ⟨d.consumed, rfl, ?_⟩⟩, Or.inl rfl,
        Or.inr ⟨?_, hSome⟩⟩
      · exact ⟨hStage.next, hStage.pr, hStage.con, hStage.full, hStage.mem⟩
      · rw [hStage.mem d.consumed hSome]
    · cases hStep
      exact absurd (List.mem_singleton_self _) (hInSegment _)
  | conLoad =>
    cases hStep
    obtain ⟨j, hj, hStage⟩ := hAsserts
    exact .quiet rfl rfl hLock rfl (Or.inl rfl) ⟨j, hj, hStage, hStage.con⟩
  | conStore ptr =>
    cases hStep
    obtain ⟨j, hj, hStage, rfl⟩ := hAsserts
    refine .quiet rfl rfl hLock rfl (Or.inr rfl)
      ⟨rfl, hStage.next, hStage.pr, ?_, hStage.full, hStage.mem⟩
    rw [hj]
    rfl
  | stopConsume asleep =>
    obtain rfl := hInside rfl
    obtain ⟨rfl, hStage⟩ := hAsserts
    obtain ⟨vals', hLeave, hLock', hFull⟩ := hLock.stopConsume (by decide)
    obtain ⟨⟩ := attempt_done hLeave hStep
    refine .leave hLock' rfl rfl ⟨hStage.next, hStage.pr, hStage.con, ?_, hStage.mem⟩
    rw [← hStage.full, ← hFull]
  | exited => cases hStep

/-- A signal ends a process only outside its section. -/
theorem deliver_follows {sh : Shared} {p p' : Process} {es : List Event} {l : Lock} {d : Data}
    (hLock : Locked d.sh.sems l) (hAsserts : Asserts d p)
    (hStep : deliver d.sh p = some (sh, p', es)) : Follows l d p sh p' es := by
  unfold deliver at hStep
  split at hStep
  · cases hStep
  · split at hStep
    · next hAsleep =>
      cases hStep
      refine .quiet rfl rfl hLock ?_ (Or.inl rfl) trivial
      obtain ⟨pc, flag, symb⟩ := p
      cases pc with
      | startProduce asleep | startConsume asleep => rfl
      | stopProduce asleep | stopConsume asleep =>
        obtain ⟨rfl, -⟩ := hAsserts
        cases hAsleep
      | produceLoop | letterLoad | letterStore value | wrapTest | wrapStore | putLoad
      | putStore ptr | prLoad | prStore ptr | printPut => cases hAsleep
      | consumeLoop | getLoad | getRead ptr | conLoad | conStore ptr | exited => cases hAsleep
    · cases hStep
      exact .quiet rfl rfl hLock rfl (Or.inl rfl) hAsserts

/-- The address of an access through `*pr_ptr` or `*con_ptr`. -/
def Event.address : Event → Option Nat
  | .put addr _ | .got addr _ | .segv addr => some addr
  | _ => none

/-- There are two accesses through a pointer, and they are stopped at the end of the segment. -/
theorem step_address {pageSize : Nat} {sh sh' : Shared} {p p' : Process} {input : Input}
    {es : List Event} {e : Event} {addr : Nat}
    (hStep : step pageSize sh p input = some (sh', p', es)) (he : e ∈ es)
    (hAddr : e.address = some addr) :
    input = .run ∧ (p.pc = .putStore addr ∨ p.pc = .getRead addr) ∧
      (pageSize ≤ addr ↔ e = .segv addr) := by
  obtain ⟨pc, flag, symb⟩ := p
  have hSilent (hNone : ∀ e ∈ es, e.address = none) : False := by
    rw [hNone e he] at hAddr
    cases hAddr
  cases input with
  | sigalrm =>
    simp only [step, deliver] at hStep
    split at hStep
    · cases hStep
    · split at hStep
      · cases hStep; exact (hSilent (by simp [Event.address])).elim
      · cases hStep; exact (hSilent (by simp [Event.address])).elim
  | run =>
    simp only [step] at hStep
    cases pc with
    | putStore ptr | getRead ptr =>
      simp only [statement] at hStep
      split at hStep
      · next hBelow =>
        cases hStep
        cases List.mem_singleton.mp he
        cases hAddr
        exact ⟨rfl, by simp, by simp [hBelow]⟩
      · next hOver =>
        cases hStep
        cases List.mem_singleton.mp he
        cases hAddr
        exact ⟨rfl, by simp, by simp [Nat.not_lt.mp hOver]⟩
    | produceLoop | consumeLoop | wrapTest =>
      simp only [statement] at hStep
      split at hStep
      · cases hStep; exact (hSilent (by simp)).elim
      · cases hStep; exact (hSilent (by simp)).elim
    | startProduce asleep | stopProduce asleep | startConsume asleep | stopConsume asleep =>
      obtain ⟨vals, -, ⟨⟩⟩ | ⟨-, ⟨⟩⟩ | ⟨-, ⟨⟩⟩ := attempt_cases hStep
      · exact (hSilent (by simp)).elim
      · exact (hSilent (by simp)).elim
      · exact (hSilent (by simp [Event.address])).elim
    | letterLoad | letterStore value | wrapStore | putLoad | prLoad | prStore ptr | printPut
    | getLoad | conLoad | conStore ptr =>
      cases hStep
      exact (hSilent (by simp [Event.address])).elim
    | exited => cases hStep

/-! ## Whole runs -/

variable {τ : Type} [Fintype τ]

/-- A letter is consumed only after it has been produced. -/
def AfterPut (before : List Event) (e : Event) : Prop :=
  ∀ addr c, e = .got addr c → (addr, c) ∈ puts before

/-- The semaphores stand for a lock that guards the data, the letters are produced and
consumed in the order of the alphabet, and none is consumed before it is produced. -/
structure Inv (c : Conf τ Shared Process) (h : List Event) : Prop where
  lock : ∃ l, Locked c.shared.sems l ∧ Guarded Process.role Asserts AtRest l
    ⟨c.shared, (puts h).length, (gots h).length⟩ c.procs
  putOrder : puts h = cells (puts h).length
  gotOrder : gots h = cells (gots h).length
  afterPut : Always AfterPut h

theorem inv_init (kind : τ → Kind) (mem : Nat → UInt8) : Inv (init kind mem) [] := by
  have hOut (t : τ) : Process.role ⟨(kind t).start, true, 0⟩ = .out := by
    cases kind t with
    | producer => rfl
    | consumer => rfl
  refine ⟨⟨⟨0, 0⟩, locked_init, owned_init hOut, ?_, ?_⟩, rfl, rfl, always_nil _⟩
  · exact fun t => asserts_out _ _ (hOut t)
  · exact fun _ => ⟨rfl, rfl, rfl, rfl, fun i hi => absurd hi (Nat.not_lt_zero i)⟩

/-- An access outside the segment is one behind all letters: that of a letter to be stored
after those that are there, or that of one of these. -/
theorem Inv.segv {pageSize : Nat} {c : Conf τ Shared Process} {h : List Event} {t : τ}
    {input : Input} {sh : Shared} {p : Process} {es : List Event} {addr : Nat} (hInv : Inv c h)
    (hStep : step pageSize c.shared (c.procs t) input = some (sh, p, es))
    (hSegv : .segv addr ∈ es) :
    pageSize ≤ addr ∧
      (input = .run ∧ (c.procs t).pc = .putStore addr ∧ addr = START + (puts h).length ∨
        ∃ k < (puts h).length, addr = START + k) := by
  obtain ⟨⟨l, -, hGuarded⟩, -, -, -⟩ := hInv
  have hAsserts := hGuarded.asserted t
  obtain ⟨rfl, hPc, hEnd⟩ := step_address hStep hSegv rfl
  have hOver := hEnd.mpr rfl
  rcases hPc with hPut | hGet
  · simp only [Asserts, hPut] at hAsserts
    exact ⟨hOver, Or.inl ⟨rfl, hPut, hAsserts.2.2⟩⟩
  · simp only [Asserts, hGet] at hAsserts
    obtain ⟨hStage, rfl⟩ := hAsserts
    have hFull := hStage.full
    dsimp only at hFull
    exact ⟨hOver, Or.inr ⟨(gots h).length, by omega, rfl⟩⟩

variable [DecidableEq τ]

theorem Inv.step {pageSize : Nat} {c : Conf τ Shared Process} {h : List Event} {t : τ}
    {input : Input} {sh : Shared} {p : Process} {es : List Event} (hInv : Inv c h)
    (hStep : step pageSize c.shared (c.procs t) input = some (sh, p, es))
    (hInSegment : ∀ addr, .segv addr ∉ es) :
    Inv ⟨sh, Function.update c.procs t p⟩ (h ++ es) := by
  obtain ⟨⟨l, hLock, hGuarded⟩, hPuts, hGots, hAfter⟩ := hInv
  have hInside : (c.procs t).role = .writing → l = ⟨0, 1⟩ := fun hWriting =>
    hLock.occupied (hGuarded.owned.one_le_writers hWriting)
  have hFollows :
      Follows l ⟨c.shared, (puts h).length, (gots h).length⟩ (c.procs t) sh p es := by
    cases input with
    | run =>
      exact statement_follows hLock hInside (hGuarded.asserted t) hGuarded.rest hStep hInSegment
    | sigalrm => exact deliver_follows hLock (hGuarded.asserted t) hStep
  obtain ⟨l', hLock', hAdvance⟩ := hFollows.guard
  constructor
  · refine ⟨l', hLock', ?_⟩
    rw [puts_append, gots_append, List.length_append, List.length_append]
    exact hGuarded.advance asserts_out hAdvance
  · rw [puts_append]
    rcases hFollows.putOrder with hNone | hOne
    · rw [hNone, List.append_nil]
      exact hPuts
    · rw [hOne, List.length_append, List.length_singleton, cells_succ, ← hPuts]
  · rw [gots_append]
    rcases hFollows.gotOrder with hNone | ⟨hOne, -⟩
    · rw [hNone, List.append_nil]
      exact hGots
    · have hLast : gots es = [(START + (gots h).length, letter (gots h).length)] := by
        rw [hOne]
        rfl
      rw [hLast, List.length_append, List.length_singleton, cells_succ, ← hGots]
  · refine always_append hAfter ?_
    rcases hFollows.gotOrder with hNone | ⟨hOne, hSome⟩
    · rintro before e after hSplit addr x rfl
      rw [hSplit, gots_append] at hNone
      simp [gots, gotCell] at hNone
    · rw [hOne]
      refine always_snoc.mpr ⟨always_nil _, ?_⟩
      intro addr x hGot
      cases hGot
      rw [List.append_nil, hPuts]
      exact mem_cells hSome

theorem execute_inv {pageSize : Nat} (kind : τ → Kind) (mem : Nat → UInt8)
    (sched : List (τ × Input))
    (hInSegment : ∀ addr, .segv addr ∉ (execute pageSize kind mem sched).2.map Prod.snd) :
    Inv (execute pageSize kind mem sched).1
      ((execute pageSize kind mem sched).2.map Prod.snd) := by
  refine pool_invariant
    (P := fun c h => (∀ addr, .segv addr ∉ h.map Prod.snd) → Inv c (h.map Prod.snd))
    (fun _ => inv_init kind mem) ?_ sched hInSegment
  intro c h t input sh p es hInv hStep hLater
  rw [map_snd_append] at hLater ⊢
  refine (hInv fun addr hOld => ?_).step hStep fun addr hNew => ?_
  · exact hLater addr (List.mem_append_left es hOld)
  · exact hLater addr (List.mem_append_right _ hNew)

/-- A run that has produced fewer letters than the segment holds has not left it. -/
theorem execute_inSegment {pageSize : Nat} (kind : τ → Kind) (mem : Nat → UInt8)
    (sched : List (τ × Input))
    (hFits : (puts ((execute pageSize kind mem sched).2.map Prod.snd)).length <
      pageSize - START) (addr : Nat) :
    .segv addr ∉ (execute pageSize kind mem sched).2.map Prod.snd := by
  refine (pool_invariant
    (P := fun c h => (puts (h.map Prod.snd)).length < pageSize - START →
      Inv c (h.map Prod.snd) ∧ ∀ addr, .segv addr ∉ h.map Prod.snd)
    (fun _ => ⟨inv_init kind mem, fun _ => List.not_mem_nil⟩) ?_ sched hFits).2 addr
  intro c h t input sh p es hOld hStep hLater
  rw [map_snd_append] at hLater ⊢
  have hEarlier : (puts (h.map Prod.snd)).length < pageSize - START := by
    rw [puts_append, List.length_append] at hLater
    omega
  obtain ⟨hInv, hNone⟩ := hOld hEarlier
  have hNew : ∀ addr, .segv addr ∉ es := by
    intro addr hSegv
    obtain ⟨hOver, ⟨-, -, hAddr⟩ | ⟨k, hk, hAddr⟩⟩ := hInv.segv hStep hSegv
    · omega
    · omega
  refine ⟨hInv.step hStep hNew, fun addr hMem => ?_⟩
  rcases List.mem_append.mp hMem with hBefore | hLast
  · exact hNone addr hBefore
  · exact hNew addr hLast

/-- In every run that has produced fewer letters than the segment holds, signals included:
the letters are produced and consumed in the order of the alphabet, each at its own
address and none consumed before it is produced, and the semaphores count the free and the
filled places and the process inside. -/
theorem letters_in_order {pageSize : Nat} (kind : τ → Kind) (mem : Nat → UInt8)
    (sched : List (τ × Input))
    (hFits : (puts ((execute pageSize kind mem sched).2.map Prod.snd)).length <
      pageSize - START) :
    let r := execute pageSize kind mem sched
    let sems := r.1.shared.sems
    let inside := count (fun p => p.role = .writing) r.1.procs
    let h := r.2.map Prod.snd
    puts h = cells (puts h).length ∧ gots h = cells (gots h).length ∧ Always AfterPut h ∧
      sems .bufferEmpty + sems .bufferFull + inside = N ∧ sems .binSem + inside = 1 := by
  obtain ⟨⟨l, hLock, hGuarded⟩, hPuts, hGots, hAfter⟩ :=
    execute_inv kind mem sched (execute_inSegment kind mem sched hFits)
  have hInside := hGuarded.owned.writers
  refine ⟨hPuts, hGots, hAfter, ?_, ?_⟩
  · rw [← hInside]
    exact hLock.total
  · rw [← hInside]
    exact hLock.free

def firstKind (t : Fin 2) : Kind := if t = 0 then .producer else .consumer

/-- A producer and then a consumer pass through their loops once. -/
def firstLetter : List (Fin 2 × Input) :=
  List.replicate 11 (0, .run) ++ List.replicate 7 (1, .run)

theorem letters_in_order_first :
    let h := (execute 4096 firstKind (fun _ => 0) firstLetter).2.map Prod.snd
    (puts h).length < 4096 - START ∧ gots h = [(START, 'a'.toUInt8)] ∧ Always AfterPut h := by
  have hFits : (puts ((execute 4096 firstKind (fun _ => 0) firstLetter).2.map Prod.snd)).length <
      4096 - START := by decide
  exact ⟨hFits, by decide, (letters_in_order firstKind (fun _ => 0) firstLetter hFits).2.2.1⟩

end OsLabs.Sem05.ProducerConsumer
