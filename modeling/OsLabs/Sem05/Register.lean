import OsLabs.Sem05.ReaderWriter

/-!
# The shared letter is a register

A write is completed when its `stop_write` returns. `latest n` is the letter after `n`
completed writes: `'a' - 1` at first, then the alphabet over and over. While a writer is
inside, the letter passes through `latest n + 1`, which may be `'z' + 1`, to the next
letter; `Asserts` follows it there. Nobody sleeps in a `stop` call, so a process that a
signal ends is outside its section.
-/

namespace OsLabs.Sem05.ReaderWriter

open Memory Runs SysV RwLock

def latest : Nat → UInt8
  | 0 => 'a'.toUInt8 - 1
  | n + 1 => letter n

/-- The letter after the increment and the test for `'z' + 1`. -/
theorem letter_eq_latest (n : Nat) :
    letter n = if latest n + 1 = 'z'.toUInt8 + 1 then 'a'.toUInt8 else latest n + 1 := by
  cases n with
  | zero => decide
  | succ n => exact letter_succ_wrap n

theorem latest_ne (n : Nat) : latest n ≠ 'z'.toUInt8 + 1 := by
  cases n with
  | zero => decide
  | succ n =>
    have hTable : ∀ r : Fin 26, UInt8.ofNat (97 + r.val) ≠ 'z'.toUInt8 + 1 := by decide
    exact hTable ⟨n % 26, Nat.mod_lt _ (by decide)⟩

def completedValue : Event → Option UInt8
  | .completed c => some c
  | _ => none

/-- The values left by the completed writes, in order. -/
def writes (h : List Event) : List UInt8 := h.filterMap completedValue

theorem writes_append (h es : List Event) : writes (h ++ es) = writes h ++ writes es :=
  List.filterMap_append

theorem getLastD_letters (n : Nat) : (letters n).getLastD ('a'.toUInt8 - 1) = latest n := by
  cases n with
  | zero => rfl
  | succ n => rw [letters_succ, List.getLastD_concat, latest]

/-! ## Statements inside a section -/

/-- What a process inside its section knows of the letter `d.1` after `d.2` completed
writes. -/
def Asserts (d : UInt8 × Nat) (p : Process) : Prop :=
  match p.pc with
  | .readLetter | .incLoad => d.1 = latest d.2
  | .stopRead asleep => asleep = false
  | .incStore value => d.1 = latest d.2 ∧ value = latest d.2
  | .wrapTest => d.1 = latest d.2 + 1
  | .wrapStore => latest d.2 + 1 = 'z'.toUInt8 + 1
  | .killTest | .printLetter => d.1 = letter d.2
  | .stopWrite asleep => asleep = false ∧ d.1 = letter d.2
  | .readLoop | .startRead _ | .writeLoop | .startWrite _ | .exited => True

def AtRest (d : UInt8 × Nat) : Prop := d.1 = latest d.2

theorem asserts_out (d : UInt8 × Nat) (p : Process) (h : p.role = .out) : Asserts d p := by
  obtain ⟨pc, flag, count⟩ := p
  cases pc with
  | readLoop | startRead asleep | writeLoop | startWrite asleep | exited => trivial
  | readLetter | stopRead asleep => cases h
  | incLoad | incStore value | wrapTest | wrapStore | killTest | printLetter
  | stopWrite asleep => cases h

/-- What one step does, seen from the lock `l` and the number `n` of completed writes. -/
structure Follows (l : Lock) (n : Nat) (sh : Shared) (p : Process) (sh' : Shared)
    (p' : Process) (es : List Event) : Prop where
  guard : ∃ l', Locked sh'.sems l' ∧ Advance Process.role Asserts AtRest l l' (sh.addr, n)
    (sh'.addr, n + (writes es).length) p p'
  order : writes es = [] ∨ writes es = [letter n]
  reads : Always (fun before e => ∀ c, e = .read c → writes before = [] ∧ c = latest n) es

theorem always_of_no_read {n : Nat} {es : List Event} (h : ∀ c, .read c ∉ es) :
    Always (fun before e => ∀ c, e = Event.read c → writes before = [] ∧ c = latest n) es := by
  intro before e after hSplit c hRead
  subst hRead
  rw [hSplit] at h
  exact absurd (List.mem_append_right before List.mem_cons_self) (h c)

/-- A step that neither moves the lock nor completes a write. -/
theorem Follows.inside {l : Lock} {n : Nat} {sh sh' : Shared} {p p' : Process}
    {es : List Event} (hLock : Locked sh'.sems l) (hRole : p'.role = p.role)
    (hSilent : writes es = []) (hData : sh'.addr = sh.addr ∨ p.role = .writing)
    (hAsserts : Asserts (sh'.addr, n) p')
    (hReads : Always (fun before e => ∀ c, e = .read c → writes before = [] ∧ c = latest n) es) :
    Follows l n sh p sh' p' es := by
  have hCount : n + (writes es).length = n := by rw [hSilent]; rfl
  refine ⟨⟨l, hLock, .inside hRole ?_ ?_⟩, Or.inl hSilent, hReads⟩
  · rw [hCount]
    exact hData.imp_left fun hSame => by rw [hSame]
  · rwa [hCount]

/-- A process that enters its section, or a reader that leaves it. -/
theorem Follows.cross {l l' : Lock} {n : Nat} {sh : Shared} {p p' : Process}
    {vals : SemSet Sem} (hLock : Locked vals l') (hMove : Move l p.role l' p'.role)
    (hRole : p.role ≠ .writing) (hAsserts : Asserts (sh.addr, n) p') :
    Follows l n sh p { sh with sems := vals } p' [] :=
  ⟨⟨l', hLock, hMove, Or.inl rfl, hAsserts, fun hWriting => absurd hWriting hRole⟩, Or.inl rfl,
    always_nil _⟩

/-- The statements of `reader` and `writer`, by a process that the lock has counted. -/
theorem statement_follows {sh sh' : Shared} {p p' : Process} {es : List Event} {l : Lock}
    {n : Nat} (hLock : Locked sh.sems l) (hReading : p.role = .reading → 1 ≤ l.readers)
    (hWriting : p.role = .writing → 1 ≤ l.writers) (hAsserts : Asserts (sh.addr, n) p)
    (hRest : l.writers = 0 → AtRest (sh.addr, n)) (hStep : statement sh p = some (sh', p', es)) :
    Follows l n sh p sh' p' es := by
  obtain ⟨pc, flag, count⟩ := p
  cases pc with
  | readLoop | writeLoop =>
    simp only [statement] at hStep
    split at hStep
    · cases hStep; exact .inside hLock rfl rfl (Or.inl rfl) trivial (always_nil _)
    · cases hStep; exact .inside hLock rfl rfl (Or.inl rfl) trivial (always_nil _)
  | startRead asleep =>
    obtain ⟨vals, hDone, ⟨⟩⟩ | ⟨-, ⟨⟩⟩ | ⟨-, ⟨⟩⟩ := attempt_cases hStep
    · obtain ⟨hNone, hLock'⟩ := startRead_done hLock hDone
      obtain ⟨r, w⟩ := l
      subst hNone
      exact .cross hLock' (.startRead r) nofun (hRest rfl)
    · exact .inside hLock rfl rfl (Or.inl rfl) trivial (always_nil _)
    · exact .inside hLock rfl rfl (Or.inl rfl) trivial (always_of_no_read (by simp))
  | readLetter =>
    cases hStep
    refine .inside hLock rfl rfl (Or.inl rfl) rfl ?_
    refine always_snoc.mpr ⟨always_nil _, fun c hRead => ⟨rfl, ?_⟩⟩
    cases hRead
    exact hAsserts
  | stopRead asleep =>
    have hOne := hReading rfl
    obtain ⟨r, w⟩ := l
    obtain ⟨r, rfl⟩ : ∃ k, r = k + 1 := ⟨r - 1, by dsimp only at hOne; omega⟩
    obtain ⟨vals', hLeave, hLock'⟩ := stopRead_eq hLock
    obtain ⟨⟩ := attempt_done hLeave hStep
    exact .cross hLock' (.stopRead r w) nofun trivial
  | startWrite asleep =>
    obtain ⟨vals, hDone, ⟨⟩⟩ | ⟨-, ⟨⟩⟩ | ⟨-, ⟨⟩⟩ := attempt_cases hStep
    · obtain ⟨hReaders, hWriters, hLock'⟩ := startWrite_done hLock hDone
      obtain ⟨r, w⟩ := l
      subst hReaders hWriters
      exact .cross hLock' .startWrite nofun (hRest rfl)
    · exact .inside hLock rfl rfl (Or.inl rfl) trivial (always_nil _)
    · exact .inside hLock rfl rfl (Or.inl rfl) trivial (always_of_no_read (by simp))
  | incLoad =>
    cases hStep
    exact .inside hLock rfl rfl (Or.inl rfl) ⟨hAsserts, hAsserts⟩ (always_nil _)
  | incStore value =>
    cases hStep
    exact .inside hLock rfl rfl (Or.inr rfl) (congrArg (· + 1) hAsserts.2) (always_nil _)
  | wrapTest =>
    have hAddr : sh.addr = latest n + 1 := hAsserts
    simp only [statement] at hStep
    split at hStep
    · next hZ =>
      cases hStep
      exact .inside hLock rfl rfl (Or.inl rfl) (hAddr.symm.trans hZ) (always_nil _)
    · next hZ =>
      cases hStep
      refine .inside hLock rfl rfl (Or.inl rfl) ?_ (always_nil _)
      show sh.addr = letter n
      rw [hAddr] at hZ
      rw [hAddr, letter_eq_latest, if_neg hZ]
  | wrapStore =>
    cases hStep
    refine .inside hLock rfl rfl (Or.inr rfl) ?_ (always_of_no_read (by simp))
    show 'a'.toUInt8 = letter n
    rw [letter_eq_latest]
    exact (if_pos hAsserts).symm
  | killTest =>
    cases hStep
    refine .inside hLock rfl ?_ (Or.inl rfl) hAsserts (always_of_no_read fun c => ?_)
    · dsimp only
      split <;> rfl
    · dsimp only
      split <;> simp
  | printLetter =>
    cases hStep
    exact .inside hLock rfl rfl (Or.inl rfl) ⟨rfl, hAsserts⟩ (always_of_no_read (by simp))
  | stopWrite asleep =>
    have hOne := hWriting rfl
    have hAddr : sh.addr = letter n := hAsserts.2
    obtain ⟨r, w⟩ := l
    obtain ⟨w, rfl⟩ : ∃ k, w = k + 1 := ⟨w - 1, by dsimp only at hOne; omega⟩
    obtain ⟨vals', hLeave, hLock'⟩ := stopWrite_eq hLock
    obtain ⟨⟩ := attempt_done hLeave hStep
    refine ⟨⟨_, hLock', .stopWrite r w, Or.inr (Or.inl rfl), trivial, fun _ _ => hAddr⟩, Or.inr ?_,
      always_of_no_read (by simp)⟩
    rw [← hAddr]
    rfl
  | exited => cases hStep

/-- A signal ends a process only outside its section. -/
theorem deliver_follows {sh sh' : Shared} {p p' : Process} {es : List Event} {l : Lock}
    {n : Nat} (hLock : Locked sh.sems l) (hAsserts : Asserts (sh.addr, n) p)
    (hStep : deliver sh p = some (sh', p', es)) : Follows l n sh p sh' p' es := by
  unfold deliver at hStep
  split at hStep
  · cases hStep
  · split at hStep
    · next hAsleep =>
      cases hStep
      refine .inside hLock ?_ rfl (Or.inl rfl) trivial (always_of_no_read (by simp))
      obtain ⟨pc, flag, count⟩ := p
      cases pc with
      | startRead asleep | startWrite asleep => rfl
      | stopRead asleep =>
        obtain rfl : asleep = false := hAsserts
        cases hAsleep
      | stopWrite asleep =>
        obtain ⟨rfl, -⟩ := hAsserts
        cases hAsleep
      | readLoop | readLetter | writeLoop | incLoad | incStore value | wrapTest | wrapStore
      | killTest | printLetter | exited => cases hAsleep
    · cases hStep
      exact .inside hLock rfl rfl (Or.inl rfl) hAsserts (always_of_no_read (by simp))

/-! ## Whole runs -/

variable {τ : Type} [Fintype τ]

/-- A reader prints the value of the last completed write. -/
def ReadsLatest (before : List Event) (e : Event) : Prop :=
  ∀ c, e = .read c → c = (writes before).getLastD ('a'.toUInt8 - 1) ∧ c ≠ 'z'.toUInt8 + 1

/-- The semaphores stand for a lock that guards the letter, the completed writes are the
alphabet in order, and every letter read is the latest one. -/
def Inv (c : Conf τ Shared Process) (h : List Event) : Prop :=
  (∃ l, Locked c.shared.sems l ∧
    Guarded Process.role Asserts AtRest l (c.shared.addr, (writes h).length) c.procs) ∧
  writes h = letters (writes h).length ∧
  Always ReadsLatest h

theorem inv_init (kind : τ → Kind) : Inv (init kind) [] := by
  have hOut (t : τ) : Process.role ⟨(kind t).start, true, 0⟩ = .out := by
    cases kind t with
    | reader => rfl
    | writer => rfl
  refine ⟨⟨⟨0, 0⟩, ⟨rfl, rfl, rfl, rfl⟩, owned_init hOut, fun t => ?_, fun _ => rfl⟩, rfl,
    always_nil _⟩
  exact asserts_out _ _ (hOut t)

variable [DecidableEq τ]

theorem Inv.step {c : Conf τ Shared Process} {h : List Event} {t : τ} {input : Input}
    {sh : Shared} {p : Process} {es : List Event} (hInv : Inv c h)
    (hStep : step c.shared (c.procs t) input = some (sh, p, es)) :
    Inv ⟨sh, Function.update c.procs t p⟩ (h ++ es) := by
  obtain ⟨⟨l, hLock, hGuarded⟩, hLetters, hReads⟩ := hInv
  have hFollows : Follows l (writes h).length c.shared (c.procs t) sh p es := by
    cases input with
    | run =>
      exact statement_follows hLock hGuarded.owned.one_le_readers hGuarded.owned.one_le_writers
        (hGuarded.asserted t) hGuarded.rest hStep
    | sigterm => exact deliver_follows hLock (hGuarded.asserted t) hStep
  obtain ⟨l', hLock', hAdvance⟩ := hFollows.guard
  have hCount : (writes (h ++ es)).length = (writes h).length + (writes es).length := by
    rw [writes_append, List.length_append]
  refine ⟨⟨l', hLock', ?_⟩, ?_, ?_⟩
  · rw [hCount]
    exact hGuarded.advance asserts_out hAdvance
  · rw [hCount, writes_append]
    rcases hFollows.order with hNone | hOne
    · rw [hNone, List.append_nil]
      exact hLetters
    · rw [hOne, List.length_singleton, letters_succ, ← hLetters]
  · refine always_append hReads ?_
    intro before e after hSplit d hRead
    obtain ⟨hNone, hLatest⟩ := hFollows.reads before e after hSplit d hRead
    rw [writes_append, hNone, List.append_nil, hLatest]
    refine ⟨?_, latest_ne _⟩
    rw [hLetters, getLastD_letters, length_letters]

theorem execute_inv (kind : τ → Kind) (sched : List (τ × Input)) :
    Inv (execute kind sched).1 ((execute kind sched).2.map Prod.snd) := by
  refine pool_invariant (P := fun c h => Inv c (h.map Prod.snd)) (inv_init kind) ?_ sched
  intro c h t input sh p es hInv hStep
  rw [map_snd_append]
  exact hInv.step hStep

/-- In every run, signals included: the semaphores count the processes inside, a writer is
alone there, the completed writes are the alphabet in order, and a reader prints the value
of the last completed write. -/
theorem register_semantics (kind : τ → Kind) (sched : List (τ × Input)) :
    let r := execute kind sched
    let sems := r.1.shared.sems
    sems .countActiveReaders = count (fun p => p.role = .reading) r.1.procs ∧
      sems .activeWriter = count (fun p => p.role = .writing) r.1.procs ∧
      sems .activeWriter ≤ 1 ∧
      (sems .countActiveReaders = 0 ∨ sems .activeWriter = 0) ∧
      writes (r.2.map Prod.snd) = letters (writes (r.2.map Prod.snd)).length ∧
      Always ReadsLatest (r.2.map Prod.snd) := by
  obtain ⟨⟨l, hLock, hGuarded⟩, hLetters, hReads⟩ := execute_inv kind sched
  have hExclusive := hGuarded.owned.exclusive
  have hReaders := hLock.readers
  have hWriters := hLock.writers
  dsimp only
  exact ⟨hReaders.trans hGuarded.owned.readers, hWriters.trans hGuarded.owned.writers,
    by omega, by omega, hLetters, hReads⟩

end OsLabs.Sem05.ReaderWriter
