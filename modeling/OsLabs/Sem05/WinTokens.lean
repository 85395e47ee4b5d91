import OsLabs.Sem05.WinReaderWriter

/-!
# One token for readers and writers

Both events together with the threads that have consumed one of them hold a single token:
a thread passes its wait by resetting an event, and sets one again when it leaves. Readers
are no exception, so a reader inside is alone as well, and `active_readers` is 0 or 1
according to how far that reader is.
-/

namespace OsLabs.Sem05.WinReaderWriter

open Runs RwLock

/-- A reader that has passed its wait and has not yet given the token back. -/
def Pc.holdsAsReader : Pc → Bool
  | .testActive | .lastReader => true
  | pc => pc.inRead

/-- Every thread that holds the token has the lock to itself. -/
def Pc.role : Pc → Role
  | .decWriteQueue => .writing
  | pc => if pc.inWrite || pc.holdsAsReader then .writing else .out

/-- The events stand for the lock `l`. -/
structure Tokens (sh : Shared) (l : Lock) : Prop where
  readers : l.readers = 0
  total : sh.canRead.toNat + sh.canWrite.toNat + l.writers = 1

/-- What only the holder of the token changes. -/
structure Data where
  activeReaders : Int
  cnt : Int

def dataOf (sh : Shared) : Data := ⟨sh.activeReaders, sh.cnt⟩

def Asserts (d : Data) (pc : Pc) : Prop :=
  match pc with
  | .waitMutex | .incActiveLoad | .testActive | .lastReader => d.activeReaders = 0
  | .incActiveStore value => d.activeReaders = 0 ∧ value = 0
  | .decReadQueue | .releaseMutex | .readSymbol | .decActiveLoad => d.activeReaders = 1
  | .decActiveStore value => d.activeReaders = 1 ∧ value = 1
  | .leaveLoop => d.activeReaders = 0 ∧ 3 ≤ d.cnt
  | pc => pc.role = .writing → d.activeReaders = 0

def AtRest (d : Data) : Prop := d.activeReaders = 0

theorem asserts_out (d : Data) (pc : Pc) (h : pc.role = .out) : Asserts d pc := by
  cases pc with
  | readLoop | incReadQueue | testWriteQueue | tryCanWrite | waitCanRead | writeLoop
  | incWriteQueue | testActiveReaders | tryCanRead | waitCanWrite | finished => nofun
  | waitMutex | incActiveLoad | incActiveStore value | decReadQueue | releaseMutex
  | readSymbol | decActiveLoad | decActiveStore value | testActive | lastReader => cases h
  | decWriteQueue | testSymbol | incCnt | testCnt | resetSymbol | incSymbol | testStop
  | writeSymbol | resetCanWrite | testReadQueue | setCanRead | setCanWrite | leaveLoop
  | leftInside => cases h

theorem role_of_inWrite {pc : Pc} (h : pc.inWrite = true) : pc.role = .writing := by
  unfold Pc.role
  split
  · rfl
  · rw [h]
    rfl

theorem role_of_holdsAsReader {pc : Pc} (h : pc.holdsAsReader = true) : pc.role = .writing := by
  unfold Pc.role
  split
  · rfl
  · rw [h, Bool.or_true]
    rfl

theorem holdsAsReader_of_inRead {pc : Pc} (h : pc.inRead = true) : pc.holdsAsReader = true := by
  unfold Pc.holdsAsReader
  split
  · rfl
  · rfl
  · exact h

theorem inWrite_of_holdsAsReader {pc : Pc} (h : pc.holdsAsReader = true) :
    pc.inWrite = false := by
  cases pc with
  | waitMutex | incActiveLoad | incActiveStore value | decReadQueue | releaseMutex
  | readSymbol | decActiveLoad | decActiveStore value | testActive | lastReader => rfl
  | _ => cases h

theorem Tokens.vacant {sh : Shared} {l : Lock} (h : Tokens sh l)
    (hSet : sh.canRead = true ∨ sh.canWrite = true) : l = ⟨0, 0⟩ := by
  have hTotal := h.total
  have hReaders := h.readers
  obtain ⟨readers, writers⟩ := l
  dsimp only at hTotal hReaders
  obtain rfl : writers = 0 := by
    rcases hSet with hRead | hWrite
    · rw [hRead, Bool.toNat_true] at hTotal
      omega
    · rw [hWrite, Bool.toNat_true] at hTotal
      omega
  rw [hReaders]

theorem Tokens.occupied {sh : Shared} {l : Lock} (h : Tokens sh l) (hInside : 1 ≤ l.writers) :
    l = ⟨0, 1⟩ := by
  have hTotal := h.total
  have hReaders := h.readers
  obtain ⟨readers, writers⟩ := l
  dsimp only at hTotal hReaders hInside
  obtain rfl : writers = 1 := by omega
  rw [hReaders]

theorem Tokens.canRead_of_canWrite {sh : Shared} {l : Lock} (h : Tokens sh l)
    (hWrite : sh.canWrite = true) : sh.canRead = false := by
  have hTotal := h.total
  cases hRead : sh.canRead with
  | true =>
    rw [hRead, hWrite, Bool.toNat_true] at hTotal
    omega
  | false => rfl

theorem Tokens.canWrite_of_canRead {sh : Shared} {l : Lock} (h : Tokens sh l)
    (hRead : sh.canRead = true) : sh.canWrite = false := by
  cases hWrite : sh.canWrite with
  | true => rw [h.canRead_of_canWrite hWrite] at hRead; cases hRead
  | false => rfl

/-- While a thread holds the token, both events are reset. -/
theorem Tokens.reset {sh : Shared} (h : Tokens sh ⟨0, 1⟩) :
    sh.canRead = false ∧ sh.canWrite = false := by
  have hTotal := h.total
  cases hRead : sh.canRead with
  | true =>
    rw [hRead, Bool.toNat_true] at hTotal
    dsimp only at hTotal
    omega
  | false =>
    cases hWrite : sh.canWrite with
    | true =>
      rw [hWrite, Bool.toNat_true] at hTotal
      dsimp only at hTotal
      omega
    | false => exact ⟨rfl, rfl⟩

/-! ## One statement -/

/-- What one statement does to the token and to the data behind it. -/
def Follows (l : Lock) (sh : Shared) (pc : Pc) (sh' : Shared) (pc' : Pc) : Prop :=
  ∃ l', Tokens sh' l' ∧ Advance Pc.role Asserts AtRest l l' (dataOf sh) (dataOf sh') pc pc'

variable {l : Lock} {sh sh' : Shared} {pc pc' : Pc}

/-- A statement that neither touches an event nor takes or gives back the token. -/
theorem Follows.quiet (hTokens : Tokens sh' l) (hRole : pc'.role = pc.role)
    (hData : dataOf sh' = dataOf sh ∨ pc.role = .writing) (hAsserts : Asserts (dataOf sh') pc') :
    Follows l sh pc sh' pc' :=
  ⟨l, hTokens, .inside hRole hData hAsserts⟩

/-- A wait that returns takes the token. -/
theorem Follows.take (hTokens : Tokens sh l) (hRest : l.writers = 0 → AtRest (dataOf sh))
    (hSet : sh.canRead = true ∨ sh.canWrite = true) (hOut : pc.role = .out)
    (hIn : pc'.role = .writing) (hData : dataOf sh' = dataOf sh)
    (hReset : sh'.canRead = false ∧ sh'.canWrite = false)
    (hAsserts : (dataOf sh').activeReaders = 0 → Asserts (dataOf sh') pc') :
    Follows l sh pc sh' pc' := by
  obtain rfl := hTokens.vacant hSet
  have hAtRest : AtRest (dataOf sh) := hRest rfl
  refine ⟨⟨0, 1⟩, ⟨rfl, ?_⟩, ?_, Or.inl hData, ?_, ?_⟩
  · rw [hReset.1, hReset.2]
    rfl
  · rw [hOut, hIn]
    exact .startWrite
  · rw [← hData] at hAtRest
    exact hAsserts hAtRest
  · intro hWriting
    rw [hOut] at hWriting
    cases hWriting

/-- A `SetEvent` of the holder gives the token back. -/
theorem Follows.give (hInside : l = ⟨0, 1⟩) (hIn : pc.role = .writing) (hOut : pc'.role = .out)
    (hSet : sh'.canRead.toNat + sh'.canWrite.toNat = 1) (hRest : AtRest (dataOf sh')) :
    Follows l sh pc sh' pc' := by
  subst hInside
  refine ⟨⟨0, 0⟩, ⟨rfl, hSet⟩, ?_, Or.inr (Or.inl hIn), asserts_out _ _ hOut, fun _ _ => hRest⟩
  rw [hIn, hOut]
  exact .stopWrite 0 0

theorem statement_follows {es : List Event} (hTokens : Tokens sh l)
    (hInside : pc.role = .writing → l = ⟨0, 1⟩) (hAsserts : Asserts (dataOf sh) pc)
    (hRest : l.writers = 0 → AtRest (dataOf sh))
    (hStep : statement sh pc () = some (sh', pc', es)) : Follows l sh pc sh' pc' := by
  cases pc with
  | readLoop | writeLoop =>
    simp only [statement] at hStep
    split at hStep
    · cases hStep; exact .quiet hTokens rfl (Or.inl rfl) nofun
    · cases hStep; exact .quiet hTokens rfl (Or.inl rfl) nofun
  | incReadQueue | incWriteQueue =>
    cases hStep
    exact .quiet ⟨hTokens.readers, hTokens.total⟩ rfl (Or.inl rfl) nofun
  | testWriteQueue | testActiveReaders =>
    simp only [statement] at hStep
    split at hStep
    · cases hStep; exact .quiet hTokens rfl (Or.inl rfl) nofun
    · cases hStep; exact .quiet hTokens rfl (Or.inl rfl) nofun
  | tryCanWrite =>
    simp only [statement] at hStep
    split at hStep
    · next hSet =>
      cases hStep
      have hRead := hTokens.canRead_of_canWrite hSet
      exact .take hTokens hRest (Or.inr hSet) rfl rfl rfl ⟨hRead, rfl⟩ id
    · cases hStep; exact .quiet hTokens rfl (Or.inl rfl) nofun
  | waitCanRead =>
    simp only [statement] at hStep
    split at hStep
    · next hSet =>
      cases hStep
      have hWrite := hTokens.canWrite_of_canRead hSet
      exact .take hTokens hRest (Or.inl hSet) rfl rfl rfl ⟨rfl, hWrite⟩ id
    · cases hStep
  | waitMutex =>
    simp only [statement] at hStep
    split at hStep
    · cases hStep
    · cases hStep
      exact .quiet ⟨hTokens.readers, hTokens.total⟩ rfl (Or.inl rfl) hAsserts
  | incActiveLoad =>
    cases hStep
    exact .quiet hTokens rfl (Or.inl rfl) ⟨hAsserts, hAsserts⟩
  | incActiveStore value =>
    cases hStep
    obtain ⟨-, rfl⟩ := hAsserts
    exact .quiet ⟨hTokens.readers, hTokens.total⟩ rfl (Or.inr rfl) rfl
  | decReadQueue | releaseMutex =>
    cases hStep
    exact .quiet ⟨hTokens.readers, hTokens.total⟩ rfl (Or.inl rfl) hAsserts
  | readSymbol =>
    cases hStep
    exact .quiet hTokens rfl (Or.inl rfl) hAsserts
  | decActiveLoad =>
    cases hStep
    exact .quiet hTokens rfl (Or.inl rfl) ⟨hAsserts, hAsserts⟩
  | decActiveStore value =>
    cases hStep
    obtain ⟨-, rfl⟩ := hAsserts
    exact .quiet ⟨hTokens.readers, hTokens.total⟩ rfl (Or.inr rfl) rfl
  | testActive =>
    simp only [statement] at hStep
    split at hStep
    · cases hStep; exact .quiet hTokens rfl (Or.inl rfl) hAsserts
    · next hSome => exact absurd hAsserts hSome
  | lastReader =>
    cases hStep
    obtain rfl := hInside rfl
    refine .give rfl rfl rfl ?_ hAsserts
    show sh.canRead.toNat + 1 = 1
    rw [hTokens.reset.1]
    rfl
  | tryCanRead =>
    simp only [statement] at hStep
    split at hStep
    · next hSet =>
      cases hStep
      have hWrite := hTokens.canWrite_of_canRead hSet
      exact .take hTokens hRest (Or.inl hSet) rfl rfl rfl ⟨rfl, hWrite⟩ fun h _ => h
    · cases hStep; exact .quiet hTokens rfl (Or.inl rfl) nofun
  | waitCanWrite =>
    simp only [statement] at hStep
    split at hStep
    · next hSet =>
      cases hStep
      have hRead := hTokens.canRead_of_canWrite hSet
      exact .take hTokens hRest (Or.inr hSet) rfl rfl rfl ⟨hRead, rfl⟩ fun h _ => h
    · cases hStep
  | decWriteQueue =>
    cases hStep
    exact .quiet ⟨hTokens.readers, hTokens.total⟩ rfl (Or.inl rfl) hAsserts
  | testSymbol | testCnt | testReadQueue =>
    simp only [statement] at hStep
    split at hStep
    · cases hStep; exact .quiet hTokens rfl (Or.inl rfl) hAsserts
    · cases hStep; exact .quiet hTokens rfl (Or.inl rfl) hAsserts
  | incCnt =>
    cases hStep
    exact .quiet ⟨hTokens.readers, hTokens.total⟩ rfl (Or.inr rfl) hAsserts
  | resetSymbol | incSymbol =>
    cases hStep
    exact .quiet ⟨hTokens.readers, hTokens.total⟩ rfl (Or.inl rfl) hAsserts
  | testStop =>
    simp only [statement] at hStep
    split at hStep
    · cases hStep; exact .quiet hTokens rfl (Or.inl rfl) hAsserts
    · next hLimit =>
      cases hStep
      exact .quiet hTokens rfl (Or.inl rfl) ⟨hAsserts rfl, Int.not_lt.mp hLimit⟩
  | writeSymbol =>
    cases hStep
    exact .quiet hTokens rfl (Or.inl rfl) hAsserts
  | resetCanWrite =>
    cases hStep
    obtain rfl := hInside rfl
    refine .quiet ⟨rfl, ?_⟩ rfl (Or.inl rfl) hAsserts
    rw [hTokens.reset.1]
    rfl
  | setCanRead =>
    cases hStep
    obtain rfl := hInside rfl
    refine .give rfl rfl rfl ?_ (hAsserts rfl)
    show 1 + sh.canWrite.toNat = 1
    rw [hTokens.reset.2]
    rfl
  | setCanWrite =>
    cases hStep
    obtain rfl := hInside rfl
    refine .give rfl rfl rfl ?_ (hAsserts rfl)
    show sh.canRead.toNat + 1 = 1
    rw [hTokens.reset.1]
    rfl
  | leaveLoop =>
    obtain ⟨hNone, hLimit⟩ := hAsserts
    simp only [statement] at hStep
    split at hStep
    · next hBelow => exact absurd hBelow (Int.not_lt.mpr hLimit)
    · cases hStep
      exact .quiet hTokens rfl (Or.inl rfl) fun _ => hNone
  | leftInside | finished => cases hStep

/-! ## Whole runs -/

variable {τ : Type} [Fintype τ]

/-- There is one token, and its holder has the data behind it to itself. -/
def Inv (c : Conf τ Shared Pc) : Prop :=
  ∃ l, Tokens c.shared l ∧ Guarded Pc.role Asserts AtRest l (dataOf c.shared) c.procs

theorem inv_init (writes : τ → Bool) : Inv (init writes) := by
  have hOut (t : τ) : ((init writes).procs t).role = .out := by
    simp only [init]
    split
    · rfl
    · rfl
  exact ⟨⟨0, 0⟩, ⟨rfl, rfl⟩, owned_init hOut, fun t => asserts_out _ _ (hOut t), fun _ => rfl⟩

theorem Inv.alone {c : Conf τ Shared Pc} (hInv : Inv c) {t u : τ}
    (ht : (c.procs t).role = .writing) (hu : (c.procs u).role = .writing) : t = u := by
  obtain ⟨l, -, hGuarded⟩ := hInv
  by_contra hne
  have hOut := hGuarded.owned.alone ht hne
  rw [hu] at hOut
  cases hOut

variable [DecidableEq τ]

theorem Inv.step {c : Conf τ Shared Pc} {t : τ} {sh : Shared} {pc : Pc} {es : List Event}
    (hInv : Inv c) (hStep : statement c.shared (c.procs t) () = some (sh, pc, es)) :
    Inv ⟨sh, Function.update c.procs t pc⟩ := by
  obtain ⟨l, hTokens, hGuarded⟩ := hInv
  have hInside : (c.procs t).role = .writing → l = ⟨0, 1⟩ := fun hWriting =>
    hTokens.occupied (hGuarded.owned.one_le_writers hWriting)
  obtain ⟨l', hTokens', hAdvance⟩ :=
    statement_follows hTokens hInside (hGuarded.asserted t) hGuarded.rest hStep
  exact ⟨l', hTokens', hGuarded.advance asserts_out hAdvance⟩

theorem execute_inv (writes : τ → Bool) (sched : List (τ × Unit)) :
    Inv (execute writes sched).1 := by
  refine pool_invariant (P := fun c _ => Inv c) (inv_init writes) ?_ sched
  intro c h t i sh pc es hInv hStep
  exact hInv.step hStep

/-- In every reachable state at most one writer is in its section, and no reader is in its
section while a writer is. -/
theorem writers_exclusive (writes : τ → Bool) (sched : List (τ × Unit)) :
    let c := (execute writes sched).1
    (∀ t u, (c.procs t).inWrite = true → (c.procs u).inWrite = true → t = u) ∧
      ∀ t u, (c.procs t).inWrite = true → (c.procs u).inRead = false := by
  intro c
  have hInv : Inv c := execute_inv writes sched
  refine ⟨fun t u ht hu => hInv.alone (role_of_inWrite ht) (role_of_inWrite hu), ?_⟩
  intro t u ht
  rw [← Bool.not_eq_true]
  intro hu
  have hHolds := role_of_holdsAsReader (holdsAsReader_of_inRead hu)
  obtain rfl := hInv.alone (role_of_inWrite ht) hHolds
  rw [inWrite_of_holdsAsReader (holdsAsReader_of_inRead hu)] at ht
  cases ht

end OsLabs.Sem05.WinReaderWriter
