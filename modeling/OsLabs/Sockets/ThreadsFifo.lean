import OsLabs.RingBuffer.Window
import OsLabs.SysV.Slots
import OsLabs.Sockets.ServerThreads

/-!
# The ring of the threaded server is a FIFO queue

A worker between a `start` and its `stop` has the ring to itself. `Stage` gives the
indices and `SEM_FULL` after the accesses made so far: `tail` and `head` are the numbers
of stores and reads modulo `ARR_SIZE`, and `SEM_FULL` counts the letters stored and not
read, each late by what the worker inside has still to do. `Asserts` says which stage each
statement starts from, and `processClient_follows` follows one statement.
-/

namespace OsLabs.Sockets.ServerThreads

open Memory Runs SysV RingBuffer RwLock

def access : Event → Option (Access UInt8)
  | .put slot c => some (.put slot c)
  | .got slot c => some (.got slot c)
  | _ => none

variable {τ : Type}

/-- The accesses to the ring in a history, in order. -/
def accesses (h : List (τ × Event)) : List (Access UInt8) := h.filterMap fun e => access e.2

theorem accesses_append (h : List (τ × Event)) (t : τ) (es : List Event) :
    accesses (h ++ es.map (Prod.mk t)) = accesses h ++ es.filterMap access := by
  simp only [accesses, List.filterMap_append, List.filterMap_map]
  rfl

/-! ## The ring behind the mutex -/

/-- Every worker between a `start` and its `stop` has the lock to itself. -/
def Worker.role (w : Worker) : Role :=
  match w.pc with
  | .putRing | .putTail | .putStatus | .putPrint | .stopProduce _ => .writing
  | .getRing | .getHead | .getPrint | .stopConsume _ => .writing
  | _ => .out

/-- The semaphore set stands for the lock `l`. -/
abbrev Locked (sems : SemSet Sem) (l : Lock) : Prop := Slots .empty .full .mutex ARR_SIZE sems l

/-- The ring with its indices, the value of `SEM_FULL`, and the accesses so far. -/
structure Data where
  ring : Nat → UInt8
  head : Nat
  tail : Nat
  full : Nat
  acc : List (Access UInt8)

def dataOf (sh : Shared) (acc : List (Access UInt8)) : Data :=
  ⟨sh.ring, sh.head, sh.tail, sh.sems .full, acc⟩

def Data.stores (d : Data) : Nat := (puts d.acc).length
def Data.reads (d : Data) : Nat := (gots d.acc).length

/-- The indices have counted `stored` stores and `read` reads, and `SEM_FULL` the letters
stored without the first `taken`. -/
structure Stage (d : Data) (stored read taken : Nat) : Prop where
  tail : d.tail = stored % ARR_SIZE
  head : d.head = read % ARR_SIZE
  full : d.full + taken = d.stores
  window : Window ARR_SIZE d.ring (puts d.acc) d.reads

def AtRest (d : Data) : Prop := Stage d d.stores d.reads d.reads

def Asserts (d : Data) (w : Worker) : Prop :=
  match w.pc with
  | .putRing => AtRest d
  | .putTail => ∃ k, d.stores = k + 1 ∧ Stage d k d.reads (d.reads + 1)
  | .putStatus | .putPrint | .stopProduce _ => Stage d d.stores d.reads (d.reads + 1)
  | .getRing => Stage d d.stores d.reads (d.reads + 1)
  | .getHead => ∃ k, d.reads = k + 1 ∧ Stage d d.stores k d.reads
  | .getPrint | .stopConsume _ => AtRest d
  | _ => True

theorem asserts_out (d : Data) (w : Worker) (h : w.role = .out) : Asserts d w := by
  obtain ⟨pc, req, status⟩ := w
  cases pc with
  | recv | dispatch | startProduce asleep | sendStatus | startConsume asleep | getStatus
  | sendReq | logTime | close | finished => trivial
  | putRing | putTail | putStatus | putPrint | stopProduce asleep => cases h
  | getRing | getHead | getPrint | stopConsume asleep => cases h

/-- A letter stored into the next free cell. -/
theorem AtRest.store {sh : Shared} {acc : List (Access UInt8)} (h : AtRest (dataOf sh acc))
    (hRoom : (puts acc).length < (gots acc).length + ARR_SIZE) (c : UInt8) :
    Stage (dataOf { sh with ring := Function.update sh.ring sh.tail c } (acc ++ [.put sh.tail c]))
      (puts acc).length (gots acc).length ((gots acc).length + 1) := by
  have hTail : sh.tail = (puts acc).length % ARR_SIZE := h.tail
  have hFull : sh.sems .full + (gots acc).length = (puts acc).length := h.full
  have hWindow : Window ARR_SIZE sh.ring (puts acc) (gots acc).length := h.window
  refine ⟨h.tail, h.head, ?_, ?_⟩
  · show sh.sems .full + _ = (puts (acc ++ [.put sh.tail c])).length
    simp
    omega
  · show Window ARR_SIZE (Function.update sh.ring sh.tail c) (puts (acc ++ [.put sh.tail c]))
      (gots (acc ++ [.put sh.tail c])).length
    simpa [hTail] using hWindow.put hRoom c

/-- The oldest letter read. -/
theorem Stage.read {sh : Shared} {acc : List (Access UInt8)}
    (h : Stage (dataOf sh acc) (puts acc).length (gots acc).length ((gots acc).length + 1))
    (hSome : (gots acc).length < (puts acc).length) (c : UInt8) :
    Stage (dataOf sh (acc ++ [.got sh.head c])) (puts acc).length (gots acc).length
      ((gots acc).length + 1) := by
  have hFull : sh.sems .full + ((gots acc).length + 1) = (puts acc).length := h.full
  have hWindow : Window ARR_SIZE sh.ring (puts acc) (gots acc).length := h.window
  refine ⟨h.tail, h.head, ?_, ?_⟩
  · show sh.sems .full + _ = (puts (acc ++ [.got sh.head c])).length
    simpa using hFull
  · show Window ARR_SIZE sh.ring (puts (acc ++ [.got sh.head c]))
      (gots (acc ++ [.got sh.head c])).length
    simpa using hWindow.take hSome

/-! ## One statement -/

/-- What one statement does, seen from the lock `l` and the accesses `acc` before it. -/
structure Follows (l : Lock) (acc : List (Access UInt8)) (sh : Shared) (w : Worker)
    (sh' : Shared) (w' : Worker) (es : List Event) : Prop where
  guard : ∃ l', Locked sh'.sems l' ∧ Advance Worker.role Asserts AtRest l l' (dataOf sh acc)
    (dataOf sh' (acc ++ es.filterMap access)) w w'
  inTurn : Always (fun before e => InTurn ARR_SIZE (acc ++ before) e) (es.filterMap access)

/-- A statement that neither touches the lock nor accesses the ring. -/
theorem Follows.quiet {l : Lock} {acc : List (Access UInt8)} {sh sh' : Shared} {w w' : Worker}
    {es : List Event} (hQuiet : es.filterMap access = []) (hLock : Locked sh'.sems l)
    (hRole : w'.role = w.role) (hData : dataOf sh' acc = dataOf sh acc ∨ w.role = .writing)
    (hAsserts : Asserts (dataOf sh' acc) w') : Follows l acc sh w sh' w' es := by
  have hAcc : acc ++ es.filterMap access = acc := by rw [hQuiet, List.append_nil]
  refine ⟨⟨l, hLock, .inside hRole ?_ ?_⟩, ?_⟩
  · rwa [hAcc]
  · rwa [hAcc]
  · rw [hQuiet]
    exact always_nil _

/-- A `semop` that returns. -/
theorem Follows.cross {l l' : Lock} {acc : List (Access UInt8)} {sh : Shared} {w w' : Worker}
    {vals : SemSet Sem} (hLock : Locked vals l') (hMove : Move l w.role l' w'.role)
    (hData : w.role = .writing ∨ w'.role = .writing)
    (hAsserts : Asserts (dataOf { sh with sems := vals } acc) w')
    (hRest : w.role = .writing → AtRest (dataOf { sh with sems := vals } acc)) :
    Follows l acc sh w { sh with sems := vals } w' [] := by
  have hAcc : acc ++ ([] : List Event).filterMap access = acc := List.append_nil acc
  refine ⟨⟨l', hLock, hMove, Or.inr hData, ?_, ?_⟩, always_nil _⟩
  · rwa [hAcc]
  · rw [hAcc]
    exact fun hWriting _ => hRest hWriting

theorem processClient_follows {l : Lock} {acc : List (Access UInt8)} {sh sh' : Shared}
    {w w' : Worker} {input : Recv} {es : List Event} (hLock : Locked sh.sems l)
    (hInside : w.role = .writing → l = ⟨0, 1⟩) (hAsserts : Asserts (dataOf sh acc) w)
    (hRest : l.writers = 0 → AtRest (dataOf sh acc))
    (hStep : processClient sh w input = some (sh', w', es)) :
    Follows l acc sh w sh' w' es := by
  obtain ⟨pc, req, status⟩ := w
  unfold processClient at hStep
  split at hStep
  · cases hStep
  cases pc with
  | recv =>
    cases input with
    | data msg => cases hStep; exact .quiet rfl hLock rfl (Or.inl rfl) trivial
    | closed => cases hStep; exact .quiet rfl hLock rfl (Or.inl rfl) trivial
    | error => cases hStep; exact .quiet rfl hLock rfl (Or.inl rfl) trivial
  | dispatch =>
    simp only at hStep
    split at hStep
    · cases hStep; exact .quiet rfl hLock rfl (Or.inl rfl) trivial
    · split at hStep
      · cases hStep; exact .quiet rfl hLock rfl (Or.inl rfl) trivial
      · cases hStep; exact .quiet rfl hLock rfl (Or.inl rfl) trivial
  | startProduce asleep =>
    obtain ⟨vals, hDone, ⟨⟩⟩ | ⟨-, ⟨⟩⟩ | ⟨-, ⟨⟩⟩ := attempt_cases hStep
    · obtain ⟨rfl, hLock', hFull⟩ := hLock.startProduce hDone
      have hStage := hRest rfl
      refine .cross hLock' .startWrite (Or.inr rfl) ⟨hStage.tail, hStage.head, ?_, hStage.window⟩
        nofun
      exact (congrArg (· + _) hFull).trans hStage.full
    · exact .quiet rfl hLock rfl (Or.inl rfl) trivial
    · exact .quiet rfl hLock rfl (Or.inl rfl) trivial
  | putRing =>
    cases hStep
    obtain rfl := hInside rfl
    have hStage : AtRest (dataOf sh acc) := hAsserts
    have hFull : sh.sems .full + (gots acc).length = (puts acc).length := hStage.full
    have hTotal := hLock.total
    have hRoom : (puts acc).length < (gots acc).length + ARR_SIZE := by
      dsimp only at hTotal
      omega
    refine ⟨⟨_, hLock, .inside rfl (Or.inr rfl) ⟨(puts acc).length, ?_, ?_⟩⟩, ?_⟩
    · simp [Data.stores, dataOf, access]
    · simpa [Data.reads, dataOf, access] using hStage.store hRoom req.letter
    · refine always_snoc.mpr ⟨always_nil _, ?_⟩
      rw [List.append_nil]
      exact ⟨hStage.tail, hRoom⟩
  | putTail =>
    cases hStep
    obtain ⟨k, hk, hStage⟩ := hAsserts
    refine .quiet rfl hLock rfl (Or.inr rfl) ⟨?_, hStage.head, hStage.full, hStage.window⟩
    have hTail : sh.tail = k % ARR_SIZE := hStage.tail
    show (sh.tail + 1) % ARR_SIZE = (dataOf sh acc).stores % ARR_SIZE
    rw [hTail, hk, Nat.mod_add_mod]
  | putStatus => cases hStep; exact .quiet rfl hLock rfl (Or.inl rfl) hAsserts
  | putPrint => cases hStep; exact .quiet rfl hLock rfl (Or.inl rfl) hAsserts
  | stopProduce asleep =>
    obtain rfl := hInside rfl
    have hStage : Stage (dataOf sh acc) _ _ _ := hAsserts
    obtain ⟨vals, hLeave, hLock', hFull⟩ := hLock.stopProduce (by decide)
    obtain ⟨⟩ := attempt_done hLeave hStep
    refine .cross hLock' (.stopWrite 0 0) (Or.inl rfl) trivial fun _ =>
      ⟨hStage.tail, hStage.head, ?_, hStage.window⟩
    have hOld : sh.sems .full + ((gots acc).length + 1) = (puts acc).length := hStage.full
    show vals .full + (gots acc).length = (puts acc).length
    omega
  | sendStatus => cases hStep; exact .quiet rfl hLock rfl (Or.inl rfl) trivial
  | startConsume asleep =>
    obtain ⟨vals, hDone, ⟨⟩⟩ | ⟨-, ⟨⟩⟩ | ⟨-, ⟨⟩⟩ := attempt_cases hStep
    · obtain ⟨rfl, hLock', hFull⟩ := hLock.startConsume hDone
      have hStage := hRest rfl
      refine .cross hLock' .startWrite (Or.inr rfl) ⟨hStage.tail, hStage.head, ?_, hStage.window⟩
        nofun
      have hOld : sh.sems .full + (gots acc).length = (puts acc).length := hStage.full
      show vals .full + ((gots acc).length + 1) = (puts acc).length
      omega
    · exact .quiet rfl hLock rfl (Or.inl rfl) trivial
    · exact .quiet rfl hLock rfl (Or.inl rfl) trivial
  | getRing =>
    cases hStep
    have hStage : Stage (dataOf sh acc) (puts acc).length (gots acc).length _ := hAsserts
    have hFull : sh.sems .full + ((gots acc).length + 1) = (puts acc).length := hStage.full
    have hSome : (gots acc).length < (puts acc).length := by omega
    have hHead : sh.head = (gots acc).length % ARR_SIZE := hStage.head
    refine ⟨⟨l, hLock, .inside rfl (Or.inr rfl) ⟨(gots acc).length, ?_, ?_⟩⟩, ?_⟩
    · simp [Data.reads, dataOf, access]
    · simpa [Data.stores, Data.reads, dataOf, access] using hStage.read hSome (sh.ring sh.head)
    · refine always_snoc.mpr ⟨always_nil _, ?_⟩
      rw [List.append_nil]
      refine ⟨hHead, ?_⟩
      rw [hHead]
      exact Window.get hStage.window hSome
  | getHead =>
    cases hStep
    obtain ⟨k, hk, hStage⟩ := hAsserts
    refine .quiet rfl hLock rfl (Or.inr rfl) ⟨hStage.tail, ?_, hStage.full, hStage.window⟩
    have hHead : sh.head = k % ARR_SIZE := hStage.head
    show (sh.head + 1) % ARR_SIZE = (dataOf sh acc).reads % ARR_SIZE
    rw [hHead, hk, Nat.mod_add_mod]
  | getPrint => cases hStep; exact .quiet rfl hLock rfl (Or.inl rfl) hAsserts
  | stopConsume asleep =>
    obtain rfl := hInside rfl
    have hStage : AtRest (dataOf sh acc) := hAsserts
    obtain ⟨vals, hLeave, hLock', hFull⟩ := hLock.stopConsume (by decide)
    obtain ⟨⟩ := attempt_done hLeave hStep
    refine .cross hLock' (.stopWrite 0 0) (Or.inl rfl) trivial fun _ =>
      ⟨hStage.tail, hStage.head, ?_, hStage.window⟩
    exact (congrArg (· + _) hFull).trans hStage.full
  | getStatus => cases hStep; exact .quiet rfl hLock rfl (Or.inl rfl) trivial
  | sendReq => cases hStep; exact .quiet rfl hLock rfl (Or.inl rfl) trivial
  | logTime => cases hStep; exact .quiet rfl hLock rfl (Or.inl rfl) trivial
  | close => cases hStep; exact .quiet rfl hLock rfl (Or.inl rfl) trivial
  | finished => cases hStep

/-! ## Whole runs -/

variable [Fintype τ]

/-- The semaphores stand for a lock that guards the ring, and every access was in turn. -/
def Inv (c : Conf τ Shared Worker) (acc : List (Access UInt8)) : Prop :=
  (∃ l, Locked c.shared.sems l ∧
    Guarded Worker.role Asserts AtRest l (dataOf c.shared acc) c.procs) ∧
  Paced ARR_SIZE acc

theorem inv_init (req : τ → ReqT) (status : τ → BitVec 32) : Inv (init req status) [] := by
  have hLocked : Locked initSems ⟨0, 0⟩ := ⟨by decide, rfl, rfl, rfl⟩
  refine ⟨⟨⟨0, 0⟩, hLocked, owned_init fun t => rfl, fun t => ?_, fun _ => ?_⟩, always_nil _⟩
  · exact asserts_out _ _ rfl
  · exact ⟨rfl, rfl, rfl, .empty _ _⟩

variable [DecidableEq τ]

theorem Inv.step {c : Conf τ Shared Worker} {acc : List (Access UInt8)} {t : τ} {input : Recv}
    {sh : Shared} {w : Worker} {es : List Event} (hInv : Inv c acc)
    (hStep : processClient c.shared (c.procs t) input = some (sh, w, es)) :
    Inv ⟨sh, Function.update c.procs t w⟩ (acc ++ es.filterMap access) := by
  obtain ⟨⟨l, hLock, hGuarded⟩, hPaced⟩ := hInv
  have hInside : (c.procs t).role = .writing → l = ⟨0, 1⟩ := fun hWriting =>
    hLock.occupied (hGuarded.owned.one_le_writers hWriting)
  have hFollows :=
    processClient_follows hLock hInside (hGuarded.asserted t) hGuarded.rest hStep
  obtain ⟨l', hLock', hAdvance⟩ := hFollows.guard
  exact ⟨⟨l', hLock', hGuarded.advance asserts_out hAdvance⟩,
    always_append hPaced hFollows.inTurn⟩

theorem serve_inv (req : τ → ReqT) (status : τ → BitVec 32) (sched : List (τ × Recv)) :
    Inv (serve req status sched).1 (accesses (serve req status sched).2) := by
  refine pool_invariant (P := fun c h => Inv c (accesses h)) (inv_init req status) ?_ sched
  intro c h t input sh w es hInv hStep
  rw [accesses_append]
  exact hInv.step hStep

/-- In every run the letters read from the ring are a prefix of the letters stored, and no
cell is overwritten before its letter has been read. -/
theorem threads_fifo (req : τ → ReqT) (status : τ → BitVec 32) (sched : List (τ × Recv)) :
    gots (accesses (serve req status sched).2) <+: puts (accesses (serve req status sched).2) ∧
      ReadBeforeOverwrite (accesses (serve req status sched).2) :=
  ⟨(serve_inv req status sched).2.fifo, (serve_inv req status sched).2.readBeforeOverwrite⟩

end OsLabs.Sockets.ServerThreads
