import OsLabs.Runs.Pool
import OsLabs.SocketPair.Streams

/-!
# One child after the other (`lab_01/main.c`)

The parent forks a child, reads, answers with its whole buffer, and only then forks the next
child. A child takes no more than three bytes of the reply. What is left of it is in front of
all later replies, so only the child that reads first gets the beginning of a reply at all.

No process closes an end of the pair, so nobody sees the end of a stream, and there is always
somebody to write to. The calls of `fork` succeed. The messages that are printed are not
modelled.
-/

namespace OsLabs.SocketPair.Main

open Memory Runs

abbrev BUF_SIZE : Nat := 1024

/-- The bytes that a child sends, up to the zero that closes them. -/
def message (c : Child) : List UInt8 :=
  let texts : List String := ["aaaaa", "bbb", "cccc"]
  (texts.getD c.val "").toList.map Char.toUInt8 ++ [0]

def len (c : Child) : Nat := (message c).length

inductive ParentPc where
  | fork (i : Fin 3)
  | read (i : Fin 3)
  | write (i : Fin 3)
  | wait (i : Fin 3)
  | exited
deriving DecidableEq

inductive ChildPc where
  | unborn
  | write
  | read
  | exited
deriving DecidableEq

/-- `buf` is the array of the parent, `up` leads to it and `down` to the children. -/
structure State where
  parent : ParentPc
  buf : Object BUF_SIZE
  child : Child → ChildPc
  up : Stream
  down : Stream

def State.init (buf : Object BUF_SIZE) : State :=
  ⟨.fork 0, buf, fun _ => .unborn, .empty, .empty⟩

/-- A process makes its next statement. The number is that of the bytes that a `read`
returns. -/
inductive Action where
  | parent (n : Nat)
  | child (c : Child) (n : Nat)
deriving DecidableEq

def parentStep (s : State) (n : Nat) : Option (State × List Event) :=
  match s.parent with
  | .fork i => some ({ s with parent := .read i, child := Function.update s.child i .write }, [])
  | .read i =>
    if s.up.Readable BUF_SIZE n then
      let data := s.up.queue.take n
      some ({ s with parent := .write i, buf := recvInto s.buf data, up := s.up.take n },
        [.took i s.up.read data])
    else none
  | .write i =>
    let buf := strcat s.buf OK
    some ({ s with
      parent := nextRound i .fork (.wait 0)
      buf := buf
      down := s.down.write (bytes buf) }, [.replied i s.down.written])
  | .wait i =>
    if i.val < count (· = .exited) s.child then
      some ({ s with parent := nextRound i .wait .exited }, [])
    else none
  | .exited => none

def childStep (s : State) (c : Child) (n : Nat) : Option (State × List Event) :=
  match s.child c with
  | .unborn => none
  | .write =>
    some ({ s with child := Function.update s.child c .read, up := s.up.write (message c) },
      [.sent c s.up.written])
  | .read =>
    if s.down.Readable 3 n then
      some ({ s with child := Function.update s.child c .exited, down := s.down.take n },
        [.got c s.down.read (s.down.queue.take n)])
    else none
  | .exited => none

def step (s : State) : Action → Option (State × List Event)
  | .parent n => parentStep s n
  | .child c n => childStep s c n

/-- All processes have ended. -/
def State.Completed (s : State) : Prop := s.parent = .exited ∧ ∀ c, s.child c = .exited

instance (s : State) : Decidable s.Completed :=
  inferInstanceAs (Decidable (s.parent = .exited ∧ ∀ c, s.child c = .exited))

/-- A process waits for bytes, and every continuation leaves it waiting. -/
def Wedged (s : State) : Prop :=
  (∃ i, s.parent = .read i ∧ ∀ sched, (run step s sched).1.parent = .read i) ∨
    ∃ c, s.child c = .read ∧ ∀ sched, (run step s sched).1.child c = .read

/-! ## Steps -/

/-- What a step can be. -/
inductive Moves (s : State) : State → List Event → Prop where
  | fork (i : Fin 3) (h : s.parent = .fork i) :
      Moves s { s with parent := .read i, child := Function.update s.child i .write } []
  | take (i : Fin 3) (n : Nat) (h : s.parent = .read i) (hn : s.up.Readable BUF_SIZE n) :
      Moves s
        { s with
          parent := .write i, buf := recvInto s.buf (s.up.queue.take n), up := s.up.take n }
        [.took i s.up.read (s.up.queue.take n)]
  | reply (i : Fin 3) (h : s.parent = .write i) :
      Moves s
        { s with
          parent := nextRound i .fork (.wait 0)
          buf := strcat s.buf OK
          down := s.down.write (bytes (strcat s.buf OK)) }
        [.replied i s.down.written]
  | wait (i : Fin 3) (h : s.parent = .wait i) :
      Moves s { s with parent := nextRound i .wait .exited } []
  | send (c : Child) (h : s.child c = .write) :
      Moves s
        { s with child := Function.update s.child c .read, up := s.up.write (message c) }
        [.sent c s.up.written]
  | get (c : Child) (n : Nat) (h : s.child c = .read) (hn : s.down.Readable 3 n) :
      Moves s { s with child := Function.update s.child c .exited, down := s.down.take n }
        [.got c s.down.read (s.down.queue.take n)]

theorem moves_of_step {s s' : State} {a : Action} {es : List Event}
    (h : step s a = some (s', es)) : Moves s s' es := by
  cases a with
  | parent n =>
    simp only [step, parentStep] at h
    split at h
    · next i hPc =>
      cases h
      exact .fork i hPc
    · next i hPc =>
      split at h
      · next hn =>
        cases h
        exact .take i n hPc hn
      · cases h
    · next i hPc =>
      cases h
      exact .reply i hPc
    · next i hPc =>
      split at h
      · cases h
        exact .wait i hPc
      · cases h
    · cases h
  | child c n =>
    simp only [step, childStep] at h
    split at h
    · cases h
    · next hPc =>
      cases h
      exact .send c hPc
    · next hPc =>
      split at h
      · next hn =>
        cases h
        exact .get c n hPc hn
      · cases h
    · cases h

/-! ## What the children read -/

/-- The number of children that have been forked. -/
def ParentPc.forked : ParentPc → Nat
  | .fork i => i.val
  | .read i | .write i => i.val + 1
  | .wait _ | .exited => 3

/-- The number of replies that have been sent. -/
def ParentPc.replied : ParentPc → Nat
  | .fork i | .read i | .write i => i.val
  | .wait _ | .exited => 3

theorem forked_nextRound (i : Fin 3) :
    (nextRound i ParentPc.fork (.wait 0)).forked = i.val + 1 := by
  unfold nextRound
  split
  · rfl
  · simp only [ParentPc.forked]
    omega

theorem replied_nextRound (i : Fin 3) :
    (nextRound i ParentPc.fork (.wait 0)).replied = i.val + 1 := by
  unfold nextRound
  split
  · rfl
  · simp only [ParentPc.replied]
    omega

theorem nextRound_ne_read (i j : Fin 3) {again : Fin 3 → ParentPc} {after : ParentPc}
    (hAgain : ∀ k, again k ≠ .read j) (hAfter : after ≠ .read j) :
    nextRound i again after ≠ .read j := by
  unfold nextRound
  split
  · exact hAgain _
  · exact hAfter

/-- The replies begin at multiples of their size, the children read before all but the first
of them, and only one child reads from the beginning. -/
structure Log (read : Nat) (h : List Event) : Prop where
  replied : ∀ k pos, .replied k pos ∈ h → BUF_SIZE ∣ pos
  got : ∀ c pos data, .got c pos data ∈ h → pos < BUF_SIZE ∧ pos < read
  first : ∀ c c' data data', .got c 0 data ∈ h → .got c' 0 data' ∈ h → c = c'

theorem Log.took {read : Nat} {h : List Event} (hLog : Log read h) (k pos : Nat)
    (data : List UInt8) : Log read (h ++ [.took k pos data]) := by
  obtain ⟨hReplied, hGot, hFirst⟩ := hLog
  refine ⟨?_, ?_, ?_⟩
  · simpa using hReplied
  · simpa using hGot
  · simpa using hFirst

theorem Log.sent {read : Nat} {h : List Event} (hLog : Log read h) (c : Child) (pos : Nat) :
    Log read (h ++ [.sent c pos]) := by
  obtain ⟨hReplied, hGot, hFirst⟩ := hLog
  refine ⟨?_, ?_, ?_⟩
  · simpa using hReplied
  · simpa using hGot
  · simpa using hFirst

theorem Log.reply {read : Nat} {h : List Event} (hLog : Log read h) (k : Nat) {pos : Nat}
    (hPos : BUF_SIZE ∣ pos) : Log read (h ++ [.replied k pos]) := by
  obtain ⟨hReplied, hGot, hFirst⟩ := hLog
  refine ⟨?_, ?_, ?_⟩
  · intro k' pos' hMem
    rcases List.mem_append.mp hMem with hOld | hNew
    · exact hReplied k' pos' hOld
    · cases List.mem_singleton.mp hNew
      exact hPos
  · simpa using hGot
  · simpa using hFirst

theorem Log.get {read n : Nat} {h : List Event} (hLog : Log read h) (c : Child)
    (data : List UInt8) (hRead : read < BUF_SIZE) (hn : 0 < n) :
    Log (read + n) (h ++ [.got c read data]) := by
  obtain ⟨hReplied, hGot, hFirst⟩ := hLog
  refine ⟨by simpa using hReplied, ?_, ?_⟩
  · intro c' pos data' hMem
    rcases List.mem_append.mp hMem with hOld | hNew
    · have hOld' := hGot c' pos data' hOld
      omega
    · cases List.mem_singleton.mp hNew
      omega
  · intro c₁ c₂ data₁ data₂ hMem₁ hMem₂
    simp only [List.mem_append, List.mem_singleton, Event.got.injEq] at hMem₁ hMem₂
    rcases hMem₁ with hOld₁ | ⟨rfl, rfl, -⟩
    · rcases hMem₂ with hOld₂ | ⟨rfl, rfl, -⟩
      · exact hFirst c₁ c₂ data₁ data₂ hOld₁ hOld₂
      · have hNone := (hGot c₁ 0 data₁ hOld₁).2
        omega
    · rcases hMem₂ with hOld₂ | ⟨rfl, -, -⟩
      · have hNone := (hGot c₂ 0 data₂ hOld₂).2
        omega
      · rfl

structure Inv (s : State) (h : List Event) : Prop where
  born : ∀ c, s.child c = .unborn ↔ s.parent.forked ≤ c.val
  up : ∀ i, s.parent = .read i →
    s.up.read + (if s.child i = .write then 0 else len i) ≤ s.up.written
  down : s.down.written = BUF_SIZE * s.parent.replied
  few : s.down.read ≤ 3 * count (· = .exited) s.child
  log : Log s.down.read h
  exited : ∀ c, s.child c = .exited → ∃ pos data, .got c pos data ∈ h

theorem inv_init (buf : Object BUF_SIZE) : Inv (.init buf) [] where
  born _ := ⟨fun _ => Nat.zero_le _, fun _ => rfl⟩
  up _ h := nomatch h
  down := rfl
  few := Nat.zero_le _
  log := ⟨fun _ _ h => (nomatch h), fun _ _ _ h => (nomatch h), fun _ _ _ _ h => (nomatch h)⟩
  exited _ h := nomatch h

theorem count_exited_le (child : Child → ChildPc) : count (· = .exited) child ≤ 3 :=
  Finset.card_le_univ _

theorem count_of_ne {child : Child → ChildPc} {c : Child} {pc : ChildPc} (hOld : child c ≠ .exited)
    (hNew : pc ≠ .exited) :
    count (· = .exited) (Function.update child c pc) = count (· = .exited) child := by
  have hCount := count_update (· = ChildPc.exited) child c pc
  rwa [if_neg hOld, if_neg hNew] at hCount

theorem count_exit {child : Child → ChildPc} {c : Child} (hOld : child c ≠ .exited) :
    count (· = .exited) (Function.update child c .exited) = count (· = .exited) child + 1 := by
  have hCount := count_update (· = ChildPc.exited) child c .exited
  rwa [if_neg hOld, if_pos rfl] at hCount

/-- The children that have exited are the same ones. -/
theorem exited_update {child : Child → ChildPc} {c : Child} {pc : ChildPc} (hNew : pc ≠ .exited)
    {h : List Event} (hExited : ∀ c, child c = .exited → ∃ pos data, .got c pos data ∈ h)
    (es : List Event) :
    ∀ c', Function.update child c pc c' = .exited → ∃ pos data, .got c' pos data ∈ h ++ es := by
  intro c' hc'
  by_cases hSame : c' = c
  · subst hSame
    rw [Function.update_self] at hc'
    exact absurd hc' hNew
  · rw [Function.update_of_ne hSame] at hc'
    obtain ⟨pos, data, hMem⟩ := hExited c' hc'
    exact ⟨pos, data, List.mem_append_left es hMem⟩

theorem born_update {child : Child → ChildPc} {c : Child} {pc : ChildPc} {n : Nat}
    (hBorn : ∀ c, child c = .unborn ↔ n ≤ c.val) (hOld : child c ≠ .unborn) (hNew : pc ≠ .unborn)
    (c' : Child) : Function.update child c pc c' = .unborn ↔ n ≤ c'.val := by
  by_cases hSame : c' = c
  · subst hSame
    rw [Function.update_self, ← hBorn]
    exact iff_of_false hNew hOld
  · rw [Function.update_of_ne hSame, hBorn]

theorem Inv.fork {s : State} {h : List Event} (hInv : Inv s h) {i : Fin 3}
    (hPc : s.parent = .fork i) :
    Inv { s with parent := .read i, child := Function.update s.child i .write } h := by
  have hUnborn : s.child i = .unborn := by
    rw [hInv.born, hPc]
    exact Nat.le_refl _
  have hDown := hInv.down
  rw [hPc] at hDown
  refine ⟨?_, ?_, hDown, ?_, hInv.log, ?_⟩
  · intro c
    have hBorn := hInv.born c
    rw [hPc] at hBorn
    simp only [ParentPc.forked] at hBorn ⊢
    by_cases hc : c = i
    · subst hc
      simp
    · have hNe : c.val ≠ i.val := fun hVal => hc (Fin.ext hVal)
      rw [Function.update_of_ne hc, hBorn]
      omega
  · rintro j ⟨⟩
    show s.up.read + (if Function.update s.child i .write i = .write then 0 else len i) ≤ _
    rw [Function.update_self, if_pos rfl]
    exact Nat.le_add_right _ _
  · rw [count_of_ne (by rw [hUnborn]; simp) (by simp)]
    exact hInv.few
  · intro c hc
    obtain ⟨pos, data, hMem⟩ := exited_update (by simp) hInv.exited [] c hc
    exact ⟨pos, data, by rwa [List.append_nil] at hMem⟩

theorem Inv.take {s : State} {h : List Event} (hInv : Inv s h) {i : Fin 3} {n : Nat}
    (hPc : s.parent = .read i) (buf : Object BUF_SIZE) (data : List UInt8) :
    Inv { s with parent := .write i, buf := buf, up := s.up.take n }
      (h ++ [.took i s.up.read data]) := by
  have hDown := hInv.down
  have hBorn := hInv.born
  rw [hPc] at hDown hBorn
  refine ⟨hBorn, fun _ h => (nomatch h), hDown, hInv.few, hInv.log.took .., ?_⟩
  intro c hc
  obtain ⟨pos, data, hMem⟩ := hInv.exited c hc
  exact ⟨pos, data, List.mem_append_left _ hMem⟩

theorem Inv.reply {s : State} {h : List Event} (hInv : Inv s h) {i : Fin 3}
    (hPc : s.parent = .write i) (buf : Object BUF_SIZE) :
    Inv
      { s with
        parent := nextRound i .fork (.wait 0), buf := buf, down := s.down.write (bytes buf) }
      (h ++ [.replied i s.down.written]) := by
  have hDown := hInv.down
  have hBorn := hInv.born
  rw [hPc] at hDown hBorn
  refine ⟨?_, ?_, ?_, hInv.few, hInv.log.reply i ⟨_, hDown⟩, ?_⟩
  · simp only [forked_nextRound]
    exact hBorn
  · intro j hj
    exact absurd hj (nextRound_ne_read i j (by simp) (by simp))
  · rw [Stream.written_write, hDown, length_bytes, replied_nextRound]
    rfl
  · intro c hc
    obtain ⟨pos, data, hMem⟩ := hInv.exited c hc
    exact ⟨pos, data, List.mem_append_left _ hMem⟩

theorem Inv.wait {s : State} {h : List Event} (hInv : Inv s h) {i : Fin 3}
    (hPc : s.parent = .wait i) : Inv { s with parent := nextRound i .wait .exited } h := by
  have hForked : (nextRound i ParentPc.wait .exited).forked = s.parent.forked := by
    rw [hPc, nextRound]
    split
    · rfl
    · rfl
  have hReplied : (nextRound i ParentPc.wait .exited).replied = s.parent.replied := by
    rw [hPc, nextRound]
    split
    · rfl
    · rfl
  refine ⟨?_, ?_, ?_, hInv.few, hInv.log, hInv.exited⟩
  · simp only [hForked]
    exact hInv.born
  · intro j hj
    exact absurd hj (nextRound_ne_read i j (by simp) (by simp))
  · rw [hReplied]
    exact hInv.down

theorem Inv.send {s : State} {h : List Event} (hInv : Inv s h) {c : Child}
    (hPc : s.child c = .write) :
    Inv { s with child := Function.update s.child c .read, up := s.up.write (message c) }
      (h ++ [.sent c s.up.written]) := by
  refine ⟨?_, ?_, hInv.down, ?_, hInv.log.sent .., exited_update (by simp) hInv.exited _⟩
  · exact born_update hInv.born (by rw [hPc]; simp) (by simp)
  · intro i hi
    have hUp := hInv.up i hi
    rw [Stream.read_write, Stream.written_write]
    by_cases hc : i = c
    · subst hc
      rw [hPc, if_pos rfl] at hUp
      simp only [Function.update_self, reduceCtorEq, if_false, len]
      omega
    · simp only [Function.update_of_ne hc]
      omega
  · rw [count_of_ne (by rw [hPc]; simp) (by simp)]
    exact hInv.few

theorem Inv.get {s : State} {h : List Event} (hInv : Inv s h) {c : Child} {n : Nat}
    (hPc : s.child c = .read) (hn : s.down.Readable 3 n) (data : List UInt8) :
    Inv { s with child := Function.update s.child c .exited, down := s.down.take n }
      (h ++ [.got c s.down.read data]) := by
  have hNot : s.child c ≠ .exited := by rw [hPc]; simp
  have hCount := count_exit hNot
  have hLe := count_exited_le (Function.update s.child c .exited)
  have hFew := hInv.few
  have hSize := hn.2.1
  refine ⟨?_, ?_, ?_, ?_, ?_, ?_⟩
  · exact born_update hInv.born (by rw [hPc]; simp) (by simp)
  · intro i hi
    have hUp := hInv.up i hi
    by_cases hc : i = c
    · subst hc
      rw [hPc] at hUp
      simpa using hUp
    · simpa only [Function.update_of_ne hc] using hUp
  · rw [Stream.written_take hn]
    exact hInv.down
  · rw [hCount, Stream.read_take]
    omega
  · exact hInv.log.get c data (by dsimp only [BUF_SIZE]; omega) hn.1
  · intro c' hc'
    by_cases hSame : c' = c
    · subst hSame
      exact ⟨_, data, List.mem_append_right _ (List.mem_singleton_self _)⟩
    · simp only [Function.update_of_ne hSame] at hc'
      obtain ⟨pos, data', hMem⟩ := hInv.exited c' hc'
      exact ⟨pos, data', List.mem_append_left _ hMem⟩

theorem Inv.step {s s' : State} {h es : List Event} (hInv : Inv s h) (hMoves : Moves s s' es) :
    Inv s' (h ++ es) := by
  cases hMoves with
  | fork i hPc => simpa using hInv.fork hPc
  | take i n hPc hn => exact hInv.take hPc _ _
  | reply i hPc => exact hInv.reply hPc _
  | wait i hPc => simpa using hInv.wait hPc
  | send c hPc => exact hInv.send hPc
  | get c n hPc hn => exact hInv.get hPc hn _

theorem run_inv (buf : Object BUF_SIZE) (sched : List Action) :
    Inv (run step (.init buf) sched).1 (run step (.init buf) sched).2 := by
  refine run_invariant (inv_init buf) ?_ sched
  intro s h a s' es hInv hEnabled
  exact hInv.step (moves_of_step hEnabled)

/-- Two children would have to read from the beginning. -/
theorem Inv.not_paired {s : State} {h : List Event} (hInv : Inv s h) (hEnd : s.Completed) :
    ¬ Paired len h := by
  intro hPaired
  have hFirst : ∀ c, ∃ data, .got c 0 data ∈ h := by
    intro c
    obtain ⟨pos, data, hMem⟩ := hInv.exited c (hEnd.2 c)
    obtain ⟨-, k, start, taken, -, -, -, hReplied⟩ := hPaired c pos data hMem
    have hPos := (hInv.log.got c pos data hMem).1
    obtain ⟨m, rfl⟩ := hInv.log.replied k pos hReplied
    obtain rfl : m = 0 := by
      dsimp only [BUF_SIZE] at hPos
      omega
    exact ⟨data, hMem⟩
  obtain ⟨data₀, h₀⟩ := hFirst 0
  obtain ⟨data₁, h₁⟩ := hFirst 1
  have hSame := hInv.log.first 0 1 data₀ data₁ h₀ h₁
  simp at hSame

/-! ## Everybody gets something -/

theorem len_pos (c : Child) : 0 < len c := by
  simp [len, message]

theorem leads_take {s : State} {i : Fin 3} (hPc : s.parent = .read i)
    (hQueued : s.up.read < s.up.written) :
    ∃ s', Leads step s s' ∧ s'.parent = .write i ∧ s'.child = s.child := by
  have hReadable : s.up.Readable BUF_SIZE 1 := Stream.readable_one (by simp) hQueued
  have hStep : step s (.parent 1) = some
      ({ s with
        parent := .write i, buf := recvInto s.buf (s.up.queue.take 1), up := s.up.take 1 },
        [.took i s.up.read (s.up.queue.take 1)]) := by
    simp only [step, parentStep, hPc, if_pos hReadable]
  exact ⟨_, leads_of_step hStep, rfl, rfl⟩

theorem leads_send {s : State} {c : Child} (hPc : s.child c = .write) :
    ∃ s', Leads step s s' ∧ s'.parent = s.parent ∧ s'.up.read < s'.up.written ∧
      ∀ c', s.child c' = .read → s'.child c' = .read := by
  have hStep : step s (.child c 0) = some
      ({ s with child := Function.update s.child c .read, up := s.up.write (message c) },
        [.sent c s.up.written]) := by
    simp only [step, childStep, hPc]
  refine ⟨_, leads_of_step hStep, rfl, ?_, ?_⟩
  · have hLen := len_pos c
    rw [len] at hLen
    rw [Stream.read_write, Stream.written_write, Stream.written]
    omega
  · intro c' hc'
    show Function.update s.child c .read c' = .read
    by_cases hSelf : c' = c
    · rw [hSelf, Function.update_self]
    · rwa [Function.update_of_ne hSelf]

theorem leads_get {s : State} {c : Child} (hPc : s.child c = .read)
    (hQueued : s.down.read < s.down.written) :
    ∃ s', Leads step s s' ∧ s'.child c = .exited := by
  have hReadable : s.down.Readable 3 1 := Stream.readable_one (by simp) hQueued
  have hStep : step s (.child c 1) = some
      ({ s with child := Function.update s.child c .exited, down := s.down.take 1 },
        [.got c s.down.read (s.down.queue.take 1)]) := by
    simp only [step, childStep, hPc, if_pos hReadable]
  exact ⟨_, leads_of_step hStep, Function.update_self ..⟩

theorem leads_reply {s : State} {i : Fin 3} (hPc : s.parent = .write i) :
    ∃ s', Leads step s s' ∧ s'.down.read < s'.down.written ∧ s'.child = s.child := by
  have hStep : step s (.parent 0) = some
      ({ s with
        parent := nextRound i .fork (.wait 0)
        buf := strcat s.buf OK
        down := s.down.write (bytes (strcat s.buf OK)) }, [.replied i s.down.written]) := by
    simp only [step, parentStep, hPc]
  refine ⟨_, leads_of_step hStep, ?_, rfl⟩
  rw [Stream.read_write, Stream.written_write, length_bytes, Stream.written]
  dsimp only [BUF_SIZE]
  omega

/-- The parent gets the message of the last child, if nothing else. -/
theorem Inv.parent_reads {s : State} {h : List Event} (hInv : Inv s h) {i : Fin 3}
    (hPc : s.parent = .read i) :
    ∃ s', Leads Main.step s s' ∧ s'.parent = .write i ∧
      ∀ c, s.child c = .read → s'.child c = .read := by
  have hUp := hInv.up i hPc
  have hLen := len_pos i
  by_cases hChild : s.child i = .write
  · -- The child has still to write.
    obtain ⟨s₁, hLeads, hParent, hQueued, hKept⟩ := leads_send hChild
    obtain ⟨s₂, hLeads', hWrite, hSame⟩ := leads_take (hParent.trans hPc) hQueued
    refine ⟨s₂, hLeads.trans hLeads', hWrite, ?_⟩
    rw [hSame]
    exact hKept
  · rw [if_neg hChild] at hUp
    obtain ⟨s', hLeads, hWrite, hSame⟩ := leads_take hPc (by omega)
    refine ⟨s', hLeads, hWrite, ?_⟩
    rw [hSame]
    exact fun c hc => hc

/-- There is something for the children from the first reply on. -/
theorem Inv.child_reads {s : State} {h : List Event} (hInv : Inv s h) {c : Child}
    (hPc : s.child c = .read) : ∃ s', Leads Main.step s s' ∧ s'.child c = .exited := by
  by_cases hQueued : s.down.read < s.down.written
  · exact leads_get hPc hQueued
  · have hDown := hInv.down
    have hFew := hInv.few
    have hCount := count_exited_le s.child
    have hNone : s.parent.replied = 0 := by
      dsimp only [BUF_SIZE] at hDown
      omega
    have hWrite : ∃ s' i, Leads Main.step s s' ∧ s'.parent = .write i ∧ s'.child c = .read := by
      cases hParent : s.parent with
      | fork i =>
        have hBorn := (hInv.born c).mpr
        rw [hParent] at hBorn hNone
        rw [hPc] at hBorn
        simp only [ParentPc.replied, ParentPc.forked] at hNone hBorn
        exact absurd (hBorn (by omega)) (by simp)
      | read i =>
        obtain ⟨s', hLeads, hWrite, hSame⟩ := hInv.parent_reads hParent
        exact ⟨s', i, hLeads, hWrite, hSame c hPc⟩
      | write i => exact ⟨s, i, .refl _ s, hParent, hPc⟩
      | wait i =>
        rw [hParent] at hNone
        cases hNone
      | exited =>
        rw [hParent] at hNone
        cases hNone
    obtain ⟨s₁, i, hLeads, hParent, hChild⟩ := hWrite
    obtain ⟨s₂, hLeads', hQueued', hSame⟩ := leads_reply hParent
    obtain ⟨s₃, hLeads'', hExited⟩ := leads_get (by rw [hSame]; exact hChild) hQueued'
    exact ⟨s₃, (hLeads.trans hLeads').trans hLeads'', hExited⟩

theorem Inv.not_wedged {s : State} {h : List Event} (hInv : Inv s h) : ¬ Wedged s := by
  rintro (⟨i, hPc, hEver⟩ | ⟨c, hPc, hEver⟩)
  · obtain ⟨s', ⟨sched, rfl⟩, hWrite, -⟩ := hInv.parent_reads hPc
    rw [hEver sched] at hWrite
    cases hWrite
  · obtain ⟨s', ⟨sched, rfl⟩, hExited⟩ := hInv.child_reads hPc
    rw [hEver sched] at hExited
    cases hExited

end OsLabs.SocketPair.Main
