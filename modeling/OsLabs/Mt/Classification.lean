import OsLabs.Mt.Linearizable

/-!
# What becomes of a reservation

The branch of `process_client` that is taken when the first test fails reads `arr[index]`
again, whether `index` is inside the table or not. So a request whose byte is the number
of a cell is answered as it should be, and every other one reads behind the table: what is
found there decides between `ERROR` and `ALREADLY_RESERVED`.

A request is followed from the first statement of its section to the one that sends the
status, with any steps of the other workers in between. `Handling` says what the worker
knows at each statement, in terms of the table at the beginning. The section is exclusive,
so nobody else changes the table meanwhile.
-/

namespace OsLabs.Mt

open Memory Runs SysV RwLock

/-- A `char` as a number. -/
def number (c : UInt8) : Int := c.toInt8.toInt

/-- The byte is the number of a cell. -/
def InRange (c : UInt8) : Prop := 0 ≤ number c ∧ number c < ARR_SIZE

instance (c : UInt8) : Decidable (InRange c) :=
  inferInstanceAs (Decidable (0 ≤ number c ∧ number c < ARR_SIZE))

/-- The cell with this number is blank. -/
def Blank (table : Table) (i : Nat) : Prop := ∃ h : i < ARR_SIZE, table ⟨i, h⟩ = ' '.toUInt8

/-- A request with the byte `c` that finds the table `before`, makes the accesses `mine`,
leaves the table `later` and is answered with `status`. -/
structure Classified (c : UInt8) (before later : Table) (mine : List Event)
    (status : BitVec 32) : Prop where
  loads : ∀ i, .load i ∈ mine → i < ARR_SIZE
  error : status = ERROR ↔ ¬ InRange c
  reserved : status = ALREADLY_RESERVED ↔ InRange c ∧ Blank before (number c).toNat
  ok : status = OK ↔ InRange c ∧ ¬ Blank before (number c).toNat
  table : later = if status = OK then storeArr before (number c).toNat else before

theorem toUnsigned_eq (c : UInt8) :
    toUnsigned c = if c.toNat < 128 then c.toNat else c.toNat + 4294967040 := by
  rw [toUnsigned, BitVec.toNat_signExtend]
  simp only [BitVec.msb_eq_decide, UInt8.toNat_toBitVec]
  by_cases hSmall : c.toNat < 128
  · simp [hSmall]
  · simp [hSmall, Nat.not_lt.mp hSmall]

theorem number_eq (c : UInt8) :
    number c = if c.toNat < 128 then (c.toNat : Int) else c.toNat - 256 := by
  show c.toBitVec.toInt = _
  rw [BitVec.toInt_eq_toNat_cond, UInt8.toNat_toBitVec]
  by_cases hSmall : c.toNat < 128
  · rw [if_pos hSmall, if_pos (by omega)]
  · rw [if_neg hSmall, if_neg (by omega)]
    rfl

theorem inRange_iff (c : UInt8) : InRange c ↔ toUnsigned c < ARR_SIZE := by
  have hByte := c.toNat_lt
  have hSize : ARR_SIZE = 20 := rfl
  rw [InRange, number_eq, toUnsigned_eq]
  split <;> omega

theorem toNat_number {c : UInt8} (h : InRange c) : (number c).toNat = toUnsigned c := by
  have hSize : ARR_SIZE = 20 := rfl
  rw [inRange_iff, toUnsigned_eq] at h
  rw [number_eq, toUnsigned_eq]
  split
  · exact Int.toNat_natCast _
  · next hLarge =>
    rw [if_neg hLarge] at h
    omega

/-! ## The request in the locals -/

/-- From its `switch` to its reply a reservation keeps the byte it came with. -/
def KeepsByte (w : Worker) : Prop :=
  match w.pc with
  | .startWr _ | .test | .reserve | .refuse | .full _ | .sendStatus =>
    w.index = toUnsigned (w.buf 1)
  | _ => True

theorem processClient_keepsByte {sh sh' : Shared} {w w' : Worker} {input : Input}
    {es : List Event} (hKeeps : KeepsByte w)
    (hStep : processClient sh w input = some (sh', w', es)) : KeepsByte w' := by
  obtain ⟨pc, index, buf, status⟩ := w
  unfold processClient at hStep
  split at hStep
  · cases hStep
  cases pc with
  | recv =>
    simp only at hStep
    split at hStep <;> (cases hStep; trivial)
  | dispatch =>
    simp only at hStep
    split at hStep
    · cases hStep; trivial
    · next i hRequest =>
      cases hStep
      show i = toUnsigned (buf 1)
      unfold requestOf at hRequest
      split at hRequest
      · cases hRequest
      · split at hRequest
        · cases hRequest; rfl
        · cases hRequest
    · cases hStep; trivial
  | copy i =>
    simp only at hStep
    split at hStep <;> (cases hStep; trivial)
  | full i =>
    simp only at hStep
    split at hStep
    · split at hStep <;> (cases hStep; exact hKeeps)
    · cases hStep; exact hKeeps
  | startWr asleep =>
    obtain ⟨vals, -, ⟨⟩⟩ | ⟨-, ⟨⟩⟩ | ⟨-, ⟨⟩⟩ := attempt_cases hStep <;> exact hKeeps
  | startRd asleep | stopRd asleep | stopWr asleep =>
    obtain ⟨vals, -, ⟨⟩⟩ | ⟨-, ⟨⟩⟩ | ⟨-, ⟨⟩⟩ := attempt_cases hStep <;> trivial
  | test =>
    simp only at hStep
    split at hStep
    · split at hStep <;> (cases hStep; exact hKeeps)
    · cases hStep; exact hKeeps
  | refuse =>
    simp only at hStep
    split at hStep <;> (cases hStep; exact hKeeps)
  | reserve => cases hStep; exact hKeeps
  | sendBuf | sendStatus => cases hStep; trivial
  | finished => cases hStep

/-! ## One section -/

/-- What the request has come to when the status is known. -/
inductive Decided (before : Table) (i : Nat) : Table → List Event → BitVec 32 → Prop
  | ok {mine : List Event} (hRange : i < ARR_SIZE) (hFree : ¬ Blank before i)
      (hLoads : ∀ j, .load j ∈ mine → j < ARR_SIZE) :
      Decided before i (storeArr before i) mine OK
  | reserved {mine : List Event} (hRange : i < ARR_SIZE) (hBlank : Blank before i)
      (hLoads : ∀ j, .load j ∈ mine → j < ARR_SIZE) :
      Decided before i before mine ALREADLY_RESERVED
  | outside {mine : List Event} {status : BitVec 32} (hRange : ¬ i < ARR_SIZE)
      (hLoad : .load i ∈ mine) : Decided before i before mine status

/-- What a worker knows in the section of a reservation of cell `i`: the table `before` it
and the table `now`, and the accesses made. -/
def Handling (before : Table) (i : Nat) (now : Table) (w : Worker) (mine : List Event) : Prop :=
  w.index = i ∧
  match w.pc with
  | .test => now = before ∧ mine = []
  | .reserve => now = before ∧ i < ARR_SIZE ∧ ¬ Blank before i ∧ mine = [.load i]
  | .refuse =>
    now = before ∧ (i < ARR_SIZE ∧ Blank before i ∧ mine = [.load i] ∨ ¬ i < ARR_SIZE ∧ mine = [])
  | .full _ | .sendStatus => Decided before i now mine w.status
  | .stopWr _ => True
  | _ => False

theorem Handling.writing {before now : Table} {i : Nat} {w : Worker} {mine : List Event}
    (h : Handling before i now w mine) : w.role = .writing := by
  obtain ⟨pc, index, buf, status⟩ := w
  cases pc with
  | test | reserve | refuse | full k | sendStatus | stopWr asleep => rfl
  | recv | dispatch | startRd asleep | copy k | sendBuf | stopRd asleep | startWr asleep
  | finished => exact h.2.elim

theorem Handling.decided {before now : Table} {i : Nat} {w : Worker} {mine : List Event}
    (h : Handling before i now w mine) (hSend : w.pc = .sendStatus) :
    Decided before i now mine w.status := by
  obtain ⟨-, hDecided⟩ := h
  rwa [hSend] at hDecided

/-- Reads of the table that stay inside it decide nothing more. -/
theorem Decided.more {before now : Table} {i : Nat} {mine es : List Event} {status : BitVec 32}
    (h : Decided before i now mine status) (hLoads : ∀ j, .load j ∈ es → j < ARR_SIZE) :
    Decided before i now (mine ++ es) status := by
  have hAll (hMine : ∀ j, .load j ∈ mine → j < ARR_SIZE) (j : Nat)
      (hj : .load j ∈ mine ++ es) : j < ARR_SIZE := by
    rcases List.mem_append.mp hj with hOld | hNew
    · exact hMine j hOld
    · exact hLoads j hNew
  cases h with
  | ok hRange hFree hMine => exact .ok hRange hFree (hAll hMine)
  | reserved hRange hBlank hMine => exact .reserved hRange hBlank (hAll hMine)
  | outside hRange hLoad => exact .outside hRange (List.mem_append_left es hLoad)

/-- The worker itself goes on, until it leaves its section. -/
theorem Handling.step {before : Table} {i : Nat} {sh sh' : Shared} {w w' : Worker}
    {input : Input} {mine es : List Event} (h : Handling before i sh.arr w mine)
    (hStep : processClient sh w input = some (sh', w', es)) :
    .leave ∈ es ∨ Handling before i sh'.arr w' (mine ++ es) := by
  obtain ⟨pc, index, buf, status⟩ := w
  obtain ⟨rfl, h⟩ := h
  unfold processClient at hStep
  split at hStep
  · cases hStep
  cases pc with
  | test =>
    obtain ⟨hNow, rfl⟩ := h
    simp only at hStep
    split at hStep
    · next hRange =>
      rw [loadArr_of_lt hRange, hNow] at hStep
      split at hStep
      · next hFree =>
        cases hStep
        exact Or.inr ⟨rfl, hNow, hRange, fun ⟨_, hBlank⟩ => hFree hBlank, rfl⟩
      · next hBlank =>
        cases hStep
        exact Or.inr ⟨rfl, hNow, Or.inl ⟨hRange, ⟨hRange, not_not.mp hBlank⟩, rfl⟩⟩
    · next hRange =>
      cases hStep
      exact Or.inr ⟨rfl, hNow, Or.inr ⟨hRange, rfl⟩⟩
  | reserve =>
    obtain ⟨hNow, hRange, hFree, rfl⟩ := h
    cases hStep
    refine Or.inr ⟨rfl, ?_⟩
    rw [hNow]
    exact .ok hRange hFree (by simp [hRange])
  | refuse =>
    obtain ⟨hNow, h⟩ := h
    simp only at hStep
    rcases h with ⟨hRange, hBlank, rfl⟩ | ⟨hRange, rfl⟩
    · rw [loadArr_of_lt hRange, hNow, if_pos hBlank.2] at hStep
      cases hStep
      refine Or.inr ⟨rfl, ?_⟩
      rw [hNow]
      exact .reserved hRange hBlank (by simp [hRange])
    · split at hStep
      · cases hStep
        refine Or.inr ⟨rfl, ?_⟩
        rw [hNow]
        exact .outside hRange (by simp)
      · cases hStep
        refine Or.inr ⟨rfl, ?_⟩
        rw [hNow]
        exact .outside hRange (by simp)
  | full k =>
    simp only at hStep
    split at hStep
    · next hk =>
      split at hStep
      · cases hStep
        exact Or.inr ⟨rfl, h.more (by simp [hk])⟩
      · cases hStep
        exact Or.inr ⟨rfl, h.more (by simp [hk])⟩
    · cases hStep
      exact Or.inr ⟨rfl, h.more (by simp)⟩
  | sendStatus =>
    cases hStep
    exact Or.inr ⟨rfl, trivial⟩
  | stopWr asleep =>
    obtain ⟨vals, -, ⟨⟩⟩ | ⟨-, ⟨⟩⟩ | ⟨-, ⟨⟩⟩ := attempt_cases hStep
    · exact Or.inl (List.mem_singleton_self _)
    · exact Or.inr ⟨rfl, trivial⟩
    · exact Or.inr ⟨rfl, trivial⟩
  | recv | dispatch | startRd asleep | copy k | sendBuf | stopRd asleep | startWr asleep
  | finished => exact h.elim

/-- Only a worker inside changes the table. -/
theorem processClient_out {sh sh' : Shared} {w w' : Worker} {input : Input} {es : List Event}
    (hOut : w.role = .out) (hStep : processClient sh w input = some (sh', w', es)) :
    sh'.arr = sh.arr := by
  obtain ⟨pc, index, buf, status⟩ := w
  unfold processClient at hStep
  split at hStep
  · cases hStep
  cases pc with
  | recv | dispatch =>
    simp only at hStep
    split at hStep <;> (cases hStep; rfl)
  | startRd asleep | startWr asleep =>
    obtain ⟨vals, -, ⟨⟩⟩ | ⟨-, ⟨⟩⟩ | ⟨-, ⟨⟩⟩ := attempt_cases hStep <;> rfl
  | copy k | sendBuf | stopRd asleep => cases hOut
  | test | reserve | refuse | full k | sendStatus | stopWr asleep => cases hOut
  | finished => cases hStep

/-! ## Whole runs -/

theorem Decided.classified_iff {before now : Table} {c : UInt8} {mine : List Event}
    {status : BitVec 32} (h : Decided before (toUnsigned c) now mine status) :
    Classified c before now mine status ↔ InRange c := by
  constructor
  · intro hClass
    rw [inRange_iff]
    cases h with
    | ok hRange | reserved hRange => exact hRange
    | outside hRange hLoad => exact hClass.loads _ hLoad
  · intro hRange
    have hIndex := toNat_number hRange
    cases h with
    | ok hLt hFree hLoads =>
      rw [← hIndex] at hFree ⊢
      refine ⟨hLoads, ?_, ?_, ?_, (if_pos rfl).symm⟩
      · exact iff_of_false (by decide) (not_not_intro hRange)
      · exact iff_of_false (by decide) fun hBoth => hFree hBoth.2
      · exact iff_of_true rfl ⟨hRange, hFree⟩
    | reserved hLt hBlank hLoads =>
      rw [← hIndex] at hBlank
      refine ⟨hLoads, ?_, ?_, ?_, (if_neg (by decide)).symm⟩
      · exact iff_of_false (by decide) (not_not_intro hRange)
      · exact iff_of_true rfl ⟨hRange, hBlank⟩
      · exact iff_of_false (by decide) fun hBoth => hBoth.2 hBlank
    | outside hLt => exact absurd ((inRange_iff c).mp hRange) hLt

variable {τ : Type} [Fintype τ] [DecidableEq τ]

omit [Fintype τ] in
theorem serve_keepsByte (locals : τ → Nat × Object BUF_SIZE × BitVec 32)
    (sched : List (τ × Input)) (t : τ) : KeepsByte ((serve locals sched).1.procs t) := by
  refine local_invariant (Q := fun w _ => KeepsByte w) (c := init locals) (fun _ => trivial) ?_
    sched t
  intro sh w input sh' w' es h hKeeps hStep
  exact processClient_keepsByte hKeeps hStep

/-- In the section that worker `t` has just entered, whatever the other workers do. -/
theorem resume_handling {c : Conf τ Shared Worker} {t : τ} {served : List (Request × List UInt8)}
    (hInv : Inv c served) (hTest : (c.procs t).pc = .test) (during : List (τ × Input)) :
    let x := resume (poolStep processClient) (c, []) during
    .leave ∈ own t x.2 ∨
      Handling c.shared.arr (c.procs t).index x.1.shared.arr (x.1.procs t) (own t x.2) := by
  refine (resume_invariant (x := (c, []))
    (P := fun c' h => (∃ served, Inv c' served) ∧ (.leave ∈ own t h ∨
      Handling c.shared.arr (c.procs t).index c'.shared.arr (c'.procs t) (own t h))) ?_
    ⟨⟨served, hInv⟩, Or.inr ⟨rfl, ?_⟩⟩ during).2
  · rintro c' h ⟨u, input⟩ c'' es ⟨⟨served, hInv⟩, hHandling⟩ hStep
    obtain ⟨sh, w, mine, hMove, rfl, rfl⟩ := poolStep_eq_some hStep
    refine ⟨⟨_, (hInv.step hMove).1⟩, ?_⟩
    by_cases hu : u = t
    · subst hu
      simp only [own_append_self, Function.update_self]
      rcases hHandling with hLeft | hInside
      · exact Or.inl (List.mem_append_left mine hLeft)
      · exact (hInside.step hMove).imp_left (List.mem_append_right _)
    · simp only [own_append_ne hu, Function.update_of_ne (Ne.symm hu)]
      refine hHandling.imp_right fun hInside => ?_
      obtain ⟨⟨l, -, hGuarded⟩, -⟩ := hInv
      rw [processClient_out (hGuarded.owned.alone hInside.writing (Ne.symm hu)) hMove]
      exact hInside
  · simp only [hTest]
    exact ⟨trivial, rfl⟩

/-- For every run and every reservation in it, from the first statement of its section to
the one that sends the status: the request is classified by its byte and its cell, and only
its cell is read and changed, exactly if the byte is the number of a cell. -/
theorem write_classified_iff (locals : τ → Nat × Object BUF_SIZE × BitVec 32)
    (before during : List (τ × Input)) (t : τ) :
    let c := (serve locals before).1
    let x := resume (poolStep processClient) (c, []) during
    (c.procs t).pc = .test → .leave ∉ own t x.2 → (x.1.procs t).pc = .sendStatus →
      (Classified ((c.procs t).buf 1) c.shared.arr x.1.shared.arr (own t x.2)
        (x.1.procs t).status ↔ InRange ((c.procs t).buf 1)) := by
  intro c x hTest hStays hSend
  have hKeeps : (c.procs t).index = toUnsigned ((c.procs t).buf 1) := by
    have hByte := serve_keepsByte locals before t
    rwa [KeepsByte, show ((serve locals before).1.procs t).pc = .test from hTest] at hByte
  have hHandling := (resume_handling (serve_inv locals before) hTest during).resolve_left hStays
  have hDecided := hHandling.decided hSend
  rw [show ((serve locals before).1.procs t).index = _ from hKeeps] at hDecided
  exact hDecided.classified_iff

/-- A worker that receives a reservation with the byte `c` and enters its section. -/
def arrival (c : UInt8) : List (Fin 1 × Input) :=
  [(0, ⟨.data ['w'.toUInt8, c], 0⟩), (0, ⟨.closed, 0⟩), (0, ⟨.closed, 0⟩)]

def noLocals (_ : Fin 1) : Nat × Object BUF_SIZE × BitVec 32 := (0, fun _ => 0, 0)

theorem write_classified_zero :
    let c := (serve noLocals (arrival 0)).1
    let x := resume (poolStep processClient) (c, []) (List.replicate 4 (0, ⟨.closed, 0⟩))
    Classified 0 c.shared.arr x.1.shared.arr (own 0 x.2) (x.1.procs 0).status :=
  (write_classified_iff noLocals (arrival 0) (List.replicate 4 (0, ⟨.closed, 0⟩)) 0
    (by decide) (by decide) (by decide)).mpr (by decide)

/-- The byte 20 is the number of no cell: `arr[20]` is read, and a blank found there makes
the answer `ALREADLY_RESERVED`. -/
theorem not_classified_twenty :
    let c := (serve noLocals (arrival 20)).1
    let x := resume (poolStep processClient) (c, []) (List.replicate 3 (0, ⟨.closed, ' '.toUInt8⟩))
    (x.1.procs 0).status = ALREADLY_RESERVED ∧
      ¬ Classified 20 c.shared.arr x.1.shared.arr (own 0 x.2) (x.1.procs 0).status := by
  intro c x
  refine ⟨by decide, fun hClass => ?_⟩
  have hLoad : .load 20 ∈ own 0 x.2 := by decide
  exact absurd (hClass.loads 20 hLoad) (by decide)

end OsLabs.Mt
