import OsLabs.Memory.Object
import OsLabs.Runs.Deferred

/-!
# The last key (`lab_tasklet`)

What `tasklet.c` and `my_workqueue.c` have in common. Their interrupt handlers accept the
scancodes of released keys that are in the table of names, except for the Enter key, and
their deferred functions record the code of the key and its name: the code is stored, the
name is looked up and copied by `strncpy`, one byte at a time, and the last byte of the array
becomes a zero. The measured times and the messages for the kernel log are not modelled.
-/

namespace OsLabs.Keyboard

open Memory

def IRQ_NUM : Nat := 1

/-- The number of names in `ascii`. -/
abbrev ASCII_SIZE : Nat := 84

/-- `sizeof(last_key_name)` -/
abbrev NAME_SIZE : Nat := 20

/-- The number of an interrupt, and the byte that `inb(0x60)` reads. -/
structure Interrupt where
  irq : Nat
  inb : UInt8
deriving DecidableEq

/-- The byte as an `int`. -/
def Interrupt.code (i : Interrupt) : BitVec 32 := i.inb.toBitVec.setWidth 32

def pressCode (code : BitVec 32) : Nat := (code &&& 0x7F).toNat

def isRelease (code : BitVec 32) : Bool := code &&& 0x80 ≠ 0

/-- The condition in both handlers. -/
def Interrupt.accepted (i : Interrupt) : Bool :=
  i.irq == IRQ_NUM &&
    (isRelease i.code && decide (pressCode i.code < ASCII_SIZE) && pressCode i.code != 28)

theorem pressCode_of_accepted {i : Interrupt} (h : i.accepted = true) :
    pressCode i.code < ASCII_SIZE := by
  simp only [Interrupt.accepted, Bool.and_eq_true, decide_eq_true_eq] at h
  exact h.2.1.2

/-- `last_code` (`last_key_code` in `tasklet.c`) and `last_key_name`. -/
@[ext]
structure Record where
  code : BitVec 32
  name : Object NAME_SIZE

def Record.init : Record := ⟨-1, fun _ => 0⟩

/-- The bytes of a string. -/
def chars (s : String) : List UInt8 := s.toList.map Char.toUInt8

/-- The string with this index in the table. -/
def lookup (ascii : List String) (press : Nat) : List UInt8 := chars (ascii.getD press "")

/-- `last_key_name` when it holds a string, cut to the size of the array. -/
def cut (text : List UInt8) : Object NAME_SIZE :=
  fun i => if i.val < NAME_SIZE - 1 then text.getD i.val 0 else 0

def keyName (ascii : List String) (code : BitVec 32) : Object NAME_SIZE :=
  cut (lookup ascii (pressCode code))

/-- The local variables of a deferred function: `code`, `press_code`, and the pointer that
`strncpy` copies from. -/
structure Locals where
  code : BitVec 32
  press : Nat
  src : List UInt8

/-- The next statement of a deferred function once it has read the code. -/
inductive Pc where
  | storeCode
  | lookup
  | copy (n : Nat)
  | close

inductive Event where
  | index (press : Nat)

/-- One statement: the record, where the function goes on, if it does, and its events. -/
def record (ascii : List String) (r : Record) (l : Locals) :
    Pc → Record × Option (Pc × Locals) × List Event
  | .storeCode => ({ r with code := l.code }, some (.lookup, l), [])
  | .lookup =>
    (r, some (.copy 0, { l with src := Keyboard.lookup ascii l.press }), [.index l.press])
  | .copy n =>
    if n < NAME_SIZE - 1 then
      let name : Object NAME_SIZE := fun i => if i.val = n then l.src.getD n 0 else r.name i
      ({ r with name := name }, some (.copy (n + 1), l), [])
    else (r, some (.close, l), [])
  | .close =>
    let name : Object NAME_SIZE := fun i => if i.val = NAME_SIZE - 1 then 0 else r.name i
    ({ r with name := name }, none, [])

/-- Where a deferred function is: it is still reading the code, or has read it. -/
inductive At (β : Type) where
  | before (b : β)
  | recording (pc : Pc) (l : Locals)

/-- A deferred function. `fetch` is a statement of the part that is different in each of
them: it goes on with that part, or has found the code and the index of the name. -/
def body {V β : Type} (ascii : List String) (fetch : V → β → β ⊕ BitVec 32 × Nat) (v : V)
    (r : Record) : At β → Record × Option (At β) × List Event
  | .before b =>
    match fetch v b with
    | .inl b => (r, some (.before b), [])
    | .inr (code, press) => (r, some (.recording .storeCode ⟨code, press, []⟩), [])
  | .recording pc l =>
    match record ascii r l pc with
    | (r, next, es) => (r, next.map fun (pc, l) => .recording pc l, es)

/-! ## What the statements leave behind -/

/-- A part of the record: the code, or a byte of the name. -/
abbrev Place := Option (Fin NAME_SIZE)

/-- The record is right for this code at a place. -/
def Right (ascii : List String) (v : BitVec 32) (r : Record) : Place → Prop
  | none => r.code = v
  | some i => r.name i = keyName ascii v i

/-- The local variables are those for the code `v`, or for another one with the same name. -/
structure Fresh (ascii : List String) (v : BitVec 32) (l : Locals) (pc : Pc) : Prop where
  code : l.code = v
  press : lookup ascii l.press = lookup ascii (pressCode v)
  src : match pc with
    | .storeCode | .lookup => True
    | .copy _ | .close => l.src = lookup ascii (pressCode v)

/-- The place has not been written yet. -/
def Todo : Pc → Place → Prop
  | .storeCode, _ => True
  | .lookup, l => l ≠ none
  | .copy n, l => ∃ i, l = some i ∧ n ≤ i.val
  | .close, l => ∃ i, l = some i ∧ i.val = NAME_SIZE - 1

variable {ascii : List String} {v : BitVec 32} {l : Locals} {pc : Pc} {r r' : Record}
  {next : Option (Pc × Locals)} {es : List Event}

theorem right_iff : (∀ place, Right ascii v r place) ↔ r = ⟨v, keyName ascii v⟩ := by
  constructor
  · intro h
    apply Record.ext
    · exact h none
    · funext i
      exact h (some i)
  · rintro rfl place
    cases place with
    | none => rfl
    | some i => rfl

theorem record_fresh (h : Fresh ascii v l pc) {pc' : Pc} {l' : Locals}
    (hStep : record ascii r l pc = (r', some (pc', l'), es)) : Fresh ascii v l' pc' := by
  obtain ⟨hCode, hPress, hSrc⟩ := h
  cases pc with
  | storeCode =>
    cases hStep
    exact ⟨hCode, hPress, trivial⟩
  | lookup =>
    cases hStep
    exact ⟨hCode, hPress, hPress⟩
  | copy n =>
    rw [record] at hStep
    split at hStep
    · cases hStep
      exact ⟨hCode, hPress, hSrc⟩
    · cases hStep
      exact ⟨hCode, hPress, hSrc⟩
  | close => cases hStep

/-- A byte that `strncpy` copies. -/
theorem right_copy {n : Nat} (hSrc : l.src = lookup ascii (pressCode v)) (hn : n < NAME_SIZE - 1)
    {i : Fin NAME_SIZE} (hi : i.val = n) : l.src.getD n 0 = keyName ascii v i := by
  rw [keyName, cut, if_pos (by rw [hi]; exact hn), hSrc, hi]

theorem right_close {i : Fin NAME_SIZE} (hi : i.val = NAME_SIZE - 1) : 0 = keyName ascii v i := by
  rw [keyName, cut, if_neg (by omega)]

theorem record_right (h : Fresh ascii v l pc) (hStep : record ascii r l pc = (r', next, es))
    {place : Place} (hRight : Right ascii v r place) : Right ascii v r' place := by
  cases pc with
  | storeCode =>
    cases hStep
    cases place with
    | none => exact h.code
    | some i => exact hRight
  | lookup =>
    cases hStep
    exact hRight
  | copy n =>
    rw [record] at hStep
    split at hStep
    · next hn =>
      cases hStep
      cases place with
      | none => exact hRight
      | some i =>
        show (if i.val = n then l.src.getD n 0 else r.name i) = keyName ascii v i
        by_cases hi : i.val = n
        · rw [if_pos hi, right_copy h.src hn hi]
        · rw [if_neg hi]
          exact hRight
    · cases hStep
      exact hRight
  | close =>
    cases hStep
    cases place with
    | none => exact hRight
    | some i =>
      show (if i.val = NAME_SIZE - 1 then 0 else r.name i) = keyName ascii v i
      by_cases hi : i.val = NAME_SIZE - 1
      · rw [if_pos hi, right_close hi]
      · rw [if_neg hi]
        exact hRight

/-- A place is written, or it still has to be. -/
theorem record_todo (h : Fresh ascii v l pc) (hStep : record ascii r l pc = (r', next, es))
    {place : Place} (hTodo : Todo pc place) :
    Right ascii v r' place ∨ ∃ pc' l', next = some (pc', l') ∧ Todo pc' place := by
  cases pc with
  | storeCode =>
    cases hStep
    cases place with
    | none => exact Or.inl h.code
    | some i => exact Or.inr ⟨.lookup, l, rfl, Option.some_ne_none i⟩
  | lookup =>
    cases hStep
    obtain ⟨i, rfl⟩ := Option.ne_none_iff_exists'.mp hTodo
    exact Or.inr ⟨.copy 0, _, rfl, i, rfl, Nat.zero_le _⟩
  | copy n =>
    obtain ⟨i, rfl, hi⟩ := hTodo
    rw [record] at hStep
    split at hStep
    · next hn =>
      cases hStep
      by_cases hHere : i.val = n
      · refine Or.inl ?_
        show (if i.val = n then l.src.getD n 0 else r.name i) = keyName ascii v i
        rw [if_pos hHere, right_copy h.src hn hHere]
      · exact Or.inr ⟨.copy (n + 1), l, rfl, i, rfl, by omega⟩
    · cases hStep
      have hLt := i.isLt
      exact Or.inr ⟨.close, l, rfl, i, rfl, by omega⟩
  | close =>
    obtain ⟨i, rfl, hi⟩ := hTodo
    cases hStep
    refine Or.inl ?_
    show (if i.val = NAME_SIZE - 1 then 0 else r.name i) = keyName ascii v i
    rw [if_pos hi, right_close hi]

/-- The function keeps its local variables, and looks up nothing but the key. -/
theorem record_press (hStep : record ascii r l pc = (r', next, es)) :
    (∀ pc' l', next = some (pc', l') → l'.press = l.press) ∧ ∀ e ∈ es, e = .index l.press := by
  cases pc with
  | storeCode =>
    cases hStep
    simp
  | lookup =>
    cases hStep
    simp
  | copy n =>
    rw [record] at hStep
    split at hStep
    · cases hStep
      simp
    · cases hStep
      simp
  | close =>
    cases hStep
    simp

/-! ## The functions as a whole -/

section Body

open Runs.Deferred

variable {ι V β : Type} {P : Program ι Interrupt V Record (At β) Event} {ascii : List String}
  {fetch : ι → V → β → β ⊕ BitVec 32 × Nat} {toInt : V → BitVec 32} {Read : V → ι → β → Prop}

/-- The items run `body`, and what they read as long as the cell holds `v` is the `int` that
`v` stands for. `Read v k b`: all that item `k` has read so far is `v`. -/
structure Fetches (P : Program ι Interrupt V Record (At β) Event) (ascii : List String)
    (fetch : ι → V → β → β ⊕ BitVec 32 × Nat) (toInt : V → BitVec 32) (Read : V → ι → β → Prop) :
    Prop where
  accept : ∀ i v, P.accept i = some v → i.accepted = true ∧ toInt v = i.code
  step : ∀ k, P.step k = body ascii (fetch k)
  start : ∀ k, ∃ b, P.start k = .before b ∧ ∀ v, Read v k b
  next : ∀ v k b b', Read v k b → fetch k v b = .inl b' → Read v k b'
  found : ∀ v k b code press, Read v k b → fetch k v b = .inr (code, press) →
    code = toInt v ∧ press = pressCode (toInt v)

def At.Fresh (ascii : List String) (toInt : V → BitVec 32) (Read : V → ι → β → Prop) (v : V)
    (k : ι) : At β → Prop
  | .before b => Read v k b
  | .recording pc l => Keyboard.Fresh ascii (toInt v) l pc

def At.Todo (_ : ι) : At β → Place → Prop
  | .before _, _ => True
  | .recording pc _, place => Keyboard.Todo pc place

/-- What a statement of the function is. -/
theorem body_cases {fetch : V → β → β ⊕ BitVec 32 × Nat} {v : V} {r r' : Record} {w : At β}
    {next : Option (At β)} {es : List Event} (h : body ascii fetch v r w = (r', next, es)) :
    (∃ b b', w = .before b ∧ fetch v b = .inl b' ∧ r' = r ∧ next = some (.before b') ∧ es = []) ∨
    (∃ b code press, w = .before b ∧ fetch v b = .inr (code, press) ∧ r' = r ∧
      next = some (.recording .storeCode ⟨code, press, []⟩) ∧ es = []) ∨
    (∃ pc l next', w = .recording pc l ∧ record ascii r l pc = (r', next', es) ∧
      next = next'.map fun (pc, l) => .recording pc l) := by
  cases w with
  | before b =>
    rw [body] at h
    split at h
    · next b' hFetch =>
      cases h
      exact Or.inl ⟨b, b', rfl, hFetch, rfl, rfl, rfl⟩
    · next code press hFetch =>
      cases h
      exact Or.inr (Or.inl ⟨b, code, press, rfl, hFetch, rfl, rfl, rfl⟩)
  | recording pc l =>
    rw [body] at h
    cases h
    exact Or.inr (Or.inr ⟨pc, l, _, rfl, rfl, rfl⟩)

theorem Fetches.delivers (h : Fetches P ascii fetch toInt Read) :
    Delivers P (fun v => Right ascii (toInt v)) (At.Fresh ascii toInt Read) At.Todo where
  start_fresh v k := by
    obtain ⟨b, hStart, hRead⟩ := h.start k
    rw [hStart]
    exact hRead v
  start_todo k place := by
    obtain ⟨b, hStart, -⟩ := h.start k
    rw [hStart]
    trivial
  step_fresh v k r w r' w' es hFresh hStep := by
    rw [h.step k] at hStep
    obtain ⟨b, b', rfl, hFetch, -, hNext, -⟩ | ⟨b, code, press, rfl, hFetch, -, hNext, -⟩ |
      ⟨pc, l, next, rfl, hRecord, hNext⟩ := body_cases hStep
    · cases hNext
      exact h.next v k b b' hFresh hFetch
    · cases hNext
      obtain ⟨hCode, hPress⟩ := h.found v k b code press hFresh hFetch
      exact ⟨hCode, by rw [← hPress], trivial⟩
    · obtain ⟨⟨pc', l'⟩, rfl, rfl⟩ := Option.map_eq_some_iff.mp hNext.symm
      exact record_fresh hFresh hRecord
  step_todo v k r w r' next es place hFresh hStep hTodo := by
    rw [h.step k] at hStep
    obtain ⟨b, b', rfl, -, -, rfl, -⟩ | ⟨b, code, press, rfl, -, -, rfl, -⟩ |
      ⟨pc, l, next, rfl, hRecord, rfl⟩ := body_cases hStep
    · exact Or.inr ⟨_, rfl, trivial⟩
    · exact Or.inr ⟨_, rfl, trivial⟩
    · apply (record_todo hFresh hRecord hTodo).imp_right
      rintro ⟨pc', l', rfl, hLeft⟩
      exact ⟨_, rfl, hLeft⟩
  step_right v k r w r' next es place hFresh hStep hRight := by
    rw [h.step k] at hStep
    obtain ⟨b, b', rfl, -, rfl, -⟩ | ⟨b, code, press, rfl, -, rfl, -⟩ |
      ⟨pc, l, next, rfl, hRecord, -⟩ := body_cases hStep
    · exact hRight
    · exact hRight
    · exact record_right hFresh hRecord hRight

/-- The index of the name is inside the table, whatever else happens to the cell. -/
structure Indexes (P : Program ι Interrupt V Record (At β) Event)
    (fetch : ι → V → β → β ⊕ BitVec 32 × Nat) (toInt : V → BitVec 32) (Ok : ι → β → Prop) :
    Prop where
  start : ∀ k b, P.start k = .before b → Ok k b
  next : ∀ v k b b', pressCode (toInt v) < ASCII_SIZE → Ok k b → fetch k v b = .inl b' → Ok k b'
  found : ∀ v k b code press, pressCode (toInt v) < ASCII_SIZE → Ok k b →
    fetch k v b = .inr (code, press) → press < ASCII_SIZE

def At.Ok (Ok : ι → β → Prop) (k : ι) : At β → Prop
  | .before b => Ok k b
  | .recording _ l => l.press < ASCII_SIZE

/-- The index is inside the table. -/
def Event.Inside : Event → Prop
  | .index press => press < ASCII_SIZE

theorem Fetches.respects (h : Fetches P ascii fetch toInt Read) {Ok : ι → β → Prop}
    (hOk : Indexes P fetch toInt Ok) :
    Respects P (fun v => pressCode (toInt v) < ASCII_SIZE) (At.Ok Ok) Event.Inside where
  accept i v hAccept := by
    obtain ⟨hAccepted, hCode⟩ := h.accept i v hAccept
    rw [hCode]
    exact pressCode_of_accepted hAccepted
  start k := by
    obtain ⟨b, hStart, -⟩ := h.start k
    rw [hStart]
    exact hOk.start k b hStart
  step v k r w r' next es hValid hAt hStep := by
    rw [h.step k] at hStep
    obtain ⟨b, b', rfl, hFetch, -, rfl, rfl⟩ | ⟨b, code, press, rfl, hFetch, -, rfl, rfl⟩ |
      ⟨pc, l, next, rfl, hRecord, rfl⟩ := body_cases hStep
    · refine ⟨?_, fun e he => nomatch he⟩
      rintro w' ⟨⟩
      exact hOk.next v k b b' hValid hAt hFetch
    · refine ⟨?_, fun e he => nomatch he⟩
      rintro w' ⟨⟩
      exact hOk.found v k b code press hValid hAt hFetch
    · obtain ⟨hKeeps, hEvents⟩ := record_press hRecord
      constructor
      · intro w' hNext
        obtain ⟨⟨pc', l'⟩, hNext', rfl⟩ := Option.map_eq_some_iff.mp hNext
        show l'.press < ASCII_SIZE
        rw [hKeeps pc' l' hNext']
        exact hAt
      · intro e he
        rw [hEvents e he]
        exact hAt

end Body

end OsLabs.Keyboard
