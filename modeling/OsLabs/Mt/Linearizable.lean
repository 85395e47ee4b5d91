import OsLabs.Mt.Lock

/-!
# The reservation server is a linearizable table

The sequential table answers a read with all its cells and a reservation with `OK` if the
cell was free, which it then no longer is. A reservation of a cell that does not exist
leaves the table as it is, and nothing is said here about its answer.

The order of the requests is that of their replies. Every reply is sent inside the
section of its request (`Sectioned`), so this order agrees with that of the sections.
`Asserts` relates the table in memory and the table of the sequential order at each
statement of a worker inside; they differ only between the store of a writer and its
reply.
-/

namespace OsLabs.Mt

open Memory Runs SysV RwLock

abbrev Table := Object ARR_SIZE

/-! ## The sequential table -/

def after (table : Table) : Request → Table
  | .read => table
  | .write i => fun j => if j.val = i then ' '.toUInt8 else table j

def Answers (table : Table) : Request → List UInt8 → Prop
  | .read, msg => msg.take ARR_SIZE = bytes table
  | .write i, msg => ∀ h : i < ARR_SIZE,
      msg = intBytes (if table ⟨i, h⟩ = ' '.toUInt8 then ALREADLY_RESERVED else OK)

/-- The table after requests that were answered in this order. -/
def tableAfter (table : Table) (order : List (Request × List UInt8)) : Table :=
  order.foldl (fun table r => after table r.1) table

/-- The answers are those of the sequential table. -/
def Legal : Table → List (Request × List UInt8) → Prop
  | _, [] => True
  | table, r :: rest => Answers table r.1 r.2 ∧ Legal (after table r.1) rest

theorem tableAfter_append (table : Table) (xs ys : List (Request × List UInt8)) :
    tableAfter table (xs ++ ys) = tableAfter (tableAfter table xs) ys :=
  List.foldl_append

theorem legal_append {table : Table} {xs ys : List (Request × List UInt8)} :
    Legal table (xs ++ ys) ↔ Legal table xs ∧ Legal (tableAfter table xs) ys := by
  induction xs generalizing table with
  | nil => exact (iff_of_eq (true_and _)).symm
  | cons r rest ih =>
    show Answers table r.1 r.2 ∧ Legal (after table r.1) (rest ++ ys) ↔
      (Answers table r.1 r.2 ∧ Legal (after table r.1) rest) ∧
        Legal (tableAfter (after table r.1) rest) ys
    rw [ih, and_assoc]

theorem after_blank {table : Table} {i : Fin ARR_SIZE} (h : table i = ' '.toUInt8)
    (req : Request) : after table req i = ' '.toUInt8 := by
  cases req with
  | read => exact h
  | write k =>
    show (if i.val = k then ' '.toUInt8 else table i) = ' '.toUInt8
    rw [h, ite_self]

theorem intBytes_reserved : intBytes ALREADLY_RESERVED ≠ intBytes OK := by decide

/-- A blank cell is granted to nobody, any other to at most one request. -/
theorem Legal.grants {table : Table} {order : List (Request × List UInt8)}
    (h : Legal table order) (i : Fin ARR_SIZE) :
    order.count (.write i, intBytes OK) ≤ if table i = ' '.toUInt8 then 0 else 1 := by
  induction order generalizing table with
  | nil => simp
  | cons r rest ih =>
    obtain ⟨hAnswer, hRest⟩ := h
    have hCount := ih hRest
    rw [List.count_cons]
    by_cases hGrant : r = (.write i, intBytes OK)
    · subst hGrant
      have hFree : table i ≠ ' '.toUInt8 := by
        intro hBlank
        have hMsg := hAnswer i.isLt
        rw [if_pos hBlank] at hMsg
        exact intBytes_reserved hMsg.symm
      have hTaken : after table (.write i) i = ' '.toUInt8 := if_pos rfl
      rw [if_pos hTaken] at hCount
      rw [if_neg hFree, beq_self_eq_true, if_pos rfl]
      omega
    · have hOther : (r == (.write i, intBytes OK)) = false := beq_false_of_ne hGrant
      rw [hOther, if_neg Bool.false_ne_true, Nat.add_zero]
      by_cases hBlank : table i = ' '.toUInt8
      · rw [if_pos (after_blank hBlank r.1)] at hCount
        rw [if_pos hBlank]
        exact hCount
      · rw [if_neg hBlank]
        refine hCount.trans ?_
        split <;> omega

/-! ## The order of the replies -/

def replyOf : Event → Option (Request × List UInt8)
  | .reply req msg => some (req, msg)
  | _ => none

/-- The requests answered in a history, in the order of their replies. -/
def replies (h : List Event) : List (Request × List UInt8) := h.filterMap replyOf

theorem replies_append (h es : List Event) : replies (h ++ es) = replies h ++ replies es :=
  List.filterMap_append

def isMark : Event → Bool
  | .request _ | .enter | .reply _ _ | .leave => true
  | _ => false

/-- The events of one request: it is received, its section is entered, it is answered and
the section is left. -/
def turn (r : Request × List UInt8) : List Event :=
  [.request r.1, .enter, .reply r.1 r.2, .leave]

/-- A worker answers one request after the other, each from inside its section. -/
def Sectioned (h : List Event) : Prop :=
  ∃ served : List (Request × List UInt8), h.filter isMark <+: served.flatMap turn

/-- The part of a turn that a worker has behind it. -/
def Partway (w : Worker) (es : List Event) : Prop :=
  match w.pc with
  | .recv | .dispatch | .finished => es = []
  | .startRd _ => es = [.request .read]
  | .copy _ | .sendBuf => es = [.request .read, .enter]
  | .startWr _ => es = [.request (.write w.index)]
  | .test | .reserve | .refuse | .full _ | .sendStatus =>
    es = [.request (.write w.index), .enter]
  | .stopRd _ | .stopWr _ => ∃ r : Request × List UInt8, es = [.request r.1, .enter, .reply r.1 r.2]

def InTurn (w : Worker) (h : List Event) : Prop :=
  ∃ (served : List (Request × List UInt8)) (es : List Event),
    h.filter isMark = served.flatMap turn ++ es ∧ Partway w es

theorem InTurn.sectioned {w : Worker} {h : List Event} (hTurn : InTurn w h) : Sectioned h := by
  obtain ⟨served, es, hMarks, hPart⟩ := hTurn
  have hOpen : ∃ r : Request × List UInt8, es <+: turn r := by
    obtain ⟨pc, index, buf, status⟩ := w
    cases pc with
    | recv | dispatch | finished =>
      obtain rfl : es = [] := hPart
      exact ⟨(.read, []), List.nil_prefix⟩
    | startRd asleep =>
      obtain rfl : es = [.request .read] := hPart
      exact ⟨(.read, []), [.enter, .reply .read [], .leave], rfl⟩
    | copy i | sendBuf =>
      obtain rfl : es = [.request .read, .enter] := hPart
      exact ⟨(.read, []), [.reply .read [], .leave], rfl⟩
    | startWr asleep =>
      obtain rfl : es = [.request (.write index)] := hPart
      exact ⟨(.write index, []), [.enter, .reply (.write index) [], .leave], rfl⟩
    | test | reserve | refuse | full i | sendStatus =>
      obtain rfl : es = [.request (.write index), .enter] := hPart
      exact ⟨(.write index, []), [.reply (.write index) [], .leave], rfl⟩
    | stopRd asleep | stopWr asleep =>
      obtain ⟨r, rfl⟩ := hPart
      exact ⟨r, [.leave], rfl⟩
  obtain ⟨r, hr⟩ := hOpen
  refine ⟨served ++ [r], ?_⟩
  rw [hMarks, List.flatMap_append, List.flatMap_singleton]
  exact (List.prefix_append_right_inj _).mpr hr

/-- A statement without a mark leaves a worker where it is in its turn. -/
theorem InTurn.keep {w w' : Worker} {h es : List Event} (hTurn : InTurn w h)
    (hSilent : es.filter isMark = []) (hPart : ∀ es, Partway w es → Partway w' es) :
    InTurn w' (h ++ es) := by
  obtain ⟨served, part, hMarks, hOld⟩ := hTurn
  refine ⟨served, part, ?_, hPart part hOld⟩
  rw [List.filter_append, hSilent, List.append_nil, hMarks]

/-- A mark brings a worker one event further. -/
theorem InTurn.advance {w w' : Worker} {h : List Event} {e : Event} (hTurn : InTurn w h)
    (hMark : isMark e = true) (hPart : ∀ es, Partway w es → Partway w' (es ++ [e])) :
    InTurn w' (h ++ [e]) := by
  obtain ⟨served, part, hMarks, hOld⟩ := hTurn
  refine ⟨served, part ++ [e], ?_, hPart part hOld⟩
  rw [List.filter_append, List.filter_cons_of_pos hMark, List.filter_nil, hMarks,
    List.append_assoc]

/-- Leaving the section ends a turn. -/
theorem InTurn.finish {w w' : Worker} {h : List Event} (hTurn : InTurn w h)
    (hOld : ∀ es, Partway w es →
      ∃ r : Request × List UInt8, es = [.request r.1, .enter, .reply r.1 r.2])
    (hNew : Partway w' []) : InTurn w' (h ++ [.leave]) := by
  obtain ⟨served, part, hMarks, hPart⟩ := hTurn
  obtain ⟨r, rfl⟩ := hOld part hPart
  refine ⟨served ++ [r], [], ?_, hNew⟩
  rw [List.filter_append, hMarks, List.flatMap_append, List.flatMap_singleton, List.append_nil,
    List.append_assoc]
  rfl

theorem processClient_inTurn {sh sh' : Shared} {w w' : Worker} {input : Input} {h es : List Event}
    (hTurn : InTurn w h) (hStep : processClient sh w input = some (sh', w', es)) :
    InTurn w' (h ++ es) := by
  obtain ⟨pc, index, buf, status⟩ := w
  unfold processClient at hStep
  split at hStep
  · cases hStep
  cases pc with
  | recv =>
    simp only at hStep
    split at hStep
    · cases hStep; exact hTurn.keep rfl fun _ h => h
    · cases hStep; exact hTurn.keep rfl fun _ h => h
    · cases hStep; exact hTurn.keep rfl fun _ h => h
  | dispatch =>
    simp only at hStep
    split at hStep
    · cases hStep; exact hTurn.advance rfl fun es h => congrArg (· ++ _) h
    · cases hStep; exact hTurn.advance rfl fun es h => congrArg (· ++ _) h
    · cases hStep; exact hTurn.keep rfl fun _ h => h
  | startRd asleep =>
    obtain ⟨vals, -, ⟨⟩⟩ | ⟨-, ⟨⟩⟩ | ⟨-, ⟨⟩⟩ := attempt_cases hStep
    · exact hTurn.advance rfl fun es h => congrArg (· ++ _) h
    · exact hTurn.keep rfl fun _ h => h
    · exact hTurn.keep rfl fun _ h => h
  | copy i =>
    simp only at hStep
    split at hStep
    · cases hStep; exact hTurn.keep rfl fun _ h => h
    · cases hStep; exact hTurn.keep rfl fun _ h => h
  | sendBuf =>
    cases hStep
    generalize bytes buf = msg
    refine hTurn.advance rfl fun es h => ⟨(.read, msg), ?_⟩
    obtain rfl : es = [.request .read, .enter] := h
    rfl
  | stopRd asleep =>
    obtain ⟨vals, -, ⟨⟩⟩ | ⟨-, ⟨⟩⟩ | ⟨-, ⟨⟩⟩ := attempt_cases hStep
    · exact hTurn.finish (fun _ h => h) rfl
    · exact hTurn.keep rfl fun _ h => h
    · exact hTurn.keep rfl fun _ h => h
  | startWr asleep =>
    obtain ⟨vals, -, ⟨⟩⟩ | ⟨-, ⟨⟩⟩ | ⟨-, ⟨⟩⟩ := attempt_cases hStep
    · exact hTurn.advance rfl fun es h => congrArg (· ++ _) h
    · exact hTurn.keep rfl fun _ h => h
    · exact hTurn.keep rfl fun _ h => h
  | test =>
    simp only at hStep
    split at hStep
    · split at hStep
      · cases hStep; exact hTurn.keep rfl fun _ h => h
      · cases hStep; exact hTurn.keep rfl fun _ h => h
    · cases hStep; exact hTurn.keep rfl fun _ h => h
  | reserve => cases hStep; exact hTurn.keep rfl fun _ h => h
  | refuse =>
    simp only at hStep
    split at hStep
    · cases hStep; exact hTurn.keep rfl fun _ h => h
    · cases hStep; exact hTurn.keep rfl fun _ h => h
  | full i =>
    simp only at hStep
    split at hStep
    · split at hStep
      · cases hStep; exact hTurn.keep rfl fun _ h => h
      · cases hStep; exact hTurn.keep rfl fun _ h => h
    · cases hStep; exact hTurn.keep rfl fun _ h => h
  | sendStatus =>
    cases hStep
    refine hTurn.advance rfl fun es h => ⟨(.write index, intBytes status), ?_⟩
    obtain rfl : es = [.request (.write index), .enter] := h
    rfl
  | stopWr asleep =>
    obtain ⟨vals, -, ⟨⟩⟩ | ⟨-, ⟨⟩⟩ | ⟨-, ⟨⟩⟩ := attempt_cases hStep
    · exact hTurn.finish (fun _ h => h) rfl
    · exact hTurn.keep rfl fun _ h => h
    · exact hTurn.keep rfl fun _ h => h
  | finished => cases hStep

/-! ## The table in memory -/

/-- What a worker inside its section knows of the table in memory `d.1` and the table of
the sequential order `d.2`. -/
def Asserts (d : Table × Table) (w : Worker) : Prop :=
  match w.pc with
  | .copy i =>
    d.1 = d.2 ∧ ∀ j : Fin ARR_SIZE, j.val < i → w.buf (Fin.ofNat BUF_SIZE j) = d.2 j
  | .sendBuf => d.1 = d.2 ∧ ∀ j : Fin ARR_SIZE, w.buf (Fin.ofNat BUF_SIZE j) = d.2 j
  | .test | .stopWr _ => d.1 = d.2
  | .reserve => d.1 = d.2 ∧ ∀ h : w.index < ARR_SIZE, d.2 ⟨w.index, h⟩ ≠ ' '.toUInt8
  | .refuse => d.1 = d.2 ∧ ∀ h : w.index < ARR_SIZE, d.2 ⟨w.index, h⟩ = ' '.toUInt8
  | .full _ | .sendStatus =>
    d.1 = after d.2 (.write w.index) ∧ ∀ h : w.index < ARR_SIZE,
      w.status = if d.2 ⟨w.index, h⟩ = ' '.toUInt8 then ALREADLY_RESERVED else OK
  | .recv | .dispatch | .startRd _ | .stopRd _ | .startWr _ | .finished => True

def AtRest (d : Table × Table) : Prop := d.1 = d.2

theorem asserts_out (d : Table × Table) (w : Worker) (h : w.role = .out) : Asserts d w := by
  obtain ⟨pc, index, buf, status⟩ := w
  cases pc with
  | recv | dispatch | startRd asleep | startWr asleep | finished => trivial
  | copy i | sendBuf | stopRd asleep => cases h
  | test | reserve | refuse | full i | sendStatus | stopWr asleep => cases h

/-- What one statement does, seen from the lock `l` and the sequential table. -/
structure Follows (l : Lock) (table : Table) (sh : Shared) (w : Worker) (sh' : Shared)
    (w' : Worker) (es : List Event) : Prop where
  guard : ∃ l', Locked sh'.sems l' ∧ Advance Worker.role Asserts AtRest l l' (sh.arr, table)
    (sh'.arr, tableAfter table (replies es)) w w'
  legal : Legal table (replies es)
  blank : ∀ i, sh.arr i = ' '.toUInt8 → sh'.arr i = ' '.toUInt8

/-- A statement that touches neither the lock nor the table and does not reply. -/
theorem Follows.inside {l : Lock} {table : Table} {sh sh' : Shared} {w w' : Worker}
    {es : List Event} (hLock : Locked sh'.sems l) (hRole : w'.role = w.role)
    (hSilent : replies es = []) (hArr : sh'.arr = sh.arr)
    (hAsserts : Asserts (sh.arr, table) w') : Follows l table sh w sh' w' es := by
  have hTable : tableAfter table (replies es) = table := by rw [hSilent]; rfl
  refine ⟨⟨l, hLock, .inside hRole ?_ ?_⟩, ?_, ?_⟩
  · rw [hTable, hArr]
    exact Or.inl rfl
  · rwa [hTable, hArr]
  · rw [hSilent]
    trivial
  · rw [hArr]
    exact fun i h => h

/-- A `semop` that returns. -/
theorem Follows.cross {l l' : Lock} {table : Table} {sh : Shared} {w w' : Worker} {e : Event}
    {vals : SemSet Sem} (hLock : Locked vals l') (hMove : Move l w.role l' w'.role)
    (hSilent : replies [e] = []) (hAsserts : Asserts (sh.arr, table) w')
    (hRest : w.role = .writing → sh.arr = table) :
    Follows l table sh w { sh with sems := vals } w' [e] := by
  have hTable : tableAfter table (replies [e]) = table := by rw [hSilent]; rfl
  refine ⟨⟨l', hLock, hMove, ?_, ?_, ?_⟩, ?_, fun i h => h⟩
  · rw [hTable]
    exact Or.inl rfl
  · rwa [hTable]
  · intro hWriting _
    rw [hTable]
    exact hRest hWriting
  · rw [hSilent]
    trivial

theorem take_bytes {buf : Object BUF_SIZE} {table : Table}
    (h : ∀ j : Fin ARR_SIZE, buf (Fin.ofNat BUF_SIZE j) = table j) :
    (bytes buf).take ARR_SIZE = bytes table := by
  have hWide : ARR_SIZE ≤ BUF_SIZE := by decide
  apply List.ext_getElem
  · simp [hWide]
  · intro i hi hi'
    have hLt : i < ARR_SIZE := by
      rw [length_bytes] at hi'
      exact hi'
    have hIndex : Fin.ofNat BUF_SIZE i = ⟨i, by omega⟩ := by
      apply Fin.ext
      exact Nat.mod_eq_of_lt (by omega)
    have hCell := h ⟨i, hLt⟩
    rw [hIndex] at hCell
    simp only [bytes, List.getElem_take, List.getElem_ofFn]
    exact hCell

theorem loadArr_of_lt {arr : Table} {i : Nat} (h : i < ARR_SIZE) (stray : UInt8) :
    loadArr arr i stray = arr ⟨i, h⟩ := dif_pos h

/-- Copying one more cell. -/
theorem copied_succ {buf : Object BUF_SIZE} {table : Table} {i : Nat} (hi : i < ARR_SIZE)
    (stray : UInt8)
    (h : ∀ j : Fin ARR_SIZE, j.val < i → buf (Fin.ofNat BUF_SIZE j) = table j)
    (j : Fin ARR_SIZE) (hj : j.val < i + 1) :
    Function.update buf (Fin.ofNat BUF_SIZE i) (loadArr table i stray) (Fin.ofNat BUF_SIZE j) =
      table j := by
  have hWide : ARR_SIZE ≤ BUF_SIZE := by decide
  have hModI : i % BUF_SIZE = i := Nat.mod_eq_of_lt (by omega)
  have hModJ : j.val % BUF_SIZE = j.val := Nat.mod_eq_of_lt (by omega)
  by_cases hEq : j.val = i
  · subst hEq
    rw [Function.update_self, loadArr_of_lt j.isLt]
  · have hNe : Fin.ofNat BUF_SIZE j.val ≠ Fin.ofNat BUF_SIZE i := by
      intro hSame
      have hVal := congrArg Fin.val hSame
      rw [Fin.val_ofNat, Fin.val_ofNat, hModI, hModJ] at hVal
      exact hEq hVal
    rw [Function.update_of_ne hNe]
    exact h j (by omega)

/-- A reservation that changes nothing. -/
theorem after_write_same {table : Table} {index : Nat}
    (h : ∀ hi : index < ARR_SIZE, table ⟨index, hi⟩ = ' '.toUInt8) :
    after table (.write index) = table := by
  funext j
  show (if j.val = index then ' '.toUInt8 else table j) = table j
  split
  · next hj =>
    subst hj
    exact (h j.isLt).symm
  · rfl

theorem processClient_follows {sh sh' : Shared} {w w' : Worker} {input : Input}
    {es : List Event} {l : Lock} {table : Table} (hLock : Locked sh.sems l)
    (hAsserts : Asserts (sh.arr, table) w) (hRest : l.writers = 0 → AtRest (sh.arr, table))
    (hStep : processClient sh w input = some (sh', w', es)) :
    Follows l table sh w sh' w' es := by
  obtain ⟨pc, index, buf, status⟩ := w
  unfold processClient at hStep
  split at hStep
  · cases hStep
  cases pc with
  | recv =>
    simp only at hStep
    split at hStep
    · cases hStep; exact .inside hLock rfl rfl rfl trivial
    · cases hStep; exact .inside hLock rfl rfl rfl trivial
    · cases hStep; exact .inside hLock rfl rfl rfl trivial
  | dispatch =>
    simp only at hStep
    split at hStep
    · cases hStep; exact .inside hLock rfl rfl rfl trivial
    · cases hStep; exact .inside hLock rfl rfl rfl trivial
    · cases hStep; exact .inside hLock rfl rfl rfl trivial
  | startRd asleep =>
    obtain ⟨vals, hDone, ⟨⟩⟩ | ⟨-, ⟨⟩⟩ | ⟨-, ⟨⟩⟩ := attempt_cases hStep
    · obtain ⟨hNone, hLock'⟩ := startRd_done hLock hDone
      obtain ⟨n, m⟩ := l
      subst hNone
      refine .cross hLock' (.startRead n) rfl ⟨hRest rfl, ?_⟩ nofun
      exact fun j hj => absurd hj (Nat.not_lt_zero _)
    · exact .inside hLock rfl rfl rfl trivial
    · exact .inside hLock rfl rfl rfl trivial
  | copy i =>
    obtain ⟨hSame, hCopied⟩ := hAsserts
    simp only at hStep
    split at hStep
    · next hi =>
      cases hStep
      refine .inside hLock rfl rfl rfl ⟨hSame, fun j hj => ?_⟩
      rw [show sh.arr = table from hSame]
      exact copied_succ hi _ hCopied j hj
    · next hi =>
      cases hStep
      exact .inside hLock rfl rfl rfl ⟨hSame, fun j => hCopied j (by omega)⟩
  | sendBuf =>
    cases hStep
    obtain ⟨-, hCopied⟩ := hAsserts
    exact ⟨⟨l, hLock, .inside rfl (Or.inl rfl) trivial⟩, ⟨take_bytes hCopied, trivial⟩,
      fun i h => h⟩
  | stopRd asleep =>
    obtain ⟨vals, hDone, ⟨⟩⟩ | ⟨-, ⟨⟩⟩ | ⟨-, ⟨⟩⟩ := attempt_cases hStep
    · obtain ⟨n, hReaders, hLock'⟩ := stopRd_done hLock hDone
      obtain ⟨readers, m⟩ := l
      subst hReaders
      exact .cross hLock' (.stopRead n m) rfl trivial nofun
    · exact .inside hLock rfl rfl rfl trivial
    · exact .inside hLock rfl rfl rfl trivial
  | startWr asleep =>
    obtain ⟨vals, hDone, ⟨⟩⟩ | ⟨-, ⟨⟩⟩ | ⟨-, ⟨⟩⟩ := attempt_cases hStep
    · obtain ⟨hReaders, hWriters, hLock'⟩ := startWr_done hLock hDone
      obtain ⟨n, m⟩ := l
      subst hReaders hWriters
      exact .cross hLock' .startWrite rfl (hRest rfl) nofun
    · exact .inside hLock rfl rfl rfl trivial
    · exact .inside hLock rfl rfl rfl trivial
  | test =>
    have hSame : sh.arr = table := hAsserts
    simp only at hStep
    split at hStep
    · next hi =>
      rw [loadArr_of_lt hi] at hStep
      split at hStep
      · next hFree =>
        cases hStep
        refine .inside hLock rfl rfl rfl ⟨hSame, fun _ => ?_⟩
        rw [← hSame]
        exact hFree
      · next hBlank =>
        cases hStep
        refine .inside hLock rfl rfl rfl ⟨hSame, fun _ => ?_⟩
        rw [← hSame]
        exact not_not.mp hBlank
    · next hi =>
      cases hStep
      exact .inside hLock rfl rfl rfl ⟨hSame, fun h => absurd h hi⟩
  | reserve =>
    cases hStep
    obtain ⟨hSame, hFree⟩ := hAsserts
    refine ⟨⟨l, hLock, .inside rfl (Or.inr rfl) ⟨?_, fun h => (if_neg (hFree h)).symm⟩⟩, trivial,
      fun i h => after_blank h (.write index)⟩
    rw [← show sh.arr = table from hSame]
    rfl
  | refuse =>
    obtain ⟨hSame, hBlank⟩ := hAsserts
    have hTable : sh.arr = after table (.write index) := by
      rw [after_write_same hBlank]
      exact hSame
    simp only at hStep
    split at hStep
    · cases hStep
      exact .inside hLock rfl rfl rfl ⟨hTable, fun h => (if_pos (hBlank h)).symm⟩
    · next hOther =>
      cases hStep
      refine .inside hLock rfl rfl rfl ⟨hTable, fun h => ?_⟩
      rw [loadArr_of_lt h, show sh.arr = table from hSame] at hOther
      exact absurd (hBlank h) hOther
  | full i =>
    simp only at hStep
    split at hStep
    · split at hStep
      · cases hStep; exact .inside hLock rfl rfl rfl hAsserts
      · cases hStep; exact .inside hLock rfl rfl rfl hAsserts
    · cases hStep; exact .inside hLock rfl rfl rfl hAsserts
  | sendStatus =>
    cases hStep
    obtain ⟨hTable, hStatus⟩ := hAsserts
    refine ⟨⟨l, hLock, .inside rfl (Or.inr rfl) hTable⟩, ⟨?_, trivial⟩, fun i h => h⟩
    intro h
    exact congrArg intBytes (hStatus h)
  | stopWr asleep =>
    obtain ⟨vals, hDone, ⟨⟩⟩ | ⟨-, ⟨⟩⟩ | ⟨-, ⟨⟩⟩ := attempt_cases hStep
    · obtain ⟨m, hWriters, hLock'⟩ := stopWr_done hLock hDone
      obtain ⟨n, writers⟩ := l
      subst hWriters
      exact .cross hLock' (.stopWrite n m) rfl trivial fun _ => hAsserts
    · exact .inside hLock rfl rfl rfl hAsserts
    · exact .inside hLock rfl rfl rfl hAsserts
  | finished => cases hStep

/-! ## Whole runs -/

variable {τ : Type} [Fintype τ]

/-- The semaphores stand for a lock that guards both tables, and the replies so far are
those of the sequential table. -/
def Inv (c : Conf τ Shared Worker) (order : List (Request × List UInt8)) : Prop :=
  (∃ l, Locked c.shared.sems l ∧
    Guarded Worker.role Asserts AtRest l (c.shared.arr, tableAfter initArr order) c.procs) ∧
  Legal initArr order

theorem inv_init (locals : τ → Nat × Object BUF_SIZE × BitVec 32) : Inv (init locals) [] := by
  refine ⟨⟨⟨0, 0⟩, locked_init, owned_init fun t => rfl, fun t => ?_, fun _ => rfl⟩, trivial⟩
  exact asserts_out _ _ rfl

variable [DecidableEq τ]

theorem Inv.step {c : Conf τ Shared Worker} {order : List (Request × List UInt8)} {t : τ}
    {input : Input} {sh : Shared} {w : Worker} {es : List Event} (hInv : Inv c order)
    (hStep : processClient c.shared (c.procs t) input = some (sh, w, es)) :
    Inv ⟨sh, Function.update c.procs t w⟩ (order ++ replies es) ∧
      ∀ i, c.shared.arr i = ' '.toUInt8 → sh.arr i = ' '.toUInt8 := by
  obtain ⟨⟨l, hLock, hGuarded⟩, hLegal⟩ := hInv
  have hFollows := processClient_follows hLock (hGuarded.asserted t) hGuarded.rest hStep
  obtain ⟨l', hLock', hAdvance⟩ := hFollows.guard
  refine ⟨⟨⟨l', hLock', ?_⟩, legal_append.mpr ⟨hLegal, hFollows.legal⟩⟩, hFollows.blank⟩
  rw [tableAfter_append]
  exact hGuarded.advance asserts_out hAdvance

/-- The replies of all workers, in order. -/
def order (h : List (τ × Event)) : List (Request × List UInt8) := replies (h.map Prod.snd)

omit [Fintype τ] [DecidableEq τ] in
theorem order_append (h : List (τ × Event)) (t : τ) (es : List Event) :
    order (h ++ es.map (Prod.mk t)) = order h ++ replies es := by
  rw [order, List.map_append, List.map_map, replies_append]
  congr 2
  exact List.map_id es

theorem serve_inv (locals : τ → Nat × Object BUF_SIZE × BitVec 32) (sched : List (τ × Input)) :
    Inv (serve locals sched).1 (order (serve locals sched).2) := by
  refine pool_invariant (P := fun c h => Inv c (order h)) (inv_init locals) ?_ sched
  intro c h t input sh w es hInv hStep
  rw [order_append]
  exact (hInv.step hStep).1

theorem serve_blank (locals : τ → Nat × Object BUF_SIZE × BitVec 32) (sched more : List (τ × Input))
    {i : Fin ARR_SIZE} (h : (serve locals sched).1.shared.arr i = ' '.toUInt8) :
    (serve locals (sched ++ more)).1.shared.arr i = ' '.toUInt8 := by
  rw [serve, run_append]
  refine (resume_invariant
    (P := fun c h => Inv c (order h) ∧ c.shared.arr i = ' '.toUInt8) ?_
    ⟨serve_inv locals sched, h⟩ more).2
  intro c h a c' es hInv hStep
  obtain ⟨sh, w, own, hMove, rfl, rfl⟩ := poolStep_eq_some hStep
  rw [order_append]
  exact ⟨(hInv.1.step hMove).1, (hInv.1.step hMove).2 i hInv.2⟩

omit [Fintype τ] in
theorem serve_sectioned (locals : τ → Nat × Object BUF_SIZE × BitVec 32)
    (sched : List (τ × Input)) (t : τ) : Sectioned (own t (serve locals sched).2) := by
  refine InTurn.sectioned (w := (serve locals sched).1.procs t) ?_
  refine local_invariant (Q := InTurn) (c := init locals) (fun t => ⟨[], [], rfl, rfl⟩) ?_ sched t
  intro sh w input sh' w' es h hTurn hStep
  exact processClient_inTurn hTurn hStep

/-- In every run the replies, in their order, are those of the sequential table, and each
is sent inside the section of its request; whenever nobody is inside, the table in memory
is the sequential one; every cell is granted at most once and, once reserved, stays so. -/
theorem reservations_linearizable (locals : τ → Nat × Object BUF_SIZE × BitVec 32)
    (sched : List (τ × Input)) :
    let r := serve locals sched
    Legal initArr (order r.2) ∧
      (∀ t, Sectioned (own t r.2)) ∧
      ((∀ t, (r.1.procs t).role = .out) → r.1.shared.arr = tableAfter initArr (order r.2)) ∧
      (∀ i : Fin ARR_SIZE, (order r.2).count (.write i, intBytes OK) ≤ 1) ∧
      ∀ (more : List (τ × Input)) (i : Fin ARR_SIZE), r.1.shared.arr i = ' '.toUInt8 →
        (serve locals (sched ++ more)).1.shared.arr i = ' '.toUInt8 := by
  obtain ⟨⟨l, -, hGuarded⟩, hLegal⟩ := serve_inv locals sched
  refine ⟨hLegal, serve_sectioned locals sched, ?_, ?_, fun more i => serve_blank locals sched more⟩
  · intro hOut
    apply hGuarded.rest
    rw [hGuarded.owned.writers, count_eq_zero]
    intro t hWriting
    rw [hOut t] at hWriting
    cases hWriting
  · intro i
    refine (hLegal.grants i).trans ?_
    split <;> omega

/-- Two workers are asked for letter 3, one after the other. -/
example : order (serve (fun _ => (0, fun _ => 0, 0)) (List.replicate 9
    (false, ⟨.data [119, 3], 0⟩) ++ List.replicate 8 (true, ⟨.data [119, 3], 0⟩))).2 =
    [(.write 3, intBytes OK), (.write 3, intBytes ALREADLY_RESERVED)] := by
  decide +kernel

end OsLabs.Mt
