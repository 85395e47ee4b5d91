import OsLabs.Runs.Pool
import OsLabs.Stdio.Scanf

/-!
# Two streams over one descriptor (`lab_buf_io/src/app1_threads.c`)

Both streams have a buffer of 20 bytes. A stream whose buffer is empty reads the next bytes of the
file, from the offset that both share. In `app1_threads.c` each of two threads reads its stream
with `"%c\n"` and prints what it has read; in `app1.c` the format is `"%c"`. The white space in the
format skips white space in the file, and looks at the next byte to see whether it is any.
-/

namespace OsLabs.BufIo

open Runs Stdio

/-- What `read` returns for a buffer of 20 bytes. -/
def readBytes (content : List UInt8) (offset : Nat) : List UInt8 := (content.drop offset).take 20

inductive Stream where
  | fs1
  | fs2
deriving DecidableEq

/-- Where a thread is: in `fscanf` at `%c` or, with the character that it has read, at `\n`, or at
`fprintf`. -/
inductive Pc where
  | scan
  | skip (c : UInt8)
  | print (c : UInt8)
  | done
deriving DecidableEq

/-- What has not been taken from the buffer yet. -/
structure Local where
  buffer : List UInt8
  pc : Pc
deriving DecidableEq

inductive Event where
  | read (bytes : List UInt8)
  | print (c : UInt8)
deriving DecidableEq

/-- `white` says whether the format ends in white space. -/
def step (content : List UInt8) (white : Bool) (offset : Nat) (l : Local) (_ : Unit) :
    Option (Nat × Local × List Event) :=
  match l.pc, l.buffer with
  | .scan, c :: rest => some (offset, ⟨rest, if white then .skip c else .print c⟩, [])
  | .scan, [] =>
    if readBytes content offset = [] then some (offset, ⟨[], .done⟩, [])
    else some (offset + (readBytes content offset).length, ⟨readBytes content offset, .scan⟩,
      [.read (readBytes content offset)])
  | .skip c, b :: rest =>
    if isSpace b then some (offset, ⟨rest, .skip c⟩, [])
    else some (offset, ⟨b :: rest, .print c⟩, [])
  | .skip c, [] =>
    if readBytes content offset = [] then some (offset, ⟨[], .print c⟩, [])
    else some (offset + (readBytes content offset).length, ⟨readBytes content offset, .skip c⟩,
      [.read (readBytes content offset)])
  | .print c, buffer => some (offset, ⟨buffer, .scan⟩, [.print c])
  | .done, _ => none

def init : Conf Stream Nat Local := ⟨0, fun _ => ⟨[], .scan⟩⟩

def execute (content : List UInt8) (white : Bool) (sched : List (Stream × Unit)) :
    Conf Stream Nat Local × List (Stream × Event) :=
  run (poolStep (step content white)) init sched

/-! ## What is read and printed -/

/-- The bytes of a `read`. -/
def Event.bytes : Event → Option (List UInt8)
  | .read bytes => some bytes
  | .print _ => none

def Event.printed : Event → Option UInt8
  | .read _ => none
  | .print c => some c

/-- The calls of `read` of both threads. -/
def reads (h : List (Stream × Event)) : List (Stream × List UInt8) :=
  h.filterMap fun e => e.2.bytes.map fun bytes => (e.1, bytes)

/-- What both threads have printed. -/
def printed (h : List (Stream × Event)) : List UInt8 := h.filterMap fun e => e.2.printed

/-- What the thread of one stream has printed. -/
def printedBy (s : Stream) (h : List (Stream × Event)) : List UInt8 :=
  (own s h).filterMap Event.printed

/-- What the thread of one stream has read. -/
def readBy (s : Stream) (h : List (Stream × Event)) : List UInt8 := (own s (reads h)).flatten

/-- The character that a thread has read and not printed. -/
def Pc.pending : Pc → List UInt8
  | .skip c | .print c => [c]
  | .scan | .done => []

variable {content : List UInt8} {white : Bool}

/-- What a step can do. Only the refill looks at the offset. -/
inductive Moves (content : List UInt8) (white : Bool) (offset : Nat) (l : Local) :
    Nat → Local → List Event → Prop
  | refill (hBuffer : l.buffer = []) (hPc : l.pc ≠ .done) (hMore : readBytes content offset ≠ []) :
    Moves content white offset l (offset + (readBytes content offset).length)
      ⟨readBytes content offset, l.pc⟩ [.read (readBytes content offset)]
  | stays {l' : Local} (hSame : l'.pc.pending ++ l'.buffer = l.pc.pending ++ l.buffer)
    (hKeep : ∀ b ∈ l'.buffer, b ∈ l.buffer) (hSkip : ∀ c, l'.pc = .skip c → white = true)
    (hDone : l'.pc = .done → l'.buffer = [] ∧ readBytes content offset = []) :
    Moves content white offset l offset l' []
  | prints {c : UInt8} (hPc : l.pc = .print c) :
    Moves content white offset l offset ⟨l.buffer, .scan⟩ [.print c]

/-- No white space is skipped if there is none in the buffer. -/
theorem moves_of_step {offset offset' : Nat} {l l' : Local} {es : List Event} {u : Unit}
    (hSpace : white = true → ∀ b ∈ l.buffer, isSpace b = false)
    (hSkip : ∀ c, l.pc = .skip c → white = true)
    (h : step content white offset l u = some (offset', l', es)) :
    Moves content white offset l offset' l' es := by
  obtain ⟨buffer, pc⟩ := l
  cases pc with
  | scan =>
    cases buffer with
    | nil =>
      simp only [step] at h
      split at h
      · next hEnd =>
        cases h
        exact .stays rfl nofun nofun fun _ => ⟨rfl, hEnd⟩
      · next hMore =>
        cases h
        exact .refill rfl nofun hMore
    | cons c rest =>
      cases h
      cases white with
      | false => exact .stays rfl (fun _ => List.mem_cons_of_mem c) nofun nofun
      | true => exact .stays rfl (fun _ => List.mem_cons_of_mem c) (fun _ _ => rfl) nofun
  | skip c =>
    cases buffer with
    | nil =>
      simp only [step] at h
      split at h
      · cases h
        exact .stays rfl nofun nofun nofun
      · next hMore =>
        cases h
        exact .refill rfl nofun hMore
    | cons b rest =>
      have hByte : isSpace b = false := hSpace (hSkip c rfl) b List.mem_cons_self
      simp only [step, hByte, Bool.false_eq_true, if_false] at h
      cases h
      exact .stays rfl (fun _ => id) nofun nofun
  | print c =>
    cases h
    exact .prints rfl
  | done => cases h

/-! ## Longer histories -/

theorem reads_append (h h' : List (Stream × Event)) : reads (h ++ h') = reads h ++ reads h' :=
  List.filterMap_append

theorem readBy_append_read (s t : Stream) (h : List (Stream × Event)) (bytes : List UInt8) :
    readBy s (h ++ [(t, .read bytes)]) = readBy s h ++ if t = s then bytes else [] := by
  have hOne : reads [(t, Event.read bytes)] = [bytes].map (Prod.mk t) := rfl
  rw [readBy, reads_append, hOne]
  by_cases hEq : t = s
  · subst hEq
    rw [own_append_self, List.flatten_append, if_pos rfl]
    simp [readBy]
  · rw [own_append_ne hEq, if_neg hEq, List.append_nil]
    rfl

theorem readBy_append_print (s t : Stream) (h : List (Stream × Event)) (c : UInt8) :
    readBy s (h ++ [(t, .print c)]) = readBy s h := by
  rw [readBy, reads_append, readBy]
  exact congrArg (fun l => (own s l).flatten) (List.append_nil (reads h))

theorem printedBy_append_read (s t : Stream) (h : List (Stream × Event)) (bytes : List UInt8) :
    printedBy s (h ++ [(t, .read bytes)]) = printedBy s h := by
  have hOne : [(t, Event.read bytes)] = [Event.read bytes].map (Prod.mk t) := rfl
  rw [printedBy, hOne]
  by_cases hEq : t = s
  · subst hEq
    rw [own_append_self, List.filterMap_append]
    exact List.append_nil _
  · rw [own_append_ne hEq]
    rfl

theorem printedBy_append_print (s t : Stream) (h : List (Stream × Event)) (c : UInt8) :
    printedBy s (h ++ [(t, .print c)]) = printedBy s h ++ if t = s then [c] else [] := by
  have hOne : [(t, Event.print c)] = [Event.print c].map (Prod.mk t) := rfl
  rw [printedBy, hOne]
  by_cases hEq : t = s
  · subst hEq
    rw [own_append_self, List.filterMap_append, if_pos rfl]
    rfl
  · rw [own_append_ne hEq, if_neg hEq, List.append_nil]
    rfl

/-! ## All bytes -/

theorem take_readBytes (content : List UInt8) (offset : Nat) :
    content.take (offset + (readBytes content offset).length) =
      content.take offset ++ readBytes content offset := by
  rw [List.take_add, readBytes, List.length_take]
  congr 1
  exact (List.take_eq_take_min ..).symm

theorem length_readBytes (content : List UInt8) (offset : Nat) :
    (readBytes content offset).length = min 20 (content.length - offset) := by
  rw [readBytes, List.length_take, List.length_drop]

theorem mem_readBytes {offset : Nat} {b : UInt8} (h : b ∈ readBytes content offset) :
    b ∈ content :=
  List.mem_of_mem_drop (List.mem_of_mem_take h)

/-- One thread has printed what it has read, up to what is still in its buffer. -/
structure Local.Inv (content : List UInt8) (white : Bool) (offset : Nat)
    (hasRead hasPrinted : List UInt8) (l : Local) : Prop where
  own : hasRead = hasPrinted ++ (l.pc.pending ++ l.buffer)
  buffer : ∀ b ∈ l.buffer, b ∈ content
  skip : ∀ c, l.pc = .skip c → white = true
  done : l.pc = .done → l.buffer = [] ∧ offset = content.length

/-- Nothing is lost: what has been read of the file is what both threads have read. -/
structure Inv (content : List UInt8) (white : Bool) (c : Conf Stream Nat Local)
    (h : List (Stream × Event)) : Prop where
  offset : c.shared ≤ content.length
  reads : ((reads h).map Prod.snd).flatten = content.take c.shared
  limit : ∀ r ∈ BufIo.reads h, r.2.length ≤ 20
  procs : ∀ s, (c.procs s).Inv content white c.shared (readBy s h) (printedBy s h)

theorem inv_init (content : List UInt8) (white : Bool) : Inv content white init [] where
  offset := Nat.zero_le _
  reads := rfl
  limit := nofun
  procs _ := ⟨rfl, nofun, nofun, nofun⟩

section

variable {c : Conf Stream Nat Local} {h : List (Stream × Event)} {t : Stream}

theorem Inv.refill (hInv : Inv content white c h) (hBuffer : (c.procs t).buffer = [])
    (hPc : (c.procs t).pc ≠ .done) (hMore : readBytes content c.shared ≠ []) :
    Inv content white ⟨c.shared + (readBytes content c.shared).length,
      Function.update c.procs t ⟨readBytes content c.shared, (c.procs t).pc⟩⟩
      (h ++ [(t, .read (readBytes content c.shared))]) := by
  have hOffset := hInv.offset
  have hLength := length_readBytes content c.shared
  have hLess : c.shared < content.length := by
    have hPos := List.length_pos_of_ne_nil hMore
    omega
  have hShared : c.shared + (readBytes content c.shared).length ≤ content.length := by omega
  refine ⟨hShared, ?_, ?_, fun s => ?_⟩
  · rw [reads_append, List.map_append, List.flatten_append, hInv.reads]
    dsimp only
    rw [take_readBytes]
    congr 1
    exact List.append_nil _
  · rw [reads_append]
    intro r hr
    rcases List.mem_append.mp hr with hr | hr
    · exact hInv.limit r hr
    · rw [List.mem_singleton.mp hr]
      exact hLength ▸ Nat.min_le_left ..
  · rw [readBy_append_read, printedBy_append_read]
    dsimp only
    by_cases hEq : s = t
    · subst hEq
      obtain ⟨hOwn, -, hWhite, -⟩ := hInv.procs s
      rw [Function.update_self, if_pos rfl]
      refine ⟨?_, fun b hb => mem_readBytes hb, hWhite, fun hDone => absurd hDone hPc⟩
      rw [hOwn, hBuffer, List.append_nil, List.append_assoc]
    · obtain ⟨hOwn, hBytes, hWhite, hEnd⟩ := hInv.procs s
      rw [Function.update_of_ne hEq, if_neg (Ne.symm hEq), List.append_nil]
      -- A thread that is done has seen the end of the file.
      refine ⟨hOwn, hBytes, hWhite, fun hDone => ?_⟩
      have hLast := (hEnd hDone).2
      omega

theorem Inv.stays (hInv : Inv content white c h) {l : Local}
    (hSame : l.pc.pending ++ l.buffer = (c.procs t).pc.pending ++ (c.procs t).buffer)
    (hKeep : ∀ b ∈ l.buffer, b ∈ (c.procs t).buffer) (hSkip : ∀ b, l.pc = .skip b → white = true)
    (hDone : l.pc = .done → l.buffer = [] ∧ readBytes content c.shared = []) :
    Inv content white ⟨c.shared, Function.update c.procs t l⟩ h := by
  have hOffset := hInv.offset
  have hLength := length_readBytes content c.shared
  refine ⟨hOffset, hInv.reads, hInv.limit, fun s => ?_⟩
  dsimp only
  by_cases hEq : s = t
  · subst hEq
    obtain ⟨hOwn, hBytes, -, -⟩ := hInv.procs s
    rw [Function.update_self]
    refine ⟨hSame ▸ hOwn, fun b hb => hBytes b (hKeep b hb), hSkip, fun hPc => ?_⟩
    obtain ⟨hBuffer, hLast⟩ := hDone hPc
    refine ⟨hBuffer, ?_⟩
    rw [hLast, List.length_nil] at hLength
    omega
  · rw [Function.update_of_ne hEq]
    exact hInv.procs s

theorem Inv.prints (hInv : Inv content white c h) {b : UInt8} (hPc : (c.procs t).pc = .print b) :
    Inv content white ⟨c.shared, Function.update c.procs t ⟨(c.procs t).buffer, .scan⟩⟩
      (h ++ [(t, .print b)]) := by
  have hReads : BufIo.reads (h ++ [(t, .print b)]) = BufIo.reads h := by
    rw [reads_append]
    exact List.append_nil _
  refine ⟨hInv.offset, hReads ▸ hInv.reads, hReads ▸ hInv.limit, fun s => ?_⟩
  rw [readBy_append_print, printedBy_append_print]
  dsimp only
  by_cases hEq : s = t
  · subst hEq
    obtain ⟨hOwn, hBytes, -, -⟩ := hInv.procs s
    rw [Function.update_self, if_pos rfl]
    refine ⟨?_, hBytes, nofun, nofun⟩
    rw [hOwn, hPc, List.append_assoc]
    rfl
  · rw [Function.update_of_ne hEq, if_neg (Ne.symm hEq), List.append_nil]
    exact hInv.procs s

theorem Inv.step (hInv : Inv content white c h) {offset : Nat} {l : Local} {es : List Event}
    (hMoves : Moves content white c.shared (c.procs t) offset l es) :
    Inv content white ⟨offset, Function.update c.procs t l⟩ (h ++ es.map (Prod.mk t)) := by
  cases hMoves with
  | refill hBuffer hPc hMore => exact hInv.refill hBuffer hPc hMore
  | stays hSame hKeep hSkip hDone =>
    rw [List.map_nil, List.append_nil]
    exact hInv.stays hSame hKeep hSkip hDone
  | prints hPc => exact hInv.prints hPc

end

theorem inv_execute (content : List UInt8) (white : Bool)
    (hSpace : white = true → ∀ b ∈ content, isSpace b = false) (sched : List (Stream × Unit)) :
    Inv content white (execute content white sched).1 (execute content white sched).2 := by
  refine pool_invariant (P := Inv content white) (inv_init content white) ?_ sched
  intro c h t u offset l es hInv hStep
  obtain ⟨hOwn, hBytes, hWhite, hEnd⟩ := hInv.procs t
  exact hInv.step (moves_of_step (fun hFormat b hb => hSpace hFormat b (hBytes b hb)) hWhite hStep)

/-! ## The two shares of a list -/

theorem own_eq_map_filter {α : Type} (s : Stream) (l : List (Stream × α)) :
    own s l = (l.filter fun e => decide (e.1 = s)).map Prod.snd := by
  induction l with
  | nil => rfl
  | cons e rest ih =>
    by_cases hEq : e.1 = s
    · simp only [List.filter_cons, hEq, decide_true, if_true, List.map_cons, ← ih]
      exact List.filterMap_cons_some (if_pos hEq)
    · simp only [List.filter_cons, hEq, decide_false, Bool.false_eq_true, if_false, ← ih]
      exact List.filterMap_cons_none (if_neg hEq)

theorem own_sublist {α : Type} (s : Stream) (l : List (Stream × α)) :
    (own s l).Sublist (l.map Prod.snd) := by
  rw [own_eq_map_filter]
  exact List.filter_sublist.map Prod.snd

theorem perm_own {α : Type} (l : List (Stream × α)) :
    (l.map Prod.snd).Perm (own .fs1 l ++ own .fs2 l) := by
  have hOther : ∀ s : Stream, (!decide (s = .fs1)) = decide (s = .fs2) := by
    intro s
    cases s <;> rfl
  rw [own_eq_map_filter, own_eq_map_filter, ← List.map_append]
  refine List.Perm.map Prod.snd (List.Perm.symm ?_)
  have hParts := List.filter_append_perm (fun e : Stream × α => decide (e.1 = .fs1)) l
  simp only [hOther] at hParts
  exact hParts

theorem printed_perm (h : List (Stream × Event)) :
    (printed h).Perm (printedBy .fs1 h ++ printedBy .fs2 h) := by
  have hAll : printed h = (h.map Prod.snd).filterMap Event.printed := by
    rw [List.filterMap_map]
    rfl
  rw [hAll, printedBy, printedBy, ← List.filterMap_append]
  exact (perm_own h).filterMap Event.printed

/-! ## When both threads have ended -/

section Ended

variable {c : Conf Stream Nat Local} {h : List (Stream × Event)}
  (hInv : Inv content white c h) (hDone : ∀ s, (c.procs s).pc = .done)

include hInv hDone

theorem Inv.printedBy_eq (s : Stream) : printedBy s h = readBy s h := by
  have hOwn := (hInv.procs s).own
  rw [hDone s, ((hInv.procs s).done (hDone s)).1] at hOwn
  exact (hOwn.trans (List.append_nil _)).symm

theorem Inv.reads_eq : ((BufIo.reads h).map Prod.snd).flatten = content := by
  rw [hInv.reads, ((hInv.procs .fs1).done (hDone .fs1)).2, List.take_length]

theorem Inv.printedBy_sublist (s : Stream) : (printedBy s h).Sublist content := by
  rw [hInv.printedBy_eq hDone s]
  conv_rhs => rw [← hInv.reads_eq hDone]
  exact (own_sublist s (BufIo.reads h)).flatten

theorem Inv.printed_perm : (printed h).Perm content := by
  refine (BufIo.printed_perm h).trans ?_
  rw [hInv.printedBy_eq hDone, hInv.printedBy_eq hDone, readBy, readBy, ← List.flatten_append]
  conv_rhs => rw [← hInv.reads_eq hDone]
  exact (perm_own (BufIo.reads h)).symm.flatten

end Ended

end OsLabs.BufIo
