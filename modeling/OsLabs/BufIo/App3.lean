import Mathlib.Data.List.Forall2
import Mathlib.Data.List.Induction
import Mathlib.Data.List.TakeDrop
import Mathlib.Logic.Function.Basic
import OsLabs.Memory.Letters

/-!
# Two descriptors on one file (`lab_buf_io/src/app3_buf.c`, `app3_non_buf.c`)

Both programs open `3.txt` twice and write the letters to the two descriptors in turn, each from the
beginning of the file. `app3_non_buf.c` calls `write`, so the letters of `fd2` cover those of `fd1`.
In `app3_buf.c` they go through streams, and it depends on the moments at which these are flushed
which letter is written last. `print_stat` is represented by the size that it prints.
-/

namespace OsLabs.BufIo.App3

open Memory

inductive Fd where
  | fd1
  | fd2
deriving DecidableEq

/-- `write` at an offset; a gap behind the end of the file is filled with zeros. -/
def writeAt (file : List UInt8) (offset : Nat) (bytes : List UInt8) : List UInt8 :=
  file.takeD offset 0 ++ bytes ++ file.drop (offset + bytes.length)

/-- The descriptor that the loop of `main` chooses. -/
def choose (c : UInt8) : Fd := if c.toNat % 2 = 1 then .fd1 else .fd2

/-! ## `app3_non_buf.c` -/

structure Files where
  file : List UInt8
  offset : Fd → Nat

/-- `write(fd, &c, 1)`. -/
def write (s : Files) (c : UInt8) : Files :=
  ⟨writeAt s.file (s.offset (choose c)) [c],
    Function.update s.offset (choose c) (s.offset (choose c) + 1)⟩

/-- The file after `n` calls. -/
def written (content : List UInt8) (n : Nat) : Files :=
  (letters n).foldl write ⟨content, fun _ => 0⟩

/-- The file that is left, and the sizes printed before the loop, after every call, and after each
call of `close`. -/
def nonBuf (content : List UInt8) : List UInt8 × List Nat :=
  let closed := (written content 26).file
  (closed, (List.range 27).map (fun n => (written content n).file.length) ++
    [closed.length, closed.length])

/-! ## `app3_buf.c` -/

/-- A stream with the offset of its descriptor. -/
structure Stream where
  offset : Nat
  buffer : List UInt8

structure State where
  file : List UInt8
  stream : Fd → Stream

def flush (s : State) (fd : Fd) : State :=
  ⟨writeAt s.file (s.stream fd).offset (s.stream fd).buffer,
    Function.update s.stream fd ⟨(s.stream fd).offset + (s.stream fd).buffer.length, []⟩⟩

/-- A byte is put into the buffer. -/
def put (s : State) (c : UInt8) : State :=
  ⟨s.file, Function.update s.stream (choose c)
    ⟨(s.stream (choose c)).offset, (s.stream (choose c)).buffer ++ [c]⟩⟩

/-- `fprintf(fd, "%c", c)` with a buffer of `size` bytes, which is written when it is full and one
more byte comes. -/
def fprintf (size : Nat) (s : State) (c : UInt8) : State :=
  if (s.stream (choose c)).buffer.length = size then put (flush s (choose c)) c else put s c

def opened (content : List UInt8) : State := ⟨content, fun _ => ⟨0, []⟩⟩

/-- Both calls of `fclose`. -/
def close (s : State) : State := flush (flush s .fd1) .fd2

/-- The streams after `n` calls. -/
def printed (size : Nat) (content : List UInt8) (n : Nat) : State :=
  (letters n).foldl (fprintf size) (opened content)

def buf (size : Nat) (content : List UInt8) : List UInt8 × List Nat :=
  let last := printed size content 26
  ((close last).file, (List.range 27).map (fun n => (printed size content n).file.length) ++
    [(flush last .fd1).file.length, (close last).file.length])

/-! ## One text over another -/

/-- The bytes of `top`, and behind them those of `bottom`. -/
def cover (top bottom : List UInt8) : List UInt8 := top ++ bottom.drop top.length

variable {file top bottom bytes : List UInt8} {offset p : Nat}

theorem length_cover : (cover top bottom).length = max top.length bottom.length := by
  rw [cover, List.length_append, List.length_drop]
  omega

theorem length_writeAt :
    (writeAt file offset bytes).length = max file.length (offset + bytes.length) := by
  rw [writeAt, List.length_append, List.length_append, List.takeD_length, List.length_drop]
  omega

theorem writeAt_cover :
    writeAt (cover top bottom) top.length bytes = cover (top ++ bytes) bottom := by
  rw [writeAt, cover, List.takeD_left, cover, List.length_append, List.drop_length_add_append,
    List.drop_drop]

/-- What is written further behind goes underneath. -/
theorem writeAt_cover_behind (hTop : top.length ≤ offset) (hBottom : offset ≤ bottom.length) :
    writeAt (cover top bottom) offset bytes = cover top (writeAt bottom offset bytes) := by
  obtain ⟨d, rfl⟩ := Nat.exists_eq_add_of_le hTop
  have hLength : top.length + d ≤ (cover top bottom).length := by
    rw [length_cover]
    omega
  have hTaken : top.length ≤ (bottom.take (top.length + d)).length := by
    rw [List.length_take]
    omega
  have hAppended : top.length ≤ (bottom.take (top.length + d) ++ bytes).length := by
    rw [List.length_append]
    omega
  rw [writeAt, List.takeD_eq_take _ hLength, writeAt, List.takeD_eq_take _ hBottom, cover, cover,
    List.take_length_add_append, Nat.add_assoc, List.drop_length_add_append, List.drop_drop,
    List.drop_append_of_le_length hAppended, List.drop_append_of_le_length hTaken, List.drop_take,
    Nat.add_sub_cancel_left]
  simp only [List.append_assoc]

theorem getElem?_writeAt (hOffset : offset ≤ file.length) :
    (writeAt file offset bytes)[p]? =
      if offset ≤ p ∧ p < offset + bytes.length then bytes[p - offset]? else file[p]? := by
  have hTaken : (file.take offset).length = offset := by
    rw [List.length_take]
    omega
  rw [writeAt, List.takeD_eq_take _ hOffset, List.append_assoc]
  split
  · next hIn =>
    rw [List.getElem?_append_right (by omega), hTaken, List.getElem?_append_left (by omega)]
  · next hOut =>
    rcases Nat.lt_or_ge p offset with hBefore | hBehind
    · rw [List.getElem?_append_left (by omega), List.getElem?_take_of_lt hBefore]
    · rw [List.getElem?_append_right (by omega), hTaken, List.getElem?_append_right (by omega),
        List.getElem?_drop]
      congr 1
      omega

/-! ## What has been written -/

/-- What goes to a descriptor. -/
def out (fd : Fd) (text : List UInt8) : List UInt8 := text.filter (choose · = fd)

theorem out_snoc (fd : Fd) (text : List UInt8) (c : UInt8) :
    out fd (text ++ [c]) = if choose c = fd then out fd text ++ [c] else out fd text := by
  rw [out, List.filter_append]
  split
  · next hChoose => rw [List.filter_cons_of_pos (by simpa using hChoose), List.filter_nil]; rfl
  · next hOther =>
    rw [List.filter_cons_of_neg (by simpa using hOther), List.filter_nil, List.append_nil]
    rfl

/-- `w` is what has been written of `text`, and the rest is in the buffers. -/
structure Written (text : List UInt8) (s : State) (w : Fd → List UInt8) : Prop where
  offset : ∀ fd, (s.stream fd).offset = (w fd).length
  all : ∀ fd, w fd ++ (s.stream fd).buffer = out fd text
  inFile : ∀ fd, (w fd).length ≤ s.file.length

/-- `fd2` has not got ahead of `fd1`, and covers it. -/
structure Covered (content : List UInt8) (s : State) (w : Fd → List UInt8) : Prop where
  file : s.file = cover (w .fd2) (cover (w .fd1) content)
  behind : (w .fd2).length ≤ (w .fd1).length

variable {content text : List UInt8} {s : State} {w : Fd → List UInt8} {fd : Fd} {c : UInt8}

theorem put_stream (s : State) (c : UInt8) (fd : Fd) :
    (put s c).stream fd = if fd = choose c then
      ⟨(s.stream fd).offset, (s.stream fd).buffer ++ [c]⟩ else s.stream fd := by
  simp only [put, Function.update_apply]
  split
  · next hEq => rw [hEq]
  · rfl

theorem flush_stream (s : State) (fd fd' : Fd) :
    (flush s fd).stream fd' = if fd' = fd then
      ⟨(s.stream fd).offset + (s.stream fd).buffer.length, []⟩ else s.stream fd' :=
  Function.update_apply ..

theorem Written.put (h : Written text s w) (c : UInt8) : Written (text ++ [c]) (put s c) w := by
  constructor
  · intro fd
    rw [← h.offset fd, put_stream]
    split <;> rfl
  · intro fd
    rw [out_snoc, ← h.all fd, put_stream]
    by_cases hEq : fd = choose c
    · rw [if_pos hEq, if_pos hEq.symm, List.append_assoc]
    · rw [if_neg hEq, if_neg (Ne.symm hEq)]
  · exact h.inFile

theorem Written.flush (h : Written text s w) (fd : Fd) :
    Written text (flush s fd) (Function.update w fd (out fd text)) := by
  constructor
  · intro fd'
    rw [flush_stream, Function.update_apply]
    split
    · rw [← h.all fd, List.length_append, h.offset fd]
    · exact h.offset fd'
  · intro fd'
    rw [flush_stream, Function.update_apply]
    split
    · next hEq => rw [List.append_nil, hEq]
    · exact h.all fd'
  · intro fd'
    have hLength := congrArg List.length (h.all fd)
    have hInFile := h.inFile fd'
    rw [List.length_append] at hLength
    rw [App3.flush, length_writeAt, Function.update_apply, h.offset fd]
    split
    · omega
    · omega

/-- A stream has written no more than it got. -/
theorem Written.length_le (h : Written text s w) (fd : Fd) :
    (w fd).length ≤ (out fd text).length := by
  rw [← h.all fd, List.length_append]
  omega

/-- What a flush of `fd1` writes goes underneath; what one of `fd2` writes comes on top. -/
theorem Covered.flush (h : Covered content s w) (hWritten : Written text s w) (fd : Fd)
    (hBehind : fd = .fd2 → (out .fd2 text).length ≤ (w .fd1).length) :
    Covered content (flush s fd) (Function.update w fd (out fd text)) := by
  cases fd with
  | fd1 =>
    refine ⟨?_, ?_⟩
    · rw [App3.flush, Function.update_self, Function.update_of_ne (by decide), hWritten.offset,
        h.file, writeAt_cover_behind h.behind (by rw [length_cover]; omega), writeAt_cover,
        hWritten.all]
    · rw [Function.update_self, Function.update_of_ne (by decide)]
      exact Nat.le_trans h.behind (hWritten.length_le .fd1)
  | fd2 =>
    refine ⟨?_, ?_⟩
    · rw [App3.flush, Function.update_self, Function.update_of_ne (by decide), hWritten.offset,
        h.file, writeAt_cover, hWritten.all]
    · rw [Function.update_self, Function.update_of_ne (by decide)]
      exact hBehind rfl

/-- What `fclose` leaves. -/
theorem Covered.close (h : Covered content s w) (hWritten : Written text s w)
    (hBehind : (out .fd2 text).length ≤ (out .fd1 text).length) :
    (close s).file = cover (out .fd2 text) (cover (out .fd1 text) content) := by
  have hClosed := (h.flush hWritten .fd1 nofun).flush (hWritten.flush .fd1) .fd2
    fun _ => by rwa [Function.update_self]
  rw [App3.close, hClosed.file]
  simp [Function.update_of_ne]

theorem length_covered (h : Covered content s w) (hWritten : Written text s w) :
    s.file.length = max content.length (s.stream .fd1).offset := by
  have hBehind := h.behind
  rw [h.file, length_cover, length_cover, hWritten.offset]
  omega

/-! ## The letters -/

/-- They take turns. -/
theorem choose_letter {n : Nat} (hn : n < 26) :
    (choose (letter n) = .fd1 ∧ (out .fd1 (letters n)).length = (out .fd2 (letters n)).length) ∨
      (choose (letter n) = .fd2 ∧
        (out .fd1 (letters n)).length = (out .fd2 (letters n)).length + 1) := by
  have hTable : ∀ n : Fin 26,
      (choose (letter n) = .fd1 ∧ (out .fd1 (letters n)).length = (out .fd2 (letters n)).length) ∨
        (choose (letter n) = .fd2 ∧
          (out .fd1 (letters n)).length = (out .fd2 (letters n)).length + 1) := by decide
  exact hTable ⟨n, hn⟩

theorem out_letters_succ (n : Nat) :
    out (choose (letter n)) (letters (n + 1)) = out (choose (letter n)) (letters n) ++ [letter n] ∧
      ∀ fd, fd ≠ choose (letter n) → out fd (letters (n + 1)) = out fd (letters n) := by
  rw [letters_succ]
  constructor
  · rw [out_snoc, if_pos rfl]
  · intro fd hOther
    rw [out_snoc, if_neg (Ne.symm hOther)]

/-! ## Plain writing -/

/-- A descriptor is a stream with nothing in its buffer. -/
def Files.state (s : Files) : State := ⟨s.file, fun fd => ⟨s.offset fd, []⟩⟩

theorem state_write (s : Files) (c : UInt8) :
    (write s c).state = flush (put s.state c) (choose c) := by
  have hStream : (put s.state c).stream (choose c) = ⟨s.offset (choose c), [c]⟩ := by
    rw [put_stream, if_pos rfl]
    rfl
  have hFile : (write s c).state.file = (flush (put s.state c) (choose c)).file := by
    rw [flush, hStream]
    rfl
  have hStreams : (write s c).state.stream = (flush (put s.state c) (choose c)).stream := by
    ext1 fd
    rw [flush_stream, hStream, put_stream]
    by_cases hEq : fd = choose c
    · simp [Files.state, write, hEq]
    · simp [Files.state, write, hEq]
  exact congrArg₂ State.mk hFile hStreams

theorem written_succ (content : List UInt8) (n : Nat) :
    written content (n + 1) = write (written content n) (letter n) := by
  rw [written, letters_succ, List.foldl_append]
  rfl

theorem written_covered (content : List UInt8) {n : Nat} (hn : n ≤ 26) :
    Written (letters n) (written content n).state (fun fd => out fd (letters n)) ∧
      Covered content (written content n).state (fun fd => out fd (letters n)) := by
  induction n with
  | zero => exact ⟨⟨fun _ => rfl, fun _ => rfl, fun _ => Nat.zero_le _⟩, ⟨rfl, Nat.le_refl _⟩⟩
  | succ n ih =>
    obtain ⟨hWritten, hCovered⟩ := ih (by omega)
    have hPut := hWritten.put (letter n)
    rw [← letters_succ] at hPut
    obtain ⟨hLetter, hOthers⟩ := out_letters_succ n
    have hOut : (fun fd => out fd (letters (n + 1))) = Function.update
        (fun fd => out fd (letters n)) (choose (letter n))
          (out (choose (letter n)) (letters (n + 1))) := by
      ext1 fd
      rw [Function.update_apply]
      split
      · next hEq => rw [hEq]
      · next hOther => exact hOthers fd hOther
    rw [written_succ, state_write, hOut]
    refine ⟨hPut.flush _, Covered.flush ⟨hCovered.file, hCovered.behind⟩ hPut _ fun hChoose => ?_⟩
    rcases choose_letter (n := n) (by omega) with ⟨hFirst, -⟩ | ⟨-, hLength⟩
    · rw [hFirst] at hChoose
      cases hChoose
    · rw [hChoose] at hLetter
      rw [hLetter, hLength]
      simp

/-! ## Buffers of a fixed size -/

/-- How much of `m` bytes has been written. -/
def flushed (size m : Nat) : Nat := size * ((m - 1) / size)

theorem flushed_succ {size : Nat} (hSize : 0 < size) (m : Nat) :
    flushed size (m + 1) = if m - flushed size m = size then m else flushed size m := by
  unfold flushed
  rw [Nat.add_sub_cancel]
  cases m with
  | zero => rw [if_neg (by omega)]
  | succ k =>
    rw [Nat.add_sub_cancel]
    have hDivision := Nat.div_add_mod k size
    have hRest := Nat.mod_lt k hSize
    split
    · next hFull =>
      have hMul : k + 1 = size * (k / size + 1) := by
        rw [Nat.mul_succ]
        omega
      rw [hMul, Nat.mul_div_cancel_left _ hSize]
    · next hRoom =>
      have hQuotient : (k + 1) / size = k / size := by
        refine Nat.div_eq_of_lt_le ?_ ?_
        · rw [Nat.mul_comm]
          omega
        · rw [Nat.mul_comm, Nat.mul_succ]
          omega
      rw [hQuotient]

theorem printed_succ (size : Nat) (content : List UInt8) (n : Nat) :
    printed size content (n + 1) = fprintf size (printed size content n) (letter n) := by
  rw [printed, letters_succ, List.foldl_append]
  rfl

/-- A full buffer of `fd1` has been written before one of `fd2` is. -/
theorem printed_covered {size : Nat} (hSize : 0 < size) (content : List UInt8) {n : Nat}
    (hn : n ≤ 26) :
    ∃ w, Written (letters n) (printed size content n) w ∧
      Covered content (printed size content n) w ∧
      ∀ fd, (w fd).length = flushed size (out fd (letters n)).length := by
  induction n with
  | zero =>
    have hNothing : flushed size 0 = 0 := by simp [flushed]
    exact ⟨fun _ => [], ⟨fun _ => rfl, fun _ => rfl, fun _ => Nat.zero_le _⟩,
      ⟨rfl, Nat.le_refl _⟩, fun _ => hNothing.symm⟩
  | succ n ih =>
    obtain ⟨w, hWritten, hCovered, hFlushed⟩ := ih (by omega)
    obtain ⟨hLetter, hOthers⟩ := out_letters_succ n
    generalize hChoose : choose (letter n) = fd at hLetter hOthers
    have hLength : (out fd (letters (n + 1))).length = (out fd (letters n)).length + 1 := by
      rw [hLetter, List.length_append, List.length_singleton]
    have hAll := congrArg List.length (hWritten.all fd)
    rw [List.length_append, hFlushed] at hAll
    have hSucc := flushed_succ hSize (out fd (letters n)).length
    rw [printed_succ, fprintf, hChoose, letters_succ]
    split
    · next hFull =>
      rw [if_pos (by omega)] at hSucc
      have hBehind (hSecond : fd = .fd2) : (out .fd2 (letters n)).length ≤ (w .fd1).length := by
        obtain rfl := hSecond
        rcases choose_letter (n := n) (by omega) with ⟨hFirst, -⟩ | ⟨-, hMore⟩
        · rw [hChoose] at hFirst
          cases hFirst
        · exact Nat.le_of_eq (by rw [hFlushed, hMore, hSucc])
      refine ⟨_, (hWritten.flush fd).put (letter n), ?_, fun fd' => ?_⟩
      · obtain ⟨hFile, hLe⟩ := hCovered.flush hWritten fd hBehind
        exact ⟨hFile, hLe⟩
      · rw [← letters_succ, Function.update_apply]
        split
        · next hEq => rw [hEq, hLength, hSucc]
        · next hOther => rw [hOthers fd' hOther, hFlushed]
    · next hRoom =>
      rw [if_neg (by omega)] at hSucc
      refine ⟨w, hWritten.put (letter n), ⟨hCovered.file, hCovered.behind⟩, fun fd' => ?_⟩
      rw [← letters_succ, hFlushed]
      by_cases hEq : fd' = fd
      · rw [hEq, hLength, hSucc]
      · rw [hOthers fd' hEq]

theorem length_out_letters (fd : Fd) : (out fd (letters 26)).length = 13 := by
  cases fd <;> decide

theorem letters_even : (out .fd2 (letters 26)).length ≤ (out .fd1 (letters 26)).length :=
  Nat.le_of_eq ((length_out_letters .fd2).trans (length_out_letters .fd1).symm)

theorem nonBuf_file (content : List UInt8) :
    (nonBuf content).1 = cover (out .fd2 (letters 26)) (cover (out .fd1 (letters 26)) content) :=
  (written_covered content (Nat.le_refl 26)).2.file

theorem cover_letters (content : List UInt8) :
    cover (out .fd2 (letters 26)) (cover (out .fd1 (letters 26)) content) =
      out .fd2 (letters 26) ++ content.drop 13 := by
  rw [cover, cover, length_out_letters, length_out_letters,
    List.drop_left' (length_out_letters .fd1)]

/-- Both programs leave the letters of `fd2` in front of what was there, and print the same size in
the end; before that, `app3_buf.c` never prints the larger one. -/
theorem buf_agrees {size : Nat} (hSize : 0 < size) (content : List UInt8) :
    (buf size content).1 = (nonBuf content).1 ∧
      (nonBuf content).1 = out .fd2 (letters 26) ++ content.drop 13 ∧
      List.Forall₂ (· ≤ ·) (buf size content).2 (nonBuf content).2 ∧
      (buf size content).2.getLast? = (nonBuf content).2.getLast? := by
  obtain ⟨w, hWritten, hCovered, -⟩ := printed_covered hSize content (Nat.le_refl 26)
  have hSame : (buf size content).1 = (nonBuf content).1 := by
    rw [nonBuf_file]
    exact hCovered.close hWritten letters_even
  have hFirst : (flush (printed size content 26) .fd1).file.length =
      (nonBuf content).1.length := by
    have hOffset : ((flush (printed size content 26) .fd1).stream .fd1).offset = 13 := by
      rw [flush_stream, if_pos rfl, hWritten.offset, ← List.length_append, hWritten.all,
        length_out_letters]
    rw [length_covered (hCovered.flush hWritten .fd1 nofun) (hWritten.flush .fd1), hOffset,
      nonBuf_file, length_cover, length_cover, length_out_letters, length_out_letters]
    omega
  refine ⟨hSame, by rw [nonBuf_file, cover_letters], ?_, ?_⟩
  · refine List.rel_append ?_ (.cons (Nat.le_of_eq hFirst)
      (.cons (Nat.le_of_eq (congrArg List.length hSame)) .nil))
    rw [List.forall₂_map_left_iff, List.forall₂_map_right_iff, List.forall₂_same]
    intro n hn
    have hLess : n ≤ 26 := Nat.le_of_lt_succ (List.mem_range.mp hn)
    obtain ⟨w, hWritten, hCovered, -⟩ := printed_covered hSize content hLess
    obtain ⟨hWritten', hCovered'⟩ := written_covered content hLess
    have hPlain : (written content n).file.length =
        max content.length ((written content n).state.stream .fd1).offset :=
      length_covered hCovered' hWritten'
    have hLe := hWritten.length_le .fd1
    rw [hPlain, length_covered hCovered hWritten, hWritten.offset, hWritten'.offset]
    omega
  · have hLast (l : List Nat) (a b : Nat) : (l ++ [a, b]).getLast? = some b := by simp
    refine (hLast _ _ _).trans (Eq.trans ?_ (hLast _ _ _).symm)
    exact congrArg (fun f => some f.length) hSame

/-- A buffer that is written several times, over twenty zeros. -/
theorem buf_agrees_small :
    (buf 4 (List.replicate 20 0)).1 = (nonBuf (List.replicate 20 0)).1 ∧
      (nonBuf (List.replicate 20 0)).1 = out .fd2 (letters 26) ++ List.replicate 7 0 := by
  obtain ⟨hSame, hFile, -, -⟩ := buf_agrees (show 0 < 4 by decide) (List.replicate 20 0)
  exact ⟨hSame, hFile⟩

/-! ## Flushes at any moment -/

inductive Action where
  | put (c : UInt8)
  | flush (fd : Fd)

def act (s : State) : Action → State
  | .put c => put s c
  | .flush fd => flush s fd

def exec (content : List UInt8) (acts : List Action) : State := acts.foldl act (opened content)

def puts (acts : List Action) : List UInt8 :=
  acts.filterMap fun
    | .put c => some c
    | .flush _ => none

theorem puts_snoc (acts : List Action) (a : Action) :
    puts (acts ++ [a]) = match a with
      | .put c => puts acts ++ [c]
      | .flush _ => puts acts := by
  cases a <;> simp [puts]

/-- Position `p` of `fd2` has been written before that of `fd1`, which covers it. -/
structure Stale (p : Nat) (s : State) (w : Fd → List UInt8) : Prop where
  passed : p < (w .fd2).length
  covers : p < (w .fd1).length → s.file[p]? = (w .fd1)[p]?

theorem Written.flush_getElem? (h : Written text s w) (fd : Fd) (p : Nat) :
    (App3.flush s fd).file[p]? =
      if (w fd).length ≤ p ∧ p < (out fd text).length then (out fd text)[p]? else s.file[p]? := by
  have hLength := congrArg List.length (h.all fd)
  rw [List.length_append] at hLength
  rw [App3.flush, getElem?_writeAt (by rw [h.offset]; exact h.inFile fd), h.offset, hLength]
  by_cases hIn : (w fd).length ≤ p ∧ p < (out fd text).length
  · rw [if_pos hIn, if_pos hIn, ← h.all fd, List.getElem?_append_right hIn.1]
  · rw [if_neg hIn, if_neg hIn]

theorem Stale.flush (h : Stale p s w) (hWritten : Written text s w) (fd : Fd) :
    Stale p (flush s fd) (Function.update w fd (out fd text)) := by
  have hLe := hWritten.length_le fd
  have hPassed := h.passed
  cases fd with
  | fd1 =>
    refine ⟨?_, fun hLess => ?_⟩
    · rwa [Function.update_of_ne (by decide)]
    · rw [Function.update_self] at hLess ⊢
      rw [hWritten.flush_getElem? .fd1]
      rcases Nat.lt_or_ge p (w .fd1).length with hOld | hNew
      · rw [if_neg (by omega), h.covers hOld, ← hWritten.all .fd1, List.getElem?_append_left hOld]
      · rw [if_pos ⟨hNew, hLess⟩]
  | fd2 =>
    refine ⟨?_, fun hLess => ?_⟩
    · rw [Function.update_self]
      omega
    · rw [Function.update_of_ne (by decide)] at hLess ⊢
      rw [hWritten.flush_getElem? .fd2, if_neg (by omega), h.covers hLess]

/-- What has been written, whatever is flushed and when. -/
theorem exec_written (content : List UInt8) (acts : List Action) :
    ∃ w, Written (puts acts) (exec content acts) w := by
  induction acts using List.reverseRecOn with
  | nil =>
    exact ⟨fun _ => [], fun _ => rfl, fun _ => rfl, fun _ => Nat.zero_le _⟩
  | append_singleton acts a ih =>
    obtain ⟨w, hWritten⟩ := ih
    rw [exec, List.foldl_append, puts_snoc]
    cases a with
    | put c => exact ⟨w, hWritten.put c⟩
    | flush fd => exact ⟨_, hWritten.flush fd⟩

/-- A letter of `fd1` that comes late stays. -/
theorem Stale.exec (hStale : Stale p s w) (hWritten : Written text s w) (acts : List Action) :
    ∃ w', Written (text ++ puts acts) (acts.foldl act s) w' ∧ Stale p (acts.foldl act s) w' := by
  induction acts generalizing s w text with
  | nil => exact ⟨w, by simpa [puts] using hWritten, hStale⟩
  | cons a acts ih =>
    cases a with
    | put c =>
      obtain ⟨w', hWritten', hStale'⟩ := ih (s := put s c) ⟨hStale.passed, hStale.covers⟩
        (hWritten.put c)
      exact ⟨w', by simpa [puts, act] using hWritten', hStale'⟩
    | flush fd =>
      obtain ⟨w', hWritten', hStale'⟩ := ih (hStale.flush hWritten fd) (hWritten.flush fd)
      exact ⟨w', by simpa [puts, act] using hWritten', hStale'⟩

/-- No flush of `fd2` gets ahead of what has been written to `fd1`. -/
def InTurn (acts : List Action) : Prop :=
  ∀ pre post, acts = pre ++ .flush .fd2 :: post →
    (out .fd2 (puts pre)).length ≤ ((exec [] pre).stream .fd1).offset

theorem exec_stream (content : List UInt8) (acts : List Action) :
    (exec content acts).stream = (exec [] acts).stream := by
  induction acts using List.reverseRecOn with
  | nil => rfl
  | append_singleton acts a ih =>
    rw [exec, exec, List.foldl_append, List.foldl_append]
    cases a with
    | put c => exact congrArg (fun f => (put ⟨[], f⟩ c).stream) ih
    | flush fd => exact congrArg (fun f => (flush ⟨[], f⟩ fd).stream) ih

theorem exec_covered {acts : List Action} (hTurn : InTurn acts) (content : List UInt8) :
    ∃ w, Written (puts acts) (exec content acts) w ∧ Covered content (exec content acts) w := by
  induction acts using List.reverseRecOn with
  | nil =>
    exact ⟨fun _ => [], ⟨fun _ => rfl, fun _ => rfl, fun _ => Nat.zero_le _⟩,
      ⟨rfl, Nat.le_refl _⟩⟩
  | append_singleton acts a ih =>
    have hBefore : InTurn acts := by
      rintro pre post rfl
      exact hTurn pre (post ++ [a]) (by simp)
    obtain ⟨w, hWritten, hCovered⟩ := ih hBefore
    rw [exec, List.foldl_append, puts_snoc]
    cases a with
    | put c => exact ⟨w, hWritten.put c, hCovered.file, hCovered.behind⟩
    | flush fd =>
      refine ⟨_, hWritten.flush fd, hCovered.flush hWritten fd fun hSecond => ?_⟩
      obtain rfl := hSecond
      rw [← hWritten.offset, exec_stream]
      exact hTurn acts [] rfl

/-- Whenever the library flushes the streams, `app3_buf.c` leaves the same file as `app3_non_buf.c`
if and only if no flush of `fd2` gets ahead of `fd1`. -/
theorem flushes_iff (content : List UInt8) {acts : List Action} (hText : puts acts = letters 26) :
    (close (exec content acts)).file = (nonBuf content).1 ↔ InTurn acts := by
  rw [nonBuf_file]
  constructor
  · rintro hFile pre post rfl
    by_contra hAhead
    obtain ⟨w, hWritten⟩ := exec_written content pre
    rw [← exec_stream content, hWritten.offset, Nat.not_le] at hAhead
    have hStale : Stale (w .fd1).length (flush (exec content pre) .fd2)
        (Function.update w .fd2 (out .fd2 (puts pre))) := by
      refine ⟨by rwa [Function.update_self], fun hLess => ?_⟩
      rw [Function.update_of_ne (by decide)] at hLess
      exact absurd hLess (Nat.lt_irrefl _)
    obtain ⟨w', hWritten', hStale'⟩ := hStale.exec (hWritten.flush .fd2) post
    have hRest : puts pre ++ puts post = letters 26 := by
      rw [← hText]
      simp [puts]
    rw [hRest] at hWritten'
    have hClosed := (hStale'.flush hWritten' .fd1).flush (hWritten'.flush .fd1) .fd2
    have hPassed := hClosed.passed
    rw [Function.update_self, length_out_letters] at hPassed
    have hCovers := hClosed.covers
    rw [Function.update_of_ne (by decide), Function.update_self, length_out_letters] at hCovers
    have hSame : (exec content (pre ++ .flush .fd2 :: post)) =
        post.foldl act (flush (exec content pre) .fd2) := by
      rw [exec, List.foldl_append]
      rfl
    rw [hSame, close] at hFile
    rw [hFile, cover, List.getElem?_append_left (by rwa [length_out_letters])] at hCovers
    have hTable : ∀ p : Fin 13,
        (out .fd2 (letters 26))[p.val]? ≠ (out .fd1 (letters 26))[p.val]? := by decide
    exact hTable ⟨_, hPassed⟩ (hCovers hPassed)
  · intro hTurn
    obtain ⟨w, hWritten, hCovered⟩ := exec_covered hTurn content
    rw [hText] at hWritten
    exact hCovered.close hWritten letters_even

/-- `fd2` is unbuffered, and `fd1` is not flushed before the end. -/
def unbuffered : List Action :=
  (letters 26).flatMap fun c => if choose c = .fd2 then [.put c, .flush .fd2] else [.put c]

theorem flushes_iff_unbuffered : (close (exec [] unbuffered)).file ≠ (nonBuf []).1 := by
  rw [Ne, flushes_iff [] (by decide)]
  intro hTurn
  exact absurd (hTurn [.put 97, .put 98] (unbuffered.drop 3) rfl) (by decide)

end OsLabs.BufIo.App3
