import Mathlib.Data.List.Forall2
import OsLabs.Proc.Stat

/-!
# Fields under their labels (`lab_proc/main.c`, `read_stat`)

Every variable is printed under its own name, and the 52 arguments of `fscanf` stand in the order
of the line. So the fields are under their labels as long as the scan keeps step with the line and
every number fits: there must be no white space in the name of the command, and the numbers must
lie between the bounds of the conversions that read and print them.
-/

namespace OsLabs.Proc

open Stdio

/-! ## The labels -/

/-- The field that a label names. -/
def fieldNames : List (String × StatField) :=
  [("1. PID", .pid), ("2. Command", .comm), ("3. State", .state), ("4. PPID", .ppid),
    ("5. PGRP", .pgrp), ("6. Session", .session), ("7. TTY_NR", .ttyNr), ("8. Tpgid", .tpgid),
    ("9. Flags", .flags), ("10. Minflt", .minflt), ("11. Cminflt", .cminflt),
    ("12. Majflt", .majflt), ("13. Cmajflt", .cmajflt), ("14. Utime", .utime),
    ("15. Stime", .stime), ("16. Cutime", .cutime), ("17. Cstime", .cstime),
    ("18. Priority", .priority), ("19. Nice", .nice), ("20. Num Threads", .numThreads),
    ("21. Starttime", .starttime), ("22. Vsize", .vsize), ("23. Rss", .rss),
    ("24. Rsslim", .rsslim), ("25. Startcode", .startcode), ("26. Endcode", .endcode),
    ("27. Startstack", .startstack), ("28. Kstkesp", .kstkesp), ("29. Kstkeip", .kstkeip),
    ("30. Signal", .signal), ("31. Blocked", .blocked), ("32. Sigignore", .sigignore),
    ("33. Sigcatch", .sigcatch), ("34. Wchan", .wchan), ("35. Nswap", .nswap),
    ("36. Cnswap", .cnswap), ("37. Exit_signal", .exitSignal), ("38. Processor", .processor),
    ("39. Rt_priority", .rtPriority), ("40. Policy", .policy),
    ("41. Delayacct_blkio_ticks", .delayacctBlkioTicks), ("42. Guest_time", .guestTime),
    ("43. Cguest_time", .cguestTime), ("44. Start_data", .startData), ("45. End_data", .endData),
    ("46. Start_brk", .startBrk), ("47. Arg_start", .argStart), ("48. Arg_end", .argEnd),
    ("49. Env_start", .envStart), ("50. Env_end", .envEnd), ("51. Exit_code", .exitCode)]

/-- A row prints the value of the field that its label names. -/
def RowOk (l : StatLine) (name : String × StatField) (row : StatRow) : Prop :=
  row.label = name.1 ∧ row.args ≠ [] ∧ ∀ v ∈ row.args, v = l.value name.2

/-- Every label stands before the value of its field. -/
def Labelled (l : StatLine) (rows : List StatRow) : Prop :=
  List.Forall₂ (RowOk l) fieldNames rows

/-- The least and the greatest number that is read and printed as it is. -/
def StatField.bounds : StatField → Option (Int × Int)
  | .comm | .state | .itrealvalue => none
  | .startcode | .endcode | .startstack | .kstkesp | .kstkeip => some (0, 2 ^ 63 - 1)
  | .exitSignal | .processor | .rtPriority | .policy | .exitCode => some (-2 ^ 31, 2 ^ 31 - 1)
  | .pid | .ppid | .pgrp | .session | .ttyNr | .tpgid | .flags | .priority | .nice | .numThreads
  | .starttime | .vsize | .rss | .rsslim => some (-2 ^ 63, 2 ^ 63 - 1)
  | _ => some (0, 2 ^ 64 - 1)

/-- The numbers that are printed lie between the bounds. -/
def StatLine.InBounds (l : StatLine) : Prop :=
  ∀ f, ∀ b ∈ f.bounds, b.1 ≤ l.num f ∧ l.num f ≤ b.2

/-! ## Reading a line -/

/-- What is read of a field. -/
def StatLine.read (l : StatLine) (e : StatField × Conv) : Value :=
  match e.2.decimal with
  | some g => .num (g (.ofInt (l.num e.1)))
  | none => l.value e.1

theorem StatLine.token_num (l : StatLine) {f : StatField} (hComm : f ≠ .comm)
    (hState : f ≠ .state) : l.token f = render (l.num f) := by
  unfold StatLine.token
  split
  · exact absurd rfl hComm
  · exact absurd rfl hState
  · rfl

theorem StatLine.value_num (l : StatLine) {f : StatField} (hComm : f ≠ .comm)
    (hState : f ≠ .state) : l.value f = .num (l.num f) := by
  unfold StatLine.value
  split
  · exact absurd rfl hComm
  · exact absurd rfl hState
  · rfl

/-- There is a conversion of the right kind for every field. -/
theorem statConvs_kind : ∀ e ∈ kernelFields.zip statConvs,
    e = (.comm, .s 255) ∨ e = (.state, .c) ∨
      e.1 ≠ .comm ∧ e.1 ≠ .state ∧ e.2.decimal.isSome := by
  decide

theorem mem_commText {l : StatLine} {b : UInt8} :
    b ∈ l.commText ↔ b = '('.toUInt8 ∨ b ∈ l.comm ∨ b = ')'.toUInt8 := by
  rw [StatLine.commText, List.mem_cons, List.mem_append, List.mem_singleton]

theorem isSpace_commText {l : StatLine} (h : ∀ b ∈ l.comm, isSpace b = false) :
    ∀ b ∈ l.commText, isSpace b = false := by
  intro b hb
  rcases mem_commText.mp hb with rfl | hb | rfl
  · rfl
  · exact h b hb
  · rfl

theorem commText_ne_nil (l : StatLine) : l.commText ≠ [] := List.cons_ne_nil _ _

theorem commText_length (l : StatLine) : l.commText.length ≤ 255 := by
  have hLength := l.hLength
  rw [StatLine.commText, List.length_cons, List.length_append, List.length_singleton]
  omega

theorem reads_token {l : StatLine} (h : ∀ b ∈ l.comm, isSpace b = false) :
    ∀ e ∈ kernelFields.zip statConvs, Reads e.2 (l.token e.1) (l.read e) := by
  intro e he
  rcases statConvs_kind e he with rfl | rfl | ⟨hComm, hState, hSome⟩
  · exact reads_word (commText_ne_nil l) (isSpace_commText h) (commText_length l)
  · exact reads_byte l.hState
  · obtain ⟨g, hg⟩ := Option.isSome_iff_exists.mp hSome
    rw [l.token_num hComm hState, StatLine.read, hg]
    exact reads_decimal hg _

/-- The fields one by one. Two conversions are left over. -/
theorem scan_statLine {l : StatLine} (h : ∀ b ∈ l.comm, isSpace b = false) :
    scan (format statConvs) l.text = (kernelFields.zip statConvs).map l.read := by
  have hConvs : statConvs = (kernelFields.zip statConvs).map Prod.snd ++ [.lu, .d] := rfl
  have hText : l.text = tokenLine ((kernelFields.zip statConvs).map fun e => l.token e.1) := rfl
  rw [hText]
  nth_rewrite 1 [hConvs]
  exact scan_tokens Prod.snd (fun e => l.token e.1) l.read (List.cons_ne_nil _ _) (reads_token h)
    [.lu, .d]

theorem lookup_zip_map (ks : List StatField) (vs : List Conv) (g : StatField × Conv → Value)
    (f : StatField) :
    (ks.zip ((ks.zip vs).map g)).lookup f = ((ks.zip vs).lookup f).map fun v => g (f, v) := by
  induction ks generalizing vs with
  | nil => rfl
  | cons k ks ih =>
    cases vs with
    | nil => rfl
    | cons v vs =>
      rw [List.zip_cons_cons, List.map_cons, List.zip_cons_cons, List.lookup_cons,
        List.lookup_cons]
      by_cases hEq : f = k
      · subst hEq
        rw [beq_self_eq_true]
        rfl
      · rw [beq_false_of_ne hEq]
        exact ih vs

/-- The conversion that reads a field. -/
def statConv (f : StatField) : Option Conv := (kernelFields.zip statConvs).lookup f

theorem stored_statLine (garbage : StatField → Value) {l : StatLine} {f : StatField} {v : Conv}
    (h : ∀ b ∈ l.comm, isSpace b = false) (hConv : statConv f = some v) :
    stored garbage (scan (format statConvs) l.text) f = l.read (f, v) := by
  have hLookup := lookup_zip_map kernelFields statConvs l.read f
  rw [show (kernelFields.zip statConvs).lookup f = some v from hConv] at hLookup
  rw [stored, scan_statLine h, show statArgs = kernelFields from rfl, hLookup]
  rfl

/-! ## Printing a number -/

/-- A number that is read by one conversion and printed by another is the same if and only if it
lies between the bounds. -/
def Keeps (v : Conv) (p : StatPrint) (b : Int × Int) : Prop :=
  ∃ g, v.decimal = some g ∧ ∀ n : Int,
    (p.args (.num (g (.ofInt n))) ≠ [] ∧ ∀ x ∈ p.args (.num (g (.ofInt n))), x = .num n) ↔
      b.1 ≤ n ∧ n ≤ b.2

theorem keeps_of {v : Conv} {p : StatPrint} {b : Int × Int} {g : Number → Int} {k : Int → Int}
    (hg : v.decimal = some g)
    (hArgs : ∀ m, p.args (.num m) ≠ [] ∧ ∀ x ∈ p.args (.num m), x = .num (k m))
    (hBounds : ∀ n, k (g (.ofInt n)) = n ↔ b.1 ≤ n ∧ n ≤ b.2) : Keeps v p b := by
  refine ⟨g, hg, fun n => ?_⟩
  rw [← hBounds n]
  obtain ⟨hne, hAll⟩ := hArgs (g (.ofInt n))
  constructor
  · rintro ⟨-, hSame⟩
    obtain ⟨x, hx⟩ := List.exists_mem_of_ne_nil _ hne
    exact Value.num.inj ((hAll x hx).symm.trans (hSame x hx))
  · intro hEq
    exact ⟨hne, fun x hx => (hAll x hx).trans (congrArg Value.num hEq)⟩

/-- One argument, which is printed once or twice. -/
theorem args_num (p : StatPrint) (k : Int → Int)
    (h : ∀ m, p.args (.num m) = [.num (k m)] ∨ p.args (.num m) = [.num (k m), .num (k m)])
    (m : Int) : p.args (.num m) ≠ [] ∧ ∀ x ∈ p.args (.num m), x = .num (k m) := by
  rcases h m with hOne | hTwo
  · rw [hOne]
    exact ⟨List.cons_ne_nil _ _, fun x hx => List.mem_singleton.mp hx⟩
  · rw [hTwo]
    exact ⟨List.cons_ne_nil _ _, fun x hx => by simpa using hx⟩

theorem keeps_ld_ld : Keeps .ld .ld (-2 ^ 63, 2 ^ 63 - 1) := by
  refine keeps_of rfl (args_num _ (·.bmod (2 ^ 64)) fun _ => .inl rfl) fun n => ?_
  simp only [toLong_ofInt, Int.bmod_def]
  omega

theorem keeps_lu_lu : Keeps .lu .lu (0, 2 ^ 64 - 1) := by
  refine keeps_of rfl (args_num _ (· % 2 ^ 64) fun _ => .inl rfl) fun n => ?_
  rw [toULong_ofInt]
  split <;> omega

/-- A number that is read by `%ld`, and printed by `%lu` and perhaps once more by `%lx`. -/
theorem keeps_ld_lu {p : StatPrint} (h : p = .lu ∨ p = .luLx) : Keeps .ld p (0, 2 ^ 63 - 1) := by
  have hArgs (m : Int) : p.args (.num m) = [.num (m % 2 ^ 64)] ∨
      p.args (.num m) = [.num (m % 2 ^ 64), .num (m % 2 ^ 64)] := by
    rcases h with rfl | rfl
    · exact .inl rfl
    · exact .inr rfl
  refine keeps_of rfl (args_num _ (· % 2 ^ 64) hArgs) fun n => ?_
  rw [toLong_ofInt]
  omega

/-- The lower half of a number. -/
theorem keeps_d {v : Conv} (h : v = .d ∨ v = .u ∨ v = .lu) :
    Keeps v .d (-2 ^ 31, 2 ^ 31 - 1) := by
  rcases h with rfl | rfl | rfl
  · refine keeps_of rfl (args_num _ (·.bmod (2 ^ 32)) fun _ => .inl rfl) fun n => ?_
    simp only [toLong_ofInt, Int.bmod_def]
    omega
  · refine keeps_of rfl (args_num _ (·.bmod (2 ^ 32)) fun _ => .inl rfl) fun n => ?_
    simp only [toULong_ofInt, Int.bmod_def]
    split <;> omega
  · refine keeps_of rfl (args_num _ (·.bmod (2 ^ 32)) fun _ => .inl rfl) fun n => ?_
    simp only [toULong_ofInt, Int.bmod_def]
    split <;> omega

/-! ## The rows -/

/-- The conversions that read and print the numbers, and the bounds. -/
def statKinds : List (Conv × StatPrint × Int × Int) :=
  [(.ld, .ld, -2 ^ 63, 2 ^ 63 - 1), (.lu, .lu, 0, 2 ^ 64 - 1), (.ld, .lu, 0, 2 ^ 63 - 1),
    (.ld, .luLx, 0, 2 ^ 63 - 1), (.d, .d, -2 ^ 31, 2 ^ 31 - 1), (.u, .d, -2 ^ 31, 2 ^ 31 - 1),
    (.lu, .d, -2 ^ 31, 2 ^ 31 - 1)]

theorem keeps_statKinds : ∀ t ∈ statKinds, Keeps t.1 t.2.1 t.2.2 := by
  intro t ht
  simp only [statKinds, List.mem_cons, List.not_mem_nil, or_false] at ht
  rcases ht with rfl | rfl | rfl | rfl | rfl | rfl | rfl
  · exact keeps_ld_ld
  · exact keeps_lu_lu
  · exact keeps_ld_lu (.inl rfl)
  · exact keeps_ld_lu (.inr rfl)
  · exact keeps_d (.inl rfl)
  · exact keeps_d (.inr (.inl rfl))
  · exact keeps_d (.inr (.inr rfl))

theorem statPrints_kind : ∀ p ∈ statPrints,
    p = ("2. Command", .s, .comm) ∨ p = ("3. State", .c, .state) ∨
      p.2.2 ≠ .comm ∧ p.2.2 ≠ .state ∧ ∃ t ∈ statKinds, statConv p.2.2 = some t.1 ∧
        p.2.1 = t.2.1 ∧ p.2.2.bounds = some t.2.2 := by
  decide

/-- Every number with bounds is printed. -/
theorem printed_of_bounds (f : StatField) :
    f.bounds = none ∨ ∃ p ∈ statPrints, p.2.2 = f := by
  cases f <;> decide

/-- What is printed in the row of a call of `fprintf`. -/
def printedRow (garbage : StatField → Value) (text : List UInt8)
    (p : String × StatPrint × StatField) : StatRow :=
  ⟨p.1, p.2.1.args (stored garbage (scan (format statConvs) text) p.2.2)⟩

theorem labelled_iff (garbage : StatField → Value) (l : StatLine) :
    Labelled l (statPrints.map (printedRow garbage l.text)) ↔
      ∀ p ∈ statPrints, RowOk l (p.1, p.2.2) (printedRow garbage l.text p) := by
  have hNames : fieldNames = statPrints.map fun p => (p.1, p.2.2) := rfl
  rw [Labelled, hNames, List.forall₂_map_left_iff, List.forall₂_map_right_iff,
    List.forall₂_same]

theorem cString_commText (l : StatLine) : cString l.commText = l.commText := by
  refine List.takeWhile_eq_self_iff.mpr fun b hb => decide_eq_true ?_
  rcases mem_commText.mp hb with rfl | hb | rfl
  · decide
  · exact fun hZero => l.hComm (hZero ▸ hb)
  · decide

/-- A row of a line without white space in the name. -/
theorem rowOk_iff (garbage : StatField → Value) {l : StatLine}
    (h : ∀ b ∈ l.comm, isSpace b = false) {p : String × StatPrint × StatField}
    (hp : p ∈ statPrints) :
    RowOk l (p.1, p.2.2) (printedRow garbage l.text p) ↔
      ∀ b ∈ p.2.2.bounds, b.1 ≤ l.num p.2.2 ∧ l.num p.2.2 ≤ b.2 := by
  rcases statPrints_kind p hp with rfl | rfl | ⟨hComm, hState, t, ht, hConv, hPrint, hBounds⟩
  · have hStored := stored_statLine garbage h (show statConv .comm = some (.s 255) from rfl)
    have hArgs : StatPrint.s.args (l.read (.comm, .s 255)) = [l.value .comm] :=
      congrArg (fun bytes => [Value.text bytes]) (cString_commText l)
    refine iff_of_true ⟨rfl, ?_⟩ fun b hb => by cases hb
    dsimp only [printedRow]
    rw [hStored, hArgs]
    exact ⟨List.cons_ne_nil _ _, fun v hv => List.mem_singleton.mp hv⟩
  · have hStored := stored_statLine garbage h (show statConv .state = some .c from rfl)
    refine iff_of_true ⟨rfl, ?_⟩ fun b hb => by cases hb
    dsimp only [printedRow]
    rw [hStored]
    exact ⟨List.cons_ne_nil _ _, fun v hv => List.mem_singleton.mp hv⟩
  · obtain ⟨g, hg, hKeeps⟩ := keeps_statKinds t ht
    have hRead : l.read (p.2.2, t.1) = .num (g (.ofInt (l.num p.2.2))) := by
      rw [StatLine.read, hg]
    rw [RowOk, printedRow, stored_statLine garbage h hConv, hRead, hPrint,
      l.value_num hComm hState, hBounds]
    simpa using hKeeps (l.num p.2.2)

/-! ## White space in the name -/

/-- The word that is read for the name is its beginning up to the first white space. -/
theorem scan_comm (l : StatLine) :
    ∃ n word rest, scan (format statConvs) l.text = .num n :: .text word :: rest ∧
      ∀ b ∈ word, isSpace b = false := by
  have hPid := reads_decimal (show Conv.ld.decimal = some Number.toLong from rfl) (l.num .pid)
  obtain ⟨tail, hText⟩ : ∃ tail, l.text =
      render (l.num .pid) ++ blank :: ('('.toUInt8 :: tail) :=
    ⟨_, by rw [StatLine.text, kernelFields, List.map_cons, tokenLine_cons]; rfl⟩
  obtain ⟨ds, hFormat⟩ : ∃ ds, format statConvs = .conv .ld :: .space :: .conv (.s 255) :: ds :=
    ⟨_, rfl⟩
  let word := (('('.toUInt8 :: tail).takeWhile fun b => !isSpace b).take 255
  have hne : word ≠ [] := by
    dsimp only [word]
    rw [List.takeWhile_cons_of_pos rfl, List.take_succ_cons]
    exact List.cons_ne_nil _ _
  have hWord : convert ('('.toUInt8 :: tail) (.s 255) =
      some (.text word, ('('.toUInt8 :: tail).drop word.length) := by
    rw [convert, skipSpace_cons (by decide)]
    exact if_neg hne
  have hBlank : ∀ b ∈ (blank :: '('.toUInt8 :: tail).head?, isSpace b = true := by
    intro b hb
    rw [← Option.mem_some.mp hb]
    rfl
  refine ⟨Number.toLong (.ofInt (l.num .pid)), word,
    scan ds (('('.toUInt8 :: tail).drop word.length), ?_, ?_⟩
  · rw [hFormat, hText, scan, hPid.convert hBlank]
    dsimp only
    rw [scan, skipSpace_blank, skipSpace_cons (by decide), scan, hWord]
  · intro b hb
    have hTaken := List.mem_takeWhile_imp (List.mem_of_mem_take hb)
    simpa using hTaken

/-- If the name is printed in full, there is no white space in it. -/
theorem comm_of_rowOk {garbage : StatField → Value} {l : StatLine}
    (h : RowOk l ("2. Command", .comm) (printedRow garbage l.text ("2. Command", .s, .comm))) :
    ∀ b ∈ l.comm, isSpace b = false := by
  obtain ⟨n, word, rest, hScan, hWord⟩ := scan_comm l
  have hStored : stored garbage (scan (format statConvs) l.text) .comm = .text word := by
    rw [hScan]
    rfl
  have hEq : cString word = l.commText := by
    have hValue := h.2.2 (.text (cString word)) (by
      dsimp only [printedRow]
      rw [hStored]
      exact List.mem_singleton_self _)
    exact Value.text.inj hValue
  intro b hb
  have hMem : b ∈ cString word := by
    rw [hEq]
    exact mem_commText.mpr (.inr (.inl hb))
  exact hWord b ((List.takeWhile_sublist _).subset hMem)

theorem readStat_eq (garbage : StatField → Value) {text : List UInt8}
    (h : (scan (format statConvs) text).length ≤ 52) :
    readStat garbage text = some (statPrints.map (printedRow garbage text)) :=
  if_neg (not_lt_of_ge h)

theorem rows_of_readStat {garbage : StatField → Value} {text : List UInt8} {rows : List StatRow}
    (h : readStat garbage text = some rows) : rows = statPrints.map (printedRow garbage text) := by
  dsimp only [readStat] at h
  split at h
  · cases h
  · exact (Option.some.inj h).symm

/-- If every label stands before its value, there is no white space in the name. -/
theorem comm_of_labelled {garbage : StatField → Value} {l : StatLine} {rows : List StatRow}
    (hRead : readStat garbage l.text = some rows) (hRows : Labelled l rows) :
    ∀ b ∈ l.comm, isSpace b = false := by
  rw [rows_of_readStat hRead, labelled_iff] at hRows
  exact comm_of_rowOk (hRows ("2. Command", .s, .comm) (by decide))

/-- Every label stands before the value of its field if and only if there is no white space in the
name of the command and the numbers lie between the bounds. -/
theorem readStat_labelled_iff (garbage : StatField → Value) (l : StatLine) :
    (∃ rows, readStat garbage l.text = some rows ∧ Labelled l rows) ↔
      (∀ b ∈ l.comm, isSpace b = false) ∧ l.InBounds := by
  constructor
  · rintro ⟨rows, hRead, hRows⟩
    have hComm := comm_of_labelled hRead hRows
    rw [rows_of_readStat hRead, labelled_iff] at hRows
    refine ⟨hComm, ?_⟩
    intro f b hb
    rcases printed_of_bounds f with hNone | ⟨p, hp, rfl⟩
    · rw [hNone] at hb
      cases hb
    · exact (rowOk_iff garbage hComm hp).mp (hRows p hp) b hb
  · rintro ⟨hComm, hBounds⟩
    have hLength : (scan (format statConvs) l.text).length ≤ 52 := by
      rw [scan_statLine hComm, List.length_map]
      decide
    refine ⟨_, readStat_eq garbage hLength, (labelled_iff garbage l).mpr ?_⟩
    intro p hp
    exact (rowOk_iff garbage hComm hp).mpr (hBounds p.2.2)

/-- The limit of the resident set is not a `long` if there is none. -/
theorem printedRow_rsslim (garbage : StatField → Value) {l : StatLine}
    (h : ∀ b ∈ l.comm, isSpace b = false) (hLimit : 2 ^ 63 ≤ l.num .rsslim) :
    printedRow garbage l.text ("24. Rsslim", .ld, .rsslim) =
      ⟨"24. Rsslim", [.num (2 ^ 63 - 1)]⟩ := by
  have hStored := stored_statLine garbage h (show statConv .rsslim = some .ld from rfl)
  have hRead : l.read (.rsslim, .ld) = .num (2 ^ 63 - 1) := by
    have hLong : (Number.ofInt (l.num .rsslim)).toLong = 2 ^ 63 - 1 := by
      rw [toLong_ofInt]
      omega
    exact congrArg Value.num hLong
  dsimp only [printedRow]
  rw [hStored, hRead]
  rfl

/-- The name `tmux: server`, with a 1 for every number. -/
def tmuxServer : StatLine where
  comm := "tmux: server".toUTF8.data.toList
  state := 'S'.toUInt8
  num _ := 1
  hLength := by decide
  hComm := by decide
  hState := by decide

theorem not_labelled_tmuxServer :
    ¬∃ rows, readStat (fun _ => .num 0) tmuxServer.text = some rows ∧
      Labelled tmuxServer rows := by
  rintro ⟨rows, hRead, hRows⟩
  exact absurd (comm_of_labelled hRead hRows) (by decide)

end OsLabs.Proc
