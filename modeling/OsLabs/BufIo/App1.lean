import OsLabs.BufIo.Streams

/-!
# One process, two streams (`lab_buf_io/src/app1.c`)

The loop takes a character of the first stream and one of the second in turn, and goes on as long as
one of the two has one. The first stream gets the chunks of the file with an even number, the second
the chunks with an odd number.
-/

namespace OsLabs.BufIo

open Runs Stdio

/-- `fscanf(fs, "%c", &c)`: the character if there is one, the offset and the buffer after it. -/
def fscanf (content : List UInt8) (offset : Nat) :
    List UInt8 → Option UInt8 × Nat × List UInt8
  | c :: rest => (some c, offset, rest)
  | [] =>
    match readBytes content offset with
    | c :: rest => (some c, offset + (c :: rest).length, rest)
    | [] => (none, offset, [])

/-- The loop of `main` with at most `fuel` rounds, and what it prints. -/
def loop (content : List UInt8) : Nat → Nat → List UInt8 → List UInt8 → Option (List UInt8)
  | 0, _, _, _ => none
  | fuel + 1, offset, buf1, buf2 =>
    let (rc1, offset, buf1) := fscanf content offset buf1
    let (rc2, offset, buf2) := fscanf content offset buf2
    let out := rc1.toList ++ rc2.toList
    if rc1.isSome ∨ rc2.isSome then (loop content fuel offset buf1 buf2).map (out ++ ·)
    else some out

def app1 (content : List UInt8) (fuel : Nat) : Option (List UInt8) := loop content fuel 0 [] []

/-! ## Chunks -/

/-- The file in pieces of 20 bytes, the last one with what is left. -/
def chunks : List UInt8 → List (List UInt8)
  | [] => []
  | c :: rest => (c :: rest).take 20 :: chunks ((c :: rest).drop 20)
termination_by content => content.length
decreasing_by
  rw [List.length_drop, List.length_cons]
  omega

mutual

def evenNumbered : List (List UInt8) → List (List UInt8)
  | [] => []
  | chunk :: rest => chunk :: oddNumbered rest

def oddNumbered : List (List UInt8) → List (List UInt8)
  | [] => []
  | _ :: rest => evenNumbered rest

end

/-- One of each in turn, the first list first, and the rest of the longer one. -/
def alternate : List UInt8 → List UInt8 → List UInt8
  | [], bs => bs
  | as, [] => as
  | a :: as, b :: bs => a :: b :: alternate as bs

def evenBytes (content : List UInt8) : List UInt8 := (evenNumbered (chunks content)).flatten

def oddBytes (content : List UInt8) : List UInt8 := (oddNumbered (chunks content)).flatten

theorem evenBytes_eq (content : List UInt8) :
    evenBytes content = content.take 20 ++ oddBytes (content.drop 20) := by
  cases content with
  | nil => simp [evenBytes, oddBytes, chunks, evenNumbered, oddNumbered]
  | cons c rest => rw [evenBytes, chunks, evenNumbered, List.flatten_cons, oddBytes]

theorem oddBytes_eq (content : List UInt8) : oddBytes content = evenBytes (content.drop 20) := by
  cases content with
  | nil => simp [evenBytes, oddBytes, chunks, evenNumbered, oddNumbered]
  | cons c rest => rw [oddBytes, chunks, oddNumbered, evenBytes]

@[simp] theorem evenBytes_nil : evenBytes [] = [] := by
  simp [evenBytes, chunks, evenNumbered]

@[simp] theorem oddBytes_nil : oddBytes [] = [] := by
  simp [oddBytes, chunks, oddNumbered]

@[simp] theorem alternate_nil (as : List UInt8) : alternate as [] = as := by
  cases as <;> rfl

/-! ## The loop -/

variable {content : List UInt8}

theorem drop_readBytes (content : List UInt8) (offset : Nat) :
    content.drop (offset + (readBytes content offset).length) = (content.drop offset).drop 20 := by
  rw [length_readBytes, List.drop_drop]
  by_cases hFull : 20 ≤ content.length - offset
  · rw [Nat.min_eq_left hFull]
  · have hLeft : content.length ≤ offset + min 20 (content.length - offset) := by omega
    have hRight : content.length ≤ offset + 20 := by omega
    rw [List.drop_eq_nil_of_le hLeft, List.drop_eq_nil_of_le hRight]

theorem fscanf_nil {offset : Nat} {c : UInt8} {rest : List UInt8}
    (h : readBytes content offset = c :: rest) :
    fscanf content offset [] = (some c, offset + (readBytes content offset).length, rest) := by
  rw [fscanf, h]

theorem fscanf_end {offset : Nat} (h : readBytes content offset = []) :
    fscanf content offset [] = (none, offset, []) := by
  rw [fscanf, h]

theorem readBytes_eq_nil {offset : Nat} :
    readBytes content offset = [] ↔ content.length ≤ offset := by
  rw [← List.length_eq_zero_iff, length_readBytes]
  omega

/-- A call with an empty buffer before the end of the file. -/
theorem fscanf_refill {offset : Nat} {c : UInt8} {rest : List UInt8}
    (h : readBytes content offset = c :: rest) :
    ∃ offset', fscanf content offset [] = (some c, offset', rest) ∧
      (content.drop offset).take 20 = c :: rest ∧
      content.drop offset' = (content.drop offset).drop 20 ∧
      rest.length + 1 = min 20 (content.length - offset) ∧
      offset' = offset + (rest.length + 1) := by
  have hLength := length_readBytes content offset
  refine ⟨_, fscanf_nil h, h, drop_readBytes content offset, ?_, ?_⟩
  · rwa [h, List.length_cons] at hLength
  · rw [h, List.length_cons]

/-- While both streams have something the buffers are equally full. At the end of the file one of
them can be shorter. -/
theorem loop_eq : ∀ (fuel offset : Nat) (buf1 buf2 : List UInt8),
    buf1.length = buf2.length ∨ content.length ≤ offset →
    buf1.length + buf2.length + (content.length - offset) < fuel →
    loop content fuel offset buf1 buf2 =
      some (alternate (buf1 ++ evenBytes (content.drop offset))
        (buf2 ++ oddBytes (content.drop offset))) := by
  intro fuel
  induction fuel with
  | zero => exact fun _ _ _ _ hFuel => absurd hFuel (Nat.not_lt_zero _)
  | succ fuel ih =>
    intro offset buf1 buf2 hLevel hFuel
    cases buf1 with
    | cons c1 rest1 =>
      cases buf2 with
      | cons c2 rest2 =>
        simp only [List.length_cons] at hLevel hFuel
        have hRest := ih offset rest1 rest2 (by omega) (by omega)
        simp [loop, fscanf, hRest, alternate]
      | nil =>
        simp only [List.length_cons, List.length_nil] at hLevel hFuel
        have hEnd : content.length ≤ offset := by omega
        have hRest := ih offset rest1 [] (.inr hEnd) (by simp only [List.length_nil]; omega)
        rw [List.drop_eq_nil_of_le hEnd] at hRest ⊢
        simp [loop, fscanf, readBytes_eq_nil.mpr hEnd, hRest]
    | nil =>
      cases buf2 with
      | cons c2 rest2 =>
        simp only [List.length_cons, List.length_nil] at hLevel hFuel
        have hEnd : content.length ≤ offset := by omega
        have hRest := ih offset [] rest2 (.inr hEnd) (by simp only [List.length_nil]; omega)
        rw [List.drop_eq_nil_of_le hEnd] at hRest ⊢
        simp [loop, fscanf, readBytes_eq_nil.mpr hEnd, hRest, alternate]
      | nil =>
        cases hFirst : readBytes content offset with
        | nil =>
          rw [List.drop_eq_nil_of_le (readBytes_eq_nil.mp hFirst)]
          simp [loop, fscanf_end hFirst]
        | cons c1 rest1 =>
          obtain ⟨offset1, hScan1, hTake1, hDrop1, hLength1, hOffset1⟩ := fscanf_refill hFirst
          simp only [List.length_nil] at hFuel
          rw [evenBytes_eq, hTake1, oddBytes_eq (content.drop offset), ← hDrop1]
          cases hSecond : readBytes content offset1 with
          | nil =>
            have hEnd := readBytes_eq_nil.mp hSecond
            have hRest := ih offset1 rest1 [] (.inr hEnd) (by simp only [List.length_nil]; omega)
            rw [List.drop_eq_nil_of_le hEnd] at hRest ⊢
            simp [loop, hScan1, fscanf_end hSecond, hRest]
          | cons c2 rest2 =>
            obtain ⟨offset2, hScan2, hTake2, hDrop2, hLength2, hOffset2⟩ := fscanf_refill hSecond
            have hRest := ih offset2 rest1 rest2 (by omega) (by omega)
            rw [evenBytes_eq (content.drop offset1), hTake2, oddBytes_eq (content.drop offset1),
              ← hDrop2]
            simp [loop, hScan1, hScan2, hRest, alternate]

theorem app1_eq (content : List UInt8) {fuel : Nat} (hFuel : content.length < fuel) :
    app1 content fuel = some (alternate (evenBytes content) (oddBytes content)) := by
  refine (loop_eq fuel 0 [] [] (.inl rfl) ?_).trans rfl
  simp only [List.length_nil]
  omega

/-! ## The loop is one of the interleavings -/

/-- Where a stream is between two calls of `fscanf`. -/
def Between (content : List UInt8) (offset : Nat) (buffer : List UInt8) (l : Local) : Prop :=
  l = ⟨buffer, .scan⟩ ∨ l = ⟨[], .done⟩ ∧ buffer = [] ∧ content.length ≤ offset

/-- Some actions lead from the one configuration to the other and print `out`. -/
def Prints (content : List UInt8) (c c' : Conf Stream Nat Local) (out : List UInt8) : Prop :=
  ∃ sched es, (∀ h, resume (poolStep (step content false)) (c, h) sched = (c', h ++ es)) ∧
    printed es = out

theorem Prints.trans {c c' c'' : Conf Stream Nat Local} {out out' : List UInt8}
    (h : Prints content c c' out) (h' : Prints content c' c'' out') :
    Prints content c c'' (out ++ out') := by
  obtain ⟨sched, es, hRun, hOut⟩ := h
  obtain ⟨sched', es', hRun', hOut'⟩ := h'
  refine ⟨sched ++ sched', es ++ es', fun before => ?_, ?_⟩
  · rw [resume, List.foldl_append, ← resume, ← resume, hRun, hRun', List.append_assoc]
  · rw [printed, List.filterMap_append, ← printed, ← printed, hOut, hOut']

theorem prints_fscanf {offset offset' : Nat} {buffer buffer' : List UInt8} {rc : Option UInt8}
    {procs : Stream → Local} {t : Stream} (hAt : Between content offset buffer (procs t))
    (hScan : fscanf content offset buffer = (rc, offset', buffer')) :
    ∃ l, Prints content ⟨offset, procs⟩ ⟨offset', Function.update procs t l⟩ rc.toList ∧
      (l.pc = .done ↔ rc = none) ∧ Between content offset' buffer' l ∧ offset ≤ offset' := by
  rcases hAt with hHere | ⟨hDone, rfl, hEnd⟩
  · cases buffer with
    | cons c rest =>
      obtain ⟨rfl, rfl, rfl⟩ : rc = some c ∧ offset' = offset ∧ buffer' = rest := by
        cases hScan
        exact ⟨rfl, rfl, rfl⟩
      refine ⟨⟨buffer', .scan⟩, ⟨[(t, ()), (t, ())], [(t, .print c)], fun h => ?_, rfl⟩, by simp,
        .inl rfl, le_rfl⟩
      simp [resume, advance, poolStep, step, hHere]
    | nil =>
      cases hBytes : readBytes content offset with
      | nil =>
        rw [fscanf_end hBytes] at hScan
        cases hScan
        refine ⟨⟨[], .done⟩, ⟨[(t, ())], [], fun h => ?_, rfl⟩, by simp,
          .inr ⟨rfl, rfl, readBytes_eq_nil.mp hBytes⟩, le_rfl⟩
        simp [resume, advance, poolStep, step, hHere, hBytes]
      | cons c rest =>
        rw [fscanf_nil hBytes] at hScan
        obtain ⟨rfl, rfl, rfl⟩ : rc = some c ∧
            offset' = offset + (readBytes content offset).length ∧ buffer' = rest := by
          cases hScan
          exact ⟨rfl, rfl, rfl⟩
        refine ⟨⟨buffer', .scan⟩, ⟨[(t, ()), (t, ()), (t, ())],
          [(t, .read (c :: buffer')), (t, .print c)], fun h => ?_, rfl⟩, by simp, .inl rfl,
          Nat.le_add_right ..⟩
        simp [resume, advance, poolStep, step, hHere, hBytes]
  · rw [fscanf_end (readBytes_eq_nil.mpr hEnd)] at hScan
    cases hScan
    refine ⟨procs t, ⟨[], [], fun h => ?_, rfl⟩, by simp [hDone], .inr ⟨hDone, rfl, hEnd⟩, le_rfl⟩
    simp [resume]

/-- The end of the file stays the end of the file. -/
theorem Between.mono {offset offset' : Nat} {buffer : List UInt8} {l : Local}
    (h : Between content offset buffer l) (hLe : offset ≤ offset') :
    Between content offset' buffer l :=
  h.imp id fun ⟨hLocal, hBuffer, hEnd⟩ => ⟨hLocal, hBuffer, hEnd.trans hLe⟩

theorem prints_loop : ∀ (fuel offset : Nat) (buf1 buf2 : List UInt8) (procs : Stream → Local)
    (out : List UInt8), Between content offset buf1 (procs .fs1) →
    Between content offset buf2 (procs .fs2) →
    loop content fuel offset buf1 buf2 = some out →
    ∃ c, Prints content ⟨offset, procs⟩ c out ∧ ∀ s, (c.procs s).pc = .done := by
  intro fuel
  induction fuel with
  | zero => exact fun _ _ _ _ _ _ _ h => nomatch h
  | succ fuel ih =>
    intro offset buf1 buf2 procs out hAt1 hAt2 hLoop
    rw [loop] at hLoop
    cases hScan1 : fscanf content offset buf1 with
    | mk rc1 next1 =>
      obtain ⟨offset1, buf1'⟩ := next1
      cases hScan2 : fscanf content offset1 buf2 with
      | mk rc2 next2 =>
        obtain ⟨offset2, buf2'⟩ := next2
        simp only [hScan1, hScan2] at hLoop
        obtain ⟨l1, hPrints1, hDone1, hNext1, hLe1⟩ := prints_fscanf hAt1 hScan1
        have hOther : Between content offset1 buf2 (Function.update procs .fs1 l1 .fs2) :=
          hAt2.mono hLe1
        obtain ⟨l2, hPrints2, hDone2, hNext2, hLe2⟩ := prints_fscanf hOther hScan2
        have hRound := hPrints1.trans hPrints2
        generalize hProcs : Function.update (Function.update procs .fs1 l1) .fs2 l2 = procs'
          at hRound
        have hFirst : procs' .fs1 = l1 := by
          subst hProcs
          rfl
        have hSecond : procs' .fs2 = l2 := by
          subst hProcs
          rfl
        subst hFirst hSecond
        split at hLoop
        · obtain ⟨rest, hRest, rfl⟩ := Option.map_eq_some_iff.mp hLoop
          obtain ⟨c, hPrints, hDone⟩ :=
            ih offset2 buf1' buf2' procs' rest (hNext1.mono hLe2) hNext2 hRest
          exact ⟨c, hRound.trans hPrints, hDone⟩
        · next hNeither =>
          cases hLoop
          refine ⟨_, hRound, fun s => ?_⟩
          rw [not_or, Option.not_isSome_iff_eq_none, Option.not_isSome_iff_eq_none] at hNeither
          cases s with
          | fs1 => exact hDone1.mpr hNeither.1
          | fs2 => exact hDone2.mpr hNeither.2

/-- What the loop prints is what both streams print under some schedule. -/
theorem app1_schedule {fuel : Nat} {out : List UInt8} (h : app1 content fuel = some out) :
    ∃ sched, printed (execute content false sched).2 = out ∧
      ∀ s, ((execute content false sched).1.procs s).pc = .done := by
  obtain ⟨c, ⟨sched, es, hRun, rfl⟩, hDone⟩ :=
    prints_loop fuel 0 [] [] init.procs out (.inl rfl) (.inl rfl) h
  have hExecute : execute content false sched = (c, es) := hRun []
  exact ⟨sched, by rw [hExecute], by rw [hExecute]; exact hDone⟩

theorem app1_perm {fuel : Nat} {out : List UInt8} (h : app1 content fuel = some out) :
    out.Perm content := by
  obtain ⟨sched, rfl, hDone⟩ := app1_schedule h
  exact (inv_execute content false nofun sched).printed_perm hDone

/-! ## Nothing is lost -/

/-- When both loops have ended, the calls of `read` have cut the file into pieces, and each stream
has printed the pieces that it has read. The loop of `app1.c` always ends. -/
theorem streams_lose_nothing (content : List UInt8) :
    (∀ (white : Bool) (sched : List (Stream × Unit)),
      (white = true → ∀ b ∈ content, isSpace b = false) →
      (∀ s, ((execute content white sched).1.procs s).pc = .done) →
      (∃ pieces : List (Stream × List UInt8), (∀ r ∈ pieces, r.2.length ≤ 20) ∧
        (pieces.map Prod.snd).flatten = content ∧
        ∀ s, printedBy s (execute content white sched).2 = (own s pieces).flatten) ∧
      (printed (execute content white sched).2).Perm content ∧
      ∀ s, (printedBy s (execute content white sched).2).Sublist content) ∧
    ∀ fuel, content.length < fuel → app1 content fuel =
      some (alternate (evenNumbered (chunks content)).flatten
        (oddNumbered (chunks content)).flatten) := by
  constructor
  · intro white sched hSpace hDone
    have hInv := inv_execute content white hSpace sched
    refine ⟨⟨reads (execute content white sched).2, hInv.limit, hInv.reads_eq hDone, ?_⟩,
      hInv.printed_perm hDone, hInv.printedBy_sublist hDone⟩
    exact hInv.printedBy_eq hDone
  · intro fuel hFuel
    exact app1_eq content hFuel

/-- The letters `a` to `v`. -/
def letters22 : List UInt8 := (List.range 22).map fun i => UInt8.ofNat (97 + i)

/-- The first stream reads 20 of them, and the second one the rest before the first has printed
its own. -/
def sharedOut : List (Stream × Unit) :=
  List.replicate 5 (.fs1, ()) ++ List.replicate 20 (.fs2, ()) ++ List.replicate 90 (.fs1, ())

theorem streams_lose_nothing_letters :
    printedBy .fs2 (execute letters22 true sharedOut).2 = [117, 118] ∧
      (printed (execute letters22 true sharedOut).2).Perm letters22 := by
  have hAll := (streams_lose_nothing letters22).1 true sharedOut fun _ => by decide +kernel
  refine ⟨by decide +kernel, (hAll fun s => ?_).2.1⟩
  cases s with
  | fs1 => decide +kernel
  | fs2 => decide +kernel

end OsLabs.BufIo
