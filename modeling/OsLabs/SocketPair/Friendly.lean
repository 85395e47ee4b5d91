import OsLabs.SocketPair.Socketpair

/-!
# Friendly runs of `socketpair.c`

In a friendly run everything is counted in whole messages and replies. `Inv` relates the
positions in both streams to the statement at which the parent is, to the order in which the
children have written, and to the number of those that have read: they are the first ones in
that order. So nobody comes to the end of a stream, and whoever waits gets something.
-/

namespace OsLabs.SocketPair.Socketpair

open Memory Runs

variable {behind : Child → Nat → UInt8}

/-- The number of children that have been forked. -/
def ParentPc.forked : ParentPc → Nat
  | .fork i => i.val
  | _ => 3

/-- The number of reads that have returned. -/
def ParentPc.reads : ParentPc → Nat
  | .fork _ | .close0 => 0
  | .read i => i.val
  | .write i => i.val + 1
  | _ => 3

/-- The number of replies that have been sent. -/
def ParentPc.writes : ParentPc → Nat
  | .fork _ | .close0 => 0
  | .read i | .write i => i.val
  | _ => 3

/-- The child has written, and has read. -/
def ChildPc.Wrote (pc : ChildPc) : Prop := pc = .read ∨ pc = .close0 ∨ pc = .exited

def ChildPc.Done (pc : ChildPc) : Prop := pc = .close0 ∨ pc = .exited

theorem nextRound_fork (i : Fin 3) :
    (nextRound i ParentPc.fork .close0).forked = i.val + 1 ∧
      (nextRound i ParentPc.fork .close0).reads = 0 ∧
      (nextRound i ParentPc.fork .close0).writes = 0 := by
  unfold nextRound
  split
  · exact ⟨rfl, rfl, rfl⟩
  · have hLast : i.val + 1 = 3 := by omega
    rw [hLast]
    exact ⟨rfl, rfl, rfl⟩

/-- The rounds of the loop of the parent. -/
theorem nextRound_read (i : Fin 3) :
    (nextRound i ParentPc.read .close1).forked = 3 ∧
      (nextRound i ParentPc.read .close1).reads = i.val + 1 ∧
      (nextRound i ParentPc.read .close1).writes = i.val + 1 := by
  unfold nextRound
  split
  · exact ⟨rfl, rfl, rfl⟩
  · have hLast : i.val + 1 = 3 := by omega
    rw [hLast]
    exact ⟨rfl, rfl, rfl⟩

/-- The events so far, in whole messages and replies. -/
structure Log (order : List Child) (reads writes : Nat) (h : List Event) : Prop where
  sent : ∀ i c, order[i]? = some c → .sent c (MESSAGE_SIZE * i) ∈ h
  took : ∀ k < reads, ∃ data, data.length = MESSAGE_SIZE ∧ .took k (MESSAGE_SIZE * k) data ∈ h
  replied : ∀ k < writes, .replied k (BUF_SIZE * k) ∈ h
  got : ∀ c pos data, .got c pos data ∈ h →
    data ≠ [] ∧ ∃ i < writes, order[i]? = some c ∧ pos = BUF_SIZE * i

/-- Where the children are: the first `g` of those that have written have read. -/
structure Kids (forked : Nat) (order : List Child) (g : Nat) (child : Child → ChildPc) : Prop where
  born : ∀ c, child c = .unborn ↔ forked ≤ c.val
  alive : ∀ c, child c ≠ .killed
  nodup : order.Nodup
  wrote : ∀ c, c ∈ order ↔ (child c).Wrote
  done : ∀ c, c ∈ order.take g ↔ (child c).Done

structure Inv (g : Nat) (s : State) (h : List Event) : Prop where
  kids : Kids s.parent.forked s.order g s.child
  alive : s.parent ≠ .killed
  upRead : s.up.read = MESSAGE_SIZE * s.parent.reads
  upWritten : s.up.written = MESSAGE_SIZE * s.order.length
  downRead : g < 3 → s.down.read = BUF_SIZE * g
  downWritten : s.down.written = BUF_SIZE * s.parent.writes
  few : g ≤ s.parent.writes
  log : Log s.order s.parent.reads s.parent.writes h

/-! ## Events -/

section

variable {order : List Child} {reads writes : Nat} {h : List Event}

/-- The replies answer the messages in the order of the children. -/
theorem Log.paired (hLog : Log order reads writes h) (hReads : writes ≤ reads) :
    Paired (fun _ => MESSAGE_SIZE) h := by
  intro c pos data hGot
  obtain ⟨hData, i, hi, hOrder, rfl⟩ := hLog.got c pos data hGot
  obtain ⟨taken, hLength, hTook⟩ := hLog.took i (by omega)
  exact ⟨hData, i, _, taken, hLog.sent i c hOrder, hTook, hLength.ge, hLog.replied i hi⟩

/-- An event of another kind than `got` says nothing against the log. -/
theorem Log.append (hLog : Log order reads writes h) {e : Event}
    (hOther : ∀ c pos data, e ≠ .got c pos data) : Log order reads writes (h ++ [e]) where
  sent i c hc := List.mem_append_left _ (hLog.sent i c hc)
  took k hk := by
    obtain ⟨data, hLength, hMem⟩ := hLog.took k hk
    exact ⟨data, hLength, List.mem_append_left _ hMem⟩
  replied k hk := List.mem_append_left _ (hLog.replied k hk)
  got c pos data hGot := by
    rcases List.mem_append.mp hGot with hOld | hNew
    · exact hLog.got c pos data hOld
    · exact absurd (List.mem_singleton.mp hNew).symm (hOther c pos data)

theorem Log.send (hLog : Log order reads writes h) (c : Child) :
    Log (order ++ [c]) reads writes (h ++ [.sent c (MESSAGE_SIZE * order.length)]) := by
  obtain ⟨hSent, hTook, hReplied, hGot⟩ :=
    hLog.append (e := .sent c (MESSAGE_SIZE * order.length)) (by simp)
  refine ⟨?_, hTook, hReplied, ?_⟩
  · intro j c' hc'
    by_cases hOld : j < order.length
    · rw [List.getElem?_append_left hOld] at hc'
      exact hSent j c' hc'
    · have hLast : j = order.length := by
        have hBound := (List.getElem?_eq_some_iff.mp hc').1
        rw [List.length_append, List.length_singleton] at hBound
        omega
      subst hLast
      rw [List.getElem?_concat_length] at hc'
      cases hc'
      exact List.mem_append_right _ (List.mem_singleton_self _)
  · intro c' pos data hMem
    obtain ⟨hData, j, hj, hOrder, hPos⟩ := hGot c' pos data hMem
    refine ⟨hData, j, hj, ?_, hPos⟩
    rwa [List.getElem?_append_left (List.getElem?_eq_some_iff.mp hOrder).1]

theorem Log.take (hLog : Log order reads writes h) {data : List UInt8}
    (hWhole : data.length = MESSAGE_SIZE) :
    Log order (reads + 1) writes (h ++ [.took reads (MESSAGE_SIZE * reads) data]) := by
  obtain ⟨hSent, hTook, hReplied, hGot⟩ :=
    hLog.append (e := .took reads (MESSAGE_SIZE * reads) data) (by simp)
  refine ⟨hSent, ?_, hReplied, hGot⟩
  intro k hk
  by_cases hLast : k = reads
  · subst hLast
    exact ⟨data, hWhole, List.mem_append_right _ (List.mem_singleton_self _)⟩
  · exact hTook k (by omega)

theorem Log.reply (hLog : Log order reads writes h) :
    Log order reads (writes + 1) (h ++ [.replied writes (BUF_SIZE * writes)]) := by
  obtain ⟨hSent, hTook, hReplied, hGot⟩ :=
    hLog.append (e := .replied writes (BUF_SIZE * writes)) (by simp)
  refine ⟨hSent, hTook, ?_, ?_⟩
  · intro k hk
    by_cases hLast : k = writes
    · subst hLast
      exact List.mem_append_right _ (List.mem_singleton_self _)
    · exact hReplied k (by omega)
  · intro c pos data hMem
    obtain ⟨hData, j, hj, hOrder, hPos⟩ := hGot c pos data hMem
    exact ⟨hData, j, by omega, hOrder, hPos⟩

theorem Log.get (hLog : Log order reads writes h) {c : Child} {i : Nat} {data : List UInt8}
    (hData : data ≠ []) (hi : i < writes) (hNext : order[i]? = some c) :
    Log order reads writes (h ++ [.got c (BUF_SIZE * i) data]) where
  sent j c' hc' := List.mem_append_left _ (hLog.sent j c' hc')
  took k hk := by
    obtain ⟨taken, hLength, hMem⟩ := hLog.took k hk
    exact ⟨taken, hLength, List.mem_append_left _ hMem⟩
  replied k hk := List.mem_append_left _ (hLog.replied k hk)
  got c' pos data' hGot := by
    rcases List.mem_append.mp hGot with hOld | hNew
    · exact hLog.got c' pos data' hOld
    · cases List.mem_singleton.mp hNew
      exact ⟨hData, i, hi, hNext, rfl⟩

end

/-! ## Counting -/

theorem length_le_three {order : List Child} (h : order.Nodup) : order.length ≤ 3 := by
  have hLe := h.length_le_card
  rwa [Fintype.card_fin] at hLe

theorem exists_not_mem {xs : List Child} (h : xs.length < 3) : ∃ c, c ∉ xs := by
  by_contra hAll
  push Not at hAll
  have hLe : Finset.univ.card ≤ xs.toFinset.card :=
    Finset.card_le_card fun c _ => List.mem_toFinset.mpr (hAll c)
  have hLength := xs.toFinset_card_le
  rw [Finset.card_univ, Fintype.card_fin] at hLe
  omega

variable {g : Nat} {s : State} {h : List Event}

theorem Inv.reads_le (hInv : Inv g s h) : s.parent.reads ≤ s.order.length := by
  have hRead := hInv.upRead
  have hWritten := hInv.upWritten
  rw [Stream.written] at hWritten
  dsimp only [MESSAGE_SIZE] at hRead hWritten
  omega

theorem writes_le_reads (pc : ParentPc) : pc.writes ≤ pc.reads := by
  cases pc with
  | write i => exact Nat.le_succ _
  | _ => exact Nat.le_refl _

/-- A child that waits is not among those that have read, and there are fewer than three. -/
theorem Inv.waiting (hInv : Inv g s h) {c : Child} (hPc : s.child c = .read) :
    c ∈ s.order ∧ c ∉ s.order.take g ∧ g < s.order.length ∧ g < 3 := by
  have hMem : c ∈ s.order := (hInv.kids.wrote c).mpr (Or.inl hPc)
  have hNot : c ∉ s.order.take g := by
    rw [hInv.kids.done, hPc]
    simp [ChildPc.Done]
  have hShort : g < s.order.length := by
    by_contra hLong
    rw [List.take_of_length_le (by omega)] at hNot
    exact hNot hMem
  have hLe := length_le_three hInv.kids.nodup
  exact ⟨hMem, hNot, hShort, by omega⟩

/-- As long as a reply is missing, some child has not read and holds `sockets[0]`. -/
theorem Inv.open0 (hInv : Inv g s h) (hForked : s.parent.forked = 3)
    (hWrites : s.parent.writes < 3) : s.Open0 := by
  have hShort : (s.order.take g).length < 3 := by
    have hFew := hInv.few
    rw [List.length_take]
    omega
  obtain ⟨c, hc⟩ := exists_not_mem hShort
  rw [hInv.kids.done] at hc
  have hBorn : s.child c ≠ .unborn := by
    rw [Ne, hInv.kids.born, hForked]
    omega
  refine Or.inr ⟨c, ?_⟩
  cases hPc : s.child c with
  | unborn => exact absurd hPc hBorn
  | killed => exact absurd hPc (hInv.kids.alive c)
  | exited =>
    rw [hPc] at hc
    exact absurd (Or.inr rfl) hc
  | close1 | write | read | close0 => rfl

/-- The parent is still to read the message of a child that has not written. -/
theorem Inv.open1 (hInv : Inv g s h) {c : Child} (hPc : s.child c = .write) : s.Open1 := by
  have hNot : c ∉ s.order := by
    rw [hInv.kids.wrote, hPc]
    simp [ChildPc.Wrote]
  have hReads : s.parent.reads < 3 := by
    by_contra hAll
    have hLe := hInv.reads_le
    have hThree := length_le_three hInv.kids.nodup
    have hNodup : (c :: s.order).Nodup := List.nodup_cons.mpr ⟨hNot, hInv.kids.nodup⟩
    have hFour := length_le_three hNodup
    rw [List.length_cons] at hFour
    omega
  refine Or.inl ?_
  cases hParent : s.parent with
  | fork i | close0 | read i | write i | close1 => rfl
  | wait i | exited | killed =>
    rw [hParent] at hReads
    exact absurd hReads (by simp [ParentPc.reads])

/-! ## Steps of a friendly run -/

theorem forall_update_iff {child : Child → ChildPc} {Q : Child → Prop} {R : ChildPc → Prop}
    (hAll : ∀ c, Q c ↔ R (child c)) {c : Child} {pc : ChildPc} (hSame : R pc ↔ R (child c))
    (c' : Child) : Q c' ↔ R (Function.update child c pc c') := by
  by_cases hc : c' = c
  · subst hc
    rw [Function.update_self, hSame, hAll]
  · rw [Function.update_of_ne hc, hAll]

section

variable {forked : Nat} {order : List Child} {child : Child → ChildPc}

theorem Kids.born_update (hKids : Kids forked order g child) {c : Child} {pc : ChildPc}
    (hBorn : pc = .unborn ↔ child c = .unborn) (c' : Child) :
    Function.update child c pc c' = .unborn ↔ forked ≤ c'.val :=
  (forall_update_iff (R := (· = .unborn)) (fun c => (hKids.born c).symm) hBorn c').symm

theorem Kids.alive_update (hKids : Kids forked order g child) {pc : ChildPc}
    (hAlive : pc ≠ .killed) (c c' : Child) : Function.update child c pc c' ≠ .killed :=
  forall_update (p := (· ≠ ChildPc.killed)) hKids.alive hAlive c c'

/-- A child goes on, but it does not write or read. -/
theorem Kids.update (hKids : Kids forked order g child) {c : Child} {pc : ChildPc}
    (hBorn : pc = .unborn ↔ child c = .unborn) (hAlive : pc ≠ .killed)
    (hWrote : pc.Wrote ↔ (child c).Wrote) (hDone : pc.Done ↔ (child c).Done) :
    Kids forked order g (Function.update child c pc) where
  born := hKids.born_update hBorn
  alive := hKids.alive_update hAlive c
  nodup := hKids.nodup
  wrote := forall_update_iff hKids.wrote hWrote
  done := forall_update_iff hKids.done hDone

theorem Kids.fork {i : Fin 3} (hKids : Kids i.val order g child) :
    Kids (i.val + 1) order g (Function.update child i .close1) := by
  have hUnborn : child i = .unborn := (hKids.born i).mpr (Nat.le_refl _)
  refine ⟨?_, hKids.alive_update (by simp) i, hKids.nodup, ?_, ?_⟩
  · intro c
    by_cases hc : c = i
    · subst hc
      simp
    · have hNe : c.val ≠ i.val := fun hVal => hc (Fin.ext hVal)
      rw [Function.update_of_ne hc, hKids.born]
      omega
  · exact forall_update_iff hKids.wrote (by simp [hUnborn, ChildPc.Wrote])
  · exact forall_update_iff hKids.done (by simp [hUnborn, ChildPc.Done])

/-- The last child to write. -/
theorem Kids.send {c : Child} (hKids : Kids forked order g child) (hPc : child c = .write)
    (hFew : g ≤ order.length) : Kids forked (order ++ [c]) g (Function.update child c .read) := by
  have hNot : c ∉ order := by
    rw [hKids.wrote, hPc]
    simp [ChildPc.Wrote]
  refine ⟨hKids.born_update (by simp [hPc]), hKids.alive_update (by simp) c, ?_, ?_, ?_⟩
  · rw [← List.concat_eq_append]
    exact hKids.nodup.concat hNot
  · intro c'
    rw [List.mem_append, List.mem_singleton, hKids.wrote]
    by_cases hc : c' = c
    · subst hc
      simp [ChildPc.Wrote]
    · simp [hc]
  · rw [List.take_append_of_le_length hFew]
    exact forall_update_iff hKids.done (by simp [hPc, ChildPc.Done])

/-- The next child to read. -/
theorem Kids.get {c : Child} (hKids : Kids forked order g child) (hPc : child c = .read)
    (hNext : order[g]? = some c) :
    Kids forked order (g + 1) (Function.update child c .close0) := by
  refine ⟨hKids.born_update (by simp [hPc]), hKids.alive_update (by simp) c, hKids.nodup, ?_, ?_⟩
  · exact forall_update_iff hKids.wrote (by simp [hPc, ChildPc.Wrote])
  · intro c'
    rw [List.take_add_one, hNext, Option.toList_some, List.mem_append, List.mem_singleton,
      hKids.done]
    by_cases hc : c' = c
    · subst hc
      simp [ChildPc.Done]
    · simp [hc]

end

theorem inv_init (buf : Object BUF_SIZE) : Inv 0 (.init buf) [] where
  kids := by
    refine ⟨fun c => ?_, fun c => ?_, List.nodup_nil, fun c => ?_, fun c => ?_⟩
    · exact iff_of_true rfl (Nat.zero_le _)
    · simp [State.init]
    · simp [State.init, ChildPc.Wrote]
    · simp [State.init, ChildPc.Done]
  alive := by simp [State.init]
  upRead := rfl
  upWritten := rfl
  downRead _ := rfl
  downWritten := rfl
  few := Nat.le_refl 0
  log := by
    refine ⟨fun i c hc => ?_, fun k hk => ?_, fun k hk => ?_, fun c pos data hGot => ?_⟩
    · simp [State.init] at hc
    · exact absurd hk (Nat.not_lt_zero k)
    · exact absurd hk (Nat.not_lt_zero k)
    · cases hGot

theorem Inv.fork (hInv : Inv g s h) {i : Fin 3} (hPc : s.parent = .fork i) :
    Inv g
      { s with
        parent := nextRound i .fork .close0
        child := Function.update s.child i .close1 } h := by
  obtain ⟨hForked, hReads, hWrites⟩ := nextRound_fork i
  obtain ⟨hKids, -, hUpRead, hUpWritten, hDownRead, hDownWritten, hFew, hLog⟩ := hInv
  rw [hPc] at hKids hUpRead hDownWritten hFew hLog
  refine ⟨?_, ?_, ?_, hUpWritten, hDownRead, ?_, ?_, ?_⟩
  · rw [hForked]
    exact hKids.fork
  · dsimp only
    unfold nextRound
    split
    · simp
    · simp
  · rw [hReads]
    exact hUpRead
  · rw [hWrites]
    exact hDownWritten
  · rw [hWrites]
    exact hFew
  · rw [hReads, hWrites]
    exact hLog

/-- The parent goes on to a statement with the same numbers. -/
theorem Inv.parent (hInv : Inv g s h) {pc pc' : ParentPc} (hPc : s.parent = pc)
    (hForked : pc'.forked = pc.forked) (hReads : pc'.reads = pc.reads)
    (hWrites : pc'.writes = pc.writes) (hAlive : pc' ≠ .killed) :
    Inv g { s with parent := pc' } h := by
  obtain ⟨hKids, -, hUpRead, hUpWritten, hDownRead, hDownWritten, hFew, hLog⟩ := hInv
  rw [hPc, ← hForked] at hKids
  rw [hPc, ← hReads] at hUpRead
  rw [hPc, ← hWrites] at hDownWritten hFew
  rw [hPc, ← hReads, ← hWrites] at hLog
  exact ⟨hKids, hAlive, hUpRead, hUpWritten, hDownRead, hDownWritten, hFew, hLog⟩

theorem Inv.child (hInv : Inv g s h) {c : Child} {pc : ChildPc}
    (hBorn : pc = .unborn ↔ s.child c = .unborn) (hAlive : pc ≠ .killed)
    (hWrote : pc.Wrote ↔ (s.child c).Wrote) (hDone : pc.Done ↔ (s.child c).Done) :
    Inv g { s with child := Function.update s.child c pc } h := by
  obtain ⟨hKids, hParent, hUpRead, hUpWritten, hDownRead, hDownWritten, hFew, hLog⟩ := hInv
  exact ⟨hKids.update hBorn hAlive hWrote hDone, hParent, hUpRead, hUpWritten, hDownRead,
    hDownWritten, hFew, hLog⟩

theorem Inv.take (hInv : Inv g s h) {i : Fin 3} (hPc : s.parent = .read i) {n : Nat}
    (hn : s.up.Readable BUF_SIZE n) (hWhole : n = MESSAGE_SIZE) (buf : Object BUF_SIZE) :
    Inv g { s with parent := .write i, buf := buf, up := s.up.take n }
      (h ++ [.took i s.up.read (s.up.queue.take n)]) := by
  obtain ⟨hKids, -, hUpRead, hUpWritten, hDownRead, hDownWritten, hFew, hLog⟩ := hInv
  rw [hPc] at hKids hUpRead hDownWritten hFew hLog
  subst hWhole
  refine ⟨hKids, by simp, ?_, ?_, hDownRead, hDownWritten, hFew, ?_⟩
  · rw [Stream.read_take, hUpRead]
    rfl
  · rw [Stream.written_take hn]
    exact hUpWritten
  · rw [hUpRead]
    exact hLog.take (List.length_take_of_le hn.2.2)

theorem Inv.reply (hInv : Inv g s h) {i : Fin 3} (hPc : s.parent = .write i)
    (buf : Object BUF_SIZE) :
    Inv g
      { s with
        parent := nextRound i .read .close1, buf := buf, down := s.down.write (bytes buf) }
      (h ++ [.replied i s.down.written]) := by
  obtain ⟨hForked, hReads, hWrites⟩ := nextRound_read i
  obtain ⟨hKids, -, hUpRead, hUpWritten, hDownRead, hDownWritten, hFew, hLog⟩ := hInv
  rw [hPc] at hKids hUpRead hDownWritten hFew hLog
  simp only [ParentPc.writes] at hDownWritten hFew
  refine ⟨?_, ?_, ?_, hUpWritten, hDownRead, ?_, ?_, ?_⟩
  · rw [hForked]
    exact hKids
  · dsimp only
    unfold nextRound
    split
    · simp
    · simp
  · rw [hReads]
    exact hUpRead
  · rw [hWrites, Stream.written_write, hDownWritten, length_bytes]
    rfl
  · rw [hWrites]
    omega
  · rw [hReads, hWrites, hDownWritten]
    exact hLog.reply

theorem Inv.send (hInv : Inv g s h) {c : Child} (hPc : s.child c = .write) :
    Inv g
      { s with
        child := Function.update s.child c .read
        up := s.up.write (message behind c)
        order := s.order ++ [c] }
      (h ++ [.sent c s.up.written]) := by
  have hOrder : g ≤ s.order.length :=
    (hInv.few.trans (writes_le_reads s.parent)).trans hInv.reads_le
  obtain ⟨hKids, hAlive, hUpRead, hUpWritten, hDownRead, hDownWritten, hFew, hLog⟩ := hInv
  refine ⟨hKids.send hPc hOrder, hAlive, hUpRead, ?_, hDownRead, hDownWritten, hFew, ?_⟩
  · rw [Stream.written_write, hUpWritten, length_message, List.length_append]
    rfl
  · rw [hUpWritten]
    exact hLog.send c

theorem Inv.get (hInv : Inv g s h) {c : Child} (hPc : s.child c = .read) {n : Nat}
    (hn : s.down.Readable BUF_SIZE n) (hNext : s.order[s.down.read / BUF_SIZE]? = some c)
    (hWhole : n = BUF_SIZE ∨ s.down.read = 2 * BUF_SIZE) :
    Inv (g + 1) { s with child := Function.update s.child c .close0, down := s.down.take n }
      (h ++ [.got c s.down.read (s.down.queue.take n)]) := by
  obtain ⟨-, -, -, hThree⟩ := hInv.waiting hPc
  obtain ⟨hKids, hAlive, hUpRead, hUpWritten, hDownRead, hDownWritten, hFew, hLog⟩ := hInv
  have hRead := hDownRead hThree
  have hIndex : s.down.read / BUF_SIZE = g := by
    rw [hRead]
    exact Nat.mul_div_cancel_left g (by simp)
  rw [hIndex] at hNext
  have hLater : g < s.parent.writes := by
    have hQueued := hn.2.2
    have hPos := hn.1
    rw [Stream.written, hRead] at hDownWritten
    dsimp only [BUF_SIZE] at hDownWritten
    omega
  refine ⟨hKids.get hPc hNext, hAlive, hUpRead, hUpWritten, ?_, ?_, hLater, ?_⟩
  · intro hMore
    dsimp only [BUF_SIZE] at hRead hWhole ⊢
    rw [Stream.read_take]
    omega
  · rw [Stream.written_take hn]
    exact hDownWritten
  · rw [hRead]
    refine hLog.get ?_ hLater hNext
    have hPos := hn.1
    have hQueued := hn.2.2
    rw [← List.length_pos_iff, List.length_take]
    omega

theorem Inv.wait (hInv : Inv g s h) {i : Fin 3} (hPc : s.parent = .wait i) :
    Inv g { s with parent := nextRound i .wait .exited } h := by
  unfold nextRound
  split
  · exact hInv.parent hPc rfl rfl rfl (by simp)
  · exact hInv.parent hPc rfl rfl rfl (by simp)

/-- A child that waits is not left alone. -/
theorem Inv.down_open (hInv : Inv g s h) {c : Child} (hPc : s.child c = .read)
    (hNone : s.down.queue = []) : s.Open1 := by
  obtain ⟨-, -, -, hThree⟩ := hInv.waiting hPc
  have hRead := hInv.downRead hThree
  have hWritten := hInv.downWritten
  rw [Stream.written, hNone, List.length_nil, hRead] at hWritten
  refine Or.inl ?_
  cases hParent : s.parent with
  | fork i | close0 | read i | write i | close1 => rfl
  | wait i | exited | killed =>
    rw [hParent] at hWritten
    simp only [ParentPc.writes] at hWritten
    dsimp only [BUF_SIZE] at hWritten
    omega

theorem Inv.step {s' : State} {a : Action} {es : List Event} (hInv : Inv g s h)
    (hFriendly : Friendly s a) (hMoves : Moves behind s a s' es) :
    ∃ g', Inv g' s' (h ++ es) := by
  cases hMoves with
  | fork n i hPc => exact ⟨g, by simpa using hInv.fork hPc⟩
  | close0 n hPc =>
    rw [List.append_nil]
    exact ⟨g, hInv.parent hPc rfl rfl rfl (by simp)⟩
  | take n i hPc hn => exact ⟨g, hInv.take hPc hn (hFriendly i hPc hn) _⟩
  | upEnd n i hPc hNone hClosed =>
    exact absurd (hInv.open0 (by rw [hPc]; rfl) (by rw [hPc]; exact i.isLt)) hClosed
  | reply n i hPc hOpen => exact ⟨g, hInv.reply hPc _⟩
  | parentKilled n i hPc hClosed =>
    exact absurd (hInv.open0 (by rw [hPc]; rfl) (by rw [hPc]; exact i.isLt)) hClosed
  | close1 n hPc =>
    rw [List.append_nil]
    exact ⟨g, hInv.parent hPc rfl rfl rfl (by simp)⟩
  | wait n i hPc => exact ⟨g, by simpa using hInv.wait hPc⟩
  | childClose1 n c hPc =>
    rw [List.append_nil]
    refine ⟨g, hInv.child (by simp [hPc]) (by simp) ?_ ?_⟩
    · simp [hPc, ChildPc.Wrote]
    · simp [hPc, ChildPc.Done]
  | send n c hPc hOpen => exact ⟨g, hInv.send hPc⟩
  | childKilled n c hPc hClosed => exact absurd (hInv.open1 hPc) hClosed
  | get n c hPc hn =>
    obtain ⟨hDue, hWhole⟩ := hFriendly hPc hn
    exact ⟨g + 1, hInv.get hPc hn hDue hWhole⟩
  | downEnd n c hPc hNone hClosed => exact absurd (hInv.down_open hPc hNone) hClosed
  | childClose0 n c hPc =>
    rw [List.append_nil]
    refine ⟨g, hInv.child (by simp [hPc]) (by simp) ?_ ?_⟩
    · simp [hPc, ChildPc.Wrote]
    · simp [hPc, ChildPc.Done]

theorem run_inv {buf : Object BUF_SIZE} {sched : List Action}
    (hFriendly : Along (step behind) Friendly (.init buf) sched) :
    ∃ g, Inv g (run (step behind) (.init buf) sched).1 (run (step behind) (.init buf) sched).2 := by
  refine run_invariant_along (P := fun s h => ∃ g, Inv g s h) ⟨0, inv_init buf⟩ ?_ hFriendly
  rintro s h a s' es ⟨g, hInv⟩ hAction hEnabled
  exact hInv.step hAction (moves_of_step hEnabled)

/-! ## Nobody waits for ever -/

theorem leads_send {c : Child} (hPc : s.child c = .write) (hOpen : s.Open1) :
    ∃ s', Leads (step behind) s s' ∧ s'.parent = s.parent ∧ s'.up.read < s'.up.written ∧
      ∀ c', s.child c' = .read → s'.child c' = .read := by
  have hStep : step behind s (.child c 0) = some
      ({ s with
        child := Function.update s.child c .read
        up := s.up.write (message behind c)
        order := s.order ++ [c] }, [.sent c s.up.written]) := by
    simp only [step, childStep, hPc, if_pos hOpen]
  refine ⟨_, leads_of_step hStep, rfl, ?_, ?_⟩
  · rw [Stream.read_write, Stream.written_write, length_message, Stream.written]
    dsimp only [MESSAGE_SIZE]
    omega
  · intro c' hc'
    show Function.update s.child c .read c' = .read
    by_cases hSelf : c' = c
    · rw [hSelf, Function.update_self]
    · rwa [Function.update_of_ne hSelf]

theorem leads_close1 {c : Child} (hPc : s.child c = .close1) :
    ∃ s', Leads (step behind) s s' ∧ s'.parent = s.parent ∧ s'.child c = .write ∧
      ∀ c', s.child c' = .read → s'.child c' = .read := by
  have hStep : step behind s (.child c 0) = some
      ({ s with child := Function.update s.child c .write }, []) := by
    simp only [step, childStep, hPc]
  refine ⟨_, leads_of_step hStep, rfl, Function.update_self .., ?_⟩
  intro c' hc'
  have hOther : c' ≠ c := by
    rintro rfl
    rw [hPc] at hc'
    cases hc'
  show Function.update s.child c .write c' = .read
  rwa [Function.update_of_ne hOther]

theorem leads_take {i : Fin 3} (hPc : s.parent = .read i) (hQueued : s.up.read < s.up.written) :
    ∃ s', Leads (step behind) s s' ∧ s'.parent = .write i ∧ s'.child = s.child := by
  have hReadable : s.up.Readable BUF_SIZE 1 := Stream.readable_one (by simp) hQueued
  have hStep : step behind s (.parent 1) = some
      ({ s with
        parent := .write i, buf := recvInto s.buf (s.up.queue.take 1), up := s.up.take 1 },
        [.took i s.up.read (s.up.queue.take 1)]) := by
    simp only [step, parentStep, hPc, if_pos hReadable]
  exact ⟨_, leads_of_step hStep, rfl, rfl⟩

theorem leads_get {c : Child} (hPc : s.child c = .read) (hQueued : s.down.read < s.down.written) :
    ∃ s', Leads (step behind) s s' ∧ s'.child c = .close0 := by
  have hReadable : s.down.Readable BUF_SIZE 1 := Stream.readable_one (by simp) hQueued
  have hStep : step behind s (.child c 1) = some
      ({ s with child := Function.update s.child c .close0, down := s.down.take 1 },
        [.got c s.down.read (s.down.queue.take 1)]) := by
    simp only [step, childStep, hPc, if_pos hReadable]
  exact ⟨_, leads_of_step hStep, Function.update_self ..⟩

theorem leads_reply {i : Fin 3} (hPc : s.parent = .write i) (hOpen : s.Open0) :
    ∃ s', Leads (step behind) s s' ∧ s'.down.read < s'.down.written ∧ s'.child = s.child := by
  have hStep : step behind s (.parent 0) = some
      ({ s with
        parent := nextRound i .read .close1
        buf := strcat s.buf OK
        down := s.down.write (bytes (strcat s.buf OK)) }, [.replied i s.down.written]) := by
    simp only [step, parentStep, hPc, if_pos hOpen]
  refine ⟨_, leads_of_step hStep, ?_, rfl⟩
  rw [Stream.read_write, Stream.written_write, length_bytes, Stream.written]
  dsimp only [BUF_SIZE]
  omega

/-- The forks that are left, and then the first `close`. -/
theorem Inv.leads_forks (hInv : Inv g s h) {i : Fin 3} (hPc : s.parent = .fork i) {c : Child}
    (hChild : s.child c = .read) :
    ∃ s', Leads (Socketpair.step behind) s s' ∧ Inv g s' h ∧ s'.parent = .close0 ∧
      s'.child c = .read := by
  -- The induction is on the number of forks.
  induction hLeft : 3 - i.val generalizing s i with
  | zero => omega
  | succ k ih =>
    have hStep : Socketpair.step behind s (.parent 0) = some
        ({ s with
          parent := nextRound i .fork .close0
          child := Function.update s.child i .close1 }, []) := by
      simp only [Socketpair.step, parentStep, hPc]
    have hNext := hInv.fork hPc
    have hOther : c ≠ i := by
      rintro rfl
      have hUnborn := (hInv.kids.born c).mpr (by rw [hPc]; exact Nat.le_refl _)
      rw [hChild] at hUnborn
      cases hUnborn
    have hKept : Function.update s.child i .close1 c = .read := by
      rwa [Function.update_of_ne hOther]
    by_cases hMore : i.val + 1 < 3
    · have hParent : nextRound i ParentPc.fork .close0 = .fork ⟨i.val + 1, hMore⟩ :=
        dif_pos hMore
      obtain ⟨s', hLeads, hInv', hEnd⟩ :=
        ih hNext (i := ⟨i.val + 1, hMore⟩) hParent hKept (by dsimp only; omega)
      exact ⟨s', (leads_of_step hStep).trans hLeads, hInv', hEnd⟩
    · exact ⟨_, leads_of_step hStep, hNext, dif_neg hMore, hKept⟩

/-- If nothing is queued for the parent, then a child has still to write. -/
theorem Inv.parent_reads (hInv : Inv g s h) {i : Fin 3} (hPc : s.parent = .read i) :
    ∃ s', Leads (Socketpair.step behind) s s' ∧ s'.parent = .write i ∧
      ∀ c, s.child c = .read → s'.child c = .read := by
  by_cases hQueued : s.up.read < s.up.written
  · obtain ⟨s', hLeads, hWrite, hSame⟩ := leads_take hPc hQueued
    refine ⟨s', hLeads, hWrite, ?_⟩
    rw [hSame]
    exact fun c hc => hc
  · have hShort : s.order.length < 3 := by
      have hRead := hInv.upRead
      have hWritten := hInv.upWritten
      have hi := i.isLt
      rw [hPc] at hRead
      simp only [ParentPc.reads] at hRead
      dsimp only [MESSAGE_SIZE] at hRead hWritten
      omega
    obtain ⟨c, hc⟩ := exists_not_mem hShort
    rw [hInv.kids.wrote] at hc
    have hWrite : ∃ s', Leads (Socketpair.step behind) s s' ∧ s'.parent = .read i ∧
        s'.child c = .write ∧ ∀ c', s.child c' = .read → s'.child c' = .read := by
      cases hChild : s.child c with
      | unborn =>
        rw [hInv.kids.born, hPc] at hChild
        exact absurd hChild (Nat.not_le.mpr c.isLt)
      | close1 =>
        obtain ⟨s', hLeads, hParent, hWrite, hKept⟩ := leads_close1 hChild
        exact ⟨s', hLeads, hParent.trans hPc, hWrite, hKept⟩
      | write => exact ⟨s, .refl _ s, hPc, hChild, fun _ hRead => hRead⟩
      | killed => exact absurd hChild (hInv.kids.alive c)
      | read | close0 | exited =>
        rw [hChild] at hc
        exact absurd (by simp [ChildPc.Wrote]) hc
    obtain ⟨s₁, hLeads₁, hParent₁, hChild, hKept₁⟩ := hWrite
    obtain ⟨s₂, hLeads₂, hParent₂, hQueued, hKept₂⟩ :=
      leads_send hChild (Or.inl (by rw [hParent₁]; rfl))
    obtain ⟨s₃, hLeads₃, hWrite, hSame⟩ := leads_take (hParent₂.trans hParent₁) hQueued
    refine ⟨s₃, (hLeads₁.trans hLeads₂).trans hLeads₃, hWrite, ?_⟩
    rw [hSame]
    exact fun c' hc' => hKept₂ c' (hKept₁ c' hc')

/-- The parent goes on to its next reply. -/
theorem Inv.parent_writes (hInv : Inv g s h) (hWrites : s.parent.writes < 3) {c : Child}
    (hChild : s.child c = .read) :
    ∃ s' i, Leads (Socketpair.step behind) s s' ∧ s'.parent = .write i ∧ s'.child c = .read := by
  have hClose : ∀ {s : State}, Inv g s h → s.parent = .close0 → s.child c = .read →
      ∃ s' i, Leads (Socketpair.step behind) s s' ∧ s'.parent = .write i ∧
        s'.child c = .read := by
    intro s hInv hPc hChild
    have hStep : Socketpair.step behind s (.parent 0) =
        some ({ s with parent := .read 0 }, []) := by
      simp only [Socketpair.step, parentStep, hPc]
    have hNext : Inv g { s with parent := .read 0 } h := hInv.parent hPc rfl rfl rfl (by simp)
    obtain ⟨s', hLeads, hWrite, hKept⟩ := hNext.parent_reads rfl
    exact ⟨s', 0, (leads_of_step hStep).trans hLeads, hWrite, hKept c hChild⟩
  cases hPc : s.parent with
  | fork i =>
    obtain ⟨s₁, hLeads, hInv₁, hPc₁, hChild₁⟩ := hInv.leads_forks hPc hChild
    obtain ⟨s₂, i, hLeads', hWrite⟩ := hClose hInv₁ hPc₁ hChild₁
    exact ⟨s₂, i, hLeads.trans hLeads', hWrite⟩
  | close0 => exact hClose hInv hPc hChild
  | read i =>
    obtain ⟨s', hLeads, hWrite, hKept⟩ := hInv.parent_reads hPc
    exact ⟨s', i, hLeads, hWrite, hKept c hChild⟩
  | write i => exact ⟨s, i, .refl _ s, hPc, hChild⟩
  | close1 | wait i | exited | killed =>
    rw [hPc] at hWrites
    exact absurd hWrites (Nat.lt_irrefl 3)

theorem Inv.child_reads (hInv : Inv g s h) {c : Child} (hPc : s.child c = .read) :
    ∃ s', Leads (Socketpair.step behind) s s' ∧ s'.child c = .close0 := by
  by_cases hQueued : s.down.read < s.down.written
  · exact leads_get hPc hQueued
  · obtain ⟨-, -, -, hThree⟩ := hInv.waiting hPc
    have hWrites : s.parent.writes < 3 := by
      have hRead := hInv.downRead hThree
      have hWritten := hInv.downWritten
      dsimp only [BUF_SIZE] at hRead hWritten
      omega
    obtain ⟨s₁, i, hLeads₁, hParent, hChild⟩ := hInv.parent_writes hWrites hPc
    obtain ⟨s₂, hLeads₂, hQueued', hSame⟩ :=
      leads_reply hParent (Or.inr ⟨c, by rw [hChild]; rfl⟩)
    obtain ⟨s₃, hLeads₃, hClose⟩ := leads_get (by rw [hSame]; exact hChild) hQueued'
    exact ⟨s₃, (hLeads₁.trans hLeads₂).trans hLeads₃, hClose⟩

theorem Inv.not_wedged (hInv : Inv g s h) : ¬ Wedged behind s := by
  rintro (⟨i, hPc, hEver⟩ | ⟨c, hPc, hEver⟩)
  · obtain ⟨s', ⟨sched, rfl⟩, hWrite, -⟩ := hInv.parent_reads hPc
    rw [hEver sched] at hWrite
    cases hWrite
  · obtain ⟨s', ⟨sched, rfl⟩, hClose⟩ := hInv.child_reads hPc
    rw [hEver sched] at hClose
    cases hClose

end OsLabs.SocketPair.Socketpair
