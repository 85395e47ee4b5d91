import Mathlib.Data.Int.ModEq
import Mathlib.Data.List.Basic
import Mathlib.Logic.Function.Basic
import OsLabs.Runs.Schedule

/-!
# Ring buffers

A ring of capacity `n` is followed through the log of everything ever put into it and
the number of entries taken out so far. `Window` says that the cells still hold the part
of the log which has not been taken: entry `k` of the log is in cell `k % n`. `Holds`
forgets the log and keeps the queue of the entries not taken, oldest first.

The last section is about the accesses themselves. A history of accesses is paced when
each entry goes into the next cell while there is room and each entry read comes from
the cell of the oldest one not yet read. Then what has been read is a prefix of what has
been stored (`Paced.fifo`), and no cell is overwritten before its entry has been
read (`Paced.readBeforeOverwrite`).
-/

namespace OsLabs.RingBuffer

open Runs

variable {α : Type} {n : Nat}

/-- Two entries of the log less than `n` apart are in different cells. -/
theorem mod_ne_of_lt {j k : Nat} (hOrder : j < k) (hNear : k < j + n) : j % n ≠ k % n := by
  intro hSame
  have hDvd : n ∣ k - j := (Nat.modEq_iff_dvd' hOrder.le).mp hSame
  have := Nat.le_of_dvd (by omega) hDvd
  omega

/-- The cells hold the entries of `log` from number `taken` on. -/
structure Window (n : Nat) (cells : Nat → α) (log : List α) (taken : Nat) : Prop where
  taken_le : taken ≤ log.length
  length_le : log.length ≤ taken + n
  cell : ∀ k (hk : k < log.length), taken ≤ k → cells (k % n) = log[k]

theorem Window.empty (n : Nat) (cells : Nat → α) : Window n cells [] 0 :=
  ⟨Nat.le_refl _, Nat.zero_le _, fun _ hk => absurd hk (Nat.not_lt_zero _)⟩

theorem Window.put {cells : Nat → α} {log : List α} {taken : Nat}
    (h : Window n cells log taken) (hRoom : log.length < taken + n) (x : α) :
    Window n (Function.update cells (log.length % n) x) (log ++ [x]) taken := by
  refine ⟨?_, ?_, ?_⟩
  · have := h.taken_le
    simp only [List.length_append, List.length_singleton]
    omega
  · simp only [List.length_append, List.length_singleton]
    omega
  · intro k hk hTaken
    simp only [List.length_append, List.length_singleton] at hk
    by_cases hLast : k = log.length
    · subst hLast
      simp
    · have hOld : k < log.length := by omega
      rw [Function.update_of_ne (mod_ne_of_lt hOld (by omega)), h.cell k hOld hTaken,
        List.getElem_append_left hOld]

theorem Window.get {cells : Nat → α} {log : List α} {taken : Nat}
    (h : Window n cells log taken) (hSome : taken < log.length) :
    log[taken]? = some (cells (taken % n)) := by
  rw [List.getElem?_eq_getElem hSome, h.cell taken hSome (Nat.le_refl _)]

theorem Window.take {cells : Nat → α} {log : List α} {taken : Nat}
    (h : Window n cells log taken) (hSome : taken < log.length) :
    Window n cells log (taken + 1) := by
  refine ⟨hSome, ?_, fun k hk hTaken => h.cell k hk (by omega)⟩
  have := h.length_le
  omega

/-! ## The queue in a ring -/

/-- The ring holds the queue `q`, with its first entry at `head` and its next free cell at
`tail`. -/
def Holds (n : Nat) (cells : Nat → α) (head tail : Nat) (q : List α) : Prop :=
  ∃ log taken, Window n cells log taken ∧ head = taken % n ∧ tail = log.length % n ∧
    q = log.drop taken

theorem Holds.empty (n : Nat) (cells : Nat → α) : Holds n cells 0 0 [] :=
  ⟨[], 0, .empty n cells, (Nat.zero_mod n).symm, (Nat.zero_mod n).symm, rfl⟩

theorem Holds.put {cells : Nat → α} {head tail : Nat} {q : List α}
    (h : Holds n cells head tail q) (hRoom : q.length < n) (x : α) :
    Holds n (Function.update cells tail x) head ((tail + 1) % n) (q ++ [x]) := by
  obtain ⟨log, taken, hWindow, rfl, rfl, rfl⟩ := h
  have hTaken := hWindow.taken_le
  rw [List.length_drop] at hRoom
  refine ⟨log ++ [x], taken, hWindow.put (by omega) x, rfl, ?_, ?_⟩
  · rw [List.length_append, List.length_singleton, Nat.mod_add_mod]
  · rw [List.drop_append_of_le_length hTaken]

theorem Holds.take {cells : Nat → α} {head tail : Nat} {x : α} {q : List α}
    (h : Holds n cells head tail (x :: q)) :
    cells head = x ∧ Holds n cells ((head + 1) % n) tail q := by
  obtain ⟨log, taken, hWindow, rfl, rfl, hq⟩ := h
  have hSome : taken < log.length := by
    have hLength := congrArg List.length hq
    rw [List.length_drop, List.length_cons] at hLength
    omega
  rw [List.drop_eq_getElem_cons hSome] at hq
  obtain ⟨rfl, rfl⟩ := List.cons.inj hq
  refine ⟨hWindow.cell taken hSome (Nat.le_refl _), log, taken + 1, hWindow.take hSome, ?_, rfl,
    rfl⟩
  rw [Nat.mod_add_mod]

/-! ## Histories of accesses -/

/-- One access to a cell of a ring. -/
inductive Access (α : Type) where
  | put (slot : Nat) (x : α)
  | got (slot : Nat) (x : α)

def Access.stored : Access α → Option α
  | .put _ x => some x
  | .got _ _ => none

def Access.read : Access α → Option α
  | .put _ _ => none
  | .got _ x => some x

/-- The entries stored, in the order of the stores. -/
def puts (h : List (Access α)) : List α := h.filterMap Access.stored

/-- The entries read, in the order of the reads. -/
def gots (h : List (Access α)) : List α := h.filterMap Access.read

@[simp] theorem puts_append (h g : List (Access α)) : puts (h ++ g) = puts h ++ puts g := by
  simp [puts]

@[simp] theorem gots_append (h g : List (Access α)) : gots (h ++ g) = gots h ++ gots g := by
  simp [gots]

@[simp] theorem puts_nil : puts ([] : List (Access α)) = [] := rfl
@[simp] theorem gots_nil : gots ([] : List (Access α)) = [] := rfl
@[simp] theorem puts_put (s : Nat) (x : α) (h : List (Access α)) :
    puts (.put s x :: h) = x :: puts h := rfl
@[simp] theorem puts_got (s : Nat) (x : α) (h : List (Access α)) :
    puts (.got s x :: h) = puts h := rfl
@[simp] theorem gots_put (s : Nat) (x : α) (h : List (Access α)) :
    gots (.put s x :: h) = gots h := rfl
@[simp] theorem gots_got (s : Nat) (x : α) (h : List (Access α)) :
    gots (.got s x :: h) = x :: gots h := rfl

/-- A store finds every entry that its cell held before already read. -/
def ReadBeforeOverwrite (h : List (Access α)) : Prop :=
  Always (fun before e => ∀ slot x, e = .put slot x →
    ∀ p y m, before = p ++ .put slot y :: m → .got slot y ∈ m) h

/-- The next access uses the cell whose turn it is. -/
def InTurn (n : Nat) (before : List (Access α)) : Access α → Prop
  | .put slot _ =>
    slot = (puts before).length % n ∧ (puts before).length < (gots before).length + n
  | .got slot x =>
    slot = (gots before).length % n ∧ (puts before)[(gots before).length]? = some x

def Paced (n : Nat) (h : List (Access α)) : Prop := Always (InTurn n) h

theorem Paced.left {h g : List (Access α)} (hPaced : Paced n (h ++ g)) : Paced n h :=
  fun before e after hSplit => hPaced before e (after ++ g) (by simp [hSplit])

theorem Paced.fifo {h : List (Access α)} (hPaced : Paced n h) : gots h <+: puts h := by
  induction h using List.reverseRecOn with
  | nil => exact List.prefix_rfl
  | append_singleton h e ih =>
    obtain ⟨hBefore, hTurn⟩ := always_snoc.mp hPaced
    have hPrefix := ih hBefore
    cases e with
    | put slot x => simpa using hPrefix.trans (List.prefix_append _ _)
    | got slot x =>
      obtain ⟨rest, hRest⟩ := hPrefix
      have hNext := hTurn.2
      rw [← hRest, List.getElem?_append_right (Nat.le_refl _), Nat.sub_self] at hNext
      cases rest with
      | nil => simp at hNext
      | cons y rest =>
        obtain rfl : y = x := by simpa using hNext
        exact ⟨rest, by simpa using hRest⟩

/-- The read number `k` of a history, with what precedes it. -/
theorem exists_got {h : List (Access α)} {k : Nat} (hk : k < (gots h).length) :
    ∃ before slot x after, h = before ++ .got slot x :: after ∧ (gots before).length = k := by
  induction h generalizing k with
  | nil => simp at hk
  | cons e rest ih =>
    cases e with
    | put slot x =>
      obtain ⟨before, s, y, after, rfl, hLength⟩ := ih (by simpa using hk)
      exact ⟨.put slot x :: before, s, y, after, rfl, by simpa using hLength⟩
    | got slot x =>
      cases k with
      | zero => exact ⟨[], slot, x, rest, rfl, rfl⟩
      | succ k =>
        obtain ⟨before, s, y, after, rfl, hLength⟩ := ih (by simpa using hk)
        exact ⟨.got slot x :: before, s, y, after, rfl, by simpa using hLength⟩

/-- An entry whose number is below the number of reads has been read from its cell, after
it was stored there. -/
theorem Paced.got_mem {p m : List (Access α)} {slot : Nat} {x : α}
    (hPaced : Paced n (p ++ .put slot x :: m))
    (hRead : (puts p).length < (gots (p ++ .put slot x :: m)).length) :
    .got slot x ∈ m := by
  have hBehind := (hPaced.left).fifo.length_le
  simp only [gots_append, gots_put, List.length_append] at hRead
  obtain ⟨before, s, y, after, rfl, hLength⟩ :=
    exists_got (h := m) (k := (puts p).length - (gots p).length) (by omega)
  have hNumber : (gots (p ++ .put slot x :: before)).length = (puts p).length := by
    simp only [gots_append, gots_put, List.length_append]
    omega
  obtain ⟨hSlot, hEntry⟩ := hPaced (p ++ .put slot x :: before) (.got s y) after (by simp)
  rw [hNumber] at hSlot hEntry
  have hPut := (hPaced p (.put slot x) (before ++ .got s y :: after) rfl).1
  obtain rfl : s = slot := hSlot.trans hPut.symm
  obtain rfl : x = y := by simpa using hEntry
  simp

theorem Paced.readBeforeOverwrite {h : List (Access α)} (hPaced : Paced n h) :
    ReadBeforeOverwrite h := by
  intro before e after hSplit slot x he p y m hBefore
  subst he hBefore hSplit
  obtain ⟨hSlot, hRoom⟩ := hPaced _ _ _ rfl
  have hOld : Paced n (p ++ .put slot y :: m) := hPaced.left
  have hFirst := (hOld p (.put slot y) m rfl).1
  refine hOld.got_mem ?_
  by_contra hUnread
  refine mod_ne_of_lt (n := n) ?_ ?_ (hFirst.symm.trans hSlot)
  · simp
  · omega

end OsLabs.RingBuffer
