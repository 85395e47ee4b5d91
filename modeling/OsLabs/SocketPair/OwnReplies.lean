import OsLabs.SocketPair.Friendly
import OsLabs.SocketPair.Main

/-!
# Who reads which reply

In a friendly run of `socketpair.c` every child reads its own reply. Other runs go wrong in two
ways: a child reads a reply that was meant for another one, or the parent takes two messages
for one, and then there is a reply too few. In `main.c` no run pairs the children with their
replies, friendly or not.
-/

namespace OsLabs.SocketPair

namespace Socketpair

open Memory Runs

variable {behind : Child → Nat → UInt8} {s : State}

/-! ## Waiting for ever -/

/-- Parent and children wait, and nothing is queued. -/
structure Silent (s : State) (i : Fin 3) (c : Child) : Prop where
  parent : s.parent = .read i
  up : s.up.queue = []
  down : s.down.queue = []
  child : s.child c = .read
  children : ∀ c', s.child c' = .read ∨ s.child c' = .exited

theorem Silent.stuck {i : Fin 3} {c : Child} (hSilent : Silent s i c) (a : Action) :
    step behind s a = none := by
  obtain ⟨hParent, hUp, hDown, hChild, hChildren⟩ := hSilent
  have hOpen0 : s.Open0 := Or.inr ⟨c, by rw [hChild]; rfl⟩
  have hOpen1 : s.Open1 := Or.inl (by rw [hParent]; rfl)
  cases a with
  | parent n =>
    have hNone := Stream.not_readable_nil hUp BUF_SIZE n
    simp only [step, parentStep, hParent]
    rw [if_neg hNone, if_neg fun hEnd => hEnd.2 hOpen0]
  | child c' n =>
    rcases hChildren c' with hRead | hExited
    · have hNone := Stream.not_readable_nil hDown BUF_SIZE n
      simp only [step, childStep, hRead]
      rw [if_neg hNone, if_neg fun hEnd => hEnd.2 hOpen1]
    · simp only [step, childStep, hExited]

theorem Silent.wedged {i : Fin 3} {c : Child} (hSilent : Silent s i c) : Wedged behind s := by
  refine Or.inl ⟨i, hSilent.parent, fun sched => ?_⟩
  rw [run_stuck hSilent.stuck]
  exact hSilent.parent

/-- All children write before the parent reads. -/
def opening : List Action :=
  [.parent 0, .parent 0, .parent 0, .parent 0, .child 0 0, .child 0 0, .child 1 0, .child 1 0,
    .child 2 0, .child 2 0]

/-- A reply to each message, and the child that reads it. -/
def rounds (readers : List Child) : List Action :=
  readers.flatMap fun c => [.parent 8, .parent 0, .child c 64]

def closing : List Action :=
  [.child 0 0, .child 1 0, .child 2 0, .parent 0, .parent 0, .parent 0, .parent 0]

/-- The first read returns two messages, so there are two replies for three children. -/
def coalesced : List Action :=
  opening ++ [.parent 16, .parent 0, .parent 8, .parent 0, .child 0 64, .child 1 64, .child 0 0,
    .child 1 0]

end Socketpair

open Memory Runs

/-- In a friendly run of `socketpair.c` each child reads the reply to its own message, and
nobody waits for ever. In `main.c` nobody waits for ever, but whenever all processes end, some
child has read from the middle of a reply or from that to another child. -/
theorem replies_paired {behind : Child → Nat → UInt8} {buf : Object Socketpair.BUF_SIZE}
    {sched : List Socketpair.Action}
    (hFriendly : Along (Socketpair.step behind) Socketpair.Friendly (.init buf) sched)
    (buf' : Object Main.BUF_SIZE) (sched' : List Main.Action) :
    (Paired (fun _ => Socketpair.MESSAGE_SIZE)
        (run (Socketpair.step behind) (.init buf) sched).2 ∧
      ¬ Socketpair.Wedged behind (run (Socketpair.step behind) (.init buf) sched).1) ∧
    ¬ Main.Wedged (run Main.step (.init buf') sched').1 ∧
      ((run Main.step (.init buf') sched').1.Completed →
        ¬ Paired Main.len (run Main.step (.init buf') sched').2) := by
  constructor
  · obtain ⟨g, hInv⟩ := Socketpair.run_inv hFriendly
    exact ⟨hInv.log.paired (Socketpair.writes_le_reads _), hInv.not_wedged⟩
  · have hInv := Main.run_inv buf' sched'
    exact ⟨hInv.not_wedged, hInv.not_paired⟩

/-- Every child of `main.c` reads before the next one is forked. -/
def Main.turns : List Main.Action :=
  [.parent 0, .child 0 0, .parent 6, .parent 0, .child 0 3,
    .parent 0, .child 1 0, .parent 4, .parent 0, .child 1 3,
    .parent 0, .child 2 0, .parent 5, .parent 0, .child 2 3,
    .parent 0, .parent 0, .parent 0]

/-- The children of `socketpair.c` read in the order in which they have written. -/
theorem replies_paired_in_order :
    (Along (Socketpair.step fun _ _ => 0) Socketpair.Friendly (.init fun _ => 0)
        (Socketpair.opening ++ Socketpair.rounds [0, 1, 2] ++ Socketpair.closing) ∧
      (run (Socketpair.step fun _ _ => 0) (.init fun _ => 0)
        (Socketpair.opening ++ Socketpair.rounds [0, 1, 2] ++ Socketpair.closing)).1.Completed ∧
      Paired (fun _ => Socketpair.MESSAGE_SIZE)
        (run (Socketpair.step fun _ _ => 0) (.init fun _ => 0)
          (Socketpair.opening ++ Socketpair.rounds [0, 1, 2] ++ Socketpair.closing)).2) ∧
    (run Main.step (.init fun _ => 0) Main.turns).1.Completed ∧
      ¬ Paired Main.len (run Main.step (.init fun _ => 0) Main.turns).2 := by
  have hFriendly : Along (Socketpair.step fun _ _ => 0) Socketpair.Friendly (.init fun _ => 0)
      (Socketpair.opening ++ Socketpair.rounds [0, 1, 2] ++ Socketpair.closing) := by
    decide +kernel
  have hCompleted : (run Main.step (.init fun _ => 0) Main.turns).1.Completed := by
    decide +kernel
  obtain ⟨⟨hPaired, -⟩, -, hNot⟩ := replies_paired hFriendly (fun _ => 0) Main.turns
  exact ⟨⟨hFriendly, by decide +kernel, hPaired⟩, hCompleted, hNot hCompleted⟩

/-- The second child reads the reply to the first. And if a read of the parent returns two
messages, then the parent waits for a third one, and a child for the answer to it. -/
theorem not_paired_stolen :
    ((run (Socketpair.step fun _ _ => 0) (.init fun _ => 0)
        (Socketpair.opening ++ Socketpair.rounds [1, 0, 2] ++ Socketpair.closing)).1.Completed ∧
      ¬ Paired (fun _ => Socketpair.MESSAGE_SIZE)
        (run (Socketpair.step fun _ _ => 0) (.init fun _ => 0)
          (Socketpair.opening ++ Socketpair.rounds [1, 0, 2] ++ Socketpair.closing)).2) ∧
      Socketpair.Wedged (fun _ _ => 0)
        (run (Socketpair.step fun _ _ => 0) (.init fun _ => 0) Socketpair.coalesced).1 := by
  refine ⟨⟨by decide +kernel, ?_⟩, ?_⟩
  · intro hPaired
    have hHistory : (run (Socketpair.step fun _ _ => 0) (.init fun _ => 0)
          (Socketpair.opening ++ Socketpair.rounds [1, 0, 2] ++ Socketpair.closing)).2 =
        [.sent 0 0, .sent 1 8, .sent 2 16,
          .took 0 0 [97, 97, 97, 0, 0, 0, 0, 0], .replied 0 0,
          .got 1 0 ([97, 97, 97, 32, 79, 75] ++ List.replicate 58 0),
          .took 1 8 [98, 98, 98, 98, 0, 0, 0, 0], .replied 1 64,
          .got 0 64 ([98, 98, 98, 98, 32, 79, 75] ++ List.replicate 57 0),
          .took 2 16 [99, 99, 99, 99, 99, 99, 0, 0], .replied 2 128,
          .got 2 128 ([99, 99, 99, 99, 99, 99, 32, 79, 75] ++ List.replicate 55 0)] := by
      decide +kernel
    rw [hHistory] at hPaired
    obtain ⟨-, k, start, taken, hSent, hTook, -, hReplied⟩ :=
      hPaired 1 0 ([97, 97, 97, 32, 79, 75] ++ List.replicate 58 0) (by simp)
    obtain rfl : start = 8 := by simpa using hSent
    obtain rfl : k = 0 := by simpa using hReplied
    simp at hTook
  · refine Socketpair.Silent.wedged (i := 2) (c := 2) ⟨?_, ?_, ?_, ?_, ?_⟩
    · decide +kernel
    · decide +kernel
    · decide +kernel
    · decide +kernel
    · decide +kernel

end OsLabs.SocketPair
