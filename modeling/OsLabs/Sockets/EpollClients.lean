import OsLabs.Sockets.ClientMain
import OsLabs.Sockets.EpollQueue

/-!
# Clients of the single-threaded server

`server_2.c` serves one connection to its end before the next, and a client opens a new
connection for every command, so a run is a sequence of whole exchanges in the order in which the
server accepts them. In one exchange the client sends its request, `serve` of the server
handles it, and the client prints what its own request object tells after the reply.

The letters in the buffer are the surpluses of the clients. Up to four clients never fill it,
and nobody consumes more than was produced; five can fill it.
-/

namespace OsLabs.Sockets.EpollClients

open Memory Runs SysV Client ServerEpoll

/-- A client before its command number `iter`, with its global `letter`. -/
structure Process where
  iter : Nat
  letter : UInt8

/-- The request objects of `produce` or `consume` and of `serve`, which neither initialises. -/
structure Locals where
  client : ReqT
  server : ReqT

/-- One command of a client: what it prints is the event. -/
def exchange (b : Buffer) (p : Process) (locals : Locals) :
    Option (Buffer × Process × List (List Output)) :=
  match command p.iter with
  | none => none
  | some cmd =>
    match serve b locals.server (stream [request cmd p.letter locals.client]) with
    | (none, _) => none
    | (some b', es) =>
      some (b', ⟨p.iter + 1, if cmd = .produce then nextLetter p.letter else p.letter⟩,
        [output cmd p.letter locals.client (sent es).flatten])

variable {τ : Type}

def init : Conf τ Buffer Process := ⟨.init, fun _ => ⟨0, 'a'.toUInt8⟩⟩

/-- The clients, in the order in which the server accepts their connections. -/
def execute [DecidableEq τ] (sched : List (τ × Locals)) :
    Conf τ Buffer Process × List (τ × List Output) :=
  run (poolStep exchange) init sched

theorem execute_snoc [DecidableEq τ] (sched : List (τ × Locals)) (a : τ × Locals) :
    execute (sched ++ [a]) = advance (poolStep exchange) (execute sched) a :=
  run_snoc _ _ sched a

/-- The client was told that the buffer is full, or that it is empty. -/
def Refused (printed : List Output) : Prop :=
  .text "(buf_full)\n" ∈ printed ∨ .text "(buf_empty)\n" ∈ printed

/-! ## One exchange -/

theorem refused_output_iff (cmd : Command) (letter : UInt8) (req reply : ReqT)
    (hStatus : reply.status = OK ∨ reply.status = ERR_BUF_FULL ∨ reply.status = ERR_BUF_EMPTY) :
    Refused (output cmd letter req (bytes reply)) ↔ reply.status ≠ OK := by
  have hFull : ERR_BUF_FULL ≠ OK := by decide
  have hEmpty : ERR_BUF_EMPTY ≠ OK := by decide
  have hOther : ERR_BUF_EMPTY ≠ ERR_BUF_FULL := by decide
  cases cmd <;> rcases hStatus with h | h | h <;>
    simp [Refused, output, received, produceOutput, consumeOutput, h, hFull, hEmpty, hOther]

/-- What the client reads off the reply of the queue. -/
theorem refused_answer_iff (q : List UInt8) (cmd : Command) (letter : UInt8) (req : ReqT) :
    Refused (output cmd letter req (bytes (Queue.answer q (request cmd letter req)).2)) ↔
      if cmd = .produce then ARR_SIZE ≤ q.length else q.length = 0 := by
  have hType : 'c'.toUInt8 ≠ 'p'.toUInt8 := by decide
  have hFull : ERR_BUF_FULL ≠ OK := by decide
  have hEmpty : ERR_BUF_EMPTY ≠ OK := by decide
  cases cmd with
  | produce =>
    by_cases hRoom : q.length < ARR_SIZE
    · rw [refused_output_iff]
      · simp [Queue.answer, hRoom]
      · simp [Queue.answer, hRoom]
    · rw [refused_output_iff]
      · simp [Queue.answer, hRoom, hFull, Nat.not_lt.mp hRoom]
      · simp [Queue.answer, hRoom]
  | consume =>
    cases q with
    | nil =>
      rw [refused_output_iff]
      · simp [Queue.answer, hType, hEmpty]
      · simp [Queue.answer, hType]
    | cons c rest =>
      rw [refused_output_iff]
      · simp [Queue.answer, hType]
      · simp [Queue.answer, hType]

/-- An exchange that is not refused adds a letter to the queue or takes one out. -/
theorem length_answer {q : List UInt8} {cmd : Command} {letter : UInt8} {req : ReqT}
    (h : ¬ Refused (output cmd letter req (bytes (Queue.answer q (request cmd letter req)).2))) :
    (Queue.answer q (request cmd letter req)).1.length + (if cmd = .consume then 1 else 0) =
      q.length + (if cmd = .produce then 1 else 0) := by
  have hType : 'c'.toUInt8 ≠ 'p'.toUInt8 := by decide
  rw [refused_answer_iff] at h
  cases cmd with
  | produce =>
    rw [if_pos rfl, Nat.not_le] at h
    simp [Queue.answer, h]
  | consume =>
    cases q with
    | nil => exact absurd rfl h
    | cons c rest => simp [Queue.answer, hType]

/-- A client with a command left always gets an answer. -/
theorem exchange_eq {b : Buffer} {q : List UInt8} (h : b.Holds q) {p : Process} {cmd : Command}
    (hCommand : command p.iter = some cmd) (locals : Locals) :
    ∃ b', b'.Holds (Queue.answer q (request cmd p.letter locals.client)).1 ∧
      exchange b p locals =
        some (b', ⟨p.iter + 1, if cmd = .produce then nextLetter p.letter else p.letter⟩,
          [output cmd p.letter locals.client
            (bytes (Queue.answer q (request cmd p.letter locals.client)).2)]) := by
  obtain ⟨b', es, hServe, hHolds, hSent, -⟩ :=
    serve_simulates h locals.server [request cmd p.letter locals.client]
  refine ⟨b', hHolds, ?_⟩
  simp only [exchange, hCommand, hServe, hSent]
  simp [Queue.run]

/-! ## Whole runs -/

theorem length_le_of_holds {b : Buffer} {q : List UInt8} (h : b.Holds q) :
    q.length ≤ ARR_SIZE := by
  have hEmpty := h.empty
  omega

variable [Fintype τ] [DecidableEq τ]

/-- The letters that the clients have put in and not taken out. -/
def letters (procs : τ → Process) : Nat := totalRank (fun p => surplus p.iter) procs

/-- As long as nobody has been refused, the queue is as long as the surpluses together. -/
theorem execute_holds (sched : List (τ × Locals)) :
    ∃ q, (execute sched).1.shared.Holds q ∧
      ((∀ e ∈ (execute sched).2, ¬ Refused e.2) → q.length = letters (execute sched).1.procs) := by
  refine pool_invariant (P := fun (c : Conf τ Buffer Process) h => ∃ q, c.shared.Holds q ∧
    ((∀ e ∈ h, ¬ Refused e.2) → q.length = letters c.procs)) ?_ ?_ sched
  · refine ⟨[], Buffer.holds_init, fun _ => ?_⟩
    simp [letters, totalRank, init, surplus]
  · rintro c h t locals b' p' es ⟨q, hHolds, hLength⟩ hStep
    cases hCommand : command (c.procs t).iter with
    | none =>
      simp only [exchange, hCommand] at hStep
      cases hStep
    | some cmd =>
      obtain ⟨b, hHolds', hEq⟩ := exchange_eq hHolds hCommand locals
      rw [hEq] at hStep
      cases hStep
      refine ⟨_, hHolds', fun hNone => ?_⟩
      have hOld := hLength fun e he => hNone e (List.mem_append_left _ he)
      have hNew := length_answer
        (hNone (t, _) (List.mem_append_right _ (List.mem_singleton_self _)))
      have hTotal := totalRank_update (fun p => surplus p.iter) c.procs t
        ⟨(c.procs t).iter + 1, if cmd = .produce then nextLetter (c.procs t).letter
          else (c.procs t).letter⟩
      dsimp only [letters] at hOld hTotal ⊢
      cases cmd with
      | produce =>
        obtain ⟨hNext, -⟩ := surplus_produce hCommand
        simp only [reduceCtorEq, if_true, if_false] at hNew hTotal ⊢
        omega
      | consume =>
        obtain ⟨hNext, hNow⟩ := surplus_consume hCommand
        simp only [reduceCtorEq, if_true, if_false] at hNew hTotal ⊢
        omega

/-- Four clients are never refused. -/
theorem never_refused (hFew : Fintype.card τ ≤ 4) (sched : List (τ × Locals)) :
    ∀ e ∈ (execute sched).2, ¬ Refused e.2 := by
  induction sched using List.reverseRecOn with
  | nil => exact fun e he => absurd he List.not_mem_nil
  | append_singleton sched a ih =>
    obtain ⟨q, hHolds, hLength⟩ := execute_holds sched
    have hLetters := hLength ih
    have hAtMost : letters (execute sched).1.procs ≤ Fintype.card τ * 6 :=
      totalRank_le fun t => surplus_le _
    have hAtLeast := le_totalRank (fun p => surplus p.iter) (execute sched).1.procs a.1
    rw [execute_snoc]
    unfold advance
    split
    · exact ih
    · next c' es hEnabled =>
      obtain ⟨b', p', own, hStep, -, rfl⟩ := poolStep_eq_some hEnabled
      intro e he
      rcases List.mem_append.mp he with hOld | hNew
      · exact ih e hOld
      · obtain ⟨printed, hPrinted, rfl⟩ := List.mem_map.mp hNew
        cases hCommand : command ((execute sched).1.procs a.1).iter with
        | none =>
          simp only [exchange, hCommand] at hStep
          cases hStep
        | some cmd =>
          obtain ⟨b, -, hEq⟩ := exchange_eq hHolds hCommand a.2
          rw [hEq] at hStep
          cases hStep
          obtain rfl := List.mem_singleton.mp hPrinted
          dsimp only
          rw [refused_answer_iff]
          cases cmd with
          | produce =>
            rw [if_pos rfl, hLetters]
            simp only [ARR_SIZE]
            omega
          | consume =>
            obtain ⟨-, hNow⟩ := surplus_consume hCommand
            rw [if_neg (by decide), hLetters]
            dsimp only [letters] at hAtLeast ⊢
            omega

/-! ## Five clients -/

/-- How often a client is scheduled. -/
def turns (t : τ) (sched : List (τ × Locals)) : Nat := sched.countP fun a => a.1 = t

theorem iter_eq_turns {sched : List (τ × Locals)} (h : ∀ t, turns t sched ≤ 40005) (t : τ) :
    ((execute sched).1.procs t).iter = turns t sched := by
  induction sched using List.reverseRecOn generalizing t with
  | nil => rfl
  | append_singleton sched a ih =>
    have hTurns (u : τ) : turns u (sched ++ [a]) = turns u sched + if a.1 = u then 1 else 0 := by
      simp [turns, List.countP_append, List.countP_cons]
    have hEarlier (u : τ) : turns u sched ≤ 40005 := by
      have := h u
      rw [hTurns] at this
      omega
    have hMover := h a.1
    rw [hTurns, if_pos rfl] at hMover
    obtain ⟨q, hHolds, -⟩ := execute_holds sched
    obtain ⟨cmd, hCommand⟩ := command_isSome (k := ((execute sched).1.procs a.1).iter) (by
      rw [ih hEarlier]
      omega)
    obtain ⟨b, -, hEq⟩ := exchange_eq hHolds hCommand a.2
    have hNext := advance_eq_some (x := execute sched) (poolStep_of_step hEq)
    rw [execute_snoc, hNext, hTurns, ← ih hEarlier t]
    dsimp only
    by_cases ht : a.1 = t
    · subst ht
      rw [Function.update_self, if_pos rfl]
    · rw [Function.update_of_ne (Ne.symm ht), if_neg ht]
      rfl

/-- Every client gives its first six commands. -/
def sixEach (clients : List τ) (locals : Locals) : List (τ × Locals) :=
  clients.flatMap fun t => List.replicate 6 (t, locals)

theorem turns_sixEach (locals : Locals) (t : τ) :
    turns t (sixEach (Finset.univ : Finset τ).toList locals) = 6 := by
  have hOne (u : τ) : ((List.replicate 6 (u, locals)).countP fun a => decide (a.1 = t)) =
      if u = t then 6 else 0 := by
    by_cases hu : u = t
    · simp [hu]
    · simp [hu]
  rw [turns, sixEach, List.countP_flatMap]
  simp only [Function.comp_def, hOne]
  rw [Finset.sum_map_toList, Finset.sum_ite_eq', if_pos (Finset.mem_univ t)]

/-- For any number of clients: no run has a client that is refused, in whatever order their
commands come, if and only if there are at most four of them. -/
theorem never_refused_iff :
    (∀ sched : List (τ × Locals), ∀ e ∈ (execute sched).2, ¬ Refused e.2) ↔
      Fintype.card τ ≤ 4 := by
  constructor
  · intro hNever
    -- after six commands of every client the buffer would hold six letters of each
    let locals : Locals := ⟨fun _ => 0, fun _ => 0⟩
    obtain ⟨q, hHolds, hLength⟩ := execute_holds (sixEach (Finset.univ : Finset τ).toList locals)
    have hRoom := length_le_of_holds hHolds
    rw [hLength (hNever _), letters, totalRank] at hRoom
    have hSix (t : τ) :
        surplus ((execute (sixEach Finset.univ.toList locals)).1.procs t).iter = 6 := by
      rw [iter_eq_turns, turns_sixEach]
      · rfl
      · intro u
        rw [turns_sixEach]
        omega
    simp only [hSix, Finset.sum_const, Finset.card_univ, ARR_SIZE] at hRoom
    rw [Nat.nsmul_eq_mul] at hRoom
    omega
  · exact fun hFew sched => never_refused hFew sched

end OsLabs.Sockets.EpollClients
