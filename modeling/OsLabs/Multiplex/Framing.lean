import OsLabs.Memory.Blocks
import OsLabs.Multiplex.Server
import OsLabs.Runs.Pool

/-!
# Message boundaries in the multiplexed server

TCP keeps the bytes of a connection in order but not the boundaries of the messages. The
event loop calls `handle_client_command` once for every successful `recv`, however many
bytes it returned, and the array it received into is shared by all connections.

`Arrivals` is what the server sees: non-empty chunks of at most `BUF_SIZE` bytes on any
number of connections, such that each connection carries whole messages. `Framed` is the
property a stream protocol would have. It holds exactly when no chunk is shorter than a
message: a shorter one is executed as a command of its own, completed with bytes that
earlier messages, of any connection, left in the array.
-/

namespace OsLabs.Multiplex

open Memory Sockets Runs

variable {φ : Type}

/-- The event loop on the chunks that `recv` returns, with the connection of each. -/
def mainLoop (s : Server) : List (φ × List UInt8) → List (φ × Event)
  | [] => []
  | (fd, msg) :: rest =>
    if s.exited then []
    else
      let (s, _, es) := receive s msg
      es.map (Prod.mk fd) ++ mainLoop s rest

def executed : Event → Option Command
  | .command cmd => some cmd
  | _ => none

/-- The command of a whole message. -/
def commandOfMessage (m : List UInt8) : Command :=
  ⟨m.getD 0 0, if m.getD 0 0 = 'P'.toUInt8 then some (m.getD 1 0) else none⟩

variable [DecidableEq φ]

/-- The commands executed for a connection, in order. -/
def commands (fd : φ) (h : List (φ × Event)) : List Command := (own fd h).filterMap executed

/-- The bytes that arrived on a connection. -/
def stream (fd : φ) (chunks : List (φ × List UInt8)) : List UInt8 := (own fd chunks).flatten

/-- The messages of a connection. -/
def messages (fd : φ) (chunks : List (φ × List UInt8)) : List (List UInt8) :=
  blocks BUF_SIZE ((stream fd chunks).length / BUF_SIZE) (stream fd chunks)

structure Arrivals (φ : Type) [DecidableEq φ] where
  chunks : List (φ × List UInt8)
  nonempty : ∀ c ∈ chunks, 0 < c.2.length
  length_le : ∀ c ∈ chunks, c.2.length ≤ BUF_SIZE
  whole : ∀ fd, BUF_SIZE ∣ (stream fd chunks).length

/-- The commands executed for every connection are its messages, each once and in order,
whatever arrives on other connections and whatever the receive array held. -/
def Framed (buf : Object BUF_SIZE) (a : Arrivals φ) : Prop :=
  ∀ fd, commands fd (mainLoop (initServer buf) a.chunks) =
      (messages fd a.chunks).map commandOfMessage ∧
    ∀ (buf' : Object BUF_SIZE) (b : Arrivals φ), own fd b.chunks = own fd a.chunks →
      commands fd (mainLoop (initServer buf') b.chunks) =
        commands fd (mainLoop (initServer buf) a.chunks)

/-! ## One chunk is one command -/

/-- The server runs and its buffer holds some queue. -/
def Running (s : Server) : Prop := s.exited = false ∧ ∃ q, s.buffer.Holds q

theorem running_init (buf : Object BUF_SIZE) : Running (initServer buf) :=
  ⟨rfl, [], Buffer.holds_init⟩

theorem receive_command {s : Server} (h : Running s) (msg : List UInt8) :
    Running (receive s msg).1 ∧
      (receive s msg).2.2.filterMap executed = [commandOf (recvInto s.buf msg)] := by
  obtain ⟨hExited, q, hHolds⟩ := h
  unfold receive
  generalize hs : ({ s with buf := recvInto s.buf msg } : Server) = s'
  have hHolds' : s'.buffer.Holds q := by rw [← hs]; exact hHolds
  have hExited' : s'.exited = false := by rw [← hs]; exact hExited
  have hBuf : recvInto s.buf msg = s'.buf := by rw [← hs]
  rw [hBuf]
  by_cases hP : s'.buf 0 = 'P'.toUInt8
  · by_cases hRoom : q.length < ARR_SIZE
    · obtain ⟨b, hHandle, hb⟩ := handle_produce hHolds' hP hRoom
      rw [hHandle]
      exact ⟨⟨hExited', _, hb⟩, rfl⟩
    · rw [handle_full hHolds' hP hRoom]
      exact ⟨⟨hExited', q, hHolds'⟩, rfl⟩
  · by_cases hC : s'.buf 0 = 'C'.toUInt8
    · cases q with
      | nil =>
        rw [handle_empty hHolds' hC]
        exact ⟨⟨hExited', [], hHolds'⟩, rfl⟩
      | cons c q =>
        obtain ⟨b, hHandle, hb⟩ := handle_consume hHolds' hC
        rw [hHandle]
        exact ⟨⟨hExited', q, hb⟩, rfl⟩
    · rw [handle_other hP hC]
      exact ⟨⟨hExited', q, hHolds'⟩, rfl⟩

theorem commands_cons {s : Server} (h : Running s) (fd fd' : φ) (msg : List UInt8)
    (rest : List (φ × List UInt8)) :
    commands fd (mainLoop s ((fd', msg) :: rest)) =
      (if fd' = fd then [commandOf (recvInto s.buf msg)] else []) ++
        commands fd (mainLoop (receive s msg).1 rest) := by
  have hEvents := (receive_command h msg).2
  rw [mainLoop, h.1]
  simp only [Bool.false_eq_true, if_false, commands, own, List.filterMap_append,
    List.filterMap_map, Function.comp_def]
  split
  · simp [hEvents]
  · simp

theorem length_commands {s : Server} (h : Running s) (fd : φ) (chunks : List (φ × List UInt8)) :
    (commands fd (mainLoop s chunks)).length = (own fd chunks).length := by
  induction chunks generalizing s with
  | nil => rfl
  | cons c rest ih =>
    obtain ⟨fd', msg⟩ := c
    rw [commands_cons h, List.length_append, ih (receive_command h msg).1]
    by_cases hfd : fd' = fd
    · simp [own, hfd, Nat.add_comm]
    · simp [own, hfd]

theorem commandOf_recvInto (buf : Object BUF_SIZE) {m : List UInt8} (h : m.length = BUF_SIZE) :
    commandOf (recvInto buf m) = commandOfMessage m := by
  have hByte (i : Fin BUF_SIZE) : recvInto buf m i = m.getD i.val 0 := by
    have hi : i.val < m.length := by
      rw [h]
      exact i.isLt
    rw [recvInto_of_lt hi, List.getD_eq_getElem?_getD, List.getElem?_eq_getElem hi]
    rfl
  have h₀ : recvInto buf m 0 = m.getD 0 0 := hByte 0
  have h₁ : recvInto buf m 1 = m.getD 1 0 := hByte 1
  rw [commandOf, commandOfMessage, h₀, h₁]

/-- Whole messages are executed as they are, whatever the other connections send. -/
theorem commands_of_whole {s : Server} (h : Running s) (fd : φ) (chunks : List (φ × List UInt8))
    (hWhole : ∀ m ∈ own fd chunks, m.length = BUF_SIZE) :
    commands fd (mainLoop s chunks) = (own fd chunks).map commandOfMessage := by
  induction chunks generalizing s with
  | nil => rfl
  | cons c rest ih =>
    obtain ⟨fd', msg⟩ := c
    rw [commands_cons h]
    by_cases hfd : fd' = fd
    · have hOwn : own fd ((fd', msg) :: rest) = msg :: own fd rest := by simp [own, hfd]
      rw [hOwn] at hWhole ⊢
      rw [if_pos hfd, commandOf_recvInto _ (hWhole msg List.mem_cons_self),
        ih (receive_command h msg).1 fun m hm => hWhole m (List.mem_cons_of_mem _ hm)]
      rfl
    · have hOwn : own fd ((fd', msg) :: rest) = own fd rest := by simp [own, hfd]
      rw [hOwn] at hWhole ⊢
      rw [if_neg hfd, List.nil_append, ih (receive_command h msg).1 hWhole]

/-! ## When the boundaries survive -/

theorem mem_own {fd : φ} {m : List UInt8} {chunks : List (φ × List UInt8)} :
    m ∈ own fd chunks ↔ (fd, m) ∈ chunks := by
  simp only [own, List.mem_filterMap, Option.ite_none_right_eq_some, Option.some.injEq]
  constructor
  · rintro ⟨c, hc, rfl, rfl⟩
    exact hc
  · exact fun h => ⟨(fd, m), h, rfl, rfl⟩

theorem framed_of_whole (buf : Object BUF_SIZE) (a : Arrivals φ)
    (hWhole : ∀ c ∈ a.chunks, c.2.length = BUF_SIZE) : Framed buf a := by
  intro fd
  have hOwn : ∀ m ∈ own fd a.chunks, m.length = BUF_SIZE := fun m hm => hWhole _ (mem_own.mp hm)
  have hLoop := commands_of_whole (running_init buf) fd a.chunks hOwn
  have hMessages : messages fd a.chunks = own fd a.chunks := by
    rw [messages, stream, length_flatten_eq hOwn, Nat.mul_div_cancel _ (by decide)]
    exact blocks_flatten hOwn
  refine ⟨by rw [hLoop, hMessages], ?_⟩
  intro buf' b hSame
  rw [commands_of_whole (running_init buf') fd b.chunks (by rwa [hSame]), hLoop, hSame]

theorem whole_of_framed (buf : Object BUF_SIZE) (a : Arrivals φ) (hFramed : Framed buf a) :
    ∀ c ∈ a.chunks, c.2.length = BUF_SIZE := by
  rintro ⟨fd, m⟩ hc
  have hCount := congrArg List.length (hFramed fd).1
  rw [length_commands (running_init buf), List.length_map, messages, length_blocks] at hCount
  have hTotal : (stream fd a.chunks).length = (own fd a.chunks).length * BUF_SIZE := by
    rw [hCount, Nat.div_mul_cancel (a.whole fd)]
  exact length_eq_of_flatten (fun p hp => a.length_le _ (mem_own.mp hp)) hTotal m (mem_own.mpr hc)

/-- The commands of all connections are their messages exactly when every chunk that
`recv` returns is a whole message. -/
theorem framed_iff (buf : Object BUF_SIZE) (a : Arrivals φ) :
    Framed buf a ↔ ∀ c ∈ a.chunks, c.2.length = BUF_SIZE :=
  ⟨whole_of_framed buf a, framed_of_whole buf a⟩

/-- One message of one connection, cut after its first byte. -/
def splitArrivals : Arrivals Unit where
  chunks := [((), ['P'.toUInt8]), ((), 'x'.toUInt8 :: List.replicate 62 0)]
  nonempty := by decide
  length_le := by decide
  whole := by decide

theorem not_framed_split : ¬ Framed (fun _ => 0) splitArrivals := by
  intro h
  have hLength := whole_of_framed _ _ h ((), ['P'.toUInt8]) (by simp [splitArrivals])
  exact absurd hLength (by decide)

end OsLabs.Multiplex
