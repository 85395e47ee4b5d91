import OsLabs.Mt.LettersDivided
import OsLabs.Mt.Progress
import OsLabs.Runs.Fairness

/-!
# Every client of the reservation server comes to its end

If no call fails, every statement brings the system closer to its end: a client opens at most one
connection more than there are letters, so there are at most as many threads for each client. If
moreover no `accept` changes `connfd` under a thread that has not read it, every connection has a
thread, and where no statement is left, no client waits for an answer.
-/

namespace OsLabs.Mt.Clients

open Memory Runs SysV RwLock

variable {τ : Type} {N : Nat}

/-! ## The rank of the system -/

def phaseRank : Phase → Nat
  | .table _ _ => 200
  | .status _ _ => 100
  | .start | .finished | .failed => 0

/-- The steps that a client has left, with those of a thread that takes its message. -/
def Client.rank (p : Client) (conns : Nat → Conn) : Nat :=
  1000 * (ARR_SIZE + 1 - p.opened) + phaseRank p.phase +
    match p.sockfd with
    | some i => 60 * (conns i).inbox.length
    | none => 0

/-- A thread reads `connfd`. -/
theorem count_read {workers : List (Option Int)} {k : Nat} (hCell : workers[k]? = some none)
    (fd : Int) : (workers.set k (some fd)).count none + 1 = workers.count none := by
  obtain ⟨hLess, hNone⟩ := List.getElem?_eq_some_iff.mp hCell
  have hPos : 0 < workers.count none := List.count_pos_iff.mpr (List.mem_of_getElem? hCell)
  rw [List.count_set hLess, hNone, if_pos (by decide), if_neg (by simp)]
  omega

def mainRank (s : HandOver.State) : Nat :=
  s.workers.count none +
    match s.pc with
    | .create => 3
    | .detach => 1
    | .accept | .exited => 0

def System.ranks (s : System τ N) (t : τ) : Nat := (s.clients t).rank fun i => s.conns (t, i)

def System.rank [Fintype τ] (s : System τ N) : Nat :=
  totalRank id s.ranks + totalRank (fun w => pcRank w.pc) s.threads + 4 * s.backlog.length +
    mainRank s.handOver

theorem rank_quiet {p : Client} (hSockfd : p.sockfd = none) (hPhase : phaseRank p.phase = 0)
    (conns : Nat → Conn) : p.rank conns = 1000 * (ARR_SIZE + 1 - p.opened) := by
  simp only [Client.rank, hSockfd, hPhase, Nat.add_zero]

theorem receive_rank {p p' : Client} (conns : Nat → Conn) {i : Nat} {conn : Conn} {ls : List Line}
    (hSockfd : p.sockfd = some i) (hReceive : p.receive (conns i) = some (p', conn, ls)) :
    p'.rank (Function.update conns i conn) < p.rank conns := by
  obtain ⟨phase, opened⟩ := p
  cases phase with
  | start | finished | failed => cases hSockfd
  | table j buf =>
    obtain rfl : j = i := Option.some.inj hSockfd
    simp only [Client.receive] at hReceive
    split at hReceive
    case h_2 hPhase _ => cases hPhase
    case h_3 => cases hReceive
    next sockfd b msg rest hPhase hOutbox =>
    cases hPhase
    split at hReceive
    · cases hReceive
      simp only [Client.rank, Client.sockfd, phaseRank]
      omega
    · cases hReceive
      simp only [Client.rank, Client.sockfd, phaseRank, Function.update_self, List.length_append,
        List.length_singleton]
      omega
  | status j buf =>
    simp only [Client.receive] at hReceive
    split at hReceive
    case h_1 hPhase _ => cases hPhase
    case h_3 => cases hReceive
    next sockfd b msg rest hPhase hOutbox =>
    have hLess (phase : Phase) (hQuiet : Client.sockfd ⟨phase, opened⟩ = none)
        (hPhase : phaseRank phase = 0) (conn : Conn) :
        Client.rank ⟨phase, opened⟩ (Function.update conns i conn) <
          Client.rank ⟨.status j buf, opened⟩ conns := by
      rw [rank_quiet hQuiet hPhase]
      simp only [Client.rank, Client.sockfd, phaseRank]
      omega
    split at hReceive
    · cases hReceive; exact hLess .start rfl rfl _
    · split at hReceive
      · cases hReceive; exact hLess .start rfl rfl _
      · cases hReceive; exact hLess .failed rfl rfl _

/-- A message that a thread takes. -/
theorem take_rank {p : Client} (conns : Nat → Conn) {i : Nat} {conn : Conn} {msg : List UInt8}
    (hSockfd : p.sockfd = some i) (hInbox : (conns i).inbox = msg :: conn.inbox) :
    p.rank (Function.update conns i conn) + 60 = p.rank conns := by
  simp only [Client.rank, hSockfd, Function.update_self, hInbox, List.length_cons]
  omega

theorem keep_rank {p : Client} (conns : Nat → Conn) {i : Nat} {conn : Conn}
    (hInbox : conn.inbox = (conns i).inbox) :
    p.rank (Function.update conns i conn) = p.rank conns := by
  unfold Client.rank
  cases p.sockfd with
  | none => rfl
  | some j => simp only [update_same Conn.inbox hInbox]

theorem connect_rank {opened : Nat} (conns : Nat → Conn) (buf : Object BUF_SIZE)
    (hFew : opened ≤ ARR_SIZE) :
    Client.rank ⟨.table opened buf, opened + 1⟩
      (Function.update conns opened ⟨[bytes buf], false, []⟩) + 4 <
        Client.rank ⟨.start, opened⟩ conns := by
  simp only [Client.rank, Client.sockfd, phaseRank, Function.update_self, List.length_singleton]
  omega

theorem sockfd_of_awaits {p : Client} {i : Nat} {req : Request} (h : p.awaits i = some req) :
    p.sockfd = some i := by
  obtain ⟨phase, opened⟩ := p
  cases phase with
  | start | finished | failed => cases h
  | table j buf | status j buf =>
    simp only [Client.awaits] at h
    split at h
    · next hi => rw [hi]; rfl
    · cases h

/-- A message that no thread has taken is of a client that waits. -/
theorem Exchange.waits {conn : Conn} {serving : Fin N → Option Request} {req : Option Request}
    {msg : List UInt8} {rest : List (List UInt8)} (h : Exchange conn serving req)
    (hInbox : conn.inbox = msg :: rest) : ∃ r, req = some r := by
  cases h with
  | empty hIn hOut hIdle => cases hInbox.symm.trans hIn
  | sent b hIn hRequest hOut hIdle => exact ⟨_, rfl⟩
  | taken k hIn hOut hServes hOthers => exact ⟨_, rfl⟩
  | answered reply hIn hOut hIdle => exact ⟨_, rfl⟩

variable [DecidableEq τ]

theorem ranks_moved (s : System τ N) (t : τ) (p : Client) (i : Nat) (conn : Conn) :
    (s.setClient t p i conn).ranks =
      Function.update s.ranks t (p.rank (Function.update (fun j => s.conns (t, j)) i conn)) := by
  funext u
  show (Function.update s.clients t p u).rank
    (fun j => Function.update s.conns (t, i) conn (u, j)) = _
  by_cases hu : t = u
  · subst hu
    rw [conns_self, Function.update_self, Function.update_self]
  · rw [conns_other _ hu, Function.update_of_ne (Ne.symm hu), Function.update_of_ne (Ne.symm hu)]
    rfl

/-! ## Calls that succeed -/

def Action.succeeds : Action τ N → Bool
  | .connect _ opened connected => opened && connected
  | .accept ok | .create ok | .detach ok => ok
  | .client _ | .read _ | .work _ => true

/-- What an action can do whose calls succeed. -/
inductive Goes (locals : Locals τ N) (s : System τ N) : Action τ N → System τ N → Prop where
  | connect (t : τ) (buf : Object BUF_SIZE) (hPhase : (s.clients t).phase = .start) :
      Goes locals s (.connect t true true)
        (System.setClient { s with backlog := s.backlog ++ [(t, (s.clients t).opened)] } t
          ⟨.table (s.clients t).opened buf, (s.clients t).opened + 1⟩ (s.clients t).opened
          ⟨[bytes buf], false, []⟩)
  | client (t : τ) (i : Nat) (p : Client) (conn : Conn) (ls : List Line)
      (hSockfd : (s.clients t).sockfd = some i)
      (hReceive : (s.clients t).receive (s.conns (t, i)) = some (p, conn, ls)) :
      Goes locals s (.client t) (s.setClient t p i conn)
  | accept (c : τ × Nat) (rest : List (τ × Nat)) (next : HandOver.State)
      (hBacklog : s.backlog = c :: rest) (hPc : s.handOver.pc = .accept)
      (hNext : next = { s.handOver with
        pc := .create
        connfd := newFd s.handOver
        fds := newFd s.handOver :: s.handOver.fds })
      (hRun : HandOver.step s.handOver (.accept (newFd s.handOver)) = some (next, [])) :
      Goes locals s (.accept true) { s with
        peer := Function.update s.peer (newFd s.handOver) (some c)
        backlog := rest
        handOver := next }
  | create (next : HandOver.State) (hPc : s.handOver.pc = .create)
      (hRoom : s.handOver.workers.length < N)
      (hNext : next = { s.handOver with
        pc := .detach
        workers := s.handOver.workers ++ [none] })
      (hRun : HandOver.step s.handOver (.create true) = some (next, [])) :
      Goes locals s (.create true) { s with handOver := next }
  | detach (next : HandOver.State) (hPc : s.handOver.pc = .detach)
      (hNext : next = { s.handOver with pc := .accept })
      (hRun : HandOver.step s.handOver (.detach true) = some (next, [])) :
      Goes locals s (.detach true) { s with handOver := next }
  | read (k : Fin N) (next : HandOver.State) (hCell : s.handOver.workers[k.val]? = some none)
      (hNext : next = { s.handOver with
        workers := s.handOver.workers.set k (some s.handOver.connfd) })
      (hRun : HandOver.step s.handOver (.read k) = some (next, [.got k s.handOver.connfd])) :
      Goes locals s (.read k) { s with handOver := next }
  | error (k : Fin N) (sh : Shared) (w : Worker) (es : List Event) (hTarget : s.target k = none)
      (hRun : processClient s.shared (s.threads k) ⟨.error, locals.stray k⟩ = some (sh, w, es)) :
      Goes locals s (.work k) (s.setThread k sh w s.conns)
  | work (k : Fin N) (t : τ) (i : Nat) (sh : Shared) (w : Worker) (conn : Conn) (es : List Event)
      (hTarget : s.target k = some (t, i))
      (hWork : (s.conns (t, i)).work s.shared (s.threads k) (locals.stray k) =
        some (sh, w, conn, es)) :
      Goes locals s (.work k) (s.setThread k sh w (Function.update s.conns (t, i) conn))

theorem goes_of_step {locals : Locals τ N} {s s' : System τ N} {a : Action τ N}
    {es : List (Report τ)} (hSucceeds : a.succeeds = true)
    (hStep : step locals s a = some (s', es)) : Goes locals s a s' := by
  unfold step at hStep
  split at hStep
  · cases hStep
  cases a with
  | connect t socket connect =>
    obtain ⟨rfl, rfl⟩ := Bool.and_eq_true_iff.mp hSucceeds
    simp only [System.connect] at hStep
    split at hStep
    · next hPhase =>
      rw [if_neg (by decide), if_neg (by decide)] at hStep
      cases hStep
      exact .connect t _ hPhase
    · cases hStep
  | client t =>
    simp only [System.client] at hStep
    split at hStep
    · cases hStep
    · next i hSockfd =>
      obtain ⟨⟨p, conn, ls⟩, hReceive, hEq⟩ := Option.map_eq_some_iff.mp hStep
      cases hEq
      exact .client t i p conn ls hSockfd hReceive
  | accept ok =>
    obtain rfl : ok = true := hSucceeds
    simp only [System.accept, if_true] at hStep
    split at hStep
    · cases hStep
    · next c rest hBacklog =>
      obtain ⟨⟨next, es₁⟩, hRun, hEq⟩ := Option.map_eq_some_iff.mp hStep
      cases hEq
      have hNext := hRun
      simp only [HandOver.step] at hNext
      split at hNext
      · next hPc =>
        rw [if_neg (by simp only [newFd]; omega)] at hNext
        split at hNext
        · cases hNext
          exact .accept c rest _ hBacklog hPc rfl hRun
        · cases hNext
      · cases hNext
  | create ok =>
    obtain rfl : ok = true := hSucceeds
    simp only [System.create, if_true] at hStep
    split at hStep
    · next hRoom =>
      obtain ⟨⟨next, es₁⟩, hRun, hEq⟩ := Option.map_eq_some_iff.mp hStep
      cases hEq
      have hNext := hRun
      simp only [HandOver.step, if_true] at hNext
      split at hNext
      · next hPc =>
        cases hNext
        exact .create _ hPc hRoom rfl hRun
      · cases hNext
    · cases hStep
  | detach ok =>
    obtain rfl : ok = true := hSucceeds
    simp only [System.detach, if_true] at hStep
    obtain ⟨⟨next, es₁⟩, hRun, hEq⟩ := Option.map_eq_some_iff.mp hStep
    cases hEq
    have hNext := hRun
    simp only [HandOver.step, if_true] at hNext
    split at hNext
    · next hPc =>
      cases hNext
      exact .detach _ hPc rfl hRun
    · cases hNext
  | read k =>
    obtain ⟨⟨next, es₁⟩, hRun, hEq⟩ := Option.map_eq_some_iff.mp hStep
    cases hEq
    have hNext := hRun
    simp only [HandOver.step] at hNext
    split at hNext
    · next hCell =>
      cases hNext
      exact .read k _ hCell.2 rfl hRun
    · cases hNext
  | work k =>
    simp only [System.work] at hStep
    split at hStep
    · cases hStep
    next fd hConnfd =>
    split at hStep
    · next hPeer =>
      obtain ⟨⟨sh, w, es₁⟩, hRun, hEq⟩ := Option.map_eq_some_iff.mp hStep
      cases hEq
      exact .error k sh w es₁ (by rw [System.target, hConnfd]; exact hPeer) hRun
    · next c hPeer =>
      obtain ⟨⟨sh, w, conn, es₁⟩, hWork, hEq⟩ := Option.map_eq_some_iff.mp hStep
      cases hEq
      exact .work k c.1 c.2 sh w conn es₁ (by rw [System.target, hConnfd]; exact hPeer) hWork

theorem Standing.few_of_start {table : Table} {conns : Nat → Conn} {p : Client}
    {indices : List Nat} (h : Standing table conns p indices) (hPhase : p.phase = .start) :
    p.opened ≤ ARR_SIZE := by
  obtain ⟨low, hPast⟩ := h.past_of_start hPhase
  exact hPast.few.trans hPast.low_le

variable [Fintype τ]

/-- A step of one client. -/
theorem rank_moved (s : System τ N) {t : τ} {p : Client} {i : Nat} {conn : Conn}
    (backlog : List (τ × Nat))
    (hLess : p.rank (Function.update (fun j => s.conns (t, j)) i conn) + 4 * backlog.length <
      s.ranks t + 4 * s.backlog.length) :
    (System.setClient { s with backlog := backlog } t p i conn).rank < s.rank := by
  have hSum := totalRank_update id s.ranks t
    (p.rank (Function.update (fun j => s.conns (t, j)) i conn))
  rw [← ranks_moved] at hSum
  simp only [id_eq] at hSum
  show totalRank id (s.setClient t p i conn).ranks + totalRank _ s.threads + 4 * backlog.length +
    mainRank s.handOver < _
  unfold System.rank
  omega

omit [DecidableEq τ] in
/-- A statement of `main`, or a read of `connfd`. -/
theorem rank_handsOver (s : System τ N) {next : HandOver.State} {peer : Int → Option (τ × Nat)}
    {backlog : List (τ × Nat)}
    (hLess : 4 * backlog.length + mainRank next < 4 * s.backlog.length + mainRank s.handOver) :
    System.rank { s with peer := peer, backlog := backlog, handOver := next } < s.rank := by
  show totalRank id s.ranks + totalRank _ s.threads + 4 * backlog.length + mainRank next < _
  unfold System.rank
  omega

/-- A statement of a thread. -/
theorem rank_worked (s : System τ N) {k : Fin N} {sh : Shared} {w : Worker} {t : τ} {i : Nat}
    {conn : Conn}
    (hLess : (s.clients t).rank (Function.update (fun j => s.conns (t, j)) i conn) + pcRank w.pc <
      s.ranks t + pcRank (s.threads k).pc) :
    (s.setThread k sh w (Function.update s.conns (t, i) conn)).rank < s.rank := by
  have hClients := totalRank_update id s.ranks t
    ((s.clients t).rank (Function.update (fun j => s.conns (t, j)) i conn))
  have hThreads := totalRank_update (fun w : Worker => pcRank w.pc) s.threads k w
  have hRanks := ranks_moved s t (s.clients t) i conn
  unfold System.setClient at hRanks
  rw [Function.update_eq_self] at hRanks
  rw [← hRanks] at hClients
  simp only [id_eq] at hClients
  show totalRank id (System.ranks { s with conns := Function.update s.conns (t, i) conn }) +
    totalRank _ (Function.update s.threads k w) + 4 * s.backlog.length + mainRank s.handOver < _
  unfold System.rank
  omega

theorem Goes.rank_lt {locals : Locals τ N} {s s' : System τ N} {a : Action τ N}
    {h : List (Report τ)} (hGoes : Goes locals s a s') (hInv : Inv s h)
    (hRunning : s'.shared.exited = false) : s'.rank < s.rank := by
  cases hGoes with
  | connect t buf hPhase =>
    have hFew := (hInv.client t).few_of_start hPhase
    have hRank := connect_rank (fun j => s.conns (t, j)) buf hFew
    refine rank_moved s _ ?_
    rw [List.length_append, List.length_singleton, System.ranks]
    have hSame : s.clients t = ⟨.start, (s.clients t).opened⟩ := by rw [← hPhase]
    rw [← hSame] at hRank
    omega
  | client t i p conn ls hSockfd hReceive =>
    have hRank := receive_rank (fun j => s.conns (t, j)) hSockfd hReceive
    exact rank_moved s s.backlog (Nat.add_lt_add_right hRank _)
  | accept c rest next hBacklog hPc hNext hRun =>
    refine rank_handsOver s ?_
    subst hNext
    rw [hBacklog, List.length_cons]
    simp only [mainRank, hPc]
    omega
  | create next hPc hRoom hNext hRun =>
    refine rank_handsOver s ?_
    subst hNext
    simp only [mainRank, hPc, List.count_append, List.count_singleton_self]
    omega
  | detach next hPc hNext hRun =>
    refine rank_handsOver s ?_
    subst hNext
    simp only [mainRank, hPc]
    omega
  | read k next hCell hNext hRun =>
    refine rank_handsOver s ?_
    subst hNext
    have hCount := count_read hCell s.handOver.connfd
    simp only [mainRank]
    omega
  | error k sh w es hTarget hRun =>
    have hLess : pcRank w.pc < pcRank (s.threads k).pc :=
      processClient_rank_lt hRun hRunning (by simp)
    have hThreads := totalRank_update (fun w : Worker => pcRank w.pc) s.threads k w
    show totalRank id s.ranks + totalRank _ (Function.update s.threads k w) +
      4 * s.backlog.length + mainRank s.handOver < _
    unfold System.rank
    omega
  | work k t i sh w conn es hTarget hWork =>
    refine rank_worked s ?_
    obtain ⟨input, hRun, -, -, ⟨hPc, msg, rfl, hInbox⟩ | ⟨rfl, hInbox, -⟩⟩ := conn_work_run hWork
    · obtain ⟨req, hAwaits⟩ := (hInv.exchange t i).waits hInbox
      have hTake := take_rank (fun j => s.conns (t, j)) (sockfd_of_awaits hAwaits) hInbox
      have hRecv : pcRank (s.threads k).pc = 1 := by rw [hPc, pcRank]
      rw [System.ranks, ← hTake]
      rcases processClient_rank hRun hRunning with ⟨-, -, hLess⟩ | hLess
      · omega
      · omega
    · rw [keep_rank (fun j => s.conns (t, j)) hInbox]
      exact Nat.add_lt_add_left (processClient_rank_lt hRun hRunning (by simp)) _

/-! ## Runs in which no call fails -/

/-- A connection that is accepted takes `connfd` from no thread that has not read it. -/
def Undisturbed (locals : Locals τ N) (s : System τ N) (a : Action τ N) : Prop :=
  a = .accept true → step locals s a ≠ none →
    HandOver.Undisturbed s.handOver (.accept (newFd s.handOver))

/-- The server runs, every connection is in the queue or has a descriptor, and there is a thread
for every descriptor; no call has failed. -/
structure Live (s : System τ N) : Prop where
  inv : ∃ h, Inv s h
  running : s.shared.exited = false
  handed : HandOver.Inv s.handOver
  pc : s.handOver.pc ≠ .exited
  created : s.handOver.workers.length + (if s.handOver.pc = .create then 1 else 0) =
    s.handOver.fds.length
  opened : s.handOver.fds.length + s.backlog.length = totalRank Client.opened s.clients
  queued : ∀ c ∈ s.backlog, c.2 < (s.clients c.1).opened
  named : ∀ fd c, s.peer fd = some c → c.2 < (s.clients c.1).opened
  accepted : ∀ t i, i < (s.clients t).opened →
    (t, i) ∈ s.backlog ∨ ∃ fd ∈ s.handOver.fds, s.peer fd = some (t, i)
  ended : ∀ k c, s.target k = some c → (s.threads k).pc = .finished → (s.conns c).closed = true
  succeeded : ∀ t, (s.clients t).phase ≠ .failed

theorem live_init (locals : Locals τ N) (connfd : Int) : Live (init locals connfd) := by
  refine ⟨⟨[], inv_init locals connfd⟩, rfl, HandOver.inv_init connfd, nofun, rfl, ?_, nofun, nofun,
    nofun, nofun, nofun⟩
  exact (Finset.sum_eq_zero fun t _ => rfl).symm

theorem Live.named_target {s : System τ N} (h : Live s) {k : Fin N} {c : τ × Nat}
    (hTarget : s.target k = some c) : c.2 < (s.clients c.1).opened := by
  obtain ⟨fd, -, hPeer⟩ := Option.bind_eq_some_iff.mp hTarget
  exact h.named fd c hPeer

theorem Live.succeeded_update {s : System τ N} (h : Live s) {t : τ} {p : Client}
    (hPhase : p.phase ≠ .failed) (u : τ) : (Function.update s.clients t p u).phase ≠ .failed := by
  by_cases hu : u = t
  · rw [hu, Function.update_self]
    exact hPhase
  · rw [Function.update_of_ne hu]
    exact h.succeeded u

/-- A client opens a connection. -/
theorem Live.connect {s : System τ N} (h : Live s) {t : τ} {phase : Phase} {conn : Conn}
    {s' : System τ N}
    (hs : s' = System.setClient { s with backlog := s.backlog ++ [(t, (s.clients t).opened)] } t
      ⟨phase, (s.clients t).opened + 1⟩ (s.clients t).opened conn)
    (hPhase : phase ≠ .failed) (hInv : ∃ h, Inv s' h) : Live s' := by
  subst hs
  have hSelf : (Function.update s.clients t ⟨phase, (s.clients t).opened + 1⟩ t).opened =
      (s.clients t).opened + 1 := by rw [Function.update_self]
  have hMore (u : τ) : (s.clients u).opened ≤
      (Function.update s.clients t ⟨phase, (s.clients t).opened + 1⟩ u).opened := by
    by_cases hu : u = t
    · rw [hu, hSelf]
      exact Nat.le_succ _
    · rw [Function.update_of_ne hu]
  refine ⟨hInv, h.running, h.handed, h.pc, h.created, ?_, fun c hc => ?_, fun fd c hPeer => ?_,
    fun u i hi => ?_, fun k c hTarget hFinished => ?_, fun u => ?_⟩
  · have hSum := totalRank_update Client.opened s.clients t ⟨phase, (s.clients t).opened + 1⟩
    have hOpened := h.opened
    show s.handOver.fds.length + (s.backlog ++ [(t, (s.clients t).opened)]).length =
      totalRank Client.opened (Function.update s.clients t ⟨phase, (s.clients t).opened + 1⟩)
    rw [List.length_append, List.length_singleton]
    simp only at hSum
    omega
  · rcases List.mem_append.mp hc with hOld | hNew
    · exact Nat.lt_of_lt_of_le (h.queued c hOld) (hMore c.1)
    · rw [List.mem_singleton.mp hNew]
      exact Nat.lt_of_lt_of_eq (Nat.lt_succ_self _) hSelf.symm
  · exact Nat.lt_of_lt_of_le (h.named fd c hPeer) (hMore c.1)
  · by_cases hLast : (u, i) = (t, (s.clients t).opened)
    · exact Or.inl (List.mem_append_right _ (List.mem_singleton.mpr hLast))
    · refine (h.accepted u i ?_).imp_left (List.mem_append_left _)
      by_cases hu : u = t
      · subst hu
        have hOther : i ≠ (s.clients u).opened := fun hEq => hLast (by rw [hEq])
        have hBound : i < (s.clients u).opened + 1 := Nat.lt_of_lt_of_eq hi hSelf
        omega
      · rwa [show (System.clients _ u) = s.clients u from Function.update_of_ne hu _ _] at hi
  · have hOther : c ≠ (t, (s.clients t).opened) := by
      rintro rfl
      exact Nat.lt_irrefl _ (h.named_target hTarget)
    show (Function.update s.conns (t, (s.clients t).opened) conn c).closed = true
    rw [Function.update_of_ne hOther]
    exact h.ended k c hTarget hFinished
  · exact h.succeeded_update hPhase u

omit [DecidableEq τ] [Fintype τ] in
theorem receive_cases {p p' : Client} {conn conn' : Conn} {ls : List Line}
    (h : p.receive conn = some (p', conn', ls)) :
    p'.opened = p.opened ∧ (conn.closed = true → conn'.closed = true) ∧
      (p'.phase = .failed → unexpected ∈ ls) := by
  simp only [Client.receive] at h
  split at h
  · split at h
    · cases h
      exact ⟨rfl, fun _ => rfl, by simp⟩
    · cases h
      exact ⟨rfl, id, by simp⟩
  · split at h
    · cases h
      exact ⟨rfl, fun _ => rfl, by simp⟩
    · split at h
      · cases h
        exact ⟨rfl, fun _ => rfl, by simp⟩
      · cases h
        exact ⟨rfl, fun _ => rfl, fun _ => List.mem_singleton_self _⟩
  · cases h

/-- A client goes on with its connection. -/
theorem Live.moved {s : System τ N} (h : Live s) {t : τ} {i : Nat} {p : Client} {conn : Conn}
    (hOpened : p.opened = (s.clients t).opened) (hPhase : p.phase ≠ .failed)
    (hClosed : (s.conns (t, i)).closed = true → conn.closed = true)
    (hInv : ∃ h, Inv (s.setClient t p i conn) h) : Live (s.setClient t p i conn) := by
  have hSame (u : τ) : (Function.update s.clients t p u).opened = (s.clients u).opened := by
    by_cases hu : u = t
    · rw [hu, Function.update_self]
      exact hOpened
    · rw [Function.update_of_ne hu]
  refine ⟨hInv, h.running, h.handed, h.pc, h.created, ?_, fun c hc => ?_, fun fd c hPeer => ?_,
    fun u i hi => ?_, fun k c hTarget hFinished => ?_, fun u => ?_⟩
  · have hSum := totalRank_update Client.opened s.clients t p
    have hCount := h.opened
    show s.handOver.fds.length + s.backlog.length =
      totalRank Client.opened (Function.update s.clients t p)
    omega
  · exact Nat.lt_of_lt_of_eq (h.queued c hc) (hSame c.1).symm
  · exact Nat.lt_of_lt_of_eq (h.named fd c hPeer) (hSame c.1).symm
  · exact h.accepted u i (Nat.lt_of_lt_of_eq hi (hSame u))
  · have hOld := h.ended k c hTarget hFinished
    show (Function.update s.conns (t, i) conn c).closed = true
    by_cases hc : c = (t, i)
    · subst hc
      rw [Function.update_self]
      exact hClosed hOld
    · rwa [Function.update_of_ne hc]
  · exact h.succeeded_update hPhase u

/-- `main` takes a connection from the queue. -/
theorem Live.accept {s : System τ N} (h : Live s) {c : τ × Nat} {rest : List (τ × Nat)}
    {next : HandOver.State} (hBacklog : s.backlog = c :: rest) (hPc : s.handOver.pc = .accept)
    (hNext : next = { s.handOver with
      pc := .create
      connfd := newFd s.handOver
      fds := newFd s.handOver :: s.handOver.fds })
    (hHanded : HandOver.Inv next) {s' : System τ N} (hs : s' = { s with
      peer := Function.update s.peer (newFd s.handOver) (some c)
      backlog := rest
      handOver := next }) (hInv : ∃ h, Inv s' h) : Live s' := by
  subst hs hNext
  have hNumbered : Numbered s.handOver := h.inv.choose_spec.numbered
  refine ⟨hInv, h.running, hHanded, nofun, ?_, ?_, fun d hd => ?_, fun fd d hPeer => ?_,
    fun u i hi => ?_, fun k d hTarget hFinished => ?_, h.succeeded⟩
  · have hCreated := h.created
    rw [hPc] at hCreated
    exact congrArg (· + 1) hCreated
  · have hOpened := h.opened
    rw [hBacklog, List.length_cons] at hOpened
    show (s.handOver.fds.length + 1) + rest.length = totalRank Client.opened s.clients
    omega
  · exact h.queued d (hBacklog ▸ List.mem_cons_of_mem c hd)
  · have hPeer : Function.update s.peer (newFd s.handOver) (some c) fd = some d := hPeer
    by_cases hfd : fd = newFd s.handOver
    · rw [hfd, Function.update_self] at hPeer
      cases hPeer
      exact h.queued c (hBacklog ▸ List.mem_cons_self)
    · rw [Function.update_of_ne hfd] at hPeer
      exact h.named fd d hPeer
  · rcases h.accepted u i hi with hQueued | ⟨fd, hMem, hPeer⟩
    · rw [hBacklog] at hQueued
      rcases List.mem_cons.mp hQueued with rfl | hLater
      · exact Or.inr ⟨_, List.mem_cons_self, Function.update_self _ _ _⟩
      · exact Or.inl hLater
    · have hLess : fd < newFd s.handOver := hNumbered.fds fd hMem
      refine Or.inr ⟨fd, List.mem_cons_of_mem _ hMem, ?_⟩
      show Function.update s.peer (newFd s.handOver) (some c) fd = some (u, i)
      rw [Function.update_of_ne (Int.ne_of_lt hLess)]
      exact hPeer
  · exact h.ended k d ((target_naming hNumbered c k).symm.trans hTarget) hFinished

/-- A thread is created or detached, or reads `connfd`. -/
theorem Live.main {s : System τ N} (h : Live s) {next : HandOver.State} {a : HandOver.Action}
    (hMoves : Moves s.handOver a next) (hFds : next.fds = s.handOver.fds)
    (hPc : next.pc ≠ .exited) (hHanded : HandOver.Inv next)
    (hCreated : next.workers.length + (if next.pc = .create then 1 else 0) =
      s.handOver.workers.length + if s.handOver.pc = .create then 1 else 0)
    (hInv : ∃ h, Inv { s with handOver := next } h) : Live { s with handOver := next } := by
  refine ⟨hInv, h.running, hHanded, hPc, ?_, ?_, h.queued, h.named, fun u i hi => ?_,
    fun k c hTarget hFinished => ?_, h.succeeded⟩
  · rw [hCreated, hFds]
    exact h.created
  · rw [hFds]
    exact h.opened
  · rw [hFds]
    exact h.accepted u i hi
  · rcases target_handsOver h.inv.choose_spec.unread hMoves k with hSame | hRecv
    · exact h.ended k c (hSame.symm.trans hTarget) hFinished
    · cases hRecv.symm.trans hFinished

/-- A statement of a thread. -/
theorem Live.worked {s : System τ N} (h : Live s) {k : Fin N} {sh : Shared} {w : Worker}
    {conns : τ × Nat → Conn} (hRunning : sh.exited = false)
    (hClosed : ∀ c, (conns c).closed = (s.conns c).closed)
    (hFinished : ∀ c, s.target k = some c → w.pc = .finished → (s.conns c).closed = true)
    (hInv : ∃ h, Inv (s.setThread k sh w conns) h) : Live (s.setThread k sh w conns) := by
  refine ⟨hInv, hRunning, h.handed, h.pc, h.created, h.opened, h.queued, h.named, h.accepted,
    fun j c hTarget hEnd => ?_, h.succeeded⟩
  rw [show ((s.setThread k sh w conns).conns c).closed = _ from hClosed c]
  have hPc : (Function.update s.threads k w j).pc = .finished := hEnd
  by_cases hj : j = k
  · subst hj
    rw [Function.update_self] at hPc
    exact hFinished c hTarget hPc
  · rw [Function.update_of_ne hj] at hPc
    exact h.ended j c hTarget hPc

/-- No `semop` fails, since the readers are fewer than the threads. -/
theorem Live.runs {s : System τ N} (h : Live s) (hSems : N ≤ SEMVMX) {k : Fin N} {input : Input}
    {sh : Shared} {w : Worker} {es : List Event}
    (hRun : processClient s.shared (s.threads k) input = some (sh, w, es)) :
    sh.exited = false := by
  obtain ⟨history, hInv⟩ := h.inv
  obtain ⟨⟨l, hLock, hGuarded⟩, -⟩ := hInv.table
  refine processClient_running hLock (fun asleep hPc => ?_) hGuarded.owned.one_le_readers
    hGuarded.owned.one_le_writers hRun
  have hOthers : l.readers ≤ (Finset.univ.erase k).card := by
    rw [hGuarded.owned.readers]
    refine Finset.card_le_card fun j hj => Finset.mem_erase.mpr ⟨?_, Finset.mem_univ j⟩
    intro hSelf
    have hReading : (s.threads j).role = .reading := (Finset.mem_filter.mp hj).2
    rw [hSelf, Worker.role, hPc] at hReading
    cases hReading
  rw [Finset.card_erase_of_mem (Finset.mem_univ k), Finset.card_univ, Fintype.card_fin] at hOthers
  have hLess := k.isLt
  omega

theorem Live.step {locals : Locals τ N} {s s' : System τ N} {a : Action τ N}
    {es : List (Report τ)} (h : Live s) (hSems : N ≤ SEMVMX) (hSucceeds : a.succeeds = true)
    (hQuiet : Undisturbed locals s a) (hStep : step locals s a = some (s', es)) : Live s' := by
  obtain ⟨history, hInv⟩ := h.inv
  have hInv' : ∃ h, Inv s' h := ⟨_, hInv.step hStep⟩
  cases goes_of_step hSucceeds hStep with
  | connect t buf hPhase => exact h.connect rfl nofun hInv'
  | client t i p conn ls hSockfd hReceive =>
    obtain ⟨hOpened, hClosed, hFailed⟩ := receive_cases hReceive
    have hExpected := (client_receive (hInv.client t) hSockfd (hInv.exchange t i)
      hReceive).expected
    exact h.moved hOpened (fun hPhase => hExpected (hFailed hPhase)) hClosed hInv'
  | accept c rest next hBacklog hPc hNext hRun =>
    have hTake := hQuiet rfl (by rw [hStep]; exact Option.some_ne_none _)
    exact h.accept hBacklog hPc hNext (h.handed.step hTake hRun) rfl hInv'
  | create next hPc hRoom hNext hRun =>
    refine h.main (moves_of_step hRun) ?_ ?_
      (h.handed.step (show HandOver.Undisturbed _ (.create true) from trivial) hRun) ?_ hInv'
    · rw [hNext]
    · rw [hNext]
      exact nofun
    · rw [hNext, hPc, List.length_append]
      rfl
  | detach next hPc hNext hRun =>
    refine h.main (moves_of_step hRun) ?_ ?_
      (h.handed.step (show HandOver.Undisturbed _ (.detach true) from trivial) hRun) ?_ hInv'
    · rw [hNext]
    · rw [hNext]
      exact nofun
    · rw [hNext, hPc]
      rfl
  | read k next hCell hNext hRun =>
    refine h.main (moves_of_step hRun) ?_ ?_
      (h.handed.step (show HandOver.Undisturbed _ (.read k) from trivial) hRun) ?_ hInv'
    · rw [hNext]
    · rw [hNext]
      exact h.pc
    · rw [hNext, List.length_set]
  | error k sh w es hTarget hRun =>
    refine h.worked (h.runs hSems hRun) (fun c => rfl) (fun c hSome => ?_) hInv'
    cases hTarget.symm.trans hSome
  | work k t i sh w conn es hTarget hWork =>
    obtain ⟨input, hRun, hClosed, -, hInput⟩ := conn_work_run hWork
    refine h.worked (h.runs hSems hRun) (fun c => ?_) (fun c hSome hFinished => ?_) hInv'
    · by_cases hc : c = (t, i)
      · rw [hc, Function.update_self]
        exact hClosed
      · rw [Function.update_of_ne hc]
    · cases hTarget.symm.trans hSome
      obtain ⟨hPc, hNone⟩ := processClient_finished hRun hFinished
      obtain ⟨-, msg, hData, -⟩ | ⟨-, -, hEnd⟩ := hInput
      · exact absurd hData (hNone msg)
      · exact (hEnd hPc).2

/-! ## Where no step is left -/

/-- Nothing is left to do. -/
def Stuck (locals : Locals τ N) (s : System τ N) : Prop :=
  ∀ a : Action τ N, a.succeeds = true → step locals s a = none

omit [Fintype τ] in
theorem step_running (locals : Locals τ N) {s : System τ N} (hRunning : s.shared.exited = false)
    (a : Action τ N) :
    step locals s a = match a with
      | .connect t socket connect => s.connect locals t socket connect
      | .client t => s.client t
      | .accept ok => s.accept ok
      | .create ok => s.create ok
      | .detach ok => s.detach ok
      | .read k => s.handsOver (.read k)
      | .work k => s.work locals k := by
  have hNot : ¬ s.shared.exited = true := by simp [hRunning]
  exact if_neg hNot

theorem Live.fds_le {s : System τ N} (h : Live s) :
    s.handOver.fds.length ≤ (ARR_SIZE + 1) * Fintype.card τ := by
  obtain ⟨history, hInv⟩ := h.inv
  have hOpened := h.opened
  have hSum := totalRank_le fun t => (hInv.client t).opened_le
  rw [Nat.mul_comm] at hSum
  omega

/-- All connections have been accepted, and every thread has read its descriptor. -/
theorem Live.quiet {locals : Locals τ N} {s : System τ N} (h : Live s)
    (hThreads : (ARR_SIZE + 1) * Fintype.card τ ≤ N) (hStuck : Stuck locals s) :
    s.handOver.pc = .accept ∧ s.backlog = [] ∧ none ∉ s.handOver.workers := by
  have hNumbered : Numbered s.handOver := h.inv.choose_spec.numbered
  have hFew := h.fds_le
  have hCreated := h.created
  have hAccept : s.accept true = none :=
    (step_running locals h.running (.accept true)).symm.trans (hStuck _ rfl)
  have hCreate : s.create true = none :=
    (step_running locals h.running (.create true)).symm.trans (hStuck _ rfl)
  have hDetach : s.detach true = none :=
    (step_running locals h.running (.detach true)).symm.trans (hStuck _ rfl)
  have hPc : s.handOver.pc = .accept := by
    cases hPc : s.handOver.pc with
    | accept => rfl
    | exited => exact absurd hPc h.pc
    | detach => simp [System.detach, System.handsOver, HandOver.step, hPc] at hDetach
    | create =>
      rw [hPc, if_pos rfl] at hCreated
      have hRoom : s.handOver.workers.length < N := by omega
      simp [System.create, System.handsOver, HandOver.step, hPc, hRoom] at hCreate
  refine ⟨hPc, ?_, fun hNone => ?_⟩
  · cases hBacklog : s.backlog with
    | nil => rfl
    | cons c rest =>
      have hFresh : newFd s.handOver ∉ s.handOver.fds := fun hMem =>
        Int.lt_irrefl _ (hNumbered.fds _ hMem)
      have hFd : newFd s.handOver ≠ -1 ∧ 0 ≤ newFd s.handOver := by
        simp only [newFd]
        omega
      simp [System.accept, System.handsOver, HandOver.step, hBacklog, hPc, hFresh, hFd] at hAccept
  · obtain ⟨k, hLess, hCell⟩ := List.getElem_of_mem hNone
    have hk : k < N := by
      rw [hPc, if_neg (by decide)] at hCreated
      omega
    have hRead : s.handsOver (.read k) = none :=
      (step_running locals h.running (.read ⟨k, hk⟩)).symm.trans (hStuck _ rfl)
    simp [System.handsOver, HandOver.step, hPc, hLess, hCell] at hRead

/-- Every connection has been handed over to a thread. -/
theorem Live.reader {locals : Locals τ N} {s : System τ N} (h : Live s)
    (hThreads : (ARR_SIZE + 1) * Fintype.card τ ≤ N) (hStuck : Stuck locals s) {t : τ} {i : Nat}
    (hOpened : i < (s.clients t).opened) : ∃ k, s.target k = some (t, i) := by
  obtain ⟨hPc, hBacklog, hNone⟩ := h.quiet hThreads hStuck
  obtain hQueued | ⟨fd, hFd, hPeer⟩ := h.accepted t i hOpened
  · rw [hBacklog] at hQueued
    cases hQueued
  have hOne := (h.handed.handedOver fd hFd).2 hPc hNone
  have hMem : some fd ∈ s.handOver.workers := List.count_pos_iff.mp (by omega)
  obtain ⟨k, hLess, hCell⟩ := List.getElem_of_mem hMem
  have hFew := h.fds_le
  have hCreated := h.created
  rw [hPc, if_neg (by decide)] at hCreated
  refine ⟨⟨k, by omega⟩, ?_⟩
  rw [System.target, System.connfd, List.getElem?_eq_getElem hLess, hCell]
  exact hPeer

omit [Fintype τ] in
/-- A thread that does not wait for a message is held up by a semaphore alone. -/
theorem work_ne_none {locals : Locals τ N} {s : System τ N} {k : Fin N}
    (hUnread : s.connfd k = none → (s.threads k).pc = .recv) (hPc : (s.threads k).pc ≠ .recv)
    (hRun : ∀ input, processClient s.shared (s.threads k) input ≠ none) :
    s.work locals k ≠ none := by
  intro hIdle
  unfold System.work at hIdle
  split at hIdle
  · next hConnfd => exact hPc (hUnread hConnfd)
  · split at hIdle
    · exact hRun _ (Option.map_eq_none_iff.mp hIdle)
    · have hWork := Option.map_eq_none_iff.mp hIdle
      rw [Conn.work, if_neg hPc] at hWork
      exact hRun _ (Option.map_eq_none_iff.mp hWork)

theorem Live.idle {locals : Locals τ N} {s : System τ N} (h : Live s) (hStuck : Stuck locals s)
    (k : Fin N) : s.work locals k = none :=
  (step_running locals h.running (.work k)).symm.trans (hStuck _ rfl)

theorem Live.vacant {locals : Locals τ N} {s : System τ N} (h : Live s)
    (hStuck : Stuck locals s) :
    Locked s.shared.sems ⟨0, 0⟩ ∧ ∀ k, (s.threads k).role = .out := by
  obtain ⟨history, hInv⟩ := h.inv
  obtain ⟨⟨l, hLock, hGuarded⟩, -⟩ := hInv.table
  have hOut (k : Fin N) : (s.threads k).role = .out := by
    by_contra hInside
    refine work_ne_none (hInv.unread k) (fun hPc => hInside ?_) (fun input => ?_)
      (h.idle hStuck k)
    · rw [Worker.role, hPc]
    · exact processClient_inside hLock h.running hInside hGuarded.owned.one_le_readers
        hGuarded.owned.one_le_writers
  obtain rfl := hGuarded.owned.vacant hOut
  exact ⟨hLock, hOut⟩

/-- A thread that has not finished waits for a message, and the client has not closed. -/
theorem Live.waits {locals : Locals τ N} {s : System τ N} (h : Live s) (hStuck : Stuck locals s)
    {k : Fin N} {c : τ × Nat} (hTarget : s.target k = some c)
    (hLeft : (s.threads k).pc ≠ .finished) :
    (s.threads k).pc = .recv ∧ (s.conns c).inbox = [] ∧ (s.conns c).closed = false := by
  obtain ⟨hLock, hOut⟩ := h.vacant hStuck
  have hRun (input : Input) : processClient s.shared (s.threads k) input ≠ none :=
    processClient_vacant hLock h.running (hOut k) hLeft
  have hIdle := h.idle hStuck k
  have hPc : (s.threads k).pc = .recv := by
    by_contra hPc
    exact work_ne_none (h.inv.choose_spec.unread k) hPc hRun hIdle
  obtain ⟨fd, hConnfd, hPeer⟩ := Option.bind_eq_some_iff.mp hTarget
  simp only [System.work, hConnfd, hPeer, Option.map_eq_none_iff, Conn.work, if_pos hPc] at hIdle
  split at hIdle
  · next hRecv =>
    rw [Conn.recv] at hRecv
    split at hRecv
    · cases hRecv
    · next hInbox =>
      split at hRecv
      · cases hRecv
      · next hClosed => exact ⟨hPc, hInbox, Bool.eq_false_iff.mpr hClosed⟩
  · exact absurd (Option.map_eq_none_iff.mp hIdle) (hRun _)

omit [DecidableEq τ] [Fintype τ] in
theorem receive_ne_none {p : Client} {i : Nat} {req : Request} {conn : Conn} {msg : List UInt8}
    (hAwaits : p.awaits i = some req) (hOutbox : conn.outbox = [msg]) :
    p.receive conn ≠ none := by
  obtain ⟨phase, opened⟩ := p
  intro hNone
  cases phase with
  | start | finished | failed => cases hAwaits
  | table j buf =>
    simp only [Client.receive, hOutbox] at hNone
    split at hNone <;> cases hNone
  | status j buf =>
    simp only [Client.receive, hOutbox] at hNone
    split at hNone
    · cases hNone
    · split at hNone <;> cases hNone

/-- Where no step is left, every client has come to its end. -/
theorem Live.finished {locals : Locals τ N} {s : System τ N} (h : Live s)
    (hThreads : (ARR_SIZE + 1) * Fintype.card τ ≤ N) (hStuck : Stuck locals s) (t : τ) :
    (s.clients t).phase = .finished := by
  obtain ⟨history, hInv⟩ := h.inv
  -- on an open connection a client cannot wait for an answer
  have hNever {i : Nat} {req : Request} (hAwaits : (s.clients t).awaits i = some req)
      (hOpened : (s.clients t).opened = i + 1) (hOpen : (s.conns (t, i)).closed = false) :
      False := by
    have hExchange := hInv.exchange t i
    rw [hAwaits] at hExchange
    cases hExchange with
    | sent b hInbox hRequest hOutbox hIdle =>
      obtain ⟨k, hTarget⟩ := h.reader hThreads hStuck (t := t) (i := i) (by omega)
      by_cases hLeft : (s.threads k).pc = .finished
      · have hEnded := h.ended k _ hTarget hLeft
        cases hOpen.symm.trans hEnded
      · have hEmpty := (h.waits hStuck hTarget hLeft).2.1
        cases hInbox.symm.trans hEmpty
    | taken k hInbox hOutbox hServes hOthers =>
      have hTarget : s.target k = some (t, i) := by
        by_contra hOther
        rw [System.serving, if_neg hOther] at hServes
        cases hServes
      rw [System.serving, if_pos hTarget] at hServes
      by_cases hLeft : (s.threads k).pc = .finished
      · rw [serves, hLeft] at hServes
        cases hServes
      · rw [serves_recv (h.waits hStuck hTarget hLeft).1] at hServes
        cases hServes
    | answered msg hInbox hOutbox hIdle =>
      have hClient : s.client t = none :=
        (step_running locals h.running (.client t)).symm.trans (hStuck _ rfl)
      simp only [System.client, sockfd_of_awaits hAwaits, Option.map_eq_none_iff] at hClient
      exact receive_ne_none hAwaits hOutbox hClient
  cases hInv.client t with
  | start low hPhase hPast =>
    have hConnect : s.connect locals t true true = none :=
      (step_running locals h.running (.connect t true true)).symm.trans (hStuck _ rfl)
    simp [System.connect, hPhase] at hConnect
  | table i low buf hPhase hOpened hRequest hOpen hPast hReply =>
    have hAwaits : (s.clients t).awaits i = some .read := by
      simp only [Client.awaits, hPhase, if_true, hRequest]
    exact (hNever hAwaits hOpened hOpen).elim
  | status i index before buf hPhase hOpened hIndices hIndex hRequest hOpen hPast hReply =>
    have hAwaits : (s.clients t).awaits i = some (.write index) := by
      simp only [Client.awaits, hPhase, if_true, hRequest]
    exact (hNever hAwaits hOpened hOpen).elim
  | finished i low hPhase hOpened hPast hEmpty => exact hPhase
  | failed low hPhase hPast => exact absurd hPhase (h.succeeded t)

/-! ## Endless runs -/

theorem Live.running_after {locals : Locals τ N} {s s' : System τ N} {a : Action τ N} (h : Live s)
    (hSems : N ≤ SEMVMX) (hGoes : Goes locals s a s') : s'.shared.exited = false := by
  cases hGoes with
  | connect t buf hPhase => exact h.running
  | client t i p conn ls hSockfd hReceive => exact h.running
  | accept c rest next hBacklog hPc hNext hRun => exact h.running
  | create next hPc hRoom hNext hRun => exact h.running
  | detach next hPc hNext hRun => exact h.running
  | read k next hCell hNext hRun => exact h.running
  | error k sh w es hTarget hRun => exact h.runs hSems hRun
  | work k t i sh w conn es hTarget hWork =>
    obtain ⟨input, hRun, -⟩ := conn_work_run hWork
    exact h.runs hSems hRun

/-- The system before moment `n` of an endless schedule. -/
def system (locals : Locals τ N) (connfd : Int) (σ : Nat → Action τ N) (n : Nat) : System τ N :=
  moment (step locals) (init locals connfd) σ n

/-- If no call fails and no `accept` comes before the threads have read `connfd`, every client is
shown a table without letters in the end, whatever the order of the steps. -/
theorem clients_exit (hThreads : (ARR_SIZE + 1) * Fintype.card τ ≤ N) (hSems : N ≤ SEMVMX)
    (locals : Locals τ N) (connfd : Int) {σ : Nat → Action τ N}
    (hSucceed : ∀ n, (σ n).succeeds = true) (hFair : Fair (fun a => a.succeeds = true) σ)
    (hCalm : ∀ n, Undisturbed locals (system locals connfd σ n) (σ n)) :
    ∃ n, ∀ m, n ≤ m → ∀ t, ((system locals connfd σ m).clients t).phase = .finished := by
  have hLive (n : Nat) : Live (system locals connfd σ n) :=
    moment_invariant (live_init locals connfd)
      (fun n s' es h hStep => h.step hSems (hSucceed n) (hCalm n) hStep) n
  obtain ⟨n, hRests, hStuck⟩ := chosen_rests (step locals) System.rank hLive hFair hSucceed
    fun s a s' es h hSucceeds hStep => by
      obtain ⟨history, hInv⟩ := h.inv
      have hGoes := goes_of_step hSucceeds hStep
      exact hGoes.rank_lt hInv (h.running_after hSems hGoes)
  refine ⟨n, fun m hm t => ?_⟩
  rw [system, hRests m hm]
  exact (hLive n).finished hThreads hStuck t

/-- Rounds: `main` takes a connection, the clients and then the threads go on, and at the end
every thread reads `connfd`. -/
def rounds (n : Nat) : Action (Fin 2) 42 :=
  match n % 91 with
  | 0 => .accept true
  | 1 => .create true
  | 2 => .detach true
  | 3 => .connect 0 true true
  | 4 => .connect 1 true true
  | 5 => .client 0
  | 6 => .client 1
  | p + 7 => if p < 42 then .work (Fin.ofNat 42 p) else .read (Fin.ofNat 42 (p - 42))

theorem rounds_succeed (n : Nat) : (rounds n).succeeds = true := by
  unfold rounds
  split
  case h_8 => split <;> rfl
  all_goals rfl

theorem rounds_work {n : Nat} (k : Fin 42) (hn : n % 91 = k.val + 7) : rounds n = .work k := by
  simp only [rounds, hn, if_pos k.isLt, Fin.ofNat_val_eq_self]

theorem rounds_read {n : Nat} (k : Fin 42) (hn : n % 91 = k.val + 49) : rounds n = .read k := by
  have hPlace : n % 91 = k.val + 42 + 7 := hn
  have hLate : ¬ k.val + 42 < 42 := by omega
  simp only [rounds, hPlace, if_neg hLate, Nat.add_sub_cancel, Fin.ofNat_val_eq_self]

theorem fair_rounds : Fair (fun a => a.succeeds = true) rounds := by
  have hPlace {a : Action (Fin 2) 42} (p : Nat) (hp : p < 91)
      (h : ∀ k, k % 91 = p → rounds k = a) (n : Nat) : ∃ k, n ≤ k ∧ rounds k = a :=
    ⟨91 * n + p, by omega, h _ (by omega)⟩
  intro a hSucceeds
  cases a with
  | connect t opened connected =>
    obtain ⟨rfl, rfl⟩ := Bool.and_eq_true_iff.mp hSucceeds
    match t with
    | 0 => exact hPlace 3 (by decide) fun k hk => by simp only [rounds, hk]
    | 1 => exact hPlace 4 (by decide) fun k hk => by simp only [rounds, hk]
  | client t =>
    match t with
    | 0 => exact hPlace 5 (by decide) fun k hk => by simp only [rounds, hk]
    | 1 => exact hPlace 6 (by decide) fun k hk => by simp only [rounds, hk]
  | accept ok =>
    obtain rfl : ok = true := hSucceeds
    exact hPlace 0 (by decide) fun k hk => by simp only [rounds, hk]
  | create ok =>
    obtain rfl : ok = true := hSucceeds
    exact hPlace 1 (by decide) fun k hk => by simp only [rounds, hk]
  | detach ok =>
    obtain rfl : ok = true := hSucceeds
    exact hPlace 2 (by decide) fun k hk => by simp only [rounds, hk]
  | read j => exact hPlace (j.val + 49) (by omega) fun k hk => rounds_read j hk
  | work j => exact hPlace (j.val + 7) (by omega) fun k hk => rounds_work j hk

omit [Fintype τ] in
theorem Goes.workers_le {locals : Locals τ N} {s s' : System τ N} {a : Action τ N}
    (h : Goes locals s a s') (hLe : s.handOver.workers.length ≤ N) :
    s'.handOver.workers.length ≤ N := by
  cases h with
  | connect t buf hPhase => exact hLe
  | client t i p conn ls hSockfd hReceive => exact hLe
  | accept c rest next hBacklog hPc hNext hRun => rw [hNext]; exact hLe
  | create next hPc hRoom hNext hRun =>
    rw [hNext, List.length_append]
    exact hRoom
  | detach next hPc hNext hRun => rw [hNext]; exact hLe
  | read k next hCell hNext hRun =>
    rw [hNext, List.length_set]
    exact hLe
  | error k sh w es hTarget hRun => exact hLe
  | work k t i sh w conn es hTarget hWork => exact hLe

/-- Thread `j` has read `connfd`, if there is one and the server runs. -/
def Settled (s : System τ N) (j : Nat) : Prop :=
  s.shared.exited = true ∨ s.handOver.pc = .exited ∨ s.handOver.workers[j]? ≠ some none

omit [Fintype τ] in
theorem settled_of_read (locals : Locals τ N) {s : System τ N} {k : Fin N} {j : Nat}
    (h : Settled s j ∨ j = k) : Settled (advance (step locals) (s, []) (.read k)).1 j := by
  unfold advance
  split
  · next hNone =>
    obtain hSettled | rfl := h
    · exact hSettled
    · by_contra hLeft
      simp only [Settled, not_or, not_not] at hLeft
      obtain ⟨hRunning, hPc, hCell⟩ := hLeft
      have hRead : s.handsOver (.read k) = none :=
        (step_running locals (Bool.eq_false_iff.mpr hRunning) (.read k)).symm.trans hNone
      simp [System.handsOver, HandOver.step, hPc, hCell] at hRead
  · next s' es hStep =>
    cases goes_of_step rfl hStep with
    | read k next hCell hNext hRun =>
      subst hNext
      by_cases hj : j = k
      · refine Or.inr (Or.inr ?_)
        have hLess : k.val < s.handOver.workers.length := (List.getElem?_eq_some_iff.mp hCell).1
        rw [hj, List.getElem?_set_self hLess]
        exact fun hEq => by cases hEq
      · refine (h.resolve_right hj).imp_right (Or.imp_right fun hRead => ?_)
        rw [List.getElem?_set_ne (Ne.symm hj)]
        exact hRead

theorem settled_rounds (j : Fin 42) {n : Nat} (hn : n % 91 = 0 ∨ j.val + 49 < n % 91) :
    Settled (system (zeroLocals 42) 0 rounds n) j := by
  induction n with
  | zero =>
    have hNobody : ([] : List (Option Int))[j.val]? ≠ some none := by simp
    exact Or.inr (Or.inr hNobody)
  | succ n ih =>
    obtain ⟨k, hk⟩ : ∃ k : Fin 42, n % 91 = k.val + 49 :=
      ⟨⟨n % 91 - 49, by omega⟩, by dsimp only; omega⟩
    rw [system, moment_succ, rounds_read k hk]
    refine settled_of_read _ ?_
    by_cases hj : j = k
    · exact Or.inr (congrArg Fin.val hj)
    · have hOther : j.val ≠ k.val := fun hEq => hj (Fin.ext hEq)
      exact Or.inl (ih (Or.inr (by omega)))

theorem rounds_accept {n : Nat} (h : rounds n = .accept true) : n % 91 = 0 := by
  unfold rounds at h
  split at h
  case h_1 hn => exact hn
  case h_8 => split at h <;> cases h
  all_goals cases h

theorem rounds_undisturbed (n : Nat) :
    Undisturbed (zeroLocals 42) (system (zeroLocals 42) 0 rounds n) (rounds n) := by
  intro hAccept hSome hNone
  rw [hAccept] at hSome
  obtain ⟨⟨s', es⟩, hStep⟩ := Option.ne_none_iff_exists'.mp hSome
  have hLe : (system (zeroLocals 42) 0 rounds n).handOver.workers.length ≤ 42 :=
    moment_invariant (I := fun s => s.handOver.workers.length ≤ 42)
      (show (init (zeroLocals 42) 0).handOver.workers.length ≤ 42 from Nat.zero_le 42)
      (fun n s' es h hStep => (goes_of_step (rounds_succeed n) hStep).workers_le h) n
  obtain ⟨j, hLess, hCell⟩ := List.getElem_of_mem hNone
  rcases settled_rounds ⟨j, by omega⟩ (Or.inl (rounds_accept hAccept)) with hExited | hPc | hRead
  · simp [step, hExited] at hStep
  · cases goes_of_step rfl hStep with
    | accept c rest next hBacklog hAccepts hNext hRun => cases hPc.symm.trans hAccepts
  · exact absurd (by rw [List.getElem?_eq_getElem hLess, hCell]) hRead

theorem clients_exit_rounds :
    ∃ n, ∀ m, n ≤ m → ∀ t, ((system (zeroLocals 42) 0 rounds m).clients t).phase = .finished :=
  clients_exit (by decide) (by decide) (zeroLocals 42) 0 rounds_succeed fair_rounds
    rounds_undisturbed

end OsLabs.Mt.Clients
