import Mathlib.Data.Fintype.Card
import OsLabs.Mt.Clients

/-!
# The clients of the reservation server divide the letters

Whichever threads read a connection, at most one message of it is on its way: it is in the
stream, or one thread has taken it, or its reply is in the stream. The replies are those of the
sequential table, and in it a letter that is gone stays away. What a client has been shown is
therefore still true when it asks for a letter, up to the letter itself: the letters it asks for
increase, and when it is shown none, all have been granted.
-/

namespace OsLabs.Mt.Clients

open Memory Runs SysV

variable {τ : Type} {N : Nat}

/-! ## One connection -/

/-- The request that a client waits for an answer to. -/
def Client.awaits (p : Client) (i : Nat) : Option Request :=
  match p.phase with
  | .table sockfd buf | .status sockfd buf => if i = sockfd then requestOf buf else none
  | .start | .finished | .failed => none

theorem awaits_table (i opened : Nat) (buf : Object BUF_SIZE) :
    Client.awaits ⟨.table i buf, opened⟩ i = requestOf buf := if_pos rfl

theorem awaits_status (i opened : Nat) (buf : Object BUF_SIZE) :
    Client.awaits ⟨.status i buf, opened⟩ i = requestOf buf := if_pos rfl

/-- Where the request that the client awaits is; `serving` tells what each thread serves on the
connection. -/
inductive Exchange (conn : Conn) (serving : Fin N → Option Request) : Option Request → Prop where
  | empty (hInbox : conn.inbox = []) (hOutbox : conn.outbox = []) (hIdle : ∀ k, serving k = none) :
      Exchange conn serving none
  | sent (b : Object BUF_SIZE) {req : Request} (hInbox : conn.inbox = [bytes b])
      (hRequest : requestOf b = some req) (hOutbox : conn.outbox = [])
      (hIdle : ∀ k, serving k = none) : Exchange conn serving (some req)
  | taken (k : Fin N) {req : Request} (hInbox : conn.inbox = []) (hOutbox : conn.outbox = [])
      (hServes : serving k = some req) (hOthers : ∀ j, j ≠ k → serving j = none) :
      Exchange conn serving (some req)
  | answered (msg : List UInt8) {req : Request} (hInbox : conn.inbox = [])
      (hOutbox : conn.outbox = [msg]) (hIdle : ∀ k, serving k = none) :
      Exchange conn serving (some req)

theorem Exchange.congr {conn conn' : Conn} {serving : Fin N → Option Request}
    {req : Option Request} (h : Exchange conn serving req) (hInbox : conn'.inbox = conn.inbox)
    (hOutbox : conn'.outbox = conn.outbox) : Exchange conn' serving req := by
  cases h with
  | empty hIn hOut hIdle => exact .empty (hInbox.trans hIn) (hOutbox.trans hOut) hIdle
  | sent b hIn hRequest hOut hIdle =>
    exact .sent b (hInbox.trans hIn) hRequest (hOutbox.trans hOut) hIdle
  | taken k hIn hOut hServes hOthers =>
    exact .taken k (hInbox.trans hIn) (hOutbox.trans hOut) hServes hOthers
  | answered msg hIn hOut hIdle => exact .answered msg (hInbox.trans hIn) (hOutbox.trans hOut) hIdle

/-- When a reply has come, nothing else is on its way. -/
theorem Exchange.quiet {conn : Conn} {serving : Fin N → Option Request} {req : Option Request}
    {msg : List UInt8} {rest : List (List UInt8)} (h : Exchange conn serving req)
    (hReply : conn.outbox = msg :: rest) :
    rest = [] ∧ conn.inbox = [] ∧ ∀ k, serving k = none := by
  cases h with
  | empty hIn hOut hIdle => cases hReply.symm.trans hOut
  | sent b hIn hRequest hOut hIdle => cases hReply.symm.trans hOut
  | taken k hIn hOut hServes hOthers => cases hReply.symm.trans hOut
  | answered msg' hIn hOut hIdle =>
    cases hReply.symm.trans hOut
    exact ⟨rfl, hIn, hIdle⟩

/-- Only the thread that has taken the request may answer it. -/
theorem Exchange.work {conn conn' : Conn} {serving : Fin N → Option Request}
    {req : Option Request} {k : Fin N} {w w' : Worker} {es : List Event}
    (h : Exchange conn serving req) (hServes : serving k = serves w)
    (hWorks : conn.Works conn' w w' es) :
    Exchange conn' (Function.update serving k (serves w')) req ∧
      ((replies es = [] ∧ conn'.outbox = conn.outbox) ∨
        ∃ r msg, req = some r ∧ replies es = [(r, msg)] ∧ conn'.outbox = [msg]) := by
  cases hWorks with
  | takes msg hInbox hOutbox hOld hNew hSilent =>
    refine ⟨?_, Or.inl ⟨hSilent, hOutbox⟩⟩
    cases h with
    | empty hIn hOut hIdle => cases hInbox.symm.trans hIn
    | taken j hIn hOut hTaken hOthers => cases hInbox.symm.trans hIn
    | answered reply hIn hOut hIdle => cases hInbox.symm.trans hIn
    | sent b hIn hRequest hOut hIdle =>
      obtain ⟨rfl, hEmpty⟩ := List.cons.inj (hInbox.symm.trans hIn)
      rw [recvInto_bytes] at hNew
      refine .taken k hEmpty (hOutbox.trans hOut) ?_ fun j hj => ?_
      · rw [Function.update_self, hNew, hRequest]
      · rw [Function.update_of_ne hj]
        exact hIdle j
  | goesOn hInbox hOutbox hSame hSilent =>
    refine ⟨?_, Or.inl ⟨hSilent, hOutbox⟩⟩
    rw [hSame, ← hServes, Function.update_eq_self]
    exact h.congr hInbox hOutbox
  | answers r msg hInbox hOutbox hOld hNew hReply =>
    rw [hOld] at hServes
    cases h with
    | empty hIn hOut hIdle => cases hServes.symm.trans (hIdle k)
    | sent b hIn hRequest hOut hIdle => cases hServes.symm.trans (hIdle k)
    | answered reply hIn hOut hIdle => cases hServes.symm.trans (hIdle k)
    | taken j hIn hOut hTaken hOthers =>
      have hSelf : k = j := by
        by_contra hOther
        cases hServes.symm.trans (hOthers k hOther)
      subst hSelf
      cases hServes.symm.trans hTaken
      rw [hOut] at hOutbox
      refine ⟨.answered msg (hInbox.trans hIn) hOutbox fun j => ?_,
        Or.inr ⟨r, msg, rfl, hReply, hOutbox⟩⟩
      by_cases hj : j = k
      · rw [hj, Function.update_self, hNew]
      · rw [Function.update_of_ne hj]
        exact hOthers j hj

/-! ## What a client knows of the table -/

/-- A reply shows the table as it was when letters below `low` had gone, and perhaps others. -/
def Shows (table : Table) (low : Nat) (msg : List UInt8) : Prop :=
  ∃ shown : Table, msg.take ARR_SIZE = bytes shown ∧
    (∀ i, shown i = ' '.toUInt8 → table i = ' '.toUInt8) ∧
    ∀ i : Fin ARR_SIZE, i.val < low → shown i = ' '.toUInt8

theorem recvInto_shown {shown : Table} {msg : List UInt8} (hMsg : msg.take ARR_SIZE = bytes shown)
    (buf : Object BUF_SIZE) {i : Nat} (hi : i < ARR_SIZE) :
    recvInto buf msg (Fin.ofNat BUF_SIZE i) = shown ⟨i, hi⟩ := by
  have hMod : i % BUF_SIZE = i := Nat.mod_eq_of_lt (hi.trans (by decide))
  have hTake : (msg.take ARR_SIZE)[i]? = some (shown ⟨i, hi⟩) := by
    rw [hMsg, bytes, List.getElem?_ofFn, dif_pos hi]
  rw [List.getElem?_take_of_lt hi] at hTake
  simp only [recvInto, Fin.val_ofNat, hMod, hTake, Option.getD_some]

theorem firstLetter_none {buf : Object BUF_SIZE} (h : firstLetter buf = none) {i : Nat}
    (hi : i < ARR_SIZE) : buf (Fin.ofNat BUF_SIZE i) = ' '.toUInt8 := by
  have hAll := List.find?_eq_none.mp h i (List.mem_range.mpr hi)
  simpa using hAll

theorem firstLetter_some {buf : Object BUF_SIZE} {index : Nat} (h : firstLetter buf = some index) :
    index < ARR_SIZE ∧ buf (Fin.ofNat BUF_SIZE index) ≠ ' '.toUInt8 ∧
      ∀ i < index, buf (Fin.ofNat BUF_SIZE i) = ' '.toUInt8 := by
  obtain ⟨hLetter, hMem, hBefore⟩ := List.find?_range_eq_some.mp h
  refine ⟨List.mem_range.mp hMem, by simpa using hLetter, fun i hi => ?_⟩
  have hBlank := hBefore i hi
  simpa using hBlank

theorem toUnsigned_ofNat {index : Nat} (h : index < ARR_SIZE) :
    toUnsigned (UInt8.ofNat index) = index := by
  have hAll : ∀ i : Fin ARR_SIZE, toUnsigned (UInt8.ofNat i) = i := by decide
  exact hAll ⟨index, h⟩

theorem requestOf_read (buf : Object BUF_SIZE) :
    requestOf (Function.update buf 0 'r'.toUInt8) = some .read :=
  if_pos (Function.update_self _ _ _)

theorem requestOf_write (buf : Object BUF_SIZE) {index : Nat} (h : index < ARR_SIZE) :
    requestOf (Function.update (Function.update buf 0 'w'.toUInt8) 1 (UInt8.ofNat index)) =
      some (.write index) := by
  have hByte : Function.update (Function.update buf 0 'w'.toUInt8) 1 (UInt8.ofNat index) 0 =
      'w'.toUInt8 := by
    rw [Function.update_of_ne (by decide), Function.update_self]
  rw [requestOf, hByte, if_neg (by decide), if_pos rfl, Function.update_self, toUnsigned_ofNat h]

/-- After `count` connections, on which the letters `indices` were asked for: letters below `low`
are gone. -/
structure Past (table : Table) (low : Nat) (indices : List Nat) (count : Nat) : Prop where
  low_le : low ≤ ARR_SIZE
  gone : ∀ i : Fin ARR_SIZE, i.val < low → table i = ' '.toUInt8
  increasing : indices.Pairwise (· < ·)
  below : ∀ i ∈ indices, i < low
  few : count ≤ low

/-- A client that has asked for the letters `indices`, with its connections. -/
inductive Standing (table : Table) (conns : Nat → Conn) (p : Client) (indices : List Nat) :
    Prop where
  | start (low : Nat) (hPhase : p.phase = .start) (hPast : Past table low indices p.opened)
  | table (i low : Nat) (buf : Object BUF_SIZE) (hPhase : p.phase = .table i buf)
      (hOpened : p.opened = i + 1) (hRequest : requestOf buf = some .read)
      (hOpen : (conns i).closed = false) (hPast : Past table low indices i)
      (hReply : ∀ msg ∈ (conns i).outbox, Shows table low msg)
  | status (i index : Nat) (before : List Nat) (buf : Object BUF_SIZE)
      (hPhase : p.phase = .status i buf) (hOpened : p.opened = i + 1)
      (hIndices : indices = before ++ [index]) (hIndex : index < ARR_SIZE)
      (hRequest : requestOf buf = some (.write index)) (hOpen : (conns i).closed = false)
      (hPast : Past table index before i)
      (hReply : ∀ msg ∈ (conns i).outbox, (msg = intBytes OK ∨ msg = intBytes ALREADLY_RESERVED) ∧
        table ⟨index, hIndex⟩ = ' '.toUInt8)
  | finished (i low : Nat) (hPhase : p.phase = .finished) (hOpened : p.opened = i + 1)
      (hPast : Past table low indices i) (hEmpty : ∀ i, table i = ' '.toUInt8)
  | failed (low : Nat) (hPhase : p.phase = .failed) (hPast : Past table low indices p.opened)

theorem Past.mono {table table' : Table} {low count : Nat} {indices : List Nat}
    (h : Past table low indices count)
    (hMore : ∀ i, table i = ' '.toUInt8 → table' i = ' '.toUInt8) :
    Past table' low indices count :=
  { h with gone := fun i hi => hMore i (h.gone i hi) }

theorem Past.raise {table : Table} {low index count : Nat} {indices : List Nat}
    (h : Past table low indices count) (hLow : low ≤ index) (hIndex : index ≤ ARR_SIZE)
    (hGone : ∀ i : Fin ARR_SIZE, i.val < index → table i = ' '.toUInt8) :
    Past table index indices count :=
  ⟨hIndex, hGone, h.increasing, fun i hi => Nat.lt_of_lt_of_le (h.below i hi) hLow,
    h.few.trans hLow⟩

/-- The next connection is over, and letter `index` has been asked for on it. -/
theorem Past.next {table : Table} {index count : Nat} {before : List Nat}
    (h : Past table index before count) (hIndex : index < ARR_SIZE)
    (hGone : table ⟨index, hIndex⟩ = ' '.toUInt8) :
    Past table (index + 1) (before ++ [index]) (count + 1) := by
  refine ⟨hIndex, fun i hi => ?_, ?_, fun i hi => ?_, Nat.succ_le_succ h.few⟩
  · rcases Nat.lt_succ_iff_lt_or_eq.mp hi with hLess | hEq
    · exact h.gone i hLess
    · have hSame : i = ⟨index, hIndex⟩ := Fin.ext hEq
      rw [hSame]
      exact hGone
  · refine List.pairwise_append.mpr ⟨h.increasing, List.pairwise_singleton _ _, fun i hi j hj => ?_⟩
    rw [List.mem_singleton.mp hj]
    exact h.below i hi
  · rcases List.mem_append.mp hi with hOld | hNew
    · exact Nat.lt_succ_of_lt (h.below i hOld)
    · rw [List.mem_singleton.mp hNew]
      exact Nat.lt_succ_self index

theorem Standing.opened_le {table : Table} {conns : Nat → Conn} {p : Client} {indices : List Nat}
    (h : Standing table conns p indices) : p.opened ≤ ARR_SIZE + 1 := by
  cases h with
  | start low hPhase hPast => exact hPast.few.trans (hPast.low_le.trans (Nat.le_succ _))
  | failed low hPhase hPast => exact hPast.few.trans (hPast.low_le.trans (Nat.le_succ _))
  | table i low buf hPhase hOpened hRequest hOpen hPast hReply =>
    rw [hOpened]
    exact Nat.succ_le_succ (hPast.few.trans hPast.low_le)
  | status i index before buf hPhase hOpened hIndices hIndex hRequest hOpen hPast hReply =>
    rw [hOpened]
    exact Nat.succ_le_succ (hPast.few.trans hPast.low_le)
  | finished i low hPhase hOpened hPast hEmpty =>
    rw [hOpened]
    exact Nat.succ_le_succ (hPast.few.trans hPast.low_le)

theorem Standing.mono {table table' : Table} {conns conns' : Nat → Conn} {p : Client}
    {indices : List Nat} (h : Standing table conns p indices)
    (hMore : ∀ i, table i = ' '.toUInt8 → table' i = ' '.toUInt8)
    (hOutbox : ∀ i, (conns' i).outbox = (conns i).outbox)
    (hClosed : ∀ i, (conns' i).closed = (conns i).closed) : Standing table' conns' p indices := by
  cases h with
  | start low hPhase hPast => exact .start low hPhase (hPast.mono hMore)
  | failed low hPhase hPast => exact .failed low hPhase (hPast.mono hMore)
  | finished i low hPhase hOpened hPast hEmpty =>
    exact .finished i low hPhase hOpened (hPast.mono hMore) fun i => hMore i (hEmpty i)
  | table i low buf hPhase hOpened hRequest hOpen hPast hReply =>
    refine .table i low buf hPhase hOpened hRequest ((hClosed i).trans hOpen) (hPast.mono hMore)
      fun msg hMsg => ?_
    rw [hOutbox] at hMsg
    obtain ⟨shown, hShown, hLater, hBefore⟩ := hReply msg hMsg
    exact ⟨shown, hShown, fun i hi => hMore i (hLater i hi), hBefore⟩
  | status i index before buf hPhase hOpened hIndices hIndex hRequest hOpen hPast hReply =>
    refine .status i index before buf hPhase hOpened hIndices hIndex hRequest
      ((hClosed i).trans hOpen) (hPast.mono hMore) fun msg hMsg => ?_
    rw [hOutbox] at hMsg
    exact ⟨(hReply msg hMsg).1, hMore _ (hReply msg hMsg).2⟩

/-- The request that the client waits for an answer to is answered. -/
theorem Standing.reply {table : Table} {conns : Nat → Conn} {p : Client} {indices : List Nat}
    (h : Standing table conns p indices) {i : Nat} {req : Request} {msg : List UInt8}
    {conn : Conn} (hAwaits : p.awaits i = some req) (hAnswer : Answers table req msg)
    (hClosed : conn.closed = (conns i).closed) (hOutbox : conn.outbox = [msg]) :
    Standing (after table req) (Function.update conns i conn) p indices := by
  have hMore : ∀ i, table i = ' '.toUInt8 → after table req i = ' '.toUInt8 :=
    fun i hi => after_blank hi req
  obtain ⟨phase, opened⟩ := p
  cases h with
  | start low hPhase hPast =>
    obtain rfl : phase = .start := hPhase
    cases hAwaits
  | failed low hPhase hPast =>
    obtain rfl : phase = .failed := hPhase
    cases hAwaits
  | finished i low hPhase hOpened hPast hEmpty =>
    obtain rfl : phase = .finished := hPhase
    cases hAwaits
  | table j low buf hPhase hOpened hRequest hOpen hPast hReply =>
    obtain rfl : phase = .table j buf := hPhase
    simp only [Client.awaits, hRequest] at hAwaits
    split at hAwaits
    · next hi =>
      subst hi
      obtain rfl : Request.read = req := Option.some.inj hAwaits
      refine .table i low buf rfl hOpened hRequest ?_ (hPast.mono hMore) fun m hm => ?_
      · rw [Function.update_self, hClosed]
        exact hOpen
      · rw [Function.update_self, hOutbox] at hm
        rw [List.mem_singleton.mp hm]
        exact ⟨table, hAnswer, hMore, hPast.gone⟩
    · cases hAwaits
  | status j index before buf hPhase hOpened hIndices hIndex hRequest hOpen hPast hReply =>
    obtain rfl : phase = .status j buf := hPhase
    simp only [Client.awaits, hRequest] at hAwaits
    split at hAwaits
    · next hi =>
      subst hi
      obtain rfl : Request.write index = req := Option.some.inj hAwaits
      refine .status i index before buf rfl hOpened hIndices hIndex hRequest ?_ (hPast.mono hMore)
        fun m hm => ⟨?_, if_pos rfl⟩
      · rw [Function.update_self, hClosed]
        exact hOpen
      · rw [Function.update_self, hOutbox] at hm
        have hMsg : msg = intBytes (if table ⟨index, hIndex⟩ = ' '.toUInt8 then
            ALREADLY_RESERVED else OK) := hAnswer hIndex
        rw [List.mem_singleton.mp hm, hMsg]
        split
        · exact Or.inr rfl
        · exact Or.inl rfl
    · cases hAwaits

theorem Standing.past_of_start {table : Table} {conns : Nat → Conn} {p : Client}
    {indices : List Nat} (h : Standing table conns p indices) (hPhase : p.phase = .start) :
    ∃ low, Past table low indices p.opened := by
  cases h with
  | start low hStart hPast => exact ⟨low, hPast⟩
  | failed low hOther hPast => exact ⟨low, hPast⟩
  | finished i low hOther hOpened hPast hEmpty => cases hPhase.symm.trans hOther
  | table i low buf hOther hOpened hRequest hOpen hPast hReply => cases hPhase.symm.trans hOther
  | status i index before buf hOther hOpened hIndices hIndex hRequest hOpen hPast hReply =>
    cases hPhase.symm.trans hOther

/-! ## One step of a client -/

/-- The letters that a client has asked for. -/
def asked (ls : List Line) : List Nat :=
  ls.filterMap fun
    | .sending index => some index
    | _ => none

theorem asked_append (ls ls' : List Line) : asked (ls ++ ls') = asked ls ++ asked ls' :=
  List.filterMap_append

/-- A client that has received a message: where it stands, and what it has left behind. -/
structure Received (table : Table) (conns : Nat → Conn) (indices : List Nat) (i : Nat)
    (serving : Fin N → Option Request) (p p' : Client) (conn : Conn) (ls : List Line) : Prop where
  standing : Standing table (Function.update conns i conn) p' (indices ++ asked ls)
  exchange : Exchange conn serving (p'.awaits i)
  others : ∀ j, j ≠ i → p'.awaits j = p.awaits j
  expected : unexpected ∉ ls

/-- The client is shown the table: there is no letter, or it asks for the first. -/
theorem receive_table {table : Table} {conns : Nat → Conn} {indices : List Nat} {i low : Nat}
    {buf : Object BUF_SIZE} {serving : Fin N → Option Request} {req : Option Request}
    {p' : Client} {conn : Conn} {ls : List Line} (hOpen : (conns i).closed = false)
    (hPast : Past table low indices i) (hReply : ∀ msg ∈ (conns i).outbox, Shows table low msg)
    (hExchange : Exchange (conns i) serving req)
    (hStep : Client.receive ⟨.table i buf, i + 1⟩ (conns i) = some (p', conn, ls)) :
    Received table conns indices i serving ⟨.table i buf, i + 1⟩ p' conn ls := by
  have hOther {j : Nat} (hj : j ≠ i) : Client.awaits ⟨.table i buf, i + 1⟩ j = none := if_neg hj
  simp only [Client.receive] at hStep
  split at hStep
  case h_2 hPhase _ => cases hPhase
  case h_3 => cases hStep
  next sockfd b msg rest hPhase hOutbox =>
    cases hPhase
    obtain ⟨rfl, hInbox, hIdle⟩ := hExchange.quiet hOutbox
    obtain ⟨shown, hMsg, hLater, hBefore⟩ := hReply msg (by rw [hOutbox]; exact List.mem_cons_self)
    split at hStep
    · next hNone =>
      cases hStep
      have hEmpty (k : Fin ARR_SIZE) : table k = ' '.toUInt8 := by
        have hBlank := firstLetter_none hNone k.isLt
        rw [recvInto_shown hMsg buf k.isLt] at hBlank
        exact hLater k hBlank
      refine ⟨?_, .empty hInbox rfl hIdle, fun j hj => (hOther hj).symm, by simp [unexpected]⟩
      rw [show asked _ = [] from rfl, List.append_nil]
      exact .finished i low rfl rfl hPast hEmpty
    · next index hSome =>
      cases hStep
      obtain ⟨hIndex, hLetter, hFirst⟩ := firstLetter_some hSome
      rw [recvInto_shown hMsg buf hIndex] at hLetter
      have hRequest := requestOf_write (recvInto buf msg) hIndex
      have hLow : low ≤ index := by
        by_contra hLess
        exact hLetter (hBefore ⟨index, hIndex⟩ (Nat.not_le.mp hLess))
      have hGone (k : Fin ARR_SIZE) (hk : k.val < index) : table k = ' '.toUInt8 := by
        have hBlank := hFirst k hk
        rw [recvInto_shown hMsg buf k.isLt] at hBlank
        exact hLater k hBlank
      refine ⟨?_, ?_, fun j hj => ?_, by simp [unexpected]⟩
      · refine .status i index indices _ rfl rfl rfl hIndex hRequest ?_
          (hPast.raise hLow (Nat.le_of_lt hIndex) hGone) ?_
        · rw [Function.update_self]
          exact hOpen
        · rw [Function.update_self]
          exact fun m hm => absurd hm List.not_mem_nil
      · rw [awaits_status, hRequest]
        refine .sent _ ?_ hRequest rfl hIdle
        rw [hInbox]
        rfl
      · rw [hOther hj]
        exact if_neg hj

theorem receive_status {table : Table} {conns : Nat → Conn} {before : List Nat} {i index : Nat}
    {buf : Object BUF_SIZE} {serving : Fin N → Option Request} {req : Option Request}
    {p' : Client} {conn : Conn} {ls : List Line} (hIndex : index < ARR_SIZE)
    (hPast : Past table index before i)
    (hReply : ∀ msg ∈ (conns i).outbox, (msg = intBytes OK ∨ msg = intBytes ALREADLY_RESERVED) ∧
      table ⟨index, hIndex⟩ = ' '.toUInt8)
    (hExchange : Exchange (conns i) serving req)
    (hStep : Client.receive ⟨.status i buf, i + 1⟩ (conns i) = some (p', conn, ls)) :
    Received table conns (before ++ [index]) i serving ⟨.status i buf, i + 1⟩ p' conn ls := by
  have hOther {j : Nat} (hj : j ≠ i) : Client.awaits ⟨.status i buf, i + 1⟩ j = none := if_neg hj
  simp only [Client.receive] at hStep
  split at hStep
  case h_1 hPhase _ => cases hPhase
  case h_3 => cases hStep
  next sockfd b msg rest hPhase hOutbox =>
    cases hPhase
    obtain ⟨rfl, hInbox, hIdle⟩ := hExchange.quiet hOutbox
    obtain ⟨hMsg, hGone⟩ := hReply msg (by rw [hOutbox]; exact List.mem_cons_self)
    have hStart {ls : List Line} (hAsked : asked ls = []) (hLines : unexpected ∉ ls) :
        Received table conns (before ++ [index]) i serving ⟨.status i buf, i + 1⟩ ⟨.start, i + 1⟩
          { conns i with closed := true, outbox := [] } ls := by
      refine ⟨?_, .empty hInbox rfl hIdle, fun j hj => (hOther hj).symm, hLines⟩
      rw [hAsked, List.append_nil]
      exact .start (index + 1) rfl (hPast.next hIndex hGone)
    rcases hMsg with rfl | rfl
    · have hOk : recvInto buf (intBytes OK) 0 = 0 := by simp [recvInto, intBytes, intByte, OK]
      rw [if_pos hOk] at hStep
      cases hStep
      exact hStart rfl (by simp [unexpected])
    · have hTaken : recvInto buf (intBytes ALREADLY_RESERVED) 0 = 1 := by
        simp [recvInto, intBytes, intByte, ALREADLY_RESERVED]
      rw [if_neg (by rw [hTaken]; decide), if_pos hTaken] at hStep
      cases hStep
      exact hStart rfl (by simp [unexpected])

theorem client_receive {table : Table} {conns : Nat → Conn} {indices : List Nat} {i : Nat}
    {serving : Fin N → Option Request} {req : Option Request} {p p' : Client} {conn : Conn}
    {ls : List Line} (h : Standing table conns p indices) (hSockfd : p.sockfd = some i)
    (hExchange : Exchange (conns i) serving req)
    (hStep : p.receive (conns i) = some (p', conn, ls)) :
    Received table conns indices i serving p p' conn ls := by
  obtain ⟨phase, opened⟩ := p
  cases h with
  | start low hPhase hPast =>
    obtain rfl : phase = .start := hPhase
    cases hSockfd
  | failed low hPhase hPast =>
    obtain rfl : phase = .failed := hPhase
    cases hSockfd
  | finished j low hPhase hOpened hPast hEmpty =>
    obtain rfl : phase = .finished := hPhase
    cases hSockfd
  | table j low buf hPhase hOpened hRequest hOpen hPast hReply =>
    obtain rfl : phase = .table j buf := hPhase
    obtain rfl : j = i := Option.some.inj hSockfd
    obtain rfl : opened = j + 1 := hOpened
    exact receive_table hOpen hPast hReply hExchange hStep
  | status j index before buf hPhase hOpened hIndices hIndex hRequest hOpen hPast hReply =>
    obtain rfl : phase = .status j buf := hPhase
    obtain rfl : j = i := Option.some.inj hSockfd
    obtain rfl : opened = j + 1 := hOpened
    rw [hIndices]
    exact receive_status hIndex hPast hReply hExchange hStep

/-! ## Handing over -/

/-- What a statement of `main`, or the one with which a thread reads `connfd`, can do. -/
inductive Moves (s : HandOver.State) : HandOver.Action → HandOver.State → Prop where
  | failed (hPc : s.pc = .accept) : Moves s (.accept (-1)) { s with pc := .create, connfd := -1 }
  | accepted (fd : Int) (hPc : s.pc = .accept) (hFresh : fd ∉ s.fds) :
      Moves s (.accept fd) { s with pc := .create, connfd := fd, fds := fd :: s.fds }
  | created (hPc : s.pc = .create) :
      Moves s (.create true) { s with pc := .detach, workers := s.workers ++ [none] }
  | detached (hPc : s.pc = .detach) : Moves s (.detach true) { s with pc := .accept }
  | exited (a : HandOver.Action) (hPc : s.pc ≠ .accept)
      (hFails : a = .create false ∨ a = .detach false) : Moves s a { s with pc := .exited }
  | read (k : Nat) (hCell : s.workers[k]? = some none) :
      Moves s (.read k) { s with workers := s.workers.set k (some s.connfd) }

theorem moves_of_step {s s' : HandOver.State} {a : HandOver.Action} {es : List HandOver.Event}
    (hStep : HandOver.step s a = some (s', es)) : Moves s a s' := by
  cases a with
  | accept result =>
    simp only [HandOver.step] at hStep
    split at hStep
    · next hPc =>
      split at hStep
      · next hFailed =>
        cases hStep
        subst hFailed
        exact .failed hPc
      · split at hStep
        · next hFresh => cases hStep; exact .accepted result hPc hFresh.2
        · cases hStep
    · cases hStep
  | create ok =>
    simp only [HandOver.step] at hStep
    split at hStep
    · next hPc =>
      cases ok with
      | true => cases hStep; exact .created hPc
      | false => cases hStep; exact .exited _ (by rw [hPc]; decide) (Or.inl rfl)
    · cases hStep
  | detach ok =>
    simp only [HandOver.step] at hStep
    split at hStep
    · next hPc =>
      cases ok with
      | true => cases hStep; exact .detached hPc
      | false => cases hStep; exact .exited _ (by rw [hPc]; decide) (Or.inr rfl)
    · cases hStep
  | read k =>
    simp only [HandOver.step] at hStep
    split at hStep
    · next hRead => cases hStep; exact .read k hRead.2
    · cases hStep

/-- The descriptors in use are smaller than the next one. -/
structure Numbered (s : HandOver.State) : Prop where
  fds : ∀ fd ∈ s.fds, fd < newFd s
  read : ∀ fd, some fd ∈ s.workers → fd < newFd s
  connfd : s.pc ≠ .accept ∨ s.workers ≠ [] → s.connfd < newFd s

theorem Numbered.step {s s' : HandOver.State} {a : HandOver.Action} (h : Numbered s)
    (hNew : ∀ fd, a = .accept fd → fd = newFd s ∨ fd = -1) (hMoves : Moves s a s') :
    Numbered s' := by
  cases hMoves with
  | failed hPc => exact ⟨h.fds, h.read, fun _ => by simp only [newFd]; omega⟩
  | accepted fd hPc hFresh =>
    have hMore : newFd { s with pc := .create, connfd := fd, fds := fd :: s.fds } =
        newFd s + 1 := by
      simp only [newFd, List.length_cons]
      omega
    have hLess : fd < newFd s + 1 := by
      rcases hNew fd rfl with hEq | hEq
      · omega
      · simp only [newFd]
        omega
    refine ⟨fun x hx => ?_, fun x hx => ?_, fun _ => ?_⟩
    · rw [hMore]
      rcases List.mem_cons.mp hx with rfl | hOld
      · exact hLess
      · exact Int.lt_add_one_of_le (Int.le_of_lt (h.fds x hOld))
    · rw [hMore]
      exact Int.lt_add_one_of_le (Int.le_of_lt (h.read x hx))
    · rw [hMore]
      exact hLess
  | created hPc =>
    refine ⟨h.fds, fun x hx => h.read x ?_, fun _ => h.connfd (Or.inl (by rw [hPc]; decide))⟩
    simpa using hx
  | detached hPc =>
    exact ⟨h.fds, h.read, fun _ => h.connfd (Or.inl (by rw [hPc]; decide))⟩
  | exited a hPc hFails => exact ⟨h.fds, h.read, fun _ => h.connfd (Or.inl hPc)⟩
  | read k hCell =>
    have hNone : s.workers ≠ [] := by
      intro hNil
      rw [hNil] at hCell
      cases hCell
    have hConnfd : s.connfd < newFd s := h.connfd (Or.inr hNone)
    refine ⟨h.fds, fun x hx => ?_, fun _ => hConnfd⟩
    rcases List.mem_or_eq_of_mem_set hx with hOld | hSelf
    · exact h.read x hOld
    · cases hSelf
      exact hConnfd

/-- The descriptor of a thread stays, unless it is the one that reads `connfd`. -/
theorem Moves.join {s s' : HandOver.State} {a : HandOver.Action} (h : Moves s a s') (k : Nat) :
    s'.workers[k]?.join = s.workers[k]?.join ∨ s.workers[k]?.join = none := by
  cases h with
  | failed hPc | accepted fd hPc hFresh | detached hPc | exited a hPc hFails => exact Or.inl rfl
  | created hPc =>
    rcases Nat.lt_or_ge k s.workers.length with hLess | hGe
    · exact Or.inl (by rw [List.getElem?_append_left hLess])
    · exact Or.inr (by rw [List.getElem?_eq_none hGe]; rfl)
  | read j hCell =>
    by_cases hk : j = k
    · subst hk
      exact Or.inr (by rw [hCell]; rfl)
    · exact Or.inl (by rw [List.getElem?_set_ne hk])

/-! ## The system -/

theorem tableAfter_blank {table : Table} {i : Fin ARR_SIZE} (h : table i = ' '.toUInt8)
    (order : List (Request × List UInt8)) : tableAfter table order i = ' '.toUInt8 := by
  induction order generalizing table with
  | nil => exact h
  | cons r rest ih => exact ih (after_blank h r.1)

/-- The connection that thread `k` reads. -/
def System.target (s : System τ N) (k : Fin N) : Option (τ × Nat) := (s.connfd k).bind s.peer

/-- The reports of a client. -/
def lines [DecidableEq τ] (t : τ) (h : List (Report τ)) : List Line :=
  h.filterMap fun
    | .client u line => if u = t then some line else none
    | .main _ | .server _ => none

def serverEvent : Report τ → Option Event
  | .server e => some e
  | .client _ _ | .main _ => none

/-- The requests answered in a history, in the order of the replies. -/
def answered (h : List (Report τ)) : List (Request × List UInt8) :=
  replies (h.filterMap serverEvent)

variable [DecidableEq τ]

/-- The request of the connection that thread `k` serves. -/
def System.serving (s : System τ N) (c : τ × Nat) (k : Fin N) : Option Request :=
  if s.target k = some c then serves (s.threads k) else none

/-- The semaphores guard the table, at most one message is on its way on every connection, and
every client stands in agreement with the table. -/
structure Inv (s : System τ N) (h : List (Report τ)) : Prop where
  table : Mt.Inv ⟨s.shared, s.threads⟩ (answered h)
  numbered : Numbered s.handOver
  unread : ∀ k, s.connfd k = none → (s.threads k).pc = .recv
  exchange : ∀ t i, Exchange (s.conns (t, i)) (s.serving (t, i)) ((s.clients t).awaits i)
  client : ∀ t, Standing (tableAfter initArr (answered h)) (fun i => s.conns (t, i)) (s.clients t)
    (asked (lines t h))
  expected : ∀ t, unexpected ∉ lines t h

theorem inv_init (locals : Locals τ N) (connfd : Int) : Inv (init locals connfd) [] := by
  refine ⟨Mt.inv_init locals.thread, ⟨nofun, nofun, ?_⟩, fun k _ => rfl, fun t i => ?_, fun t => ?_,
    nofun⟩
  · rintro (hPc | hWorkers)
    · exact absurd rfl hPc
    · exact absurd rfl hWorkers
  · exact .empty rfl rfl fun k => if_neg nofun
  · exact .start 0 rfl ⟨Nat.zero_le _, fun i hi => absurd hi (Nat.not_lt_zero _), .nil, nofun,
      Nat.le_refl _⟩

omit [DecidableEq τ] in
theorem answered_append (h es : List (Report τ)) :
    answered (h ++ es) = answered h ++ answered es := by
  rw [answered, List.filterMap_append, replies_append]
  rfl

omit [DecidableEq τ] in
theorem answered_server (es : List Event) :
    answered (es.map (Report.server (τ := τ))) = replies es := by
  rw [answered, List.filterMap_map]
  congr 1
  exact List.filterMap_some

omit [DecidableEq τ] in
theorem answered_main (es : List HandOver.Event) :
    answered (es.map (Report.main (τ := τ))) = [] := by
  rw [answered, List.filterMap_map]
  exact congrArg replies (List.filterMap_eq_nil_iff.mpr fun _ _ => rfl)

omit [DecidableEq τ] in
theorem answered_client (t : τ) (ls : List Line) : answered (ls.map (.client t)) = [] := by
  rw [answered, List.filterMap_map]
  exact congrArg replies (List.filterMap_eq_nil_iff.mpr fun _ _ => rfl)

theorem lines_append (t : τ) (h es : List (Report τ)) :
    lines t (h ++ es) = lines t h ++ lines t es := List.filterMap_append

theorem lines_server (t : τ) (es : List Event) : lines t (es.map .server) = [] := by
  rw [lines, List.filterMap_map]
  exact List.filterMap_eq_nil_iff.mpr fun _ _ => rfl

theorem lines_main (t : τ) (es : List HandOver.Event) : lines t (es.map .main) = [] := by
  rw [lines, List.filterMap_map]
  exact List.filterMap_eq_nil_iff.mpr fun _ _ => rfl

theorem lines_client (t : τ) (ls : List Line) : lines t (ls.map (.client t)) = ls := by
  rw [lines, List.filterMap_map]
  refine (List.filterMap_congr fun l _ => ?_).trans List.filterMap_some
  exact if_pos rfl

theorem lines_other {t u : τ} (hu : t ≠ u) (ls : List Line) :
    lines u (ls.map (.client t)) = [] := by
  rw [lines, List.filterMap_map]
  exact List.filterMap_eq_nil_iff.mpr fun l _ => if_neg hu

/-- The connections of one client. -/
theorem conns_self (conns : τ × Nat → Conn) (t : τ) (i : Nat) (conn : Conn) :
    (fun j => Function.update conns (t, i) conn (t, j)) =
      Function.update (fun j => conns (t, j)) i conn :=
  Function.update_comp_eq_of_injective conns (Prod.mk_right_injective t) i conn

theorem conns_other (conns : τ × Nat → Conn) {t u : τ} (hu : t ≠ u) (i : Nat) (conn : Conn) :
    (fun j => Function.update conns (t, i) conn (u, j)) = fun j => conns (u, j) := by
  funext j
  exact Function.update_of_ne (fun hEq => hu (congrArg Prod.fst hEq).symm) _ _

theorem update_same {α : Type} (f : Conn → α) {conns : Nat → Conn} {i : Nat} {conn : Conn}
    (h : f conn = f (conns i)) (j : Nat) : f (Function.update conns i conn j) = f (conns j) := by
  by_cases hj : j = i
  · rw [hj, Function.update_self]
    exact h
  · rw [Function.update_of_ne hj]

/-- What the threads serve is the same as long as only threads that stand at `recv` change their
connection. -/
theorem serving_congr (s s' : System τ N) (hThreads : s'.threads = s.threads)
    (hTarget : ∀ k, s'.target k = s.target k ∨ (s.threads k).pc = .recv) (c : τ × Nat) :
    s'.serving c = s.serving c := by
  funext k
  rw [System.serving, System.serving, hThreads]
  rcases hTarget k with hSame | hRecv
  · rw [hSame]
  · rw [serves_recv hRecv, ite_self, ite_self]

omit [DecidableEq τ] in
theorem mem_workers {s : System τ N} {k : Fin N} {fd : Int} (h : s.connfd k = some fd) :
    some fd ∈ s.handOver.workers := by
  rw [System.connfd, Option.join_eq_some_iff] at h
  exact List.mem_of_getElem? h

omit [DecidableEq τ] in
/-- The connection of a thread stays, unless it is the thread that reads `connfd`. -/
theorem target_handsOver {s : System τ N} {next : HandOver.State} {a : HandOver.Action}
    (hUnread : ∀ k, s.connfd k = none → (s.threads k).pc = .recv)
    (hMoves : Moves s.handOver a next) (k : Fin N) :
    System.target { s with handOver := next } k = s.target k ∨ (s.threads k).pc = .recv :=
  (hMoves.join k.val).imp (fun hSame => congrArg (Option.bind · s.peer) hSame) (hUnread k)

omit [DecidableEq τ] in
/-- The next descriptor is one that no thread has read. -/
theorem target_naming {s : System τ N} (h : Numbered s.handOver) (c : τ × Nat) (k : Fin N) :
    System.target { s with peer := Function.update s.peer (newFd s.handOver) (some c) } k =
      s.target k := by
  show (s.connfd k).bind _ = (s.connfd k).bind s.peer
  cases hConnfd : s.connfd k with
  | none => rfl
  | some fd =>
    have hLess : fd < newFd s.handOver := h.read fd (mem_workers hConnfd)
    exact Function.update_of_ne (Int.ne_of_lt hLess) _ _

/-- A statement that belongs to neither a client nor the table. -/
theorem Inv.handsOver {s s' : System τ N} {h es : List (Report τ)} {a : HandOver.Action}
    (hInv : Inv s h) (hNew : ∀ fd, a = .accept fd → fd = newFd s.handOver ∨ fd = -1)
    (hStep : s.handsOver a = some (s', es)) : Inv s' (h ++ es) := by
  obtain ⟨⟨next, es₁⟩, hRun, hEq⟩ := Option.map_eq_some_iff.mp hStep
  cases hEq
  have hMoves := moves_of_step hRun
  refine ⟨?_, hInv.numbered.step hNew hMoves, fun k hNone => ?_, fun t i => ?_, fun t => ?_,
    fun t => ?_⟩
  · rw [answered_append, answered_main, List.append_nil]
    exact hInv.table
  · rcases hMoves.join k.val with hSame | hOld
    · exact hInv.unread k (hSame.symm.trans hNone)
    · exact hInv.unread k hOld
  · have hSame := hInv.exchange t i
    rwa [← serving_congr s { s with handOver := next } rfl
      (target_handsOver hInv.unread hMoves)] at hSame
  · rw [answered_append, answered_main, List.append_nil, lines_append, lines_main, List.append_nil]
    exact hInv.client t
  · rw [lines_append, lines_main, List.append_nil]
    exact hInv.expected t

theorem Inv.naming {s : System τ N} {h : List (Report τ)} (hInv : Inv s h) (c : τ × Nat)
    (rest : List (τ × Nat)) :
    Inv { s with peer := Function.update s.peer (newFd s.handOver) (some c), backlog := rest }
      h := by
  refine ⟨hInv.table, hInv.numbered, hInv.unread, fun t i => ?_, hInv.client, hInv.expected⟩
  have hSame := hInv.exchange t i
  rwa [← serving_congr s
    { s with peer := Function.update s.peer (newFd s.handOver) (some c), backlog := rest } rfl
    fun k => Or.inl (target_naming hInv.numbered c k)] at hSame

theorem Inv.exit {s : System τ N} {h : List (Report τ)} (hInv : Inv s h) : Inv s.exit h :=
  ⟨hInv.table, hInv.numbered, hInv.unread, hInv.exchange, hInv.client, hInv.expected⟩

/-- A step of one client on its connection `i`. -/
theorem Inv.moved {s : System τ N} {h : List (Report τ)} (hInv : Inv s h) {t : τ} {i : Nat}
    {p : Client} {conn : Conn} (ls : List Line)
    (hNew : Received (tableAfter initArr (answered h)) (fun j => s.conns (t, j))
      (asked (lines t h)) i (s.serving (t, i)) (s.clients t) p conn ls) :
    Inv (s.setClient t p i conn) (h ++ ls.map (.client t)) := by
  refine ⟨?_, hInv.numbered, hInv.unread, fun u j => ?_, fun u => ?_, fun u => ?_⟩
  · rw [answered_append, answered_client, List.append_nil]
    exact hInv.table
  · show Exchange (Function.update s.conns (t, i) conn (u, j)) (s.serving (u, j))
      ((Function.update s.clients t p u).awaits j)
    by_cases hu : u = t
    · subst hu
      rw [Function.update_self]
      by_cases hj : j = i
      · subst hj
        rw [Function.update_self]
        exact hNew.exchange
      · rw [Function.update_of_ne fun hEq => hj (congrArg Prod.snd hEq), hNew.others j hj]
        exact hInv.exchange u j
    · rw [Function.update_of_ne hu, Function.update_of_ne fun hEq => hu (congrArg Prod.fst hEq)]
      exact hInv.exchange u j
  · rw [answered_append, answered_client, List.append_nil, lines_append]
    show Standing _ (fun j => Function.update s.conns (t, i) conn (u, j))
      (Function.update s.clients t p u) _
    by_cases hu : t = u
    · subst hu
      rw [lines_client, asked_append, Function.update_self, conns_self]
      exact hNew.standing
    · rw [lines_other hu, List.append_nil, Function.update_of_ne (Ne.symm hu), conns_other _ hu]
      exact hInv.client u
  · rw [lines_append]
    by_cases hu : t = u
    · subst hu
      rw [lines_client]
      exact fun hMem => (List.mem_append.mp hMem).elim (hInv.expected t) hNew.expected
    · rw [lines_other hu, List.append_nil]
      exact hInv.expected u

theorem Inv.queue {s : System τ N} {h : List (Report τ)} (hInv : Inv s h)
    (backlog : List (τ × Nat)) : Inv { s with backlog := backlog } h :=
  ⟨hInv.table, hInv.numbered, hInv.unread, hInv.exchange, hInv.client, hInv.expected⟩

/-- Only on the connection it reads does a statement of a thread change what is served. -/
theorem serving_moved (s : System τ N) (k : Fin N) (sh : Shared) (w : Worker)
    (conns : τ × Nat → Conn) (c : τ × Nat) :
    (s.setThread k sh w conns).serving c =
      if s.target k = some c then Function.update (s.serving c) k (serves w)
      else s.serving c := by
  funext j
  show (if s.target j = some c then serves (Function.update s.threads k w j) else none) = _
  by_cases hj : j = k
  · subst hj
    rw [Function.update_self]
    split
    · rw [Function.update_self]
    · next hOther => exact (if_neg hOther).symm
  · rw [Function.update_of_ne hj]
    by_cases hTarget : s.target k = some c
    · rw [if_pos hTarget, Function.update_of_ne hj]
      rfl
    · rw [if_neg hTarget]
      rfl

/-- A statement of a thread. -/
theorem Inv.worked {s : System τ N} {h : List (Report τ)} (hInv : Inv s h) {k : Fin N} {fd : Int}
    {sh : Shared} {w : Worker} {conns : τ × Nat → Conn} {input : Input} {es : List Event}
    (hConnfd : s.connfd k = some fd)
    (hRun : processClient s.shared (s.threads k) input = some (sh, w, es))
    (hExchange : ∀ t i, Exchange (conns (t, i))
      (if s.target k = some (t, i) then Function.update (s.serving (t, i)) k (serves w)
        else s.serving (t, i)) ((s.clients t).awaits i))
    (hClient : ∀ t, Legal (tableAfter initArr (answered h)) (replies es) →
      Standing (tableAfter (tableAfter initArr (answered h)) (replies es))
        (fun i => conns (t, i)) (s.clients t) (asked (lines t h))) :
    Inv (s.setThread k sh w conns) (h ++ es.map .server) := by
  have hTable := (hInv.table.step hRun).1
  have hAnswered : answered (h ++ es.map .server) = answered h ++ replies es := by
    rw [answered_append, answered_server]
  rw [← hAnswered] at hTable
  refine ⟨hTable, hInv.numbered, fun j hNone => ?_, fun t i => ?_, fun t => ?_, fun t => ?_⟩
  · have hj : j ≠ k := by
      rintro rfl
      cases hConnfd.symm.trans hNone
    show (Function.update s.threads k w j).pc = .recv
    rw [Function.update_of_ne hj]
    exact hInv.unread j hNone
  · rw [serving_moved]
    exact hExchange t i
  · rw [hAnswered] at hTable
    rw [hAnswered, tableAfter_append, lines_append, lines_server, List.append_nil]
    exact hClient t (legal_append.mp hTable.2).2
  · rw [lines_append, lines_server, List.append_nil]
    exact hInv.expected t

theorem Inv.work {locals : Locals τ N} {s s' : System τ N} {h es : List (Report τ)} {k : Fin N}
    (hInv : Inv s h) (hStep : s.work locals k = some (s', es)) : Inv s' (h ++ es) := by
  have hMore (es : List Event) (i : Fin ARR_SIZE)
      (hi : tableAfter initArr (answered h) i = ' '.toUInt8) :=
    tableAfter_blank hi (replies es)
  unfold System.work at hStep
  split at hStep
  · cases hStep
  next fd hConnfd =>
  split at hStep
  · next hPeer =>
    obtain ⟨⟨sh, w, es₁⟩, hRun, hEq⟩ := Option.map_eq_some_iff.mp hStep
    cases hEq
    have hTarget : s.target k = none := by rw [System.target, hConnfd]; exact hPeer
    refine hInv.worked hConnfd hRun (fun t i => ?_) fun t _ => ?_
    · rw [hTarget, if_neg nofun]
      exact hInv.exchange t i
    · exact (hInv.client t).mono (hMore es₁) (fun _ => rfl) fun _ => rfl
  · next c hPeer =>
    obtain ⟨⟨sh, w, conn, es₁⟩, hWork, hEq⟩ := Option.map_eq_some_iff.mp hStep
    cases hEq
    obtain ⟨t, i⟩ := c
    have hTarget : s.target k = some (t, i) := by rw [System.target, hConnfd]; exact hPeer
    obtain ⟨input, hRun, hClosed, -⟩ := conn_work_run hWork
    obtain ⟨hExchange, hReply⟩ := (hInv.exchange t i).work (if_pos hTarget) (conn_work hWork)
    refine hInv.worked hConnfd hRun (fun u j => ?_) fun u hLegal => ?_
    · rw [hTarget]
      by_cases hc : (u, j) = (t, i)
      · cases hc
        rw [if_pos rfl, Function.update_self]
        exact hExchange
      · rw [if_neg fun hEq => hc (Option.some.inj hEq).symm, Function.update_of_ne hc]
        exact hInv.exchange u j
    · by_cases hu : t = u
      · subst hu
        rw [conns_self]
        obtain ⟨hSilent, hOutbox⟩ | ⟨req, msg, hAwaits, hReplies, hOutbox⟩ := hReply
        · exact (hInv.client t).mono (hMore es₁) (update_same Conn.outbox hOutbox)
            (update_same Conn.closed hClosed)
        · rw [hReplies] at hLegal ⊢
          exact (hInv.client t).reply hAwaits hLegal.1 hClosed hOutbox
      · rw [conns_other _ hu]
        exact (hInv.client u).mono (hMore es₁) (fun _ => rfl) fun _ => rfl

theorem Inv.client_step {s s' : System τ N} {h es : List (Report τ)} {t : τ} (hInv : Inv s h)
    (hStep : s.client t = some (s', es)) : Inv s' (h ++ es) := by
  unfold System.client at hStep
  split at hStep
  · cases hStep
  · next i hSockfd =>
    obtain ⟨⟨p, conn, ls⟩, hReceive, hEq⟩ := Option.map_eq_some_iff.mp hStep
    cases hEq
    exact hInv.moved ls (client_receive (hInv.client t) hSockfd (hInv.exchange t i) hReceive)

/-- The socket is opened and connected, or the client ends. -/
theorem Inv.connect {locals : Locals τ N} {s s' : System τ N} {h es : List (Report τ)} {t : τ}
    {socket connect : Bool} (hInv : Inv s h)
    (hStep : s.connect locals t socket connect = some (s', es)) : Inv s' (h ++ es) := by
  simp only [System.connect] at hStep
  split at hStep
  case h_2 => cases hStep
  next hPhase =>
  obtain ⟨low, hPast⟩ := (hInv.client t).past_of_start hPhase
  have hAwaits (i : Nat) : (s.clients t).awaits i = none := by rw [Client.awaits, hPhase]
  have hOver := hInv.exchange t (s.clients t).opened
  rw [hAwaits] at hOver
  have hFails (text : String) (hText : unexpected ≠ .perror text) :
      Inv (s.setClient t ⟨.failed, (s.clients t).opened⟩ (s.clients t).opened
        (s.conns (t, (s.clients t).opened))) (h ++ [.client t (.perror text)]) := by
    refine hInv.moved [.perror text]
      ⟨?_, hOver, fun i _ => (hAwaits i).symm, by simpa using hText⟩
    rw [show asked [.perror text] = [] from rfl, List.append_nil]
    exact .failed low rfl hPast
  split at hStep
  · cases hStep
    exact hFails "error socket" (by decide)
  · split at hStep
    · cases hStep
      exact hFails "connection error" (by decide)
    · cases hStep
      refine (hInv.queue _).moved [] ⟨?_, ?_, fun i hi => ?_, List.not_mem_nil⟩
      · rw [show asked [] = [] from rfl, List.append_nil]
        refine .table (s.clients t).opened low _ rfl rfl (requestOf_read _) ?_ hPast ?_
        · rw [Function.update_self]
        · rw [Function.update_self]
          exact fun msg hMsg => absurd hMsg List.not_mem_nil
      · rw [awaits_table, requestOf_read]
        cases hOver with
        | empty hInbox hOutbox hIdle => exact .sent _ rfl (requestOf_read _) rfl hIdle
      · rw [hAwaits]
        exact if_neg hi

theorem Inv.step {locals : Locals τ N} {s s' : System τ N} {h es : List (Report τ)}
    {a : Action τ N} (hInv : Inv s h) (hStep : Clients.step locals s a = some (s', es)) :
    Inv s' (h ++ es) := by
  unfold Clients.step at hStep
  split at hStep
  · cases hStep
  cases a with
  | connect t socket connect => exact hInv.connect hStep
  | client t => exact hInv.client_step hStep
  | work k => exact hInv.work hStep
  | read k => exact hInv.handsOver (by simp) hStep
  | accept ok =>
    cases ok with
    | false => exact hInv.handsOver (fun fd hfd => Or.inr (by cases hfd; rfl)) hStep
    | true =>
      simp only [System.accept, if_true] at hStep
      split at hStep
      · cases hStep
      · next c rest hBacklog =>
        exact (hInv.naming c rest).handsOver (fun fd hfd => Or.inl (by cases hfd; rfl)) hStep
  | create ok =>
    cases ok with
    | false => exact hInv.exit.handsOver (by simp) hStep
    | true =>
      simp only [System.create, if_true] at hStep
      split at hStep
      · exact hInv.handsOver (by simp) hStep
      · cases hStep
  | detach ok =>
    cases ok with
    | false => exact hInv.exit.handsOver (by simp) hStep
    | true => exact hInv.handsOver (by simp) hStep

/-! ## Whole runs -/

theorem inv_execute (locals : Locals τ N) (connfd : Int) (sched : List (Action τ N)) :
    Inv (execute locals connfd sched).1 (execute locals connfd sched).2 :=
  run_invariant (inv_init locals connfd) (fun _ _ _ _ _ hInv hStep => hInv.step hStep) sched

theorem Standing.increasing {table : Table} {conns : Nat → Conn} {p : Client} {indices : List Nat}
    (h : Standing table conns p indices) :
    indices.Pairwise (· < ·) ∧ ∀ i ∈ indices, i < ARR_SIZE := by
  have hPast {low count : Nat} (hPast : Past table low indices count) :
      indices.Pairwise (· < ·) ∧ ∀ i ∈ indices, i < ARR_SIZE :=
    ⟨hPast.increasing, fun i hi => Nat.lt_of_lt_of_le (hPast.below i hi) hPast.low_le⟩
  cases h with
  | start low hPhase h => exact hPast h
  | failed low hPhase h => exact hPast h
  | finished i low hPhase hOpened h hEmpty => exact hPast h
  | table i low buf hPhase hOpened hRequest hOpen h hReply => exact hPast h
  | status i index before buf hPhase hOpened hIndices hIndex hRequest hOpen h hReply =>
    rw [hIndices]
    refine ⟨List.pairwise_append.mpr ⟨h.increasing, List.pairwise_singleton _ _, ?_⟩, ?_⟩
    · intro i hi j hj
      rw [List.mem_singleton.mp hj]
      exact h.below i hi
    · intro i hi
      rcases List.mem_append.mp hi with hOld | hNew
      · exact (h.below i hOld).trans hIndex
      · rw [List.mem_singleton.mp hNew]
        exact hIndex

theorem Standing.gone_of_finished {table : Table} {conns : Nat → Conn} {p : Client}
    {indices : List Nat} (h : Standing table conns p indices) (hPhase : p.phase = .finished)
    (i : Fin ARR_SIZE) : table i = ' '.toUInt8 := by
  cases h with
  | finished j low hSame hOpened hPast hEmpty => exact hEmpty i
  | start low hOther hPast => cases hPhase.symm.trans hOther
  | failed low hOther hPast => cases hPhase.symm.trans hOther
  | table j low buf hOther hOpened hRequest hOpen hPast hReply => cases hPhase.symm.trans hOther
  | status j index before buf hOther hOpened hIndices hIndex hRequest hOpen hPast hReply =>
    cases hPhase.symm.trans hOther

/-- A letter that has gone was granted to a request. -/
theorem mem_of_gone {table : Table} {order : List (Request × List UInt8)} (h : Legal table order)
    {i : Fin ARR_SIZE} (hLetter : table i ≠ ' '.toUInt8)
    (hGone : tableAfter table order i = ' '.toUInt8) : (.write i, intBytes OK) ∈ order := by
  induction order generalizing table with
  | nil => exact absurd hGone hLetter
  | cons r rest ih =>
    obtain ⟨hAnswer, hRest⟩ := h
    by_cases hNow : after table r.1 i = ' '.toUInt8
    · obtain ⟨req, msg⟩ := r
      cases req with
      | read => exact absurd hNow hLetter
      | write k =>
        have hIndex : i.val = k := by
          by_contra hOther
          exact hLetter ((if_neg hOther).symm.trans hNow)
        subst hIndex
        have hMsg := hAnswer i.isLt
        rw [if_neg hLetter] at hMsg
        rw [show msg = intBytes OK from hMsg]
        exact List.mem_cons_self
    · exact List.mem_cons_of_mem r (ih hRest hNow hGone)

theorem initArr_letter (i : Fin ARR_SIZE) : initArr i ≠ ' '.toUInt8 := by
  revert i
  decide

/-- Whichever threads read the connections, the clients divide the letters among them: each asks
for letters in increasing order, so for every letter at most once, and gets no answer it does not
know; a letter is granted at most once, and when a client finds no letter left, each has been
granted. -/
theorem letters_divided (locals : Locals τ N) (connfd : Int) (sched : List (Action τ N)) :
    let r := execute locals connfd sched
    (∀ t, (asked (lines t r.2)).Pairwise (· < ·) ∧ (∀ i ∈ asked (lines t r.2), i < ARR_SIZE) ∧
      unexpected ∉ lines t r.2) ∧
    (∀ i : Fin ARR_SIZE, (answered r.2).count (.write i, intBytes OK) ≤ 1) ∧
    ((∃ t, (r.1.clients t).phase = .finished) → ∀ i : Fin ARR_SIZE,
      (answered r.2).count (.write i, intBytes OK) = 1) := by
  have hInv := inv_execute locals connfd sched
  intro r
  have hLegal : Legal initArr (answered r.2) := hInv.table.2
  have hOnce (i : Fin ARR_SIZE) : (answered r.2).count (.write i, intBytes OK) ≤ 1 := by
    have hCount := hLegal.grants i
    rwa [if_neg (initArr_letter i)] at hCount
  refine ⟨fun t => ?_, hOnce, fun hFinished i => ?_⟩
  · obtain ⟨hIncreasing, hBound⟩ := (hInv.client t).increasing
    exact ⟨hIncreasing, hBound, hInv.expected t⟩
  · obtain ⟨t, hPhase⟩ := hFinished
    have hGone := (hInv.client t).gone_of_finished hPhase i
    exact Nat.le_antisymm (hOnce i)
      (List.count_pos_iff.mpr (mem_of_gone hLegal (initArr_letter i) hGone))

def zeroLocals (N : Nat) : Locals (Fin 2) N :=
  ⟨fun _ _ _ => 0, fun _ => (0, fun _ => 0, 0), fun _ => 0⟩

/-- Both connections are accepted before the threads read `connfd`: the second client is served
by either thread, the first by none. -/
example : (List.ofFn fun t : Fin 2 => asked (lines t (execute (zeroLocals 2) 0
    ([.connect 0 true true, .connect 1 true true, .accept true, .create true, .detach true,
      .accept true, .create true, .detach true, .read 0, .read 1] ++ List.replicate 26 (.work 0) ++
      .client 1 :: List.replicate 8 (.work 1))).2)) = [[], [0]] := by
  decide +kernel

end OsLabs.Mt.Clients
