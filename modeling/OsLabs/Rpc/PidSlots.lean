import Mathlib.Data.List.FinRange
import Mathlib.Logic.Function.Basic
import OsLabs.Rpc.Timespec
import OsLabs.Runs.Calls

/-!
# The bakery server with a slot for every process id (`sem_05/rpc/bakery (2)`)

`get_number_1_svc` stores the next number in the slot of the client's process id and returns
how many numbers it has handed out so far. `bakery_proc_1_svc` takes such a ticket and clears a
slot, but the slot of the ticket and not that of the client. `svc_run` is the only thread, so
the calls are executed one after the other.

Where the code has no defined behaviour (a negative index, a sum past `INT_MAX`), so has the
model.
-/

namespace OsLabs.Rpc.PidSlots

open Runs

def MAX_CLIENTS : Nat := 10000

abbrev Slot := Fin MAX_CLIENTS

def slot (n : Nat) : Slot := ⟨n % MAX_CLIENTS, Nat.mod_lt n (by decide)⟩

/-- `k % MAX_CLIENTS` as an index, where the remainder has the sign of `k`. -/
def index (k : Int) : Option Slot :=
  if 0 ≤ k.tmod MAX_CLIENTS then some (slot (k.tmod MAX_CLIENTS).toNat) else none

/-- `n + 1` for an `int`. -/
def inc (n : Int) : Option Int := if n < 2 ^ 31 - 1 then some (n + 1) else none

/-- The global arrays, and the static variable of `get_number_1_svc`. -/
structure State where
  choosing : Slot → Int
  numbers : Slot → Int
  pids : Slot → Int
  result : Int

def init : State := ⟨fun _ => 0, fun _ => 0, fun _ => 0, 0⟩

/-- One turn of the loop in `get_number_1_svc`. -/
def larger (numbers : Slot → Int) (number : Int) (i : Slot) : Int :=
  if numbers i > number then numbers i else number

/-- The loop starts with `numbers[0]`. -/
def maxNumber (numbers : Slot → Int) : Int :=
  (List.finRange MAX_CLIENTS).foldl (larger numbers) (numbers (slot 0))

def getNumber (s : State) (pid : Int) : Option (State × Int) := do
  let ind ← index pid
  let number ← inc (maxNumber s.numbers)
  let result ← inc s.result
  some (⟨Function.update (Function.update s.choosing ind 1) ind 0,
    Function.update s.numbers ind number, Function.update s.pids ind pid, result⟩, result)

/-- The reply is the time in nanoseconds, computed as `uint64_t` and stored in a `long`. -/
def bakeryProc (s : State) (ticket : Int) (ts : Timespec) : Option (State × Int) := do
  let i ← index ticket
  some ({ s with numbers := Function.update s.numbers i 0 },
    toLong ts.nanoseconds)

inductive Call where
  | getNumber (pid : Int)
  | bakeryProc (ticket : Int) (ts : Timespec)

def call (s : State) : Call → Option (State × Int)
  | .getNumber pid => getNumber s pid
  | .bakeryProc ticket ts => bakeryProc s ticket ts

def serve (calls : List Call) : Option (State × List Int) := execAll call init calls

/-! ## The parts of a call -/

theorem slot_mod (n : Nat) : slot (n % MAX_CLIENTS) = slot n :=
  Fin.ext (Nat.mod_mod n MAX_CLIENTS)

theorem index_natCast (n : Nat) : index n = some (slot n) := by
  have hMod : (n : Int).tmod MAX_CLIENTS = ((n % MAX_CLIENTS : Nat) : Int) := rfl
  rw [index, hMod, if_pos (Int.natCast_nonneg _), Int.toNat_natCast, slot_mod]

theorem inc_eq_some {n m : Int} (h : inc n = some m) : m = n + 1 := by
  unfold inc at h
  split at h
  · exact (Option.some.inj h).symm
  · cases h

theorem le_foldl_larger (numbers : Slot → Int) (is : List Slot) (number : Int) :
    number ≤ is.foldl (larger numbers) number ∧
      ∀ i ∈ is, numbers i ≤ is.foldl (larger numbers) number := by
  induction is generalizing number with
  | nil => exact ⟨Int.le_refl number, nofun⟩
  | cons i rest ih =>
    obtain ⟨hStart, hRest⟩ := ih (larger numbers number i)
    have hFirst : number ≤ larger numbers number i ∧ numbers i ≤ larger numbers number i := by
      unfold larger
      split <;> omega
    refine ⟨hFirst.1.trans hStart, fun j hj => ?_⟩
    rcases List.mem_cons.mp hj with rfl | hj
    · exact hFirst.2.trans hStart
    · exact hRest j hj

theorem le_maxNumber (numbers : Slot → Int) (i : Slot) : numbers i ≤ maxNumber numbers :=
  (le_foldl_larger numbers _ _).2 i (List.mem_finRange i)

theorem foldl_larger_le {numbers : Slot → Int} {is : List Slot} {number bound : Int}
    (hNumber : number ≤ bound) (hAll : ∀ i, numbers i ≤ bound) :
    is.foldl (larger numbers) number ≤ bound := by
  induction is generalizing number with
  | nil => exact hNumber
  | cons i rest ih =>
    apply ih
    have hi := hAll i
    unfold larger
    split <;> omega

theorem maxNumber_le {numbers : Slot → Int} {bound : Int} (hAll : ∀ i, numbers i ≤ bound) :
    maxNumber numbers ≤ bound :=
  foldl_larger_le (hAll _) hAll

/-- All that `get_number_1_svc` does to `numbers` and its result. -/
theorem getNumber_eq_some {s s' : State} {pid ticket : Int}
    (h : getNumber s pid = some (s', ticket)) :
    ∃ ind, index pid = some ind ∧ ticket = s.result + 1 ∧ s'.result = ticket ∧
      s'.numbers = Function.update s.numbers ind (maxNumber s.numbers + 1) := by
  simp only [getNumber, Option.bind_eq_bind, Option.bind_eq_some_iff] at h
  obtain ⟨ind, hInd, number, hNumber, result, hResult, hEq⟩ := h
  cases hEq
  refine ⟨ind, hInd, inc_eq_some hResult, rfl, ?_⟩
  rw [inc_eq_some hNumber]

theorem bakeryProc_eq_some {s s' : State} {ticket time : Int} {ts : Timespec}
    (h : bakeryProc s ticket ts = some (s', time)) :
    ∃ i, index ticket = some i ∧ s' = { s with numbers := Function.update s.numbers i 0 } := by
  simp only [bakeryProc, Option.bind_eq_bind, Option.bind_eq_some_iff] at h
  obtain ⟨i, hi, hEq⟩ := h
  cases hEq
  exact ⟨i, hi, rfl⟩

/-! ## Numbers and tickets -/

def Call.isGetNumber : Call → Bool
  | .getNumber _ => true
  | .bakeryProc _ _ => false

/-- How many numbers have been handed out. -/
def handedOut (calls : List Call) : Nat := calls.countP Call.isGetNumber

/-- What `get_number_1_svc` has returned for slot `i`. -/
def ticketFor (i : Slot) : Call × Int → Option Int
  | (.getNumber pid, ticket) => if index pid = some i then some ticket else none
  | (.bakeryProc _ _, _) => none

/-- What the latest `get_number_1_svc` for slot `i` has returned. -/
def latestTicket (calls : List Call) (replies : List Int) (i : Slot) : Option Int :=
  (calls.zip replies).reverse.findSome? (ticketFor i)

/-- The arguments that the clients may pass. -/
def Call.Valid : Call → Prop
  | .getNumber pid => 0 < pid
  | .bakeryProc ticket _ => 0 ≤ ticket

/-- A slot that is taken belongs to the latest ticket for it, and the numbers in the slots are in
the order of these tickets. -/
structure Inv (s : State) (calls : List Call) (replies : List Int) : Prop where
  length : calls.length = replies.length
  result : s.result = handedOut calls
  nonneg : ∀ i, 0 ≤ s.numbers i
  le : ∀ i, s.numbers i ≤ s.result
  ticket : ∀ i, s.numbers i ≠ 0 → ∃ t, latestTicket calls replies i = some t ∧ t ≤ s.result
  order : ∀ i j, s.numbers i ≠ 0 → s.numbers j ≠ 0 → i ≠ j → ∀ t u,
    latestTicket calls replies i = some t → latestTicket calls replies j = some u →
    (s.numbers i < s.numbers j ∧ t < u ∨ s.numbers j < s.numbers i ∧ u < t)

theorem inv_init : Inv init [] [] :=
  ⟨rfl, rfl, fun _ => Int.le_refl 0, fun _ => Int.le_refl 0, fun _ hne => absurd rfl hne,
    fun _ _ hne => absurd rfl hne⟩

theorem handedOut_snoc (calls : List Call) (c : Call) :
    handedOut (calls ++ [c]) = handedOut calls + if c.isGetNumber then 1 else 0 := by
  simp [handedOut, List.countP_append, List.countP_singleton]

theorem latestTicket_snoc {calls : List Call} {replies : List Int}
    (hLength : calls.length = replies.length) (c : Call) (reply : Int) (i : Slot) :
    latestTicket (calls ++ [c]) (replies ++ [reply]) i =
      (ticketFor i (c, reply)).or (latestTicket calls replies i) := by
  rw [latestTicket, List.zip_append hLength, List.reverse_append]
  simp only [latestTicket, List.zip_cons_cons, List.zip_nil_right, List.reverse_singleton,
    List.singleton_append, List.findSome?_cons]
  cases ticketFor i (c, reply) with
  | none => rfl
  | some t => rfl

variable {s s' : State} {calls : List Call} {replies : List Int}

/-- The new number is larger than all others, and so is the new ticket. -/
theorem Inv.getNumber (h : Inv s calls replies) {pid ticket : Int}
    (hCall : getNumber s pid = some (s', ticket)) :
    Inv s' (calls ++ [.getNumber pid]) (replies ++ [ticket]) := by
  obtain ⟨ind, hInd, hTicket, hResult, hNumbers⟩ := getNumber_eq_some hCall
  have hMax : maxNumber s.numbers ≤ s.result := maxNumber_le h.le
  have hMaxNonneg : 0 ≤ maxNumber s.numbers := (h.nonneg ind).trans (le_maxNumber _ ind)
  have hOwn : s'.numbers ind = maxNumber s.numbers + 1 := by
    rw [hNumbers, Function.update_self]
  have hOther (i : Slot) (hne : i ≠ ind) : s'.numbers i = s.numbers i := by
    rw [hNumbers, Function.update_of_ne hne]
  have hNew : latestTicket (calls ++ [.getNumber pid]) (replies ++ [ticket]) ind = some ticket := by
    rw [latestTicket_snoc h.length, ticketFor, if_pos hInd, Option.some_or]
  have hKept (i : Slot) (hne : i ≠ ind) :
      latestTicket (calls ++ [.getNumber pid]) (replies ++ [ticket]) i =
        latestTicket calls replies i := by
    have hNot : index pid ≠ some i := by
      rw [hInd]
      exact fun hEq => hne (Option.some.inj hEq).symm
    rw [latestTicket_snoc h.length, ticketFor, if_neg hNot, Option.none_or]
  -- A slot other than `ind` holds less than the new number and has an earlier ticket.
  have hEarlier (i : Slot) (hne : i ≠ ind) (hTaken : s'.numbers i ≠ 0) {t : Int}
      (ht : latestTicket (calls ++ [.getNumber pid]) (replies ++ [ticket]) i = some t) :
      s'.numbers i < s'.numbers ind ∧ t < ticket := by
    rw [hOther i hne] at hTaken ⊢
    rw [hKept i hne] at ht
    obtain ⟨t', ht', hLe⟩ := h.ticket i hTaken
    rw [ht] at ht'
    obtain rfl : t = t' := Option.some.inj ht'
    have hLeMax := le_maxNumber s.numbers i
    omega
  refine ⟨?_, ?_, fun i => ?_, fun i => ?_, fun i hTaken => ?_, ?_⟩
  · rw [List.length_append, List.length_append, h.length]
    rfl
  · rw [handedOut_snoc, hResult, hTicket, h.result]
    rfl
  · have hNonneg := h.nonneg i
    rcases eq_or_ne i ind with rfl | hne
    · omega
    · rwa [hOther i hne]
  · have hLe := h.le i
    rcases eq_or_ne i ind with rfl | hne
    · omega
    · rw [hOther i hne]
      omega
  · rcases eq_or_ne i ind with rfl | hne
    · exact ⟨ticket, hNew, hResult.ge⟩
    · rw [hOther i hne] at hTaken
      obtain ⟨t, ht, hLe⟩ := h.ticket i hTaken
      exact ⟨t, (hKept i hne).trans ht, by omega⟩
  · intro i j hi hj hne t u ht hu
    rcases eq_or_ne i ind with rfl | hi'
    · rw [hNew] at ht
      obtain rfl : ticket = t := Option.some.inj ht
      exact Or.inr (hEarlier j hne.symm hj hu)
    · rcases eq_or_ne j ind with rfl | hj'
      · rw [hNew] at hu
        obtain rfl : ticket = u := Option.some.inj hu
        exact Or.inl (hEarlier i hne hi ht)
      · rw [hOther i hi'] at hi ⊢
        rw [hOther j hj'] at hj ⊢
        exact h.order i j hi hj hne t u ((hKept i hi').symm.trans ht) ((hKept j hj').symm.trans hu)

theorem Inv.bakeryProc (h : Inv s calls replies) {ticket time : Int} {ts : Timespec}
    (hCall : bakeryProc s ticket ts = some (s', time)) :
    Inv s' (calls ++ [.bakeryProc ticket ts]) (replies ++ [time]) := by
  obtain ⟨i₀, -, rfl⟩ := bakeryProc_eq_some hCall
  have hKept (i : Slot) : latestTicket (calls ++ [.bakeryProc ticket ts]) (replies ++ [time]) i =
      latestTicket calls replies i := by
    rw [latestTicket_snoc h.length]
    rfl
  have hNumber (i : Slot) : Function.update s.numbers i₀ 0 i = 0 ∨
      Function.update s.numbers i₀ 0 i = s.numbers i := by
    rcases eq_or_ne i i₀ with rfl | hne
    · exact Or.inl (Function.update_self i _ _)
    · exact Or.inr (Function.update_of_ne hne _ _)
  have hTaken (i : Slot) (hi : Function.update s.numbers i₀ 0 i ≠ 0) :
      Function.update s.numbers i₀ 0 i = s.numbers i := (hNumber i).resolve_left hi
  refine ⟨?_, ?_, fun i => ?_, fun i => ?_, fun i hi => ?_, ?_⟩
  · rw [List.length_append, List.length_append, h.length]
    rfl
  · rw [handedOut_snoc, h.result]
    rfl
  · have hNonneg := h.nonneg i
    rcases hNumber i with hi | hi
    · exact hi.ge
    · exact hNonneg.trans hi.ge
  · have hLe := h.le i
    have hNonneg := h.nonneg i
    rcases hNumber i with hi | hi
    · dsimp only
      omega
    · exact hi.le.trans hLe
  · rw [hKept]
    exact h.ticket i (hTaken i hi ▸ hi)
  · intro i j hi hj hne t u ht hu
    rw [hKept] at ht hu
    dsimp only at hi hj ⊢
    have hI := hTaken i hi
    have hJ := hTaken j hj
    rw [hI] at hi ⊢
    rw [hJ] at hj ⊢
    exact h.order i j hi hj hne t u ht hu

theorem Inv.call (h : Inv s calls replies) {c : Call} {reply : Int}
    (hCall : call s c = some (s', reply)) : Inv s' (calls ++ [c]) (replies ++ [reply]) := by
  cases c with
  | getNumber pid => exact h.getNumber hCall
  | bakeryProc ticket ts => exact h.bakeryProc hCall

theorem serve_inv (h : serve calls = some (s, replies)) : Inv s calls replies :=
  execAll_invariant (fun _ _ _ _ _ _ hInv hCall => hInv.call hCall) inv_init h

theorem inc_of_lt {n : Int} (h : n < 2 ^ 31 - 1) : inc n = some (n + 1) := if_pos h

/-- As long as the tickets fit an `int`, every call is defined. -/
theorem Inv.defined (h : Inv s calls replies) {c : Call} (hValid : c.Valid)
    (hCount : handedOut (calls ++ [c]) < 2 ^ 31) :
    ∃ s' reply, PidSlots.call s c = some (s', reply) := by
  cases c with
  | getNumber pid =>
    have hPid : 0 < pid := hValid
    obtain ⟨n, rfl⟩ := Int.eq_ofNat_of_zero_le hPid.le
    rw [handedOut_snoc, Call.isGetNumber, if_pos rfl] at hCount
    have hResult := h.result
    have hMax : maxNumber s.numbers ≤ s.result := maxNumber_le h.le
    simp only [PidSlots.call, PidSlots.getNumber, Option.bind_eq_bind, index_natCast,
      Option.bind_some, inc_of_lt (show maxNumber s.numbers < 2 ^ 31 - 1 by omega),
      inc_of_lt (show s.result < 2 ^ 31 - 1 by omega)]
    exact ⟨_, _, rfl⟩
  | bakeryProc ticket ts =>
    obtain ⟨n, rfl⟩ := Int.eq_ofNat_of_zero_le (show 0 ≤ ticket from hValid)
    simp only [PidSlots.call, PidSlots.bakeryProc, Option.bind_eq_bind, index_natCast,
      Option.bind_some]
    exact ⟨_, _, rfl⟩

theorem serve_defined (hValid : ∀ c ∈ calls, c.Valid) (hCount : handedOut calls < 2 ^ 31) :
    ∃ s replies, serve calls = some (s, replies) := by
  induction calls using List.reverseRecOn with
  | nil => exact ⟨init, [], rfl⟩
  | append_singleton calls c ih =>
    have hLe : handedOut calls ≤ handedOut (calls ++ [c]) := by
      rw [handedOut_snoc]
      exact Nat.le_add_right _ _
    obtain ⟨s, replies, hServe⟩ :=
      ih (fun c hc => hValid c (List.mem_append_left _ hc)) (hLe.trans_lt hCount)
    have hLast : c.Valid := hValid c (List.mem_append_right _ (List.mem_singleton_self c))
    obtain ⟨s', reply, hCall⟩ := (serve_inv hServe).defined hLast hCount
    exact ⟨s', replies ++ [reply], execAll_snoc.mpr ⟨s, replies, reply, hServe, hCall, rfl⟩⟩

/-- The new number is larger than those in all other slots. -/
theorem largest_of_getNumber {pid ticket : Int} (hCall : getNumber s pid = some (s', ticket)) :
    ∃ ind, index pid = some ind ∧ ∀ i, i ≠ ind → s'.numbers i < s'.numbers ind := by
  obtain ⟨ind, hInd, -, -, hNumbers⟩ := getNumber_eq_some hCall
  refine ⟨ind, hInd, fun i hne => ?_⟩
  have hLe := le_maxNumber s.numbers i
  rw [hNumbers, Function.update_self, Function.update_of_ne hne]
  omega

/-- The numbers of the slots that are taken are distinct and in the order of the latest tickets
for these slots, and a number that is just stored is the largest. -/
theorem numbers_in_ticket_order (calls : List Call) (hValid : ∀ c ∈ calls, c.Valid)
    (hCount : handedOut calls < 2 ^ 31) :
    ∃ s replies, serve calls = some (s, replies) ∧
      (∀ i j, s.numbers i ≠ 0 → s.numbers i = s.numbers j → i = j) ∧
      (∀ before pid, calls = before ++ [.getNumber pid] →
        ∃ ind, index pid = some ind ∧ ∀ i, i ≠ ind → s.numbers i < s.numbers ind) ∧
      ∀ i j, s.numbers i ≠ 0 → s.numbers j ≠ 0 → ∃ t u, latestTicket calls replies i = some t ∧
        latestTicket calls replies j = some u ∧ (s.numbers i < s.numbers j ↔ t < u) := by
  obtain ⟨s, replies, hServe⟩ := serve_defined hValid hCount
  have hInv := serve_inv hServe
  refine ⟨s, replies, hServe, ?_, ?_, ?_⟩
  · intro i j hi hEq
    by_contra hne
    have hj : s.numbers j ≠ 0 := hEq ▸ hi
    obtain ⟨t, ht, -⟩ := hInv.ticket i hi
    obtain ⟨u, hu, -⟩ := hInv.ticket j hj
    rcases hInv.order i j hi hj hne t u ht hu with ⟨hLt, -⟩ | ⟨hLt, -⟩
    · omega
    · omega
  · rintro before pid rfl
    obtain ⟨s₁, first, reply, -, hCall, -⟩ := execAll_snoc.mp hServe
    exact largest_of_getNumber hCall
  · intro i j hi hj
    obtain ⟨t, ht, -⟩ := hInv.ticket i hi
    obtain ⟨u, hu, -⟩ := hInv.ticket j hj
    refine ⟨t, u, ht, hu, ?_⟩
    rcases eq_or_ne i j with rfl | hne
    · rw [ht] at hu
      obtain rfl : t = u := Option.some.inj hu
      exact iff_of_false (Int.lt_irrefl _) (Int.lt_irrefl _)
    · rcases hInv.order i j hi hj hne t u ht hu with ⟨hLt, hLt'⟩ | ⟨hLt, hLt'⟩
      · exact iff_of_true hLt hLt'
      · exact iff_of_false (by omega) (by omega)

/-- Two clients, the first of which is served before the second one comes. -/
def twoClients : List Call :=
  [.getNumber 5, .bakeryProc 5 ⟨0, 0⟩, .getNumber 10006, .getNumber 5]

theorem numbers_in_ticket_order_two : ∃ s replies, serve twoClients = some (s, replies) ∧
    (∀ i j, s.numbers i ≠ 0 → s.numbers i = s.numbers j → i = j) := by
  have hValid : ∀ c ∈ twoClients, c.Valid := by
    simp [twoClients, Call.Valid]
  obtain ⟨s, replies, hServe, hDistinct, -⟩ :=
    numbers_in_ticket_order twoClients hValid (by decide)
  exact ⟨s, replies, hServe, hDistinct⟩

/-! ## The slot that is freed -/

/-- Slot `ind` is free afterwards, and nothing else has changed in `numbers`. -/
def FreesOnly (ind : Slot) (s s' : State) : Prop :=
  s'.numbers ind = 0 ∧ ∀ i, i ≠ ind → s'.numbers i = s.numbers i

theorem freesOnly_update_iff {ind i : Slot} :
    FreesOnly ind s { s with numbers := Function.update s.numbers i 0 } ↔
      i = ind ∨ s.numbers ind = 0 ∧ s.numbers i = 0 := by
  unfold FreesOnly
  dsimp only
  rcases eq_or_ne i ind with rfl | hne
  · refine iff_of_true ⟨Function.update_self i _ _, fun j hj => ?_⟩ (Or.inl rfl)
    exact Function.update_of_ne hj _ _
  · rw [Function.update_of_ne hne.symm]
    constructor
    · rintro ⟨hInd, hOthers⟩
      have hi := hOthers i hne
      rw [Function.update_self] at hi
      exact Or.inr ⟨hInd, hi.symm⟩
    · rintro (rfl | ⟨hInd, hi⟩)
      · exact absurd rfl hne
      · refine ⟨hInd, fun j _ => ?_⟩
        rcases eq_or_ne j i with rfl | hj
        · rw [Function.update_self, hi]
        · rw [Function.update_of_ne hj]

/-- The ticket is the number of `GET_NUMBER` calls so far. -/
theorem ticket_eq {before between : List Call} {pid ticket : Int}
    (hServe : serve (before ++ .getNumber pid :: between) = some (s, replies))
    (hTicket : replies[before.length]? = some ticket) :
    (∃ ind, index pid = some ind) ∧ ticket = ((handedOut before + 1 : Nat) : Int) := by
  obtain ⟨s₀, first, more, hBefore, hMore, rfl⟩ := execAll_append_eq_some.mp hServe
  obtain ⟨s₁, reply, rest, hGet, -, rfl⟩ := execAll_cons_eq_some.mp hMore
  have hInv := serve_inv hBefore
  obtain ⟨ind, hInd, hReply, -⟩ := getNumber_eq_some hGet
  refine ⟨⟨ind, hInd⟩, ?_⟩
  rw [hInv.length, List.getElem?_append_right (Nat.le_refl _), Nat.sub_self,
    List.getElem?_cons_zero] at hTicket
  rw [← Option.some.inj hTicket, hReply, hInv.result]
  rfl

/-- A client calls `GET_NUMBER` after the calls `before` and `BAKERY_PROC` with its ticket after
the calls `between`. This frees its own slot and no other if and only if the ticket falls into
the slot of the process id, or if both slots are free already. -/
theorem bakeryProc_freesOnly_iff {before between : List Call} {pid ticket time : Int}
    {ts : Timespec} (hServe : serve (before ++ .getNumber pid :: between) = some (s, replies))
    (hTicket : replies[before.length]? = some ticket)
    (hProc : bakeryProc s ticket ts = some (s', time)) :
    ∃ ind, index pid = some ind ∧
      (FreesOnly ind s s' ↔
        slot (handedOut before + 1) = ind ∨
          s.numbers ind = 0 ∧ s.numbers (slot (handedOut before + 1)) = 0) := by
  obtain ⟨⟨ind, hInd⟩, rfl⟩ := ticket_eq hServe hTicket
  obtain ⟨i, hi, rfl⟩ := bakeryProc_eq_some hProc
  rw [index_natCast] at hi
  obtain rfl : slot (handedOut before + 1) = i := Option.some.inj hi
  exact ⟨ind, hInd, freesOnly_update_iff⟩

theorem maxNumber_init : maxNumber init.numbers = 0 :=
  Int.le_antisymm (maxNumber_le fun _ => Int.le_refl 0) (le_maxNumber init.numbers (slot 0))

/-- The first call of a client. -/
theorem serve_getNumber (n : Nat) :
    serve [.getNumber n] =
      some (⟨Function.update (Function.update init.choosing (slot n) 1) (slot n) 0,
        Function.update init.numbers (slot n) 1, Function.update init.pids (slot n) n, 1⟩,
        [1]) := by
  simp only [serve, execAll, call, getNumber, index_natCast, maxNumber_init, Option.bind_eq_bind,
    Option.bind_some]
  rfl

/-- The client with the process id 1 gets the ticket 1. -/
theorem bakeryProc_freesOnly_one :
    ∃ s s', serve [.getNumber 1] = some (s, [1]) ∧ bakeryProc s 1 ⟨0, 0⟩ = some (s', 0) ∧
      FreesOnly (slot 1) s s' := by
  have hServe : serve ([] ++ .getNumber 1 :: []) = some (_, [1]) := serve_getNumber 1
  refine ⟨_, _, hServe, rfl, ?_⟩
  obtain ⟨ind, hInd, hIff⟩ := bakeryProc_freesOnly_iff hServe rfl
    (show bakeryProc _ 1 ⟨0, 0⟩ = some (_, 0) from rfl)
  obtain rfl : slot 1 = ind := Option.some.inj ((index_natCast 1).symm.trans hInd)
  exact hIff.mpr (Or.inl rfl)

/-- The client with the process id 5 gets the ticket 1, too, and slot 5 stays taken. -/
theorem not_freesOnly_five :
    ∃ s s', serve [.getNumber 5] = some (s, [1]) ∧ bakeryProc s 1 ⟨0, 0⟩ = some (s', 0) ∧
      s.numbers (slot 5) = 1 ∧ s'.numbers (slot 5) = 1 ∧ ¬ FreesOnly (slot 5) s s' := by
  refine ⟨_, _, serve_getNumber 5, rfl, rfl, rfl, ?_⟩
  rintro ⟨hFree, -⟩
  revert hFree
  decide

end OsLabs.Rpc.PidSlots
