import Mathlib.Algebra.Ring.Int.Defs
import Mathlib.Order.Monotone.Basic
import OsLabs.Memory.CString
import OsLabs.Proc.Pagemap

/-!
# Entries from partial reads (`lab_proc/main.c`, `pagemap_get_entry`)

`pread` may give fewer bytes than it is asked for, so the eight bytes of `data` are read in a loop.
`nread` is unsigned and is increased before the result is tested: after an error it is not used
any more.

Here the variables are as they are in the source, and the file and the sizes of the partial reads
stand apart. In `Pagemap` the loop is over the bytes themselves.
-/

namespace OsLabs.Proc.PartialReads

open Memory

/-- What a call of `pread` returns, with the bytes that it stores. `size` is the result if the
file has as many bytes there. -/
def pread (content : List UInt8) (size : Int) (count offset : Nat) : Int × List UInt8 :=
  if size ≤ 0 then (size, [])
  else
    let bytes := ((content.drop offset).take count).take size.toNat
    (bytes.length, bytes)

/-- The variables `data` and `nread`, and the results of the calls so far. -/
structure Reading where
  data : List UInt8
  nread : Nat
  rets : List Int
deriving DecidableEq

/-- The next call. -/
def Reading.call (content : List UInt8) (sizes : Nat → Int) (offset : Nat) (s : Reading) :
    Int × List UInt8 :=
  pread content (sizes s.rets.length) (8 - s.nread) (offset + s.nread)

/-- `nread += ret` -/
def Reading.after (s : Reading) (ret : Int) (data : List UInt8) : Reading :=
  ⟨data, ((s.nread + ret) % 2 ^ 64).toNat, s.rets ++ [ret]⟩

/-- The loop, at most so many times, and whether it comes to its end. -/
def readLoop (content : List UInt8) (sizes : Nat → Int) (offset : Nat) :
    Nat → Reading → Option (Bool × Reading)
  | 0, _ => none
  | fuel + 1, s =>
    if s.nread < 8 then do
      let (ret, bytes) := s.call content sizes offset
      let data ← store s.data s.nread bytes
      if ret ≤ 0 then some (false, s.after ret data)
      else readLoop content sizes offset fuel (s.after ret data)
    else some (true, s)

/-- The value that is returned, `*entry` and the results of the calls of `pread`. -/
structure Result where
  code : Int
  entry : PagemapEntry
  rets : List Int
deriving DecidableEq

/-- The assignments to the bit fields. -/
def decode (data : Nat) : PagemapEntry where
  pfn := data &&& ((1 <<< 55) - 1)
  softDirty := (data >>> 55) &&& 1
  filePage := (data >>> 61) &&& 1
  swapped := (data >>> 62) &&& 1
  present := (data >>> 63) &&& 1

/-- `garbage` is what `data` is at first. -/
def pagemapGetEntry (fuel : Nat) (content : List UInt8) (sizes : Nat → Int) (page : Nat)
    (garbage : List UInt8) (entry : PagemapEntry) (vaddr : Nat) : Option Result := do
  let (done, s) ← readLoop content sizes (vaddr / page * 8) fuel ⟨garbage, 0, []⟩
  if done then some ⟨0, decode (uint64 s.data), s.rets⟩ else some ⟨1, entry, s.rets⟩

/-! ## One call of `pread` -/

variable {content : List UInt8} {sizes : Nat → Int} {offset : Nat}

/-- A call that returns a positive number stores the bytes that stand there. -/
theorem pread_pos {size : Int} {count off : Nat} (h : 0 < (pread content size count off).1) :
    (pread content size count off).1 = (pread content size count off).2.length ∧
      (pread content size count off).2.length ≤ count ∧
      (pread content size count off).2 =
        (content.drop off).take (pread content size count off).2.length := by
  unfold pread at h ⊢
  split at h
  · next hSize => omega
  · next hSize =>
    rw [if_neg hSize]
    refine ⟨rfl, ?_, ?_⟩
    · rw [List.length_take, List.length_take]
      omega
    · dsimp only
      rw [List.take_take, List.length_take, List.take_eq_take_iff]
      omega

/-- A call that fails stores nothing. -/
theorem pread_nonpos {size : Int} {count off : Nat} (h : (pread content size count off).1 ≤ 0) :
    (pread content size count off).2 = [] := by
  unfold pread at h ⊢
  split at h
  · next hSize => rw [if_pos hSize]
  · next hSize =>
    rw [if_neg hSize]
    dsimp only at h ⊢
    exact List.eq_nil_of_length_eq_zero (by omega)

/-! ## The calls that the file and the sizes make for -/

/-- How many bytes of a word `k` calls bring, each of which asks for those that are missing. -/
def received (content : List UInt8) (sizes : Nat → Int) (offset : Nat) : Nat → Nat
  | 0 => 0
  | k + 1 =>
    let n := received content sizes offset k
    n + (pread content (sizes k) (8 - n) (offset + n)).2.length

/-- What call number `k` returns. -/
def answer (content : List UInt8) (sizes : Nat → Int) (offset k : Nat) : Int :=
  let n := received content sizes offset k
  (pread content (sizes k) (8 - n) (offset + n)).1

theorem received_mono : Monotone (received content sizes offset) :=
  monotone_nat_of_le_succ fun _ => Nat.le_add_right _ _

/-! ## The loop -/

/-- What has been read stands at the beginning of `data`. -/
structure Filled (content : List UInt8) (sizes : Nat → Int) (offset : Nat) (s : Reading) :
    Prop where
  nread : s.nread ≤ 8
  length : s.data.length = 8
  bytes : s.data.take s.nread = (content.drop offset).take s.nread
  received : received content sizes offset s.rets.length = s.nread
  rets : s.rets = (List.range s.rets.length).map (answer content sizes offset)
  pos : ∀ k < s.rets.length, 0 < answer content sizes offset k

theorem filled_start (garbage : { data : List UInt8 // data.length = 8 }) :
    Filled content sizes offset ⟨garbage, 0, []⟩ :=
  ⟨Nat.zero_le 8, garbage.property, by rw [List.take_zero, List.take_zero], rfl, rfl, nofun⟩

theorem Filled.call_eq {s : Reading} (h : Filled content sizes offset s) :
    (s.call content sizes offset).1 = answer content sizes offset s.rets.length := by
  rw [answer, h.received]
  rfl

theorem Filled.rets_snoc {s : Reading} (h : Filled content sizes offset s) :
    s.rets ++ [(s.call content sizes offset).1] =
      (List.range (s.rets.length + 1)).map (answer content sizes offset) := by
  rw [List.range_succ, List.map_append, ← h.rets, h.call_eq]
  rfl

/-- There is room for what a call stores. -/
theorem Filled.store {s : Reading} (h : Filled content sizes offset s) (bytes : List UInt8)
    (hCount : bytes.length ≤ 8 - s.nread) :
    ∃ data, Memory.store s.data s.nread bytes = some data ∧
      data.take (s.nread + bytes.length) = s.data.take s.nread ++ bytes ∧ data.length = 8 := by
  have hRead := h.nread
  have hFits : Memory.store s.data s.nread bytes ≠ none := by
    rw [Ne, store_eq_none, h.length]
    omega
  obtain ⟨data, hStore⟩ := Option.ne_none_iff_exists'.mp hFits
  obtain ⟨hTake, hLength⟩ := store_take hStore
  exact ⟨data, hStore, hTake, hLength.trans h.length⟩

/-- The call, if it does not fail. -/
theorem call_pos {s : Reading} (hPos : 0 < (s.call content sizes offset).1) (data : List UInt8)
    (hRead : s.nread ≤ 8) :
    (s.after (s.call content sizes offset).1 data).nread =
        s.nread + (s.call content sizes offset).2.length ∧
      (s.call content sizes offset).2 ≠ [] ∧
      (s.call content sizes offset).2.length ≤ 8 - s.nread := by
  obtain ⟨hRet, hCount, -⟩ := pread_pos hPos
  change (s.call content sizes offset).1 = (s.call content sizes offset).2.length at hRet
  change (s.call content sizes offset).2.length ≤ 8 - s.nread at hCount
  refine ⟨?_, ?_, hCount⟩
  · show ((s.nread + (s.call content sizes offset).1) % 2 ^ 64).toNat = _
    omega
  · intro hNil
    rw [hNil, List.length_nil] at hRet
    omega

/-- One more partial read. -/
theorem Filled.next {s : Reading} (h : Filled content sizes offset s)
    (hPos : 0 < (s.call content sizes offset).1) :
    ∃ data, Memory.store s.data s.nread (s.call content sizes offset).2 = some data ∧
      Filled content sizes offset (s.after (s.call content sizes offset).1 data) ∧
      data.take (s.after (s.call content sizes offset).1 data).nread =
        s.data.take s.nread ++ (s.call content sizes offset).2 := by
  obtain ⟨-, -, hCount⟩ := call_pos hPos [] h.nread
  obtain ⟨data, hStore, hTake, hLength⟩ := h.store _ hCount
  obtain ⟨hNext, -, -⟩ := call_pos hPos data h.nread
  have hRead := h.nread
  refine ⟨data, hStore, ⟨by omega, hLength, ?_, ?_, ?_, ?_⟩, ?_⟩
  · rw [hNext]
    refine hTake.trans ?_
    rw [h.bytes, List.take_add, List.drop_drop]
    exact congrArg _ (pread_pos hPos).2.2
  · rw [hNext, Reading.after, List.length_append, List.length_singleton, PartialReads.received,
      h.received]
    rfl
  · rw [Reading.after, List.length_append, List.length_singleton]
    exact h.rets_snoc
  · intro k hk
    rw [Reading.after, List.length_append, List.length_singleton] at hk
    rcases Nat.lt_succ_iff_lt_or_eq.mp hk with hOld | rfl
    · exact h.pos k hOld
    · rwa [← h.call_eq]
  · rw [hNext, hTake]

/-- How the loop ends. -/
def Ended (content : List UInt8) (sizes : Nat → Int) (offset : Nat) (done : Bool) (s : Reading) :
    Prop :=
  done = true ∧ Filled content sizes offset s ∧ s.nread = 8 ∨
    done = false ∧ ∃ k, s.rets = (List.range (k + 1)).map (answer content sizes offset) ∧
      received content sizes offset k < 8 ∧ answer content sizes offset k ≤ 0

/-- Every call that does not fail reads at least one byte. -/
theorem readLoop_ends {s : Reading} (h : Filled content sizes offset s) :
    ∃ done s', (∀ fuel, 8 - s.nread < fuel →
      readLoop content sizes offset fuel s = some (done, s')) ∧
        Ended content sizes offset done s' := by
  induction hLeft : 8 - s.nread using Nat.strongRecOn generalizing s with
  | ind n ih =>
    by_cases hLess : s.nread < 8
    · by_cases hPos : 0 < (s.call content sizes offset).1
      · obtain ⟨data, hStore, hFilled, -⟩ := h.next hPos
        obtain ⟨hNext, hne, -⟩ := call_pos hPos data h.nread
        have hMore := List.length_pos_of_ne_nil hne
        obtain ⟨done, s', hLoop, hEnd⟩ := ih _ (by omega) hFilled rfl
        refine ⟨done, s', fun fuel hFuel => ?_, hEnd⟩
        obtain ⟨fuel, rfl⟩ := Nat.exists_eq_add_of_lt hFuel
        rw [readLoop, if_pos hLess]
        simp only [hStore, Option.bind_eq_bind, Option.bind_some]
        rw [if_neg (Int.not_le.mpr hPos)]
        exact hLoop _ (by omega)
      · have hFailed := Int.not_lt.mp hPos
        have hNone : (s.call content sizes offset).2 = [] := pread_nonpos hFailed
        obtain ⟨data, hStore, -⟩ := h.store [] (Nat.zero_le _)
        refine ⟨false, s.after (s.call content sizes offset).1 data, fun fuel hFuel => ?_,
          Or.inr ⟨rfl, s.rets.length, h.rets_snoc, h.received.trans_lt hLess, ?_⟩⟩
        on_goal 2 => rwa [← h.call_eq]
        obtain ⟨fuel, rfl⟩ := Nat.exists_eq_add_of_lt hFuel
        rw [readLoop, if_pos hLess]
        simp only [hNone, hStore, Option.bind_eq_bind, Option.bind_some]
        rw [if_pos hFailed]
    · have hAll : s.nread = 8 := Nat.le_antisymm h.nread (Nat.not_lt.mp hLess)
      refine ⟨true, s, fun fuel hFuel => ?_, Or.inl ⟨rfl, h, hAll⟩⟩
      obtain ⟨fuel, rfl⟩ := Nat.exists_eq_add_of_lt hFuel
      rw [readLoop, if_neg hLess]

/-! ## The entry -/

/-- The word number `i` of the file. -/
def word (content : List UInt8) (i : Nat) : Nat := uint64 ((content.drop (i * 8)).take 8)

/-- So many bits of a word from position `lo` on. -/
def bits (lo count word : Nat) : Nat := word / 2 ^ lo % 2 ^ count

theorem decode_eq (word : Nat) :
    decode word = ⟨bits 0 55 word, bits 55 1 word, bits 61 1 word, bits 62 1 word,
      bits 63 1 word⟩ := by
  have hOne (n : Nat) : n &&& 1 = n % 2 ^ 1 := Nat.and_one_is_mod n
  have hMask : word &&& ((1 <<< 55) - 1) = word % 2 ^ 55 := by
    rw [Nat.one_shiftLeft, Nat.and_two_pow_sub_one_eq_mod]
  simp only [decode, bits, hMask, hOne, Nat.shiftRight_eq_div_pow, Nat.pow_zero, Nat.div_one]

theorem Filled.data_eq {s : Reading} (h : Filled content sizes offset s) (hAll : s.nread = 8) :
    s.data = (content.drop offset).take 8 := by
  have hBytes := h.bytes
  rwa [hAll, List.take_of_length_le h.length.le] at hBytes

/-- All eight bytes are in the file. -/
theorem Filled.in_file {s : Reading} (h : Filled content sizes offset s) (hAll : s.nread = 8) :
    offset + 8 ≤ content.length := by
  have hLength := h.length
  rw [h.data_eq hAll, List.length_take, List.length_drop] at hLength
  omega

/-- The loop ends after at most eight calls of `pread`. If every call that is made before eight
bytes have come returns a positive number, the entry is that of the word of the page, which is in
the file, else it is as before. -/
theorem pagemapGetEntry_decodes (content : List UInt8) (sizes : Nat → Int) (page vaddr : Nat)
    (garbage : { data : List UInt8 // data.length = 8 }) (entry : PagemapEntry) :
    let result := answer content sizes (vaddr / page * 8)
    let missing := fun k => received content sizes (vaddr / page * 8) k < 8
    ∃ r, (∀ fuel, 8 < fuel →
        pagemapGetEntry fuel content sizes page garbage entry vaddr = some r) ∧
      r.rets = (List.range r.rets.length).map result ∧
      ((∀ k, missing k → 0 < result k) → r.code = 0 ∧
        vaddr / page * 8 + 8 ≤ content.length ∧
        r.entry =
          { pfn := bits 0 55 (word content (vaddr / page))
            softDirty := bits 55 1 (word content (vaddr / page))
            filePage := bits 61 1 (word content (vaddr / page))
            swapped := bits 62 1 (word content (vaddr / page))
            present := bits 63 1 (word content (vaddr / page)) }) ∧
      ((∃ k, missing k ∧ result k ≤ 0) → r.code = 1 ∧ r.entry = entry) := by
  intro result missing
  have hStart : Filled content sizes (vaddr / page * 8) ⟨garbage, 0, []⟩ := filled_start _
  obtain ⟨done, s, hLoop, ⟨rfl, hFilled, hAll⟩ | ⟨rfl, k, hRets, hMissing, hFailed⟩⟩ :=
    readLoop_ends hStart
  · refine ⟨⟨0, decode (uint64 s.data), s.rets⟩, fun fuel hFuel => ?_, hFilled.rets,
      fun _ => ⟨rfl, hFilled.in_file hAll, ?_⟩, ?_⟩
    · rw [pagemapGetEntry, hLoop fuel hFuel]
      rfl
    · rw [← decode_eq, word, ← hFilled.data_eq hAll]
    · rintro ⟨k, hMissing, hFailed⟩
      rcases Nat.lt_or_ge k s.rets.length with hMade | hLater
      · exact absurd (hFilled.pos k hMade) (Int.not_lt.mpr hFailed)
      · have hMore : received content sizes (vaddr / page * 8) s.rets.length ≤
            received content sizes (vaddr / page * 8) k := received_mono hLater
        rw [hFilled.received, hAll] at hMore
        exact absurd hMissing (Nat.not_lt.mpr hMore)
  · refine ⟨⟨1, entry, s.rets⟩, fun fuel hFuel => ?_, ?_, fun hPos => ?_, fun _ => ⟨rfl, rfl⟩⟩
    · rw [pagemapGetEntry, hLoop fuel hFuel]
      rfl
    · rw [hRets, List.length_map, List.length_range]
    · exact absurd (hPos k hMissing) (Int.not_lt.mpr hFailed)

def twoWords : List UInt8 := List.replicate 8 0 ++ [7, 1, 0, 0, 0, 0, 128, 160]

/-- Three bytes, two, and then all that are asked for. -/
def inThree (k : Nat) : Int := [3, 2].getD k 100

theorem pagemapGetEntry_decodes_inThree :
    ∃ r, pagemapGetEntry 9 twoWords inThree 4096 (List.replicate 8 9) ⟨0, 0, 0, 0, 0⟩ 5000 =
        some r ∧
      r.code = 0 ∧ r.entry = ⟨263, 1, 1, 0, 1⟩ ∧ answer twoWords inThree 8 0 = 3 ∧
      answer twoWords inThree 8 1 = 2 ∧ answer twoWords inThree 8 2 = 3 := by
  obtain ⟨r, hFuel, -, hDecodes, -⟩ := pagemapGetEntry_decodes twoWords inThree 4096 5000
    ⟨List.replicate 8 9, rfl⟩ ⟨0, 0, 0, 0, 0⟩
  obtain ⟨hCode, -, hEntry⟩ := hDecodes fun k hMissing => by
    match k, hMissing with
    | 0, _ | 1, _ | 2, _ => decide
    | k + 3, hMissing =>
      have hAll : received twoWords inThree 8 3 = 8 := by decide
      have hMore : received twoWords inThree 8 3 ≤ received twoWords inThree 8 (k + 3) :=
        received_mono (Nat.le_add_left 3 k)
      rw [hAll] at hMore
      exact absurd hMissing (Nat.not_lt.mpr hMore)
  exact ⟨r, hFuel 9 (by decide), hCode, hEntry.trans (by decide), by decide, by decide, by decide⟩

/-! ## The loop over the bytes -/

/-- `pread` as it is in `Pagemap`. -/
def preadBytes (content : List UInt8) (sizes : Nat → Int) : Pread :=
  fun calls count offset => (pread content (sizes calls) count offset).2

theorem preadBytes_take (s : Reading) :
    (preadBytes content sizes s.rets.length (8 - s.nread) (offset + s.nread)).take
      (8 - s.nread) = (s.call content sizes offset).2 := by
  apply List.take_of_length_le
  by_cases hPos : 0 < (s.call content sizes offset).1
  · exact (pread_pos hPos).2.1
  · have hNone : (s.call content sizes offset).2 = [] := pread_nonpos (Int.not_lt.mp hPos)
    show (s.call content sizes offset).2.length ≤ _
    rw [hNone]
    exact Nat.zero_le _

/-- Both loops make the same calls. -/
theorem readData_eq {fuel : Nat} {s s' : Reading} {done : Bool}
    (h : Filled content sizes offset s)
    (hLoop : readLoop content sizes offset fuel s = some (done, s')) :
    readData (preadBytes content sizes) offset s.rets.length (s.data.take s.nread) =
      (if done then some s'.data else none, s'.rets.length) := by
  induction fuel generalizing s with
  | zero => cases hLoop
  | succ fuel ih =>
    have hRead := h.nread
    have hLength : (s.data.take s.nread).length = s.nread := by
      rw [List.length_take, h.length]
      omega
    rw [readLoop] at hLoop
    rw [readData]
    split at hLoop
    · next hLess =>
      rw [dif_pos (hLength.trans_lt hLess)]
      simp only [hLength, preadBytes_take]
      by_cases hPos : 0 < (s.call content sizes offset).1
      · obtain ⟨data, hStore, hFilled, hTake⟩ := h.next hPos
        obtain ⟨-, hne, -⟩ := call_pos hPos data h.nread
        simp only [hStore, Option.bind_eq_bind, Option.bind_some,
          if_neg (Int.not_le.mpr hPos)] at hLoop
        have hRest := ih hFilled hLoop
        rw [dif_neg hne, ← hTake, ← hRest, Reading.after, List.length_append]
        rfl
      · have hFailed := Int.not_lt.mp hPos
        have hNone : (s.call content sizes offset).2 = [] := pread_nonpos hFailed
        obtain ⟨data, hStore, -⟩ := h.store [] (Nat.zero_le _)
        simp only [hNone, hStore, Option.bind_eq_bind, Option.bind_some, if_pos hFailed,
          Option.some.injEq, Prod.mk.injEq] at hLoop
        obtain ⟨rfl, rfl⟩ := hLoop
        rw [dif_pos hNone, Reading.after, List.length_append]
        rfl
    · next hAll =>
      cases hLoop
      rw [dif_neg (by omega), List.take_of_length_le (by rw [h.length]; omega)]
      rfl

theorem decode_eq_entryOf (data : Nat) : decode data = entryOf data := by
  rw [decode_eq]
  simp only [bits, entryOf, Nat.pow_zero, Nat.div_one, Nat.pow_one]

/-- The function of `Pagemap` is this one. -/
theorem pagemapGetEntry_eq {fuel page vaddr : Nat} {entry : PagemapEntry}
    {garbage : { data : List UInt8 // data.length = 8 }} {r : Result}
    (h : pagemapGetEntry fuel content sizes page garbage entry vaddr = some r) :
    Proc.pagemapGetEntry page (preadBytes content sizes) 0 vaddr =
      (if r.code = 0 then some r.entry else none, r.rets.length) := by
  have hStart : Filled content sizes (vaddr / page * 8) ⟨garbage, 0, []⟩ := filled_start _
  obtain ⟨⟨done, s⟩, hLoop, hResult⟩ := Option.bind_eq_some_iff.mp h
  have hRead := readData_eq hStart hLoop
  rw [List.take_zero] at hRead
  simp only [Proc.pagemapGetEntry, List.length_nil] at hRead ⊢
  rw [hRead]
  cases done with
  | true =>
    cases hResult
    rw [if_pos rfl, if_pos rfl, decode_eq_entryOf]
    rfl
  | false =>
    cases hResult
    rfl

end OsLabs.Proc.PartialReads
