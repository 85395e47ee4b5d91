import Mathlib.Data.List.Induction
import OsLabs.Fortune.Jar

/-!
# Where `fortuneWrite` stores its bytes

The test against the room left in the pot is off by one: a cookie that is one byte too long
passes it, and its last byte goes behind the pot. And the zero byte that closes a cookie is
stored one place before the end of it, which is before the pot when nothing has been
written yet and nothing is written now. All other calls stay inside the pot, and they are
refused exactly when the cookie does not fit.
-/

namespace OsLabs.Fortune

open Memory Runs

variable {size : Nat}

/-- The positions in `cookiePot` that a call of `fortuneWrite` stores to: those of the
copy, whatever part of it succeeds, and that of the zero byte. -/
def stores (size : Nat) (s : State) (buf : List UInt8) (left : Nat) : List Int :=
  if (buf.length : Int) > COOKIE_POT_SIZE size - s.writeInd + 1 then []
  else
    (List.range buf.length).map (fun i => Int.ofNat (s.writeInd + i)) ++
      if left ≠ 0 then [] else [(s.writeInd : Int) + buf.length - 1]

/-- A call that stores inside the pot, and is refused exactly when there is no room. -/
structure Contained (size : Nat) (s : State) (buf : List UInt8) (left : Nat) : Prop where
  inside : ∀ p ∈ stores size s buf left, 0 ≤ p ∧ p < COOKIE_POT_SIZE size
  refused : (∃ s', fortuneWrite size s buf left = some (s', .error .ENOSPC)) ↔
    ¬ buf.length ≤ COOKIE_POT_SIZE size - s.writeInd

/-- The cookie is not just one byte too long, and not an empty one for an empty pot. -/
def Fitting (size : Nat) (s : State) (buf : List UInt8) (left : Nat) : Prop :=
  buf.length ≠ COOKIE_POT_SIZE size - s.writeInd + 1 ∧
    ¬ (buf.length = 0 ∧ s.writeInd = 0 ∧ left = 0)

/-- Throughout a sequence of calls `writeInd` and all stores are inside the pot. -/
def StaysInside (size : Nat) (calls : List Call) : Prop :=
  ∀ before after, calls = before ++ after →
    ∃ s replies, exec size (loaded size) before = some (s, replies) ∧
      s.writeInd ≤ COOKIE_POT_SIZE size ∧
      ∀ buf left rest, after = .write buf left :: rest → Contained size s buf left

/-- Every write finds a state in which it fits. -/
def AllFitting (size : Nat) (calls : List Call) : Prop :=
  ∀ before buf left after, calls = before ++ .write buf left :: after →
    ∀ s replies, exec size (loaded size) before = some (s, replies) → Fitting size s buf left

theorem Represents.writeInd_le {s : State} {j : Jar size} (h : Represents s j) :
    s.writeInd ≤ size := by
  rw [h.writeInd]
  exact j.fits

theorem fitting_of_inside {s : State} {j : Jar size} (h : Represents s j) {buf : List UInt8}
    {left : Nat} (hInside : ∀ p ∈ stores size s buf left, 0 ≤ p ∧ p < COOKIE_POT_SIZE size) :
    Fitting size s buf left := by
  have hRoom := h.writeInd_le
  dsimp only [stores, COOKIE_POT_SIZE] at hInside
  constructor
  · intro hLong
    dsimp only [COOKIE_POT_SIZE] at hLong
    rw [if_neg (by omega)] at hInside
    have hLast : Int.ofNat (s.writeInd + (buf.length - 1)) ∈
        (List.range buf.length).map fun i => Int.ofNat (s.writeInd + i) :=
      List.mem_map.mpr ⟨buf.length - 1, List.mem_range.mpr (by omega), rfl⟩
    have hEnd := (hInside _ (List.mem_append_left _ hLast)).2
    rw [Int.ofNat_eq_natCast] at hEnd
    omega
  · rintro ⟨hEmpty, hNothing, rfl⟩
    rw [if_neg (by omega), if_neg (by simp)] at hInside
    have hZero := hInside (s.writeInd + buf.length - 1) (List.mem_append_right _ (by simp))
    omega

theorem inside_of_fitting {s : State} {j : Jar size} (h : Represents s j) {buf : List UInt8}
    {left : Nat} (hFit : Fitting size s buf left) :
    ∀ p ∈ stores size s buf left, 0 ≤ p ∧ p < COOKIE_POT_SIZE size := by
  have hRoom := h.writeInd_le
  obtain ⟨hLong, hEmpty⟩ := hFit
  dsimp only [stores, COOKIE_POT_SIZE] at hLong ⊢
  intro p hp
  split at hp
  · cases hp
  · rcases List.mem_append.mp hp with hCopy | hClose
    · obtain ⟨i, hi, rfl⟩ := List.mem_map.mp hCopy
      rw [List.mem_range] at hi
      rw [Int.ofNat_eq_natCast]
      omega
    · split at hClose
      · cases hClose
      · next hWhole =>
        rw [List.mem_singleton] at hClose
        omega

/-- A call that fits is defined, and the one that is refused is the one without room. -/
theorem fortuneWrite_of_fitting {s : State} {j : Jar size} (h : Represents s j)
    {buf : List UInt8} {left : Nat} (hFit : Fitting size s buf left) :
    ∃ s' ret, fortuneWrite size s buf left = some (s', ret) ∧
      (ret = .error .ENOSPC ↔ ¬ buf.length ≤ COOKIE_POT_SIZE size - s.writeInd) := by
  have hRoom := h.writeInd_le
  obtain ⟨hLong, hEmpty⟩ := hFit
  have hAgree := fortuneWrite_simulates h buf left
  have hCount : (j.used ++ buf).length = s.writeInd + buf.length := by
    rw [List.length_append, h.writeInd]
  have hUsed := h.writeInd
  dsimp only [COOKIE_POT_SIZE] at hLong ⊢
  unfold Jar.write at hAgree
  generalize fortuneWrite size s buf left = x at *
  split at hAgree
  · cases hAgree with
    | some hBoth => exact ⟨_, _, rfl, by rw [hBoth.2]; simp only [true_iff]; omega⟩
  · split at hAgree
    · split at hAgree
      · cases hAgree with
        | some hBoth => exact ⟨_, _, rfl, by rw [hBoth.2]; simp; omega⟩
      · split at hAgree
        · next hNone =>
          rw [hNone, List.length_nil] at hCount
          omega
        · cases hAgree with
          | some hBoth => exact ⟨_, _, rfl, by rw [hBoth.2]; simp; omega⟩
    · omega

theorem contained_iff {s : State} {j : Jar size} (h : Represents s j) (buf : List UInt8)
    (left : Nat) : Contained size s buf left ↔ Fitting size s buf left := by
  constructor
  · intro hContained
    exact fitting_of_inside h hContained.inside
  · intro hFit
    refine ⟨inside_of_fitting h hFit, ?_⟩
    obtain ⟨s', ret, hWrite, hRefused⟩ := fortuneWrite_of_fitting h hFit
    rw [← hRefused, hWrite]
    simp

theorem call_defined {s : State} {j : Jar size} (h : Represents s j) {c : Call}
    (hFit : ∀ buf left, c = .write buf left → Fitting size s buf left) :
    ∃ s' reply, call size s c = some (s', reply) := by
  cases c with
  | write buf left =>
    obtain ⟨s', ret, hWrite, -⟩ := fortuneWrite_of_fitting h (hFit buf left rfl)
    exact ⟨s', .wrote ret, by rw [call, hWrite]; rfl⟩
  | read len fPos left =>
    have hAgree := fortuneRead_simulates h len fPos left
    rw [call]
    generalize fortuneRead size s len fPos left = x at *
    cases hAgree with
    | some hBoth => exact ⟨_, _, rfl⟩

theorem exec_defined {calls : List Call} (hFit : AllFitting size calls) :
    ∃ s replies, exec size (loaded size) calls = some (s, replies) := by
  induction calls using List.reverseRecOn with
  | nil => exact ⟨_, _, rfl⟩
  | append_singleton calls c ih =>
    obtain ⟨s, replies, hExec⟩ := ih fun before buf left after hSplit =>
      hFit before buf left (after ++ [c]) (by rw [hSplit, List.append_assoc, List.cons_append])
    obtain ⟨j, hj⟩ := exec_represents hExec
    obtain ⟨s', reply, hCall⟩ := call_defined hj (c := c) fun buf left hc =>
      hFit calls buf left [] (by rw [hc]) s replies hExec
    refine ⟨s', replies ++ [reply], ?_⟩
    rw [exec_eq] at hExec
    rw [exec_eq, execAll_append, hExec]
    simp [execAll, hCall]

/-- Every sequence of calls keeps `writeInd` and all its stores inside the pot, and refuses
exactly the cookies without room, exactly if no write is one byte too long for the room left
or an empty one for the empty pot. -/
theorem stays_inside_iff (calls : List Call) : StaysInside size calls ↔ AllFitting size calls := by
  constructor
  · intro hStays before buf left after hSplit s replies hExec
    obtain ⟨s', replies', hExec', -, hWrites⟩ := hStays before _ hSplit
    obtain ⟨rfl, rfl⟩ : s' = s ∧ replies' = replies := by
      rw [hExec] at hExec'
      cases hExec'
      exact ⟨rfl, rfl⟩
    obtain ⟨j, hj⟩ := exec_represents hExec
    exact (contained_iff hj buf left).mp (hWrites buf left after rfl)
  · intro hFit before after hSplit
    have hBefore : AllFitting size before := by
      intro first buf left rest hFirst
      apply hFit first buf left (rest ++ after)
      rw [hSplit, hFirst, List.append_assoc]
      rfl
    obtain ⟨s, replies, hExec⟩ := exec_defined hBefore
    obtain ⟨j, hj⟩ := exec_represents hExec
    refine ⟨s, replies, hExec, hj.writeInd_le, ?_⟩
    rintro buf left rest rfl
    exact (contained_iff hj buf left).mpr (hFit before buf left rest hSplit s replies hExec)

/-- A first cookie of 4097 bytes for a pot of 4096. -/
theorem not_staysInside_long : ¬ StaysInside 4096 [.write (List.replicate 4097 97) 0] := by
  intro hStays
  obtain ⟨s, replies, hExec, -, hWrites⟩ := hStays [] _ rfl
  cases hExec
  have hFit := fitting_of_inside represents_loaded (hWrites _ _ _ rfl).inside
  apply hFit.1
  rw [List.length_replicate]
  rfl

end OsLabs.Fortune
