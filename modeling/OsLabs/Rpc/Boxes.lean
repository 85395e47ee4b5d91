import OsLabs.Rpc.NewBakery

/-!
# Tickets on their way to the clients

A ticket goes from the thread that assigns it through `results` and the dispatcher to the
client. There is at most one thread or one filled element of `results` for each slot, and it
is of the last `REGISTER_PROC` (`Boxes`).
-/

namespace OsLabs.Rpc.NewBakery

open Runs

/-- The thread started by the last `REGISTER_PROC` for slot `j`. -/
def registration (j : Slot) (h : List Event) : Option Nat :=
  h.foldl (fun last e =>
    match e with
    | .registered id thread => if id = j then thread else last
    | _ => last) none

/-- The ticket `n` of thread `k` has not been returned. -/
def Outstanding (h : List Event) (k : Nat) (j : Slot) (n : Int) : Prop :=
  .assigned k j n ∈ h ∧ ∀ j', .returned j' n ∉ h

def Due (h : List Event) (j : Slot) (n : Int) : Prop :=
  ∃ k, registration j h = some k ∧ Outstanding h k j n

/-- No ticket is in an element of `results` with this value. -/
def Vacant (v : Int) : Prop := v = -1 ∨ v = 0

/-- The thread will leave a ticket for slot `j`. -/
def ThreadPc.Pending (j : Slot) : ThreadPc → Prop
  | .lock idx | .incMax idx | .storeNumber idx | .storeResult idx => idx = j
  | _ => False

/-- The tickets assigned up to now. -/
structure Numbered (maxNumber : Int) (h : List Event) : Prop where
  nonneg : 0 ≤ maxNumber
  range : ∀ k j n, .assigned k j n ∈ h → 0 < n ∧ n ≤ maxNumber
  slot : ∀ k k' j j' n, .assigned k j n ∈ h → .assigned k' j' n ∈ h → j = j'
  returned : ∀ j n, .returned j n ∈ h → n = -1 ∨ ∃ k j', .assigned k j' n ∈ h

structure Boxes (thread : Nat → ThreadPc) (results : Slot → Int) (maxNumber : Int)
    (h : List Event) : Prop where
  numbered : Numbered maxNumber h
  fresh : ∀ k j, thread k = .storeNumber j →
    0 < maxNumber ∧ ∀ k' j' n, .assigned k' j' n ∈ h → n < maxNumber
  stored : ∀ k j, thread k = .storeResult j → Outstanding h k j maxNumber
  pending : ∀ k j, (thread k).Pending j → registration j h = some k ∧ Vacant (results j)
  filled : ∀ j, ¬ Vacant (results j) → Due h j (results j)

section

variable {h es : List Event} {j : Slot} {k : Nat} {n : Int}

theorem registration_registered (id : Slot) (thread : Option Nat) :
    registration j (h ++ [.registered id thread]) =
      if id = j then thread else registration j h := by
  simp [registration, List.foldl_append]

theorem registration_assigned (id : Slot) :
    registration j (h ++ [.assigned k id n]) = registration j h := by
  simp [registration, List.foldl_append]

theorem registration_returned (id : Slot) :
    registration j (h ++ [.returned id n]) = registration j h := by
  simp [registration, List.foldl_append]

theorem Outstanding.append (hOut : Outstanding h k j n) (hNew : ∀ j', .returned j' n ∉ es) :
    Outstanding (h ++ es) k j n := by
  refine ⟨List.mem_append_left es hOut.1, fun j' hMem => ?_⟩
  rcases List.mem_append.mp hMem with hOld | hLate
  · exact hOut.2 j' hOld
  · exact hNew j' hLate

theorem Due.append (hDue : Due h j n) (hSame : registration j (h ++ es) = registration j h)
    (hNew : ∀ j', .returned j' n ∉ es) : Due (h ++ es) j n := by
  obtain ⟨k, hReg, hOut⟩ := hDue
  exact ⟨k, hSame.trans hReg, hOut.append hNew⟩

theorem Numbered.append_registered {maxNumber : Int} (hNum : Numbered maxNumber h) (id : Slot)
    (thread : Option Nat) : Numbered maxNumber (h ++ [.registered id thread]) := by
  refine ⟨hNum.nonneg, ?_, ?_, ?_⟩
  · simpa using hNum.range
  · simpa using hNum.slot
  · simpa using hNum.returned

/-- A larger ticket is assigned. -/
theorem Numbered.append_assigned {maxNumber : Int} (hNum : Numbered maxNumber h)
    (hPos : 0 < maxNumber) (hNew : ∀ k' j' n, .assigned k' j' n ∈ h → n < maxNumber) :
    Numbered maxNumber (h ++ [.assigned k j maxNumber]) := by
  refine ⟨hNum.nonneg, ?_, ?_, ?_⟩
  · intro k' j' n hMem
    rcases List.mem_append.mp hMem with hOld | hLate
    · exact hNum.range k' j' n hOld
    · cases List.mem_singleton.mp hLate
      exact ⟨hPos, Int.le_refl _⟩
  · intro k₁ k₂ j₁ j₂ n hFirst hSecond
    rcases List.mem_append.mp hFirst with hOld₁ | hLate₁ <;>
      rcases List.mem_append.mp hSecond with hOld₂ | hLate₂
    · exact hNum.slot k₁ k₂ j₁ j₂ n hOld₁ hOld₂
    · cases List.mem_singleton.mp hLate₂
      exact absurd (hNew _ _ _ hOld₁) (Int.lt_irrefl _)
    · cases List.mem_singleton.mp hLate₁
      exact absurd (hNew _ _ _ hOld₂) (Int.lt_irrefl _)
    · cases List.mem_singleton.mp hLate₁
      cases List.mem_singleton.mp hLate₂
      rfl
  · intro j' n hMem
    rcases List.mem_append.mp hMem with hOld | hLate
    · rcases hNum.returned j' n hOld with hNone | ⟨k', j'', hAssigned⟩
      · exact Or.inl hNone
      · exact Or.inr ⟨k', j'', List.mem_append_left _ hAssigned⟩
    · cases List.mem_singleton.mp hLate

/-- An assigned ticket, or none, is returned. -/
theorem Numbered.append_returned {maxNumber : Int} (hNum : Numbered maxNumber h)
    (hBack : n = -1 ∨ ∃ k j', .assigned k j' n ∈ h) :
    Numbered maxNumber (h ++ [.returned j n]) := by
  refine ⟨hNum.nonneg, ?_, ?_, ?_⟩
  · simpa using hNum.range
  · simpa using hNum.slot
  · intro j' n' hMem
    have hFound : n' = -1 ∨ ∃ k j', .assigned k j' n' ∈ h := by
      rcases List.mem_append.mp hMem with hOld | hLate
      · exact hNum.returned j' n' hOld
      · cases List.mem_singleton.mp hLate
        exact hBack
    rcases hFound with hNone | ⟨k', j'', hAssigned⟩
    · exact Or.inl hNone
    · exact Or.inr ⟨k', j'', List.mem_append_left _ hAssigned⟩

end

section

variable {thread : Nat → ThreadPc} {results : Slot → Int} {maxNumber : Int} {h : List Event}
  {j : Slot} {k : Nat} {pc : ThreadPc}

/-- A thread moves on and is pending for no other slot than before. -/
theorem pending_update (hPc : ∀ i, pc.Pending i → (thread k).Pending i) {m : Nat} {i : Slot}
    (hm : (Function.update thread k pc m).Pending i) : (thread m).Pending i := by
  rcases eq_or_ne m k with rfl | hne
  · rw [Function.update_self] at hm
    exact hPc i hm
  · rwa [Function.update_of_ne hne] at hm

theorem Boxes.no_pending (hBox : Boxes thread results maxNumber h) (hFull : ¬ Vacant (results j))
    (k : Nat) : ¬ (thread k).Pending j :=
  fun hPending => hFull (hBox.pending k j hPending).2

/-- A thread moves on without touching the tickets. -/
theorem Boxes.move (hBox : Boxes thread results maxNumber h) (hNumber : ∀ j, pc ≠ .storeNumber j)
    (hResult : ∀ j, pc ≠ .storeResult j)
    (hPending : ∀ j, pc.Pending j → registration j h = some k ∧ Vacant (results j)) :
    Boxes (Function.update thread k pc) results maxNumber h := by
  refine ⟨hBox.numbered, ?_, ?_, ?_, hBox.filled⟩
  · intro m j hm
    rcases eq_or_ne m k with rfl | hne
    · rw [Function.update_self] at hm
      exact absurd hm (hNumber j)
    · rw [Function.update_of_ne hne] at hm
      exact hBox.fresh m j hm
  · intro m j hm
    rcases eq_or_ne m k with rfl | hne
    · rw [Function.update_self] at hm
      exact absurd hm (hResult j)
    · rw [Function.update_of_ne hne] at hm
      exact hBox.stored m j hm
  · intro m j hm
    rcases eq_or_ne m k with rfl | hne
    · rw [Function.update_self] at hm
      exact hPending j hm
    · rw [Function.update_of_ne hne] at hm
      exact hBox.pending m j hm

/-- A client for which no ticket is on its way registers. -/
theorem Boxes.register (hBox : Boxes thread results maxNumber h)
    (hIdle : ∀ m, ¬ (thread m).Pending j) (hVacant : Vacant (results j)) (started : Option Nat) :
    Boxes thread results maxNumber (h ++ [.registered j started]) := by
  have hSame {i : Slot} (hi : j ≠ i) :
      registration i (h ++ [.registered j started]) = registration i h := by
    rw [registration_registered, if_neg hi]
  refine ⟨hBox.numbered.append_registered j started, ?_, ?_, ?_, ?_⟩
  · simpa using hBox.fresh
  · intro m i hm
    exact (hBox.stored m i hm).append (by simp)
  · intro m i hm
    have hi : j ≠ i := by
      rintro rfl
      exact hIdle m hm
    rw [hSame hi]
    exact hBox.pending m i hm
  · intro i hFull
    have hi : j ≠ i := by
      rintro rfl
      exact hFull hVacant
    exact (hBox.filled i hFull).append (hSame hi) (by simp)

/-- The only thread inside counts. -/
theorem Boxes.incMax (hBox : Boxes thread results maxNumber h) (hk : thread k = .incMax j)
    (hAlone : ∀ m, (thread m).Inside → m = k) :
    Boxes (Function.update thread k (.storeNumber j)) results (maxNumber + 1) h := by
  have hSame (i : Slot) (hi : (ThreadPc.storeNumber j).Pending i) : (thread k).Pending i := by
    rw [hk]
    exact hi
  have hNonneg := hBox.numbered.nonneg
  have hLess (k' j' n) (hMem : .assigned k' j' n ∈ h) : n < maxNumber + 1 :=
    Int.lt_add_one_of_le (hBox.numbered.range k' j' n hMem).2
  refine ⟨⟨by omega, ?_, hBox.numbered.slot, hBox.numbered.returned⟩, ?_, ?_, ?_, hBox.filled⟩
  · intro k' j' n hMem
    exact ⟨(hBox.numbered.range k' j' n hMem).1, Int.le_of_lt (hLess k' j' n hMem)⟩
  · intro m i _
    exact ⟨by omega, hLess⟩
  · intro m i hm
    obtain rfl := eq_of_inside_update hAlone (by rw [hm]; trivial)
    rw [Function.update_self] at hm
    cases hm
  · intro m i hm
    exact hBox.pending m i (pending_update hSame hm)

/-- The only thread inside assigns a ticket. -/
theorem Boxes.assign (hBox : Boxes thread results maxNumber h) (hk : thread k = .storeNumber j)
    (hAlone : ∀ m, (thread m).Inside → m = k) :
    Boxes (Function.update thread k (.storeResult j)) results maxNumber
      (h ++ [.assigned k j maxNumber]) := by
  have hSame (i : Slot) (hi : (ThreadPc.storeResult j).Pending i) : (thread k).Pending i := by
    rw [hk]
    exact hi
  obtain ⟨hPos, hFresh⟩ := hBox.fresh k j hk
  refine ⟨hBox.numbered.append_assigned hPos hFresh, ?_, ?_, ?_, ?_⟩
  · intro m i hm
    obtain rfl := eq_of_inside_update hAlone (by rw [hm]; trivial)
    rw [Function.update_self] at hm
    cases hm
  · intro m i hm
    obtain rfl := eq_of_inside_update hAlone (by rw [hm]; trivial)
    rw [Function.update_self] at hm
    cases hm
    refine ⟨by simp, fun j' hMem => ?_⟩
    have hOld : .returned j' maxNumber ∈ h := by simpa using hMem
    rcases hBox.numbered.returned j' maxNumber hOld with hNone | ⟨k', j'', hAssigned⟩
    · omega
    · exact absurd (hFresh k' j'' maxNumber hAssigned) (Int.lt_irrefl _)
  · intro m i hm
    rw [registration_assigned]
    exact hBox.pending m i (pending_update hSame hm)
  · intro i hFull
    exact (hBox.filled i hFull).append (registration_assigned j) (by simp)

/-- The ticket is left in `results`. -/
theorem Boxes.fill (hBox : Boxes thread results maxNumber h) (hk : thread k = .storeResult j) :
    Boxes (Function.update thread k .unlock) (Function.update results j maxNumber) maxNumber
      h := by
  have hReg := (hBox.pending k j (by rw [hk]; rfl)).1
  have hMoved : Boxes (Function.update thread k .unlock) results maxNumber h :=
    hBox.move (fun _ => by nofun) (fun _ => by nofun) fun _ hNone => hNone.elim
  refine ⟨hMoved.numbered, hMoved.fresh, hMoved.stored, ?_, ?_⟩
  · intro m i hm
    obtain ⟨hOwn, hVacant⟩ := hMoved.pending m i hm
    refine ⟨hOwn, ?_⟩
    rcases eq_or_ne i j with rfl | hi
    · obtain rfl : k = m := Option.some.inj (hReg.symm.trans hOwn)
      rw [Function.update_self] at hm
      exact hm.elim
    · rw [Function.update_of_ne hi]
      exact hVacant
  · intro i hFull
    rcases eq_or_ne i j with rfl | hi
    · rw [Function.update_self]
      exact ⟨k, hReg, hBox.stored k i hk⟩
    · rw [Function.update_of_ne hi] at hFull ⊢
      exact hBox.filled i hFull

/-- The dispatcher takes the ticket out of `results`. -/
theorem Boxes.reset (hBox : Boxes thread results maxNumber h) (j : Slot) :
    Boxes thread (Function.update results j (-1)) maxNumber h := by
  refine ⟨hBox.numbered, hBox.fresh, hBox.stored, ?_, ?_⟩
  · intro m i hm
    obtain ⟨hReg, hVacant⟩ := hBox.pending m i hm
    refine ⟨hReg, ?_⟩
    rcases eq_or_ne i j with rfl | hi
    · rw [Function.update_self]
      exact Or.inl rfl
    · rw [Function.update_of_ne hi]
      exact hVacant
  · intro i hFull
    rcases eq_or_ne i j with rfl | hi
    · rw [Function.update_self] at hFull
      exact absurd (Or.inl rfl) hFull
    · rw [Function.update_of_ne hi] at hFull ⊢
      exact hBox.filled i hFull

/-- A reply with the only ticket on its way to this client, or with none. -/
theorem Boxes.give (hBox : Boxes thread results maxNumber h) {n : Int}
    (hBack : n = -1 ∨ Vacant (results j) ∧ (∀ m, ¬ (thread m).Pending j) ∧ Due h j n) :
    Boxes thread results maxNumber (h ++ [.returned j n]) := by
  have hOther {k' : Nat} {i : Slot} {v : Int} (hOut : Outstanding h k' i v)
      (hi : n ≠ -1 → i ≠ j) : Outstanding (h ++ [.returned j n]) k' i v := by
    refine hOut.append fun j' hMem => ?_
    cases List.mem_singleton.mp hMem
    rcases hBack with rfl | ⟨-, -, k, -, hAssigned, -⟩
    · have hRange := hBox.numbered.range k' i (-1) hOut.1
      omega
    · have hRange := hBox.numbered.range k j n hAssigned
      exact hi (by omega) (hBox.numbered.slot k' k i j n hOut.1 hAssigned)
  refine ⟨hBox.numbered.append_returned ?_, ?_, ?_, ?_, ?_⟩
  · rcases hBack with hNone | ⟨-, -, k, -, hAssigned, -⟩
    · exact Or.inl hNone
    · exact Or.inr ⟨k, j, hAssigned⟩
  · simpa using hBox.fresh
  · intro m i hm
    refine hOther (hBox.stored m i hm) ?_
    rintro hNe rfl
    rcases hBack with hNone | ⟨-, hIdle, -⟩
    · exact hNe hNone
    · exact hIdle m (by rw [hm]; rfl)
  · intro m i hm
    rw [registration_returned]
    exact hBox.pending m i hm
  · intro i hFull
    obtain ⟨k', hReg, hOut⟩ := hBox.filled i hFull
    refine ⟨k', by rw [registration_returned, hReg], hOther hOut ?_⟩
    rintro hNe rfl
    rcases hBack with hNone | ⟨hVacant, -, -⟩
    · exact hNe hNone
    · exact hFull hVacant

end

end OsLabs.Rpc.NewBakery
