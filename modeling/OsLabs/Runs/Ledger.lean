import Mathlib.Data.Finset.Basic
import Mathlib.Data.Finset.Lattice.Lemmas

/-!
# Ledgers

What a program acquires and releases, in the order in which it does so. A resource may need another
one: it is acquired while that one is held, and is released before it. A ledger settles if nothing
is acquired while it is held, nothing is released that is not held, and nothing is released while
something that is held needs it. It is balanced if in the end nothing is held, and if every resource
is acquired at most once. Then every resource that is acquired is released exactly once
(`Balanced.released_perm`).
-/

namespace OsLabs.Runs

inductive Entry (ρ : Type) where
  | acquire (r : ρ)
  | release (r : ρ)
deriving DecidableEq

variable {ρ : Type}

def acquired (log : List (Entry ρ)) : List ρ :=
  log.filterMap fun e => match e with
    | .acquire r => some r
    | .release _ => none

def released (log : List (Entry ρ)) : List ρ :=
  log.filterMap fun e => match e with
    | .acquire _ => none
    | .release r => some r

theorem mem_acquired {log : List (Entry ρ)} {r : ρ} : r ∈ acquired log ↔ .acquire r ∈ log := by
  rw [acquired, List.mem_filterMap]
  constructor
  · rintro ⟨e, he, hSome⟩
    cases e with
    | acquire q => rwa [← Option.some.inj hSome]
    | release q => cases hSome
  · exact fun h => ⟨_, h, rfl⟩

theorem mem_released {log : List (Entry ρ)} {r : ρ} : r ∈ released log ↔ .release r ∈ log := by
  rw [released, List.mem_filterMap]
  constructor
  · rintro ⟨e, he, hSome⟩
    cases e with
    | acquire q => cases hSome
    | release q => rwa [← Option.some.inj hSome]
  · exact fun h => ⟨_, h, rfl⟩

@[simp] theorem acquired_append (xs ys : List (Entry ρ)) :
    acquired (xs ++ ys) = acquired xs ++ acquired ys := List.filterMap_append

@[simp] theorem acquired_map_acquire (rs : List ρ) : acquired (rs.map .acquire) = rs := by
  rw [acquired, List.filterMap_map]
  exact List.filterMap_some

@[simp] theorem acquired_map_release (rs : List ρ) : acquired (rs.map .release) = [] := by
  rw [acquired, List.filterMap_map]
  exact List.filterMap_eq_nil_iff.mpr fun _ _ => rfl

variable [DecidableEq ρ] (needs : ρ → Option ρ)

/-- What is held after an entry, if it is in order. -/
def enter (held : Finset ρ) : Entry ρ → Option (Finset ρ)
  | .acquire r => if r ∉ held ∧ ∀ p ∈ needs r, p ∈ held then some (insert r held) else none
  | .release r =>
    if r ∈ held ∧ ∀ q ∈ held, needs q ≠ some r then some (held.erase r) else none

def settle (held : Finset ρ) : List (Entry ρ) → Option (Finset ρ)
  | [] => some held
  | e :: rest => (enter needs held e).bind fun held => settle held rest

structure Balanced (log : List (Entry ρ)) : Prop where
  settles : settle needs ∅ log = some ∅
  nodup : (acquired log).Nodup

variable {needs}

theorem settle_append {held : Finset ρ} (xs ys : List (Entry ρ)) :
    settle needs held (xs ++ ys) =
      (settle needs held xs).bind fun held => settle needs held ys := by
  induction xs generalizing held with
  | nil => rfl
  | cons e rest ih =>
    rw [List.cons_append, settle, settle]
    cases enter needs held e with
    | none => rfl
    | some held' => exact ih

/-- What has been acquired has been released or is still held. -/
theorem settle_perm {held held' : Finset ρ} {log : List (Entry ρ)}
    (h : settle needs held log = some held') :
    (held.toList ++ acquired log).Perm (held'.toList ++ released log) := by
  induction log generalizing held with
  | nil =>
    cases h
    exact List.Perm.refl _
  | cons e rest ih =>
    obtain ⟨next, hEnter, hRest⟩ := Option.bind_eq_some_iff.mp h
    have hPerm := ih hRest
    cases e with
    | acquire r =>
      rw [enter] at hEnter
      split at hEnter
      · next hFree =>
        cases hEnter
        have hInsert := (Finset.toList_insert hFree.1).append_right (acquired rest)
        exact (List.perm_middle.trans hInsert.symm).trans hPerm
      · cases hEnter
    | release r =>
      rw [enter] at hEnter
      split at hEnter
      · next hHeld =>
        cases hEnter
        have hErase := Finset.toList_insert (Finset.notMem_erase r held)
        rw [Finset.insert_erase hHeld.1] at hErase
        exact ((hErase.append_right (acquired rest)).trans (hPerm.cons r)).trans
          List.perm_middle.symm
      · cases hEnter

theorem Balanced.released_perm {log : List (Entry ρ)} (h : Balanced needs log) :
    (released log).Perm (acquired log) := by
  have hPerm := settle_perm h.settles
  rw [Finset.toList_empty, List.nil_append, List.nil_append] at hPerm
  exact hPerm.symm

/-- Nothing is released that has not been acquired. -/
theorem Balanced.acquire_mem {log : List (Entry ρ)} (h : Balanced needs log) {r : ρ}
    (hReleased : .release r ∈ log) : .acquire r ∈ log :=
  mem_acquired.mp (h.released_perm.subset (mem_released.mpr hReleased))

/-! ## Many at once -/

/-- What is needed is held already. -/
theorem settle_acquires {rs : List ρ} {held : Finset ρ} (hNodup : rs.Nodup)
    (hFree : ∀ r ∈ rs, r ∉ held) (hNeeds : ∀ r ∈ rs, ∀ p ∈ needs r, p ∈ held) :
    settle needs held (rs.map .acquire) = some (held ∪ rs.toFinset) := by
  induction rs generalizing held with
  | nil => rw [List.toFinset_nil, Finset.union_empty]; rfl
  | cons r rest ih =>
    obtain ⟨hNotMem, hRest⟩ := List.nodup_cons.mp hNodup
    have hEnter : enter needs held (.acquire r) = some (insert r held) :=
      if_pos ⟨hFree r List.mem_cons_self, hNeeds r List.mem_cons_self⟩
    rw [List.map_cons, settle, hEnter, Option.bind_some, ih hRest]
    · rw [List.toFinset_cons, Finset.union_insert, Finset.insert_union]
    · intro q hq
      rw [Finset.mem_insert, not_or]
      exact ⟨fun hEq => hNotMem (hEq ▸ hq), hFree q (List.mem_cons_of_mem r hq)⟩
    · intro q hq p hp
      exact Finset.mem_insert_of_mem (hNeeds q (List.mem_cons_of_mem r hq) p hp)

/-- Nothing needs what is released. -/
theorem settle_releases {rs : List ρ} {held : Finset ρ} (hNodup : rs.Nodup)
    (hHeld : ∀ r ∈ rs, r ∈ held) (hNeeds : ∀ r ∈ rs, ∀ q ∈ held, needs q ≠ some r) :
    settle needs held (rs.map .release) = some (held \ rs.toFinset) := by
  induction rs generalizing held with
  | nil => rw [List.toFinset_nil, Finset.sdiff_empty]; rfl
  | cons r rest ih =>
    obtain ⟨hNotMem, hRest⟩ := List.nodup_cons.mp hNodup
    have hEnter : enter needs held (.release r) = some (held.erase r) :=
      if_pos ⟨hHeld r List.mem_cons_self, hNeeds r List.mem_cons_self⟩
    rw [List.map_cons, settle, hEnter, Option.bind_some, ih hRest]
    · rw [List.toFinset_cons, Finset.sdiff_insert, Finset.erase_sdiff_comm]
    · intro q hq
      exact Finset.mem_erase.mpr ⟨fun hEq => hNotMem (hEq ▸ hq),
        hHeld q (List.mem_cons_of_mem r hq)⟩
    · intro q hq p hp
      exact hNeeds q (List.mem_cons_of_mem r hq) p (Finset.mem_of_mem_erase hp)

end OsLabs.Runs
