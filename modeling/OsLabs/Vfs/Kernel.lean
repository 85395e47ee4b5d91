import Mathlib.Data.List.Nodup
import OsLabs.Runs.Ledger

/-!
# What the modules of `lab_vfs` acquire

The registration of the file system, an array from `kmalloc`, a slab cache and the objects from
`kmem_cache_alloc`. An object belongs to the cache, which must not be destroyed before all objects
have been freed. Every call may fail, as its answer says; what releases something does not fail.
-/

namespace OsLabs.Vfs

open Runs

def ENOMEM : Int := 12

theorem neg_ENOMEM_ne : -ENOMEM ≠ 0 := by decide

/-- `object k` is what call number `k` of `kmem_cache_alloc` has returned, and `null` is what is
not there. -/
inductive Resource where
  | filesystem
  | array
  | cache
  | object (k : Nat)
  | null
deriving DecidableEq

def needs : Resource → Option Resource
  | .object _ => some .cache
  | _ => none

/-- The answers of `register_filesystem`, `kmalloc`, `kmem_cache_create` and every call of
`kmem_cache_alloc`. -/
structure Answers where
  registerFilesystem : Int
  kmalloc : Bool
  kmemCacheCreate : Bool
  kmemCacheAlloc : Nat → Bool

/-- A pointer to an object. -/
abbrev Pointer := Option Nat

abbrev Log := List (Entry Resource)

def kmemCacheFree : Pointer → Entry Resource
  | some k => .release (.object k)
  | none => .release .null

/-! ## All objects -/

/-- The first `n` objects. -/
def objects (n : Nat) : List Resource := (List.range n).map .object

theorem mem_objects {r : Resource} {n : Nat} : r ∈ objects n ↔ ∃ k < n, r = .object k := by
  simp only [objects, List.mem_map, List.mem_range, eq_comm]

theorem nodup_objects (n : Nat) : (objects n).Nodup :=
  List.Nodup.map (fun _ _ h => Resource.object.inj h) List.nodup_range

theorem objects_succ (n : Nat) : objects (n + 1) = objects n ++ [.object n] := by
  rw [objects, List.range_succ, List.map_append]
  rfl

/-- The pointers to the first `n` objects. -/
def pointers (n : Nat) : List Pointer := (List.range n).map some

theorem map_free_pointers (n : Nat) :
    (pointers n).map kmemCacheFree = (objects n).map .release := by
  rw [pointers, objects, List.map_map, List.map_map]
  rfl

/-- All objects are allocated while the cache is there. -/
theorem settle_allocate {held : Finset Resource} (hCache : .cache ∈ held) {n : Nat}
    (hFree : ∀ k, .object k ∉ held) :
    settle needs held ((objects n).map .acquire) = some (held ∪ (objects n).toFinset) := by
  apply settle_acquires (nodup_objects n)
  · intro r hr
    obtain ⟨k, -, rfl⟩ := mem_objects.mp hr
    exact hFree k
  · intro r hr p hp
    obtain ⟨k, -, rfl⟩ := mem_objects.mp hr
    rw [← Option.some.inj hp]
    exact hCache

/-- All objects are freed, and what is left are the others. -/
theorem settle_free {held : Finset Resource} {n : Nat} (hFree : ∀ k, .object k ∉ held) :
    settle needs (held ∪ (objects n).toFinset) ((objects n).map .release) = some held := by
  have hRest : (held ∪ (objects n).toFinset) \ (objects n).toFinset = held := by
    rw [Finset.union_sdiff_right, Finset.sdiff_eq_self_iff_disjoint, Finset.disjoint_left]
    intro r hr hObject
    obtain ⟨k, -, rfl⟩ := mem_objects.mp (List.mem_toFinset.mp hObject)
    exact hFree k hr
  rw [settle_releases (nodup_objects n), hRest]
  · intro r hr
    exact Finset.mem_union_right _ (List.mem_toFinset.mpr hr)
  · intro r hr q _ hNeeds
    obtain ⟨k, -, rfl⟩ := mem_objects.mp hr
    cases q <;> cases hNeeds

/-- Something that no object needs is released while the objects are there. -/
theorem settle_release_beside {held : Finset Resource} {r : Resource} {n : Nat} (hr : r ∈ held)
    (hFree : ∀ k, .object k ∉ held) (hNeeds : ∀ q, needs q ≠ some r) :
    settle needs (held ∪ (objects n).toFinset) [.release r] =
      some (held.erase r ∪ (objects n).toFinset) := by
  have hOther : r ∉ (objects n).toFinset := by
    intro hObject
    obtain ⟨k, -, rfl⟩ := mem_objects.mp (List.mem_toFinset.mp hObject)
    exact hFree k hr
  rw [settle, enter, if_pos ⟨Finset.mem_union_left _ hr, fun q _ => hNeeds q⟩, Option.bind_some,
    settle, Finset.erase_union_distrib, Finset.erase_eq_of_notMem hOther]

/-! ## The registration, the array, the cache and the objects -/

def base : List Resource := [.filesystem, .array, .cache]

/-- The registration, the array, the cache and `n` objects. -/
def acquiring (n : Nat) : Log := base.map .acquire ++ (objects n).map .acquire

/-- The same in the reverse order, but for the objects. -/
def releasing (n : Nat) : Log := (objects n).map .release ++ base.reverse.map .release

theorem acquiring_succ (n : Nat) : acquiring (n + 1) = acquiring n ++ [.acquire (.object n)] := by
  rw [acquiring, objects_succ, List.map_append, ← List.append_assoc]
  rfl

theorem settle_acquiring (n : Nat) :
    settle needs ∅ (acquiring n) = some (base.toFinset ∪ (objects n).toFinset) := by
  have hBase : settle needs ∅ (base.map .acquire) = some base.toFinset := by decide
  rw [acquiring, settle_append, hBase, Option.bind_some]
  exact settle_allocate (by decide) fun k => by simp [base]

theorem nodup_acquiring (n : Nat) : (acquired (acquiring n)).Nodup := by
  rw [acquiring, acquired_append, acquired_map_acquire, acquired_map_acquire]
  refine List.nodup_append.mpr ⟨by decide, nodup_objects n, ?_⟩
  rintro r hBase q hObject rfl
  obtain ⟨k, -, rfl⟩ := mem_objects.mp hObject
  simp [base] at hBase

theorem balanced_releasing (n : Nat) : Balanced needs (acquiring n ++ releasing n) := by
  constructor
  · rw [settle_append, settle_acquiring, Option.bind_some, releasing, settle_append,
      settle_free (fun k => by simp [base]), Option.bind_some]
    decide
  · rw [acquired_append, releasing, acquired_append, acquired_map_release, acquired_map_release,
      List.append_nil, List.append_nil]
    exact nodup_acquiring n

end OsLabs.Vfs
