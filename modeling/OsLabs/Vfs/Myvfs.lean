import OsLabs.Vfs.Kernel

/-!
# Loading and unloading `myvfs` (`lab_vfs/main.c`)

`myvfs_init` allocates `cached_count` objects and keeps the pointers to them in an array. If it
fails, it releases what it has acquired so far, in the reverse order; `myvfs_exit` releases
everything. The messages are left out.
-/

namespace OsLabs.Vfs

open Runs

/-- The array `cache_mem`, as far as it has been filled, and the log. -/
structure Myvfs where
  cacheMem : List Pointer
  log : Log

/-- The loop, from `i` on. -/
def myvfsAlloc (answers : Answers) : (left i : Nat) → Myvfs → Int × Myvfs
  | 0, _, m => (0, m)
  | left + 1, i, m =>
    if answers.kmemCacheAlloc i then
      myvfsAlloc answers left (i + 1)
        ⟨m.cacheMem ++ [some i], m.log ++ [.acquire (.object i)]⟩
    else (-ENOMEM, ⟨m.cacheMem ++ [none], m.log ++ (m.cacheMem.take i).map kmemCacheFree ++
      [.release .cache, .release .array, .release .filesystem]⟩)

def myvfsInit (cachedCount : Int) (answers : Answers) : Int × Myvfs :=
  if answers.registerFilesystem ≠ 0 then (answers.registerFilesystem, ⟨[], []⟩)
  else if answers.kmalloc = false then
    (-ENOMEM, ⟨[], [.acquire .filesystem, .release .filesystem]⟩)
  else if answers.kmemCacheCreate = false then
    (-ENOMEM, ⟨[], [.acquire .filesystem, .acquire .array, .release .array,
      .release .filesystem]⟩)
  else myvfsAlloc answers cachedCount.toNat 0
    ⟨[], [.acquire .filesystem, .acquire .array, .acquire .cache]⟩

/-- What the loop of `myvfs_exit` does with element `i` of the array. An element that has not been
set is no pointer to anything. -/
def myvfsFree (cacheMem : List Pointer) (i : Nat) : Log :=
  match cacheMem[i]? with
  | some (some k) => [kmemCacheFree (some k)]
  | some none => []
  | none => [.release .null]

def myvfsExit (cachedCount : Int) (m : Myvfs) : Myvfs :=
  ⟨m.cacheMem, m.log ++ [.release .filesystem] ++
    (List.range cachedCount.toNat).flatMap (myvfsFree m.cacheMem) ++
    [.release .array, .release .cache]⟩

/-! ## The loop -/

/-- After `n` allocations. -/
def allocated (n : Nat) : Myvfs := ⟨pointers n, acquiring n⟩

/-- After the allocation of object `n` has failed. -/
def unwound (n : Nat) : Myvfs := ⟨pointers n ++ [none], acquiring n ++ releasing n⟩

theorem myvfsAlloc_eq (answers : Answers) (left i : Nat) :
    (∃ k, myvfsAlloc answers left i (allocated i) = (-ENOMEM, unwound k)) ∨
      myvfsAlloc answers left i (allocated i) = (0, allocated (i + left)) := by
  induction left generalizing i with
  | zero => exact Or.inr rfl
  | succ left ih =>
    rw [myvfsAlloc]
    split
    · have hNext : (⟨(allocated i).cacheMem ++ [some i],
          (allocated i).log ++ [.acquire (.object i)]⟩ : Myvfs) = allocated (i + 1) := by
        rw [allocated, allocated, acquiring_succ, pointers, pointers, List.range_succ,
          List.map_append]
        rfl
      rw [hNext, ← Nat.add_assoc, Nat.add_right_comm]
      exact ih (i + 1)
    · refine Or.inl ⟨i, ?_⟩
      have hTake : (pointers i).take i = pointers i :=
        List.take_of_length_le (by rw [pointers, List.length_map, List.length_range])
      rw [allocated, unwound, hTake, map_free_pointers, releasing, ← List.append_assoc]
      rfl

theorem myvfsAlloc_succeeds_iff (answers : Answers) (left i : Nat) (m : Myvfs) :
    (myvfsAlloc answers left i m).1 = 0 ↔ ∀ k < left, answers.kmemCacheAlloc (i + k) = true := by
  induction left generalizing i m with
  | zero => simp [myvfsAlloc]
  | succ left ih =>
    rw [myvfsAlloc]
    split
    · next hAlloc =>
      rw [ih]
      constructor
      · intro hRest k hk
        cases k with
        | zero => exact hAlloc
        | succ k =>
          rw [← Nat.add_assoc, Nat.add_right_comm]
          exact hRest k (Nat.lt_of_succ_lt_succ hk)
      · intro hAll k hk
        rw [Nat.add_right_comm, Nat.add_assoc]
        exact hAll (k + 1) (Nat.succ_lt_succ hk)
    · next hFails =>
      refine iff_of_false neg_ENOMEM_ne fun hAll => hFails ?_
      exact hAll 0 (Nat.succ_pos left)

/-- `myvfs_init` succeeds exactly when all its calls do. -/
theorem myvfsInit_succeeds_iff (cachedCount : Int) (answers : Answers) :
    (myvfsInit cachedCount answers).1 = 0 ↔
      answers.registerFilesystem = 0 ∧ answers.kmalloc = true ∧ answers.kmemCacheCreate = true ∧
        ∀ k < cachedCount.toNat, answers.kmemCacheAlloc k = true := by
  unfold myvfsInit
  split
  · next hRegister => exact iff_of_false hRegister fun hAll => hRegister hAll.1
  · next hRegister =>
    split
    · next hArray => exact iff_of_false neg_ENOMEM_ne fun hAll => by simp [hArray] at hAll
    · next hArray =>
      split
      · next hCache => exact iff_of_false neg_ENOMEM_ne fun hAll => by simp [hCache] at hAll
      · next hCache =>
        rw [myvfsAlloc_succeeds_iff]
        simp [not_not.mp hRegister, Bool.eq_true_of_not_eq_false hArray,
          Bool.eq_true_of_not_eq_false hCache]

/-! ## Balance -/

/-- Every pointer in the array is freed. -/
theorem flatMap_myvfsFree (n : Nat) :
    (List.range n).flatMap (myvfsFree (allocated n).cacheMem) = (objects n).map .release := by
  rw [objects, List.map_map, List.map_eq_flatMap]
  refine List.flatMap_congr fun i hi => ?_
  have hPointer : (allocated n).cacheMem[i]? = some (some i) := by
    rw [allocated, pointers, List.getElem?_map, List.getElem?_range (List.mem_range.mp hi)]
    rfl
  rw [myvfsFree, hPointer]
  rfl

/-- Everything is released in another order than in `myvfs_init`. -/
theorem balanced_myvfsExit (cachedCount : Int) :
    Balanced needs (myvfsExit cachedCount (allocated cachedCount.toNat)).log := by
  generalize hCount : cachedCount.toNat = n
  have hLog : (myvfsExit cachedCount (allocated n)).log = acquiring n ++
      [.release .filesystem] ++ (objects n).map .release ++ [.release .array, .release .cache] := by
    rw [myvfsExit, hCount, flatMap_myvfsFree, allocated]
  have hFree (k : Nat) : Resource.object k ∉ base.toFinset := by simp [base]
  have hRegistered : settle needs (base.toFinset ∪ (objects n).toFinset)
      [.release .filesystem] = some (base.toFinset.erase .filesystem ∪ (objects n).toFinset) :=
    settle_release_beside (by decide) hFree fun q => by cases q <;> simp [needs]
  have hObjects : settle needs (base.toFinset.erase .filesystem ∪ (objects n).toFinset)
      ((objects n).map .release) = some (base.toFinset.erase .filesystem) :=
    settle_free fun k hMem => hFree k (Finset.mem_of_mem_erase hMem)
  constructor
  · rw [hLog, settle_append, settle_append, settle_append, settle_acquiring, Option.bind_some,
      hRegistered, Option.bind_some, hObjects, Option.bind_some]
    decide
  · rw [hLog, acquired_append, acquired_append, acquired_append, acquired_map_release]
    simpa [acquired] using nodup_acquiring n

/-- Whatever fails, `myvfs_init` releases what it has acquired, and `myvfs_exit` releases what a
successful `myvfs_init` has left. -/
theorem myvfs_balanced (cachedCount : Int) (answers : Answers) :
    ((myvfsInit cachedCount answers).1 ≠ 0 →
        Balanced needs (myvfsInit cachedCount answers).2.log) ∧
      ((myvfsInit cachedCount answers).1 = 0 →
        Balanced needs (myvfsExit cachedCount (myvfsInit cachedCount answers).2).log) := by
  unfold myvfsInit
  split
  · next hRegister => exact ⟨fun _ => ⟨rfl, List.nodup_nil⟩, fun hZero => absurd hZero hRegister⟩
  · split
    · exact ⟨fun _ => ⟨by decide, by decide⟩, fun hZero => absurd hZero neg_ENOMEM_ne⟩
    · split
      · exact ⟨fun _ => ⟨by decide, by decide⟩, fun hZero => absurd hZero neg_ENOMEM_ne⟩
      · have hStart : (⟨[], [.acquire .filesystem, .acquire .array, .acquire .cache]⟩ : Myvfs) =
            allocated 0 := rfl
        rw [hStart]
        rcases myvfsAlloc_eq answers cachedCount.toNat 0 with ⟨k, hFailed⟩ | hLoaded
        · rw [hFailed]
          exact ⟨fun _ => balanced_releasing k, fun hZero => absurd hZero neg_ENOMEM_ne⟩
        · rw [hLoaded, Nat.zero_add]
          exact ⟨fun hNonzero => absurd rfl hNonzero, fun _ => balanced_myvfsExit cachedCount⟩

end OsLabs.Vfs
