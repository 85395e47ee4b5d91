import OsLabs.Vfs.Kernel

/-!
# Loading and unloading `myfs` (`lab_vfs/my_vfs.c`, `lab_vfs/myfs.c`)

`myfs_init` is the same in both files but for the messages, and so is `myfs_exit`. The registration
is not undone when something fails later, and a failed `kmem_cache_alloc` is only logged: `tmp` has
a null pointer then, which `myfs_exit` passes to `kmem_cache_free`.
-/

namespace OsLabs.Vfs

open Runs

/-- The array `tmp`, as far as it has been set, and the log. -/
structure Myfs where
  tmp : List Pointer
  log : Log

/-- The object from call number `i`. -/
def kmemCacheAlloc (answers : Answers) (i : Nat) : Pointer :=
  if answers.kmemCacheAlloc i then some i else none

def myfsInit (answers : Answers) : Int × Myfs :=
  if answers.registerFilesystem ≠ 0 then (answers.registerFilesystem, ⟨[], []⟩)
  else if answers.kmalloc = false then (-ENOMEM, ⟨[], [.acquire .filesystem]⟩)
  else if answers.kmemCacheCreate = false then
    (-ENOMEM, ⟨[], [.acquire .filesystem, .acquire .array, .release .array]⟩)
  else
    let tmp := (List.range 256).map (kmemCacheAlloc answers)
    (0, ⟨tmp, [.acquire .filesystem, .acquire .array, .acquire .cache] ++
      tmp.filterMap fun p => p.map fun k => .acquire (.object k)⟩)

def myfsExit (m : Myfs) : Myfs :=
  ⟨m.tmp, m.log ++ (List.range 256).map (fun i => kmemCacheFree (m.tmp[i]?.getD none)) ++
    [.release .cache, .release .array, .release .filesystem]⟩

/-! ## Balance -/

/-- Everything that `myfs_init` has acquired is released once, by itself if it fails and by
`myfs_exit` if it does not. -/
def MyfsBalanced (answers : Answers) : Prop :=
  ((myfsInit answers).1 ≠ 0 → Balanced needs (myfsInit answers).2.log) ∧
    ((myfsInit answers).1 = 0 → Balanced needs (myfsExit (myfsInit answers).2).log)

variable {answers : Answers}

/-- Nothing has failed before the objects are allocated. -/
def Reached (answers : Answers) : Prop :=
  answers.registerFilesystem = 0 ∧ answers.kmalloc = true ∧ answers.kmemCacheCreate = true

theorem myfsInit_reached (h : Reached answers) :
    myfsInit answers = (0, ⟨(List.range 256).map (kmemCacheAlloc answers),
      base.map .acquire ++ ((List.range 256).map (kmemCacheAlloc answers)).filterMap
        fun p => p.map fun k => .acquire (.object k)⟩) := by
  obtain ⟨hRegister, hArray, hCache⟩ := h
  rw [myfsInit, if_neg (not_not.mpr hRegister), if_neg (by rw [hArray]; decide),
    if_neg (by rw [hCache]; decide)]
  rfl

/-- All 256 objects are allocated. -/
theorem balanced_of_all (h : Reached answers) (hAll : ∀ i < 256, answers.kmemCacheAlloc i = true) :
    Balanced needs (myfsExit (myfsInit answers).2).log := by
  have hTmp : (List.range 256).map (kmemCacheAlloc answers) = pointers 256 :=
    List.map_congr_left fun i hi => if_pos (hAll i (List.mem_range.mp hi))
  have hObjects : (pointers 256).filterMap (fun p => p.map fun k => Entry.acquire (.object k)) =
      (objects 256).map .acquire := by
    rw [pointers, objects, List.filterMap_map, List.map_map]
    exact congrFun (List.filterMap_eq_map (f := Entry.acquire ∘ Resource.object)) _
  have hFree : (List.range 256).map (fun i => kmemCacheFree ((pointers 256)[i]?.getD none)) =
      (objects 256).map .release := by
    rw [objects, List.map_map]
    refine List.map_congr_left fun i hi => ?_
    rw [pointers, List.getElem?_map, List.getElem?_range (List.mem_range.mp hi)]
    rfl
  have hLog : (myfsExit (myfsInit answers).2).log = acquiring 256 ++ releasing 256 := by
    rw [myfsInit_reached h, myfsExit, hTmp, hObjects, hFree, releasing, ← List.append_assoc]
    rfl
  rw [hLog]
  exact balanced_releasing 256

/-- One of the 256 objects is not allocated, but it is freed. -/
theorem not_balanced_of_failed (h : Reached answers) {i : Nat} (hi : i < 256)
    (hFailed : answers.kmemCacheAlloc i = false) :
    ¬ Balanced needs (myfsExit (myfsInit answers).2).log := by
  intro hBalanced
  have hTmp : ((List.range 256).map (kmemCacheAlloc answers))[i]?.getD none = none := by
    rw [List.getElem?_map, List.getElem?_range hi]
    exact if_neg (by rw [hFailed]; decide)
  rw [myfsInit_reached h, myfsExit] at hBalanced
  have hNull := hBalanced.acquire_mem (r := .null) (by
    apply List.mem_append_left
    apply List.mem_append_right
    refine List.mem_map.mpr ⟨i, List.mem_range.mpr hi, ?_⟩
    rw [hTmp]
    rfl)
  rcases List.mem_append.mp hNull with hBefore | hLast
  · rcases List.mem_append.mp hBefore with hInit | hFree
    · rcases List.mem_append.mp hInit with hBase | hObject
      · exact absurd hBase (by decide)
      · obtain ⟨p, -, hp⟩ := List.mem_filterMap.mp hObject
        cases p with
        | none => cases hp
        | some k => cases hp
    · obtain ⟨k, -, hk⟩ := List.mem_map.mp hFree
      generalize ((List.range 256).map (kmemCacheAlloc answers))[k]?.getD none = p at hk
      cases p with
      | none => cases hk
      | some k => cases hk
  · exact absurd hLast (by decide)

/-- The modules are balanced if and only if the file system is not registered at all, or nothing
else fails. -/
theorem myfs_balanced_iff (answers : Answers) :
    MyfsBalanced answers ↔ answers.registerFilesystem ≠ 0 ∨
      answers.kmalloc = true ∧ answers.kmemCacheCreate = true ∧
        ∀ i < 256, answers.kmemCacheAlloc i = true := by
  by_cases hRegister : answers.registerFilesystem = 0
  · constructor
    · rintro ⟨hInit, hExit⟩
      rw [myfsInit, if_neg (not_not.mpr hRegister)] at hInit
      refine Or.inr ?_
      by_cases hArray : answers.kmalloc = true
      · rw [if_neg (by rw [hArray]; decide)] at hInit
        by_cases hCache : answers.kmemCacheCreate = true
        · have hReached : Reached answers := ⟨hRegister, hArray, hCache⟩
          have hBalanced := hExit (by rw [myfsInit_reached hReached])
          refine ⟨hArray, hCache, fun i hi => ?_⟩
          by_contra hFailed
          exact not_balanced_of_failed hReached hi (Bool.not_eq_true _ ▸ hFailed) hBalanced
        · rw [if_pos (Bool.not_eq_true _ ▸ hCache)] at hInit
          exact absurd (hInit neg_ENOMEM_ne).settles (by decide)
      · rw [if_pos (Bool.not_eq_true _ ▸ hArray)] at hInit
        exact absurd (hInit neg_ENOMEM_ne).settles (by decide)
    · rintro (hFailed | ⟨hArray, hCache, hAll⟩)
      · exact absurd hRegister hFailed
      · have hReached : Reached answers := ⟨hRegister, hArray, hCache⟩
        refine ⟨fun hNonzero => ?_, fun _ => balanced_of_all hReached hAll⟩
        rw [myfsInit_reached hReached] at hNonzero
        exact absurd rfl hNonzero
  · refine iff_of_true ?_ (Or.inl hRegister)
    rw [MyfsBalanced, myfsInit, if_pos hRegister]
    exact ⟨fun _ => ⟨rfl, List.nodup_nil⟩, fun hZero => absurd hZero hRegister⟩

/-- `kmalloc` fails: the file system stays registered. -/
theorem not_balanced_kmalloc : ¬ MyfsBalanced ⟨0, false, true, fun _ => true⟩ := by
  rintro ⟨hInit, -⟩
  exact absurd (hInit (by decide)).settles (by decide)

end OsLabs.Vfs
