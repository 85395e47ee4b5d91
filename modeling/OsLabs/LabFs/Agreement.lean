import OsLabs.LabFs.DopathNo
import OsLabs.LabFs.DopathChdir

/-!
# The two walkers make the calls of one traversal

The pathnames that the walkers pass differ, but what `myfunc` prints of them does not: the
text after the last slash below the start. So both make the calls of the same traversal, each
as far as its callback lets it. A callback that tells the pathnames apart can stop the one
earlier than the other.
-/

namespace OsLabs.LabFs

open Fs Memory Runs

/-- A call without what the walkers do not agree on. -/
structure Visit where
  level : Nat
  type : FileType
  name : Option (List UInt8)
deriving DecidableEq

def visit (c : Call) : Visit :=
  match c.type with
  | .FTW_F | .FTW_D => ⟨c.level, c.type, some (fileName c.level c.pathname)⟩
  | .FTW_DNR | .FTW_NS => ⟨c.level, c.type, none⟩

mutual

/-- The pre-order traversal of a tree. -/
def preorder (name : List UInt8) (level : Nat) : Node → List Visit
  | .dir readable _ entries => ⟨level, .FTW_D, some name⟩ ::
      if readable then preorders (level + 1) entries else [⟨level, .FTW_DNR, none⟩]
  | .other | .link _ => [⟨level, .FTW_F, some name⟩]

def preorders (level : Nat) : Entries → List Visit
  | .nil => []
  | .self rest | .parent rest => preorders level rest
  | .entry name node rest => preorder name level node ++ preorders level rest

end

section

variable {join : List UInt8 → Name → List UInt8} {closed : List UInt8 → List UInt8}

mutual

theorem traversal_visit
    (hJoin : ∀ path level name, ValidName name → fileName (level + 1) (join path name) = name) :
    ∀ (node : Node) {path name : List UInt8} {level : Nat}, node.WellFormed →
      fileName level path = name →
      (traversal join closed path level node).map visit = preorder name level node
  | .other, path, name, level, _, hName => by simp [traversal, preorder, visit, hName]
  | .link target, path, name, level, _, hName => by simp [traversal, preorder, visit, hName]
  | .dir readable searchable entries, path, name, level, hWf, hName => by
    have hEntries : (traversals join closed path (level + 1) entries).map visit =
        preorders (level + 1) entries := traversals_visit hJoin entries hWf
    cases readable with
    | false => simp [traversal, preorder, visit, hName]
    | true => simp [traversal, preorder, visit, hName, hEntries]

theorem traversals_visit
    (hJoin : ∀ path level name, ValidName name → fileName (level + 1) (join path name) = name) :
    ∀ (entries : Entries) {path : List UInt8} {level : Nat}, entries.WellFormed →
      (traversals join closed path (level + 1) entries).map visit = preorders (level + 1) entries
  | .nil, _, _, _ => rfl
  | .self rest, path, level, hWf => traversals_visit hJoin rest hWf
  | .parent rest, path, level, hWf => traversals_visit hJoin rest hWf
  | .entry name node rest, path, level, ⟨hValid, _, hNode, hRest⟩ => by
    rw [traversals, preorders, List.map_append,
      traversal_visit hJoin node hNode (hJoin path level name hValid),
      traversals_visit hJoin rest hRest]

end

end

theorem fileName_fullpath (path : List UInt8) (level : Nat) (name : Name)
    (hName : ValidName name) : fileName (level + 1) (path ++ slash :: name) = name := by
  rw [fileName, if_pos (Nat.succ_pos level), strrchr_append path hName.slash]
  rfl

theorem fileName_filename (level : Nat) (name : Name) (hName : ValidName name) :
    fileName (level + 1) name = name := by
  rw [fileName, if_pos (Nat.succ_pos level), strrchr_of_not_mem hName.slash]

/-! ## The walks as a whole -/

variable {σ : Type} {fs : FileSystem} {cwd start : Loc} {pathname : List UInt8} {node : Node}

/-- The walk has returned, after these calls. -/
def Walked (calls : Answered σ Call) (result : Except Stop (Int × Walk σ)) : Prop :=
  ∃ w, result = .ok (calls.answer, w) ∧ w.state = calls.state ∧ w.calls = calls.made ∧
    w.level = 0

/-- The callback answers alike to calls that differ in what the walkers do not agree on. -/
def Alike (func : Myfunc σ) (R : σ → σ → Prop) : Prop :=
  ∀ s s' c c', R s s' → visit c = visit c' →
    R (func s c).1 (func s' c').1 ∧ (func s c).2 = (func s' c').2

theorem walked_of_outcome {bad : Prop} {good : List UInt8 → Prop} {func : Myfunc σ}
    {buffer : List UInt8} {state : σ} {calls : List Call} {cwd' : Loc}
    {result : Except Stop (Int × Walk σ)} (hBad : ¬ bad)
    (h : Outcome bad good ⟨buffer, 0, cwd, state, []⟩ func calls cwd' result) :
    Walked (callUntil func state calls) result := by
  rcases h with ⟨buffer', hResult, -⟩ | ⟨-, hReason⟩
  · exact ⟨_, hResult, rfl, rfl, rfl⟩
  · exact absurd hReason hBad

theorem myftwNo_walked (func : Myfunc σ) (fuel : Nat) (block : Block) (state : σ)
    (hZero : 0 ∉ pathname) (hNamei : fs.namei false cwd pathname = some start)
    (hNode : fs.node start = some node) (hFits : Fits pathname node) (hEnter : Enterable node)
    (hFuel : node.height < fuel) :
    Walked (callUntil func state (fullpaths pathname 0 node))
      (myftwNo fs func fuel block cwd state pathname) := by
  obtain ⟨buffer, hStart, hReady⟩ := myftw_ready (dopathNo fs func fuel) block state hNamei hZero
  rw [myftwNo, hStart]
  exact walked_of_outcome id (dopathNo_outcome fs func fuel hFuel hNode hReady hFits hEnter)

theorem myftwChdir_walked (func : Myfunc σ) (fuel : Nat) (block : Block) (state : σ)
    (hZero : 0 ∉ pathname) (hNamei : fs.namei false cwd pathname = some start)
    (hNode : fs.node start = some node) (hEnter : Enterable node)
    (hAbove : fs.searchable start.dropLast = true) (hFuel : node.height < fuel) :
    Walked (callUntil func state (filenames pathname 0 node))
      (myftwChdir fs func fuel block cwd state pathname) := by
  obtain ⟨buffer, hOutcome⟩ := myftwChdir_outcome func fuel block state hZero hNamei hNode hFuel
  exact walked_of_outcome (fun hBad => hBad ⟨hEnter, hAbove⟩) hOutcome

/-- Both walkers make the calls of the pre-order traversal, the one with full pathnames and the
other with file names, up to the first that is not answered with 0, and return its answer. If
the callback does not tell the pathnames apart, they make the same calls. -/
theorem walkers_traverse (hZero : 0 ∉ pathname)
    (hNamei : fs.namei false cwd pathname = some start) (hNode : fs.node start = some node)
    (hEnter : Enterable node) :
    (fullpaths pathname 0 node).map visit = preorder pathname 0 node ∧
    (filenames pathname 0 node).map visit = preorder pathname 0 node ∧
    ∀ (σ : Type) (func : Myfunc σ) (state : σ) (fuel : Nat) (fullpath filename : Block),
      node.height < fuel →
      (Fits pathname node →
        Walked (callUntil func state (fullpaths pathname 0 node))
          (myftwNo fs func fuel fullpath cwd state pathname)) ∧
      (fs.searchable start.dropLast = true →
        Walked (callUntil func state (filenames pathname 0 node))
          (myftwChdir fs func fuel filename cwd state pathname)) ∧
      ∀ R, Alike func R → R state state →
        (callUntil func state (fullpaths pathname 0 node)).made.map visit =
          (callUntil func state (filenames pathname 0 node)).made.map visit ∧
        (callUntil func state (fullpaths pathname 0 node)).answer =
          (callUntil func state (filenames pathname 0 node)).answer := by
  have hWf : node.WellFormed := Node.WellFormed.at fs.wellFormed hNode
  have hNo : (fullpaths pathname 0 node).map visit = preorder pathname 0 node :=
    traversal_visit fileName_fullpath node hWf rfl
  have hChdir : (filenames pathname 0 node).map visit = preorder pathname 0 node :=
    traversal_visit (fun _ => fileName_filename) node hWf rfl
  refine ⟨hNo, hChdir, fun σ func state fuel fullpath filename hFuel => ⟨?_, ?_, ?_⟩⟩
  · intro hFits
    exact myftwNo_walked func fuel fullpath state hZero hNamei hNode hFits hEnter hFuel
  · intro hAbove
    exact myftwChdir_walked func fuel filename state hZero hNamei hNode hEnter hAbove hFuel
  · intro R hAlike hState
    exact callUntil_congr hAlike (hNo.trans hChdir.symm) hState

/-- The directory `d` with two files. -/
def twoFilesDir : Node :=
  .dir true true (.self (.entry [102] .other (.parent (.entry [103] .other .nil))))

def twoFiles : FileSystem where
  root := .dir true true (.entry [100] twoFilesDir .nil)
  wellFormed := by
    refine ⟨⟨?_, ?_, ?_, ?_, ?_, ?_⟩, rfl, ⟨⟨?_, ?_, ?_, ?_, ?_, ?_⟩, rfl, trivial,
      ⟨⟨?_, ?_, ?_, ?_, ?_, ?_⟩, rfl, trivial, trivial⟩⟩, trivial⟩ <;> decide

theorem fits_d : Fits [100] twoFilesDir := by
  refine ⟨?_, ?_, ?_, trivial⟩
  · show 2 < PATH_MAX
    decide
  · show 3 < PATH_MAX
    decide
  · show 3 < PATH_MAX
    decide

theorem enterable_d : Enterable twoFilesDir := ⟨fun _ => rfl, trivial, trivial, trivial⟩

theorem walkers_traverse_d :
    ∃ ret wNo wChdir, myftwNo twoFiles (myfunc true) 3 zeros [] [] [100] = .ok (ret, wNo) ∧
      myftwChdir twoFiles (myfunc true) 3 zeros [] [] [100] = .ok (ret, wChdir) ∧
      wNo.calls.map visit = wChdir.calls.map visit := by
  obtain ⟨-, -, hWalks⟩ := walkers_traverse (by decide)
    (show twoFiles.namei false [] [100] = some [[100]] by decide) rfl enterable_d
  obtain ⟨hNo, hChdir, hSame⟩ := hWalks _ (myfunc true) [] 3 zeros zeros (by decide)
  obtain ⟨wNo, hNo, -, hMadeNo, -⟩ := hNo fits_d
  obtain ⟨wChdir, hChdir, -, hMadeChdir, -⟩ := hChdir rfl
  obtain ⟨hMade, hAnswer⟩ := hSame (fun _ _ => True)
    (fun _ _ _ _ _ _ => ⟨trivial, by rw [myfunc_answer, myfunc_answer]⟩) trivial
  rw [← hAnswer] at hChdir
  rw [← hMadeNo, ← hMadeChdir] at hMade
  exact ⟨_, wNo, wChdir, hNo, hChdir, hMade⟩

/-! ## Walks that differ -/

/-- A callback that stops at a pathname with a slash. -/
def stopAtSlash (_ : Unit) (c : Call) : Unit × Int := ((), if slash ∈ c.pathname then 1 else 0)

theorem stopAtSlash_d :
    ∃ wNo wChdir, myftwNo twoFiles stopAtSlash 3 zeros [] () [100] = .ok (1, wNo) ∧
      myftwChdir twoFiles stopAtSlash 3 zeros [] () [100] = .ok (0, wChdir) ∧
      wNo.calls.map visit ≠ wChdir.calls.map visit := by
  have hNamei : twoFiles.namei false [] [100] = some [[100]] := by decide
  obtain ⟨wNo, hNo, -, hMadeNo, -⟩ := myftwNo_walked stopAtSlash 3 zeros () (by decide)
    hNamei rfl fits_d enterable_d (by decide)
  obtain ⟨wChdir, hChdir, -, hMadeChdir, -⟩ := myftwChdir_walked stopAtSlash 3 zeros ()
    (by decide) hNamei rfl enterable_d rfl (by decide)
  refine ⟨wNo, wChdir, hNo, hChdir, ?_⟩
  rw [hMadeNo, hMadeChdir]
  decide

/-- The root, closed to the process, with a directory `d`. -/
def closedRoot : FileSystem where
  root := .dir false false (.entry [100] (.dir true true .nil) .nil)
  wellFormed := wellFormed_d

/-- `././ ... /d`. -/
def dots (k : Nat) : List UInt8 := (List.replicate k [46, 47]).flatten ++ [100]

theorem dots_succ (k : Nat) : dots (k + 1) = dot ++ slash :: dots k := by
  simp [dots, List.replicate_succ, dot, slash]

theorem splitOn_dots (k : Nat) : (dots k).splitOn slash = List.replicate k dot ++ [[100]] := by
  induction k with
  | zero => rfl
  | succ k ih =>
    rw [dots_succ, List.splitOn_append_cons_self_of_not_mem (by decide), ih, List.replicate_succ,
      List.cons_append]

theorem length_dots (k : Nat) : (dots k).length = 2 * k + 1 := by
  simp [dots, Nat.mul_comm]

theorem not_mem_dots (k : Nat) : 0 ∉ dots k := by
  induction k with
  | zero => decide
  | succ k ih =>
    rw [dots_succ, List.mem_append, List.mem_cons, not_or, not_or]
    exact ⟨by decide, by decide, ih⟩

theorem namei_dots {k : Nat} (hShort : 2 * k + 1 < PATH_MAX) :
    oneDir.namei false [] (dots k) = some [[100]] := by
  have hDots (links : Nat) : oneDir.resolve false links [] (List.replicate k dot ++ [[100]]) =
      oneDir.resolve false links [] [[100]] := by
    induction k with
    | zero => rfl
    | succ k ih =>
      rw [List.replicate_succ, List.cons_append, FileSystem.resolve_dot (by decide)]
      exact ih (by omega)
  have hNe : dots k ≠ [] := by simp [dots]
  rw [FileSystem.namei_eq hNe (by rw [length_dots]; exact hShort), splitOn_dots, start, ite_self,
    hDots]
  decide

/-- The buffer is filled by the pathname of a directory. -/
theorem overflow_dots : myftwNo oneDir (myfunc true) 3 zeros [] [] (dots 2047) =
    .error .overflow := by
  have hNamei : oneDir.namei false [] (dots 2047) = some [[100]] := namei_dots (by decide)
  obtain ⟨buffer, hStart, hReady⟩ := myftw_ready (dopathNo oneDir (myfunc true) 3) zeros [] hNamei
    (not_mem_dots 2047)
  rw [myftwNo, hStart]
  exact dopathNo_overflow rfl hReady (by rw [length_dots]; decide) rfl

/-- Why the walks are not the same in general: the callback tells the pathnames apart; the
directory above the start cannot be entered again; the pathname of a directory fits into the
buffer, but its slash does not. -/
theorem walkers_disagree :
    (Fits [100] twoFilesDir ∧ Enterable twoFiles.root ∧
      ∃ wNo wChdir, myftwNo twoFiles stopAtSlash 3 zeros [] () [100] = .ok (1, wNo) ∧
        myftwChdir twoFiles stopAtSlash 3 zeros [] () [100] = .ok (0, wChdir) ∧
        wNo.calls.map visit ≠ wChdir.calls.map visit) ∧
    (Fits dot (.dir true true .nil) ∧ Enterable closedRoot.root ∧
      myftwChdir closedRoot (myfunc true) 3 zeros [[100]] [] dot = .error .exit) ∧
    ((dots 2047).length < PATH_MAX ∧ Enterable oneDir.root ∧
      myftwNo oneDir (myfunc true) 3 zeros [] [] (dots 2047) = .error .overflow) := by
  refine ⟨⟨fits_d, ⟨fun _ => rfl, enterable_d, trivial⟩, stopAtSlash_d⟩, ⟨?_, ?_, ?_⟩,
    ⟨?_, ?_, overflow_dots⟩⟩
  · refine ⟨?_, trivial⟩
    show 2 < PATH_MAX
    decide
  · exact ⟨nofun, ⟨fun _ => rfl, trivial⟩, trivial⟩
  · decide +kernel
  · rw [length_dots]
    decide
  · exact ⟨fun _ => rfl, ⟨fun _ => rfl, trivial⟩, trivial⟩

end OsLabs.LabFs
