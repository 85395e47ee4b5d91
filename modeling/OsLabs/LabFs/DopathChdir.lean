import OsLabs.LabFs.Traversal

/-!
# The walk with `chdir`

Below the start the directory above an entry is the working directory, so `chdir("..")` leads
back to it. At the start it is whatever directory stands above the one that the pathname
names, which is the working directory for an entry of it only.
-/

namespace OsLabs.LabFs

open Fs Memory Runs

/-- `dopath_chdir` passes the names of the entries. -/
abbrev filenames : List UInt8 → Nat → Node → List Call :=
  traversal (fun _ name => name) (fun path => path)

/-- The process has a buffer. -/
def Sized (buffer : List UInt8) : Prop := buffer.length = PATH_MAX

variable {σ : Type} {fs : FileSystem} {func : Myfunc σ} {w : Walk σ} {path : List UInt8}
  {loc : Loc}

/-- The walk enters the entry: a directory that can be opened, for which the callback has
answered 0. -/
def Enters (w : Walk σ) (func : Myfunc σ) (path : List UInt8) : Node → Prop
  | .dir readable _ _ => readable = true ∧ (func w.state ⟨path, w.level, .FTW_D⟩).2 = 0
  | .other | .link _ => False

instance (w : Walk σ) (func : Myfunc σ) (path : List UInt8) :
    ∀ node, Decidable (Enters w func path node)
  | .dir _ _ _ => inferInstanceAs (Decidable (_ ∧ _))
  | .other | .link _ => inferInstanceAs (Decidable False)

/-- `dopath` traverses the trees with so many levels of directories and goes up once if it
has entered. -/
def WalksChdir (fs : FileSystem) (func : Myfunc σ) (dopath : Walk σ → Except Stop (Int × Walk σ))
    (fuel : Nat) : Prop :=
  ∀ {node : Node} {w : Walk σ} {path : List UInt8} {loc : Loc}, node.height < fuel →
    fs.node loc = some node → Ready fs w path loc →
    Outcome (¬ (Enterable node ∧ fs.searchable loc.dropLast = true)) Sized w func
      (filenames path w.level node) (if Enters w func path node then loc.dropLast else w.cwd)
      (dopath w)

/-- One entry of the working directory. -/
theorem WalksChdir.entry {dopath : Walk σ → Except Stop (Int × Walk σ)} {fuel : Nat}
    (hDopath : WalksChdir fs func dopath fuel) {name : Name} {node : Node}
    (hFuel : node.height < fuel) (hName : ValidName name)
    (hSearch : fs.searchable w.cwd = true) (hNode : fs.node (w.cwd ++ [name]) = some node)
    (hSized : Sized w.buffer) :
    ∃ buffer, write w.buffer 0 (name ++ [0]) = .ok buffer ∧
      Outcome (¬ Enterable node) Sized w func (filenames name w.level node) w.cwd
        (dopath { w with buffer := buffer }) := by
  obtain ⟨buffer, hWrite, hPrefix, hLength⟩ := write_prefix (name ++ [0])
    (List.nil_prefix (l := w.buffer)) (by
      rw [List.nil_append, List.length_append, hSized]
      exact Nat.le_trans (Nat.succ_le_succ hName.length) (by decide))
  have hReady : Ready fs { w with buffer := buffer } name (w.cwd ++ [name]) :=
    ⟨FileSystem.namei_name hSearch hName (by rw [hNode]; rfl), hPrefix, hLength.trans hSized,
      hName.zero⟩
  refine ⟨buffer, hWrite, ?_⟩
  have hOutcome := hDopath hFuel hNode hReady
  rw [List.dropLast_concat, ite_self] at hOutcome
  exact hOutcome.mono (fun hBad hEnter => hBad ⟨hEnter, hSearch⟩) fun _ => id

theorem descendChdir_outcome {dopath : Walk σ → Except Stop (Int × Walk σ)} {fuel : Nat}
    (hDopath : WalksChdir fs func dopath fuel) {readable searchable : Bool} {entries : Entries}
    (hFuel : entries.height < fuel)
    (hNode : fs.node loc = some (.dir readable searchable entries))
    (hReady : Ready fs w path loc) :
    Outcome (¬ (Enterable (.dir readable searchable entries) ∧
        fs.searchable loc.dropLast = true)) Sized w func
      (if readable then
          traversals (fun _ name => name) (fun path => path) path (w.level + 1) entries
        else [⟨path, w.level, .FTW_DNR⟩]) (if readable then loc.dropLast else w.cwd)
      (descendChdir fs func dopath w) := by
  have hDir := FileSystem.isDir_of_node hNode
  have hFollow := FileSystem.namei_follow hReady.namei hDir
  have hString : string w.buffer = .ok path := string_prefix hReady.buffer hReady.zero
  simp only [descendChdir, hString, bind, Except.bind, FileSystem.opendir, hFollow,
    Option.bind_some, hNode]
  cases readable with
  | false => exact Or.inl ⟨w.buffer, call_eq hString .FTW_DNR, hReady.length⟩
  | true =>
    have hSearchable : fs.searchable loc = searchable := by
      rw [FileSystem.searchable, hNode]
    have hChdir : fs.chdir w.cwd path = if searchable then some loc else none := by
      rw [← hSearchable, FileSystem.chdir, hFollow]
    simp only [hChdir]
    cases searchable with
    | false => exact Or.inr ⟨rfl, fun hBad => Bool.false_ne_true (hBad.1.1 rfl)⟩
    | true =>
      have hWf : entries.WellFormed := Node.WellFormed.at fs.wellFormed hNode
      have hLoop : Outcome (¬ AllEnterable entries) Sized
          { w with cwd := loc, level := w.level + 1 } func
          (traversals (fun _ name => name) (fun path => path) path (w.level + 1) entries) loc
          (readAll dopath 0 entries.names 0 { w with cwd := loc, level := w.level + 1 }) := by
        refine readAll_outcome entries hWf ?_ hReady.length
        intro name node hFind w' _ hCwd hSized
        have hChild : fs.node (w'.cwd ++ [name]) = some node := by
          rw [hCwd, FileSystem.node, Node.at_child hNode]
          exact hFind
        obtain ⟨buffer, hWrite, hOutcome⟩ := WalksChdir.entry hDopath
          (Nat.lt_of_le_of_lt (Entries.height_find hFind) hFuel) (hWf.find hFind).1
          (by rw [hCwd]; exact hSearchable) hChild hSized
        refine ⟨buffer, hWrite, hOutcome.mono ?_ fun _ => id⟩
        exact fun hBad hEnter => hBad (hEnter.find hFind)
      rw [if_pos rfl]
      rcases hLoop with ⟨buffer, hRead, hSized⟩ | ⟨hExit, hBad⟩
      · have hUp : fs.chdir loc dotdot =
            if fs.searchable loc.dropLast then some loc.dropLast else none :=
          FileSystem.chdir_dotdot hSearchable
        simp only [if_true, hRead, Walk.after, hUp]
        cases hAbove : fs.searchable loc.dropLast with
        | false => exact Or.inr ⟨rfl, fun hGood => Bool.false_ne_true hGood.2⟩
        | true => exact Or.inl ⟨buffer, rfl, hSized⟩
      · simp only [hExit]
        exact Or.inr ⟨rfl, fun hGood => hBad hGood.1.2⟩

theorem dopathChdir_outcome (fs : FileSystem) (func : Myfunc σ) (fuel : Nat) :
    WalksChdir fs func (dopathChdir fs func fuel) fuel := by
  induction fuel with
  | zero =>
    intro node w path loc hFuel
    exact absurd hFuel (Nat.not_lt_zero _)
  | succ fuel ih =>
    intro node w path loc hFuel hNode hReady
    have hAgain : Ready fs (w.after func [⟨path, w.level, .FTW_D⟩] w.buffer w.cwd).2 path loc :=
      ⟨hReady.namei, hReady.buffer, hReady.length, hReady.zero⟩
    rw [dopathChdir]
    cases node with
    | other | link target =>
      rw [if_neg (show ¬ Enters w func path _ from id),
        ← ite_self (c := Descends w func path _) w.cwd]
      apply dopath_outcome hNode hReady hReady.length
      nofun
    | dir readable searchable entries =>
      have hBelow := Nat.lt_of_succ_lt_succ hFuel
      cases readable with
      | false =>
        rw [if_neg (fun h => Bool.false_ne_true h.1),
          ← ite_self (c := Descends w func path _) w.cwd]
        apply dopath_outcome hNode hReady hReady.length
        rintro _ _ _ ⟨⟩
        exact descendChdir_outcome ih hBelow hNode hAgain
      | true =>
        have hSame : Enters w func path (.dir true searchable entries) =
            Descends w func path (.dir true searchable entries) := rfl
        simp only [hSame]
        apply dopath_outcome hNode hReady hReady.length
        rintro _ _ _ ⟨⟩
        exact descendChdir_outcome ih hBelow hNode hAgain

/-! ## Where the walk ends -/

/-- Whether the walk enters where it starts. -/
theorem enters_start {cwd start : Loc} {pathname buffer : List UInt8} {state : σ} {node : Node}
    (hNamei : fs.namei false cwd pathname = some start) (hNode : fs.node start = some node) :
    Enters (⟨buffer, 0, cwd, state, []⟩ : Walk σ) func pathname node ↔
      node.isDir = true ∧ fs.opendir cwd pathname ≠ none ∧
        (func state ⟨pathname, 0, .FTW_D⟩).2 = 0 := by
  cases node with
  | other | link target => simp [Enters, Node.isDir]
  | dir readable searchable entries =>
    have hFollow := FileSystem.namei_follow hNamei (FileSystem.isDir_of_node hNode)
    rw [FileSystem.opendir, hFollow, Option.bind_some, hNode]
    cases readable with
    | false => simp [Enters]
    | true => simp [Enters, Node.isDir]

/-- A walk as a whole. -/
theorem myftwChdir_outcome (func : Myfunc σ) (fuel : Nat) (block : Block) {cwd start : Loc}
    (state : σ) {pathname : List UInt8} {node : Node} (hZero : 0 ∉ pathname)
    (hNamei : fs.namei false cwd pathname = some start) (hNode : fs.node start = some node)
    (hFuel : node.height < fuel) :
    ∃ buffer, Outcome (¬ (Enterable node ∧ fs.searchable start.dropLast = true)) Sized
      ⟨buffer, 0, cwd, state, []⟩ func (filenames pathname 0 node)
      (if Enters ⟨buffer, 0, cwd, state, []⟩ func pathname node then start.dropLast else cwd)
      (myftwChdir fs func fuel block cwd state pathname) := by
  obtain ⟨buffer, hStart, hReady⟩ := myftw_ready (dopathChdir fs func fuel) block state hNamei
    hZero
  refine ⟨buffer, ?_⟩
  rw [myftwChdir, hStart]
  exact dopathChdir_outcome fs func fuel hFuel hNode hReady

/-- After a walk the process is where it was if and only if it has not entered the start, or
this is an entry of the working directory (or both are the root). The only other end of a
walk is a `chdir` that fails, and then some directory of the walk, or the one above the start,
cannot be entered. -/
theorem restores_iff {fuel : Nat} {block : Block} {cwd start : Loc} {state : σ}
    {pathname : List UInt8} {node : Node} (hZero : 0 ∉ pathname)
    (hNamei : fs.namei false cwd pathname = some start) (hNode : fs.node start = some node)
    (hFuel : node.height < fuel) :
    (∃ ret w, myftwChdir fs func fuel block cwd state pathname = .ok (ret, w) ∧
        (w.cwd = cwd ↔ start.dropLast = cwd ∨ node.isDir = false ∨
          fs.opendir cwd pathname = none ∨ (func state ⟨pathname, 0, .FTW_D⟩).2 ≠ 0)) ∨
      (myftwChdir fs func fuel block cwd state pathname = .error .exit ∧
        ¬ (Enterable node ∧ fs.searchable start.dropLast = true)) := by
  obtain ⟨buffer, ⟨buffer', hResult, -⟩ | ⟨hExit, hBad⟩⟩ :=
    myftwChdir_outcome func fuel block state hZero hNamei hNode hFuel
  · refine Or.inl ⟨_, _, hResult, ?_⟩
    show (if _ then _ else _) = cwd ↔ _
    split
    · next hIn =>
      rw [enters_start hNamei hNode] at hIn
      simp [hIn]
    · next hOut =>
      rw [enters_start hNamei hNode, not_and_or, not_and_or, Bool.not_eq_true,
        Decidable.not_not] at hOut
      simp [hOut]
  · exact Or.inr ⟨hExit, hBad⟩

theorem wellFormed_d : (Entries.entry [100] (.dir true true .nil) .nil).WellFormed := by
  refine ⟨⟨?_, ?_, ?_, ?_, ?_, ?_⟩, rfl, trivial, trivial⟩ <;> decide

/-- The root with a directory `d`. -/
def oneDir : FileSystem where
  root := .dir true true (.entry [100] (.dir true true .nil) .nil)
  wellFormed := wellFormed_d

def zeros : Block := ⟨List.replicate PATH_MAX 0, List.length_replicate⟩

/-- From the root to `d` and back. -/
theorem restores_d :
    ∃ ret w, myftwChdir oneDir (myfunc true) 3 zeros [] [] [100] = .ok (ret, w) ∧ w.cwd = [] := by
  have hWalk : (∃ ret w, myftwChdir oneDir (myfunc true) 3 zeros [] [] [100] = .ok (ret, w) ∧
      (w.cwd = [] ↔ _)) ∨ _ :=
    restores_iff (by decide) (show oneDir.namei false [] [100] = some [[100]] by decide) rfl
      (by decide)
  rcases hWalk with ⟨ret, w, hResult, hBack⟩ | ⟨-, hBad⟩
  · exact ⟨ret, w, hResult, hBack.mpr (Or.inl rfl)⟩
  · exact absurd ⟨⟨fun _ => rfl, trivial⟩, rfl⟩ hBad

/-- From `d` to itself and up. -/
theorem not_restores_dot :
    ∃ ret w, myftwChdir oneDir (myfunc true) 3 zeros [[100]] [] dot = .ok (ret, w) ∧
      w.cwd ≠ [[100]] := by
  have hNamei : oneDir.namei false [[100]] dot = some [[100]] := by decide
  obtain ⟨buffer, ⟨buffer', hResult, -⟩ | ⟨-, hBad⟩⟩ :=
    myftwChdir_outcome (myfunc true) 3 zeros [] (by decide) hNamei rfl (by decide)
  · have hEnters : Enters (⟨buffer, 0, [[100]], [], []⟩ : Walk (List Line)) (myfunc true) dot
        (.dir true true .nil) := ⟨rfl, rfl⟩
    refine ⟨_, _, hResult, ?_⟩
    dsimp only [Walk.after]
    rw [if_pos hEnters]
    decide
  · exact absurd ⟨⟨fun _ => rfl, trivial⟩, rfl⟩ hBad

end OsLabs.LabFs
