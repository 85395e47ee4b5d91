import OsLabs.LabFs.Traversal

/-!
# The walk with full pathnames

The buffer begins with the pathname of the current entry when `dopath_no` is called and when
it returns, whatever it has left behind it: a slash behind an unreadable directory, or the
rest of a longer pathname. So the caller finds the pathname of its directory there when it
copies the next name behind it.
-/

namespace OsLabs.LabFs

open Fs Memory Runs

/-- `dopath_no` passes full pathnames. -/
abbrev fullpaths : List UInt8 → Nat → Node → List Call :=
  traversal (fun path name => path ++ slash :: name) (fun path => path ++ [slash])

mutual

/-- All pathnames built in `fullpath` fit into it. -/
def Fits (path : List UInt8) : Node → Prop
  | .dir _ _ entries => (path ++ [slash]).length < PATH_MAX ∧ AllFit path entries
  | .other | .link _ => path.length < PATH_MAX

def AllFit (path : List UInt8) : Entries → Prop
  | .nil => True
  | .self rest | .parent rest => AllFit path rest
  | .entry name node rest => Fits (path ++ slash :: name) node ∧ AllFit path rest

end

theorem Fits.length {path : List UInt8} {node : Node} (h : Fits path node) :
    path.length < PATH_MAX := by
  cases node with
  | other | link target => exact h
  | dir readable searchable entries =>
    have hSlash := h.1
    rw [List.length_append] at hSlash
    exact Nat.lt_of_succ_lt hSlash

/-- The buffer starts with this. -/
def Begins (path buffer : List UInt8) : Prop := path <+: buffer ∧ buffer.length = PATH_MAX

variable {σ : Type} {fs : FileSystem} {func : Myfunc σ} {w : Walk σ} {path : List UInt8}
  {loc : Loc}

theorem Ready.begins (h : Ready fs w path loc) : Begins path w.buffer :=
  ⟨List.IsPrefix.trans (List.prefix_append _ _) h.buffer, h.length⟩

theorem AllFit.find {entries : Entries} (h : AllFit path entries) {c : Name} {node : Node}
    (hFind : entries.find c = some node) : Fits (path ++ slash :: c) node :=
  Entries.find_elim (Q := AllFit path) (fun _ => id) (fun _ => id) (fun _ _ _ => id) h hFind

/-- `dopath` traverses the trees with so many levels of directories. -/
def WalksNo (fs : FileSystem) (func : Myfunc σ) (dopath : Walk σ → Except Stop (Int × Walk σ))
    (fuel : Nat) : Prop :=
  ∀ {node : Node} {w : Walk σ} {path : List UInt8} {loc : Loc}, node.height < fuel →
    fs.node loc = some node → Ready fs w path loc → Fits path node → Enterable node →
    Outcome False (Begins path) w func (fullpaths path w.level node) w.cwd (dopath w)

theorem Begins.mono {buffer before : List UInt8} (h : Begins path buffer)
    (hPath : before <+: path) : Begins before buffer :=
  ⟨hPath.trans h.1, h.2⟩

/-- One entry of the directory `path`. -/
theorem WalksNo.entry {dopath : Walk σ → Except Stop (Int × Walk σ)} {fuel : Nat}
    (hDopath : WalksNo fs func dopath fuel) {name : Name} {node : Node}
    (hFuel : node.height < fuel) (hName : ValidName name) (hSearch : fs.searchable loc = true)
    (hNode : fs.node (loc ++ [name]) = some node)
    (hNamei : fs.namei false w.cwd path = some loc) (hZero : 0 ∉ path)
    (hFits : Fits (path ++ slash :: name) node) (hEnter : Enterable node)
    (hBegins : Begins (path ++ [slash]) w.buffer) :
    ∃ buffer, write w.buffer (path.length + 1) (name ++ [0]) = .ok buffer ∧
      Outcome False (Begins (path ++ [slash])) w func
        (fullpaths (path ++ slash :: name) w.level node) w.cwd
        (dopath { w with buffer := buffer }) := by
  have hShort := hFits.length
  have hPath : path ++ [slash] ++ (name ++ [0]) = path ++ slash :: name ++ [0] := by simp
  obtain ⟨buffer, hWrite, hPrefix, hLength⟩ := write_prefix (name ++ [0]) hBegins.1 (by
    rw [hPath, hBegins.2, List.length_append]
    exact hShort)
  rw [List.length_append, List.length_singleton] at hWrite
  rw [hPath] at hPrefix
  have hReady : Ready fs { w with buffer := buffer } (path ++ slash :: name) (loc ++ [name]) := by
    refine ⟨?_, hPrefix, hLength.trans hBegins.2, ?_⟩
    · exact FileSystem.namei_child hNamei hSearch hName (by rw [hNode]; rfl) hShort
    · simp [hZero, hName.zero, slash]
  refine ⟨buffer, hWrite, ?_⟩
  exact (hDopath hFuel hNode hReady hFits hEnter).mono id fun _ hBuffer => hBuffer.mono (by simp)

theorem descendNo_outcome {dopath : Walk σ → Except Stop (Int × Walk σ)} {fuel : Nat}
    (hDopath : WalksNo fs func dopath fuel) {readable searchable : Bool} {entries : Entries}
    (hFuel : entries.height < fuel)
    (hNode : fs.node loc = some (.dir readable searchable entries))
    (hReady : Ready fs w path loc) (hFits : Fits path (.dir readable searchable entries))
    (hEnter : Enterable (.dir readable searchable entries)) :
    Outcome False (Begins path) w func
      (if readable then traversals (fun path name => path ++ slash :: name)
          (fun path => path ++ [slash]) path (w.level + 1) entries
        else [⟨path ++ [slash], w.level, .FTW_DNR⟩]) w.cwd (descendNo fs func dopath w) := by
  obtain ⟨hShort, hAllFit⟩ := hFits
  have hDir := FileSystem.isDir_of_node hNode
  have hString : string w.buffer = .ok path := string_prefix hReady.buffer hReady.zero
  obtain ⟨buffer₁, hSlash, hPrefix₁, hLength₁⟩ := write_prefix [slash] hReady.begins.1
    (by rw [hReady.length]; exact Nat.le_of_lt hShort)
  rw [hReady.length] at hLength₁
  obtain ⟨buffer₂, hEnd, hPrefix₂, hLength₂⟩ := write_prefix [0] hPrefix₁
    (by rw [hLength₁, List.length_append]; exact hShort)
  rw [List.length_append, List.length_singleton] at hEnd
  rw [hLength₁] at hLength₂
  have hZero : 0 ∉ path ++ [slash] := by simp [hReady.zero, slash]
  have hString₂ : string buffer₂ = .ok (path ++ [slash]) := string_prefix hPrefix₂ hZero
  have hKept : path <+: buffer₂ := List.IsPrefix.trans (by simp) hPrefix₂
  simp only [descendNo, hString, hSlash, hEnd, hString₂, bind, Except.bind]
  cases readable with
  | false =>
    have hClosed : fs.opendir w.cwd (path ++ [slash]) = none := by
      rw [FileSystem.opendir, FileSystem.namei_slash hReady.namei hDir hShort, Option.bind_some,
        hNode]
    rw [hClosed]
    exact Or.inl ⟨buffer₂, call_eq hString₂ .FTW_DNR, hKept, hLength₂⟩
  | true =>
    have hOpen : fs.opendir w.cwd (path ++ [slash]) = some entries.names := by
      rw [FileSystem.opendir, FileSystem.namei_slash hReady.namei hDir hShort, Option.bind_some,
        hNode]
    have hSearch : fs.searchable loc = true := by
      rw [FileSystem.searchable, hNode]
      exact hEnter.1 rfl
    have hWf : entries.WellFormed := Node.WellFormed.at fs.wellFormed hNode
    have hLoop : Outcome False (Begins (path ++ [slash]))
        { w with buffer := buffer₂, level := w.level + 1 } func
        (traversals (fun path name => path ++ slash :: name) (fun path => path ++ [slash]) path
          (w.level + 1) entries) w.cwd
        (readAll dopath (path.length + 1) entries.names 0
          { w with buffer := buffer₂, level := w.level + 1 }) := by
      refine readAll_outcome entries hWf ?_
        ⟨List.IsPrefix.trans (by simp) hPrefix₂, hLength₂⟩
      intro name node hFind w' _ hCwd hGood
      refine WalksNo.entry hDopath (Nat.lt_of_le_of_lt (Entries.height_find hFind) hFuel)
        (hWf.find hFind).1 hSearch ?_ ?_ hReady.zero (hAllFit.find hFind) (hEnter.2.find hFind)
        hGood
      · rw [FileSystem.node, Node.at_child hNode]
        exact hFind
      · rw [hCwd]
        exact hReady.namei
    rw [hOpen]
    dsimp only
    rcases hLoop with ⟨buffer₃, hRead, hPrefix₃, hLength₃⟩ | ⟨-, hNever⟩
    · have hBack : path <+: buffer₃ := List.IsPrefix.trans (by simp) hPrefix₃
      obtain ⟨buffer₄, hCut, hPrefix₄, hLength₄⟩ := write_prefix [0] hBack
        (by rw [hLength₃, List.length_append]; exact hReady.short)
      rw [hRead]
      dsimp only
      simp only [Walk.after, hCut]
      refine Or.inl ⟨buffer₄, rfl, ?_, hLength₄.trans hLength₃⟩
      exact List.IsPrefix.trans (by simp) hPrefix₄
    · exact hNever.elim

theorem dopathNo_outcome (fs : FileSystem) (func : Myfunc σ) (fuel : Nat) :
    WalksNo fs func (dopathNo fs func fuel) fuel := by
  induction fuel with
  | zero =>
    intro node w path loc hFuel
    exact absurd hFuel (Nat.not_lt_zero _)
  | succ fuel ih =>
    intro node w path loc hFuel hNode hReady hFits hEnter
    rw [dopathNo, ← ite_self (c := Descends w func path node) w.cwd]
    apply dopath_outcome hNode hReady hReady.begins
    rintro readable searchable entries rfl
    have hAgain : Ready fs (w.after func [⟨path, w.level, .FTW_D⟩] w.buffer w.cwd).2 path loc :=
      ⟨hReady.namei, hReady.buffer, hReady.length, hReady.zero⟩
    exact descendNo_outcome ih (Nat.lt_of_succ_lt_succ hFuel) hNode hAgain hFits hEnter

/-- A directory whose pathname fills the buffer: the slash takes the place of the closing
zero, and the new zero is written behind the end. -/
theorem dopathNo_overflow {fuel : Nat} {readable searchable : Bool} {entries : Entries}
    (hNode : fs.node loc = some (.dir readable searchable entries))
    (hReady : Ready fs w path loc) (hFull : path.length + 1 = PATH_MAX)
    (hAnswer : (func w.state ⟨path, w.level, .FTW_D⟩).2 = 0) :
    dopathNo fs func (fuel + 1) w = .error .overflow := by
  have hString : string w.buffer = .ok path := string_prefix hReady.buffer hReady.zero
  obtain ⟨buffer₁, hSlash, -, hLength₁⟩ := write_prefix [slash] hReady.begins.1
    (by rw [List.length_append, hReady.length]; exact Nat.le_of_eq hFull)
  rw [hReady.length] at hLength₁
  have hEnd : write buffer₁ (path.length + 1) [0] = .error .overflow := by
    rw [write, store, if_neg]
    rw [hFull, hLength₁]
    exact Nat.not_succ_le_self _
  simp [dopathNo, dopath, Walk.call, descendNo, hString, hReady.lstat hNode, Node.isDir, hAnswer,
    hSlash, hEnd, bind, Except.bind, pure, Except.pure]

end OsLabs.LabFs
