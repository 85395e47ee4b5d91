import OsLabs.LabFs.Ftw

/-!
# What the two walkers have in common

Both make the calls of a pre-order traversal (`traversal`), which differ in the pathnames only,
and both end the loop over the entries at the first answer that is not 0. So one lemma is
enough for the loop (`readAll_outcome`) and one for what happens before it
(`dopath_outcome`); what is left to each walker is how the buffer and the working directory
come back from an entry.
-/

namespace OsLabs.LabFs

open Fs Memory Runs

/-! ## The traversal -/

mutual

/-- The calls for an entry with this pathname, all answered with 0. `join` is the pathname of
an entry of a directory, `closed` that of a directory that cannot be opened. -/
def traversal (join : List UInt8 → Name → List UInt8) (closed : List UInt8 → List UInt8)
    (path : List UInt8) (level : Nat) : Node → List Call
  | .dir readable _ entries => ⟨path, level, .FTW_D⟩ ::
      if readable then traversals join closed path (level + 1) entries
      else [⟨closed path, level, .FTW_DNR⟩]
  | .other | .link _ => [⟨path, level, .FTW_F⟩]

def traversals (join : List UInt8 → Name → List UInt8) (closed : List UInt8 → List UInt8)
    (path : List UInt8) (level : Nat) : Entries → List Call
  | .nil => []
  | .self rest | .parent rest => traversals join closed path level rest
  | .entry name node rest =>
    traversal join closed (join path name) level node ++ traversals join closed path level rest

end

mutual

/-- The directories that can be opened can be entered. -/
def Enterable : Node → Prop
  | .dir readable searchable entries =>
    (readable = true → searchable = true) ∧ AllEnterable entries
  | .other | .link _ => True

def AllEnterable : Entries → Prop
  | .nil => True
  | .self rest | .parent rest => AllEnterable rest
  | .entry _ node rest => Enterable node ∧ AllEnterable rest

end

/-! ## Calls of the callback -/

variable {σ : Type} {fs : FileSystem} {func : Myfunc σ} {w : Walk σ} {path : List UInt8}

/-- The walk after these calls, with what it returns. -/
def Walk.after (w : Walk σ) (func : Myfunc σ) (calls : List Call) (buffer : List UInt8)
    (cwd : Loc) : Int × Walk σ :=
  let r := callUntil func w.state calls
  (r.answer, ⟨buffer, w.level, cwd, r.state, w.calls ++ r.made⟩)

theorem string_prefix {buffer : List UInt8} (hPath : path ++ [0] <+: buffer) (hZero : 0 ∉ path) :
    string buffer = .ok path := by
  rw [string, cstr_prefix hPath hZero]

theorem write_prefix (bytes : List UInt8) {buffer : List UInt8} (hPath : path <+: buffer)
    (hFits : (path ++ bytes).length ≤ buffer.length) :
    ∃ buffer', write buffer path.length bytes = .ok buffer' ∧ path ++ bytes <+: buffer' ∧
      buffer'.length = buffer.length := by
  obtain ⟨buffer', hStore, hPrefix, hLength⟩ := store_prefix hPath hFits
  exact ⟨buffer', by rw [write, hStore], hPrefix, hLength⟩

theorem call_eq (hString : string w.buffer = .ok path) (type : FileType) :
    w.call func type = .ok (w.after func [⟨path, w.level, type⟩] w.buffer w.cwd) := by
  rw [Walk.call, hString, Walk.after, callUntil_one]
  rfl

theorem after_append_stop {xs : List Call} (ys : List Call) {buffer : List UInt8} {cwd : Loc}
    (hStop : (w.after func xs buffer cwd).1 ≠ 0) :
    w.after func (xs ++ ys) buffer cwd = w.after func xs buffer cwd := by
  simp only [Walk.after] at hStop ⊢
  rw [callUntil_append, if_pos hStop]

theorem after_append_go {xs : List Call} (ys : List Call) {buffer buffer' : List UInt8}
    {cwd cwd' : Loc} (hGo : (w.after func xs buffer cwd).1 = 0) :
    (w.after func xs buffer cwd).2.after func ys buffer' cwd' =
      w.after func (xs ++ ys) buffer' cwd' := by
  simp only [Walk.after] at hGo ⊢
  rw [callUntil_append, if_neg (by simp [hGo])]
  simp

/-! ## The loop over the entries -/

/-- A walk has made these calls and is in `cwd`, with a buffer that is `good`, or the process
has ended because of something `bad`. -/
def Outcome (bad : Prop) (good : List UInt8 → Prop) (w : Walk σ) (func : Myfunc σ)
    (calls : List Call) (cwd : Loc) (result : Except Stop (Int × Walk σ)) : Prop :=
  (∃ buffer, result = .ok (w.after func calls buffer cwd) ∧ good buffer) ∨
    result = .error .exit ∧ bad

section

variable {bad : Prop} {good : List UInt8 → Prop} {join : List UInt8 → Name → List UInt8}
  {closed : List UInt8 → List UInt8} {dopath : Walk σ → Except Stop (Int × Walk σ)} {off : Nat}

theorem Outcome.mono {bad' : Prop} {good' : List UInt8 → Prop} {calls : List Call} {cwd : Loc}
    {result : Except Stop (Int × Walk σ)} (h : Outcome bad good w func calls cwd result)
    (hBad : bad → bad') (hGood : ∀ buffer, good buffer → good' buffer) :
    Outcome bad' good' w func calls cwd result := by
  rcases h with ⟨buffer, hResult, hBuffer⟩ | ⟨hExit, hReason⟩
  · exact Or.inl ⟨buffer, hResult, hGood buffer hBuffer⟩
  · exact Or.inr ⟨hExit, hBad hReason⟩

theorem Outcome.append {xs ys : List Call} {buffer : List UInt8} {cwd cwd' : Loc}
    {result : Except Stop (Int × Walk σ)} (hGo : (w.after func xs buffer cwd).1 = 0)
    (h : Outcome bad good (w.after func xs buffer cwd).2 func ys cwd' result) :
    Outcome bad good w func (xs ++ ys) cwd' result := by
  rcases h with ⟨buffer', hResult, hGood⟩ | hExit
  · rw [after_append_go _ hGo] at hResult
    exact Or.inl ⟨buffer', hResult, hGood⟩
  · exact Or.inr hExit

/-- If the walk goes on as it should from every entry, so it does from all of them. -/
theorem readAll_outcome (entries : Entries) (hWf : entries.WellFormed)
    (hEntry : ∀ name node, entries.find name = some node → ∀ w' : Walk σ, w'.level = w.level →
      w'.cwd = w.cwd → good w'.buffer →
      ∃ buffer, write w'.buffer off (name ++ [0]) = .ok buffer ∧
        Outcome bad good w' func (traversal join closed (join path name) w'.level node) w'.cwd
          (dopath { w' with buffer := buffer }))
    (hGood : good w.buffer) :
    Outcome bad good w func (traversals join closed path w.level entries) w.cwd
      (readAll dopath off entries.names 0 w) := by
  induction entries using Entries.names.induct generalizing w with
  | case1 =>
    refine Or.inl ⟨w.buffer, ?_, hGood⟩
    simp [Entries.names, readAll, traversals, Walk.after, callUntil, pure, Except.pure]
  | case2 rest ih =>
    rw [Entries.names, readAll, if_pos (Or.inl rfl), traversals]
    exact ih hWf hEntry hGood
  | case3 rest ih =>
    rw [Entries.names, readAll, if_pos (Or.inr rfl), traversals]
    exact ih hWf hEntry hGood
  | case4 name node rest ih =>
    obtain ⟨hName, -, -, hRest⟩ := id hWf
    obtain ⟨buffer₁, hWrite, hFirst⟩ := hEntry name node (by rw [Entries.find, if_pos rfl]) w rfl
      rfl hGood
    rw [Entries.names, readAll, if_neg (by simp [hName.ne_dot, hName.ne_dotdot]), traversals]
    simp only [hWrite, bind, Except.bind]
    rcases hFirst with ⟨buffer₂, hCall, hGood₂⟩ | ⟨hExit, hBad⟩
    · rw [hCall]
      dsimp only
      split
      · next hStop =>
        refine Or.inl ⟨buffer₂, ?_, hGood₂⟩
        rw [after_append_stop _ hStop]
        rfl
      · next hGo =>
        rw [Decidable.not_not] at hGo
        rw [hGo]
        apply Outcome.append hGo
        exact ih hRest (fun c child hFind => hEntry c child (hWf.find_rest hFind)) hGood₂
    · rw [hExit]
      exact Or.inr ⟨rfl, hBad⟩

end

/-! ## One entry -/

/-- The pathname in the buffer names the place `loc`. -/
structure Ready (fs : FileSystem) (w : Walk σ) (path : List UInt8) (loc : Loc) : Prop where
  namei : fs.namei false w.cwd path = some loc
  buffer : path ++ [0] <+: w.buffer
  length : w.buffer.length = PATH_MAX
  zero : 0 ∉ path

variable {loc : Loc} {bad : Prop} {good : List UInt8 → Prop}
  {join : List UInt8 → Name → List UInt8} {closed : List UInt8 → List UInt8}

theorem Ready.short (h : Ready fs w path loc) : path.length < PATH_MAX :=
  (FileSystem.namei_bounds h.namei).2

theorem Ready.lstat (h : Ready fs w path loc) {node : Node} (hNode : fs.node loc = some node) :
    fs.lstat w.cwd path = some node := by
  rw [FileSystem.lstat, h.namei]
  exact hNode

theorem AllEnterable.find {entries : Entries} (h : AllEnterable entries) {c : Name} {node : Node}
    (hFind : entries.find c = some node) : Enterable node :=
  Entries.find_elim (Q := AllEnterable) (R := fun _ => Enterable) (fun _ => id) (fun _ => id)
    (fun _ _ _ => id) h hFind

/-- The walk goes on below the entry: it is a directory, and the callback has answered 0. -/
def Descends (w : Walk σ) (func : Myfunc σ) (path : List UInt8) (node : Node) : Prop :=
  node.isDir = true ∧ (func w.state ⟨path, w.level, .FTW_D⟩).2 = 0

instance (w : Walk σ) (func : Myfunc σ) (path : List UInt8) (node : Node) :
    Decidable (Descends w func path node) :=
  inferInstanceAs (Decidable (_ ∧ _))

/-- What `dopath_no` and `dopath_chdir` have in common. -/
theorem dopath_outcome {descend : Walk σ → Except Stop (Int × Walk σ)} {node : Node}
    {cwd : Loc} (hNode : fs.node loc = some node) (hReady : Ready fs w path loc)
    (hGood : good w.buffer)
    (hDescend : ∀ readable searchable entries, node = .dir readable searchable entries →
      Outcome bad good (w.after func [⟨path, w.level, .FTW_D⟩] w.buffer w.cwd).2 func
        (if readable then traversals join closed path (w.level + 1) entries
          else [⟨closed path, w.level, .FTW_DNR⟩]) cwd
        (descend (w.after func [⟨path, w.level, .FTW_D⟩] w.buffer w.cwd).2)) :
    Outcome bad good w func (traversal join closed path w.level node)
      (if Descends w func path node then cwd else w.cwd) (dopath fs func descend w) := by
  have hString : string w.buffer = .ok path := string_prefix hReady.buffer hReady.zero
  cases node with
  | other | link target =>
    rw [if_neg (by simp [Descends, Node.isDir])]
    simp only [dopath, hString, bind, Except.bind, hReady.lstat hNode, Node.isDir, if_true]
    exact Or.inl ⟨w.buffer, call_eq hString .FTW_F, hGood⟩
  | dir readable searchable entries =>
    have hAnswer : (w.after func [⟨path, w.level, .FTW_D⟩] w.buffer w.cwd).1 =
        (func w.state ⟨path, w.level, .FTW_D⟩).2 := by
      rw [Walk.after, callUntil_one]
    rw [traversal, ← List.singleton_append]
    by_cases hGo : (w.after func [⟨path, w.level, .FTW_D⟩] w.buffer w.cwd).1 = 0
    · have hDescends : Descends w func path (.dir readable searchable entries) :=
        ⟨rfl, hAnswer.symm.trans hGo⟩
      have hDopath : dopath fs func descend w =
          descend (w.after func [⟨path, w.level, .FTW_D⟩] w.buffer w.cwd).2 := by
        simp [dopath, hString, bind, Except.bind, hReady.lstat hNode, Node.isDir,
          call_eq hString, hGo]
      rw [if_pos hDescends, hDopath]
      exact Outcome.append hGo (hDescend readable searchable entries rfl)
    · have hStays : ¬ Descends w func path (.dir readable searchable entries) :=
        fun h => hGo (hAnswer.trans h.2)
      rw [if_neg hStays]
      refine Or.inl ⟨w.buffer, ?_, hGood⟩
      rw [after_append_stop _ hGo]
      simp [dopath, hString, bind, Except.bind, hReady.lstat hNode, Node.isDir,
        call_eq hString, hGo, pure, Except.pure]

/-- The closing zero that is written at the end of the buffer does not cut the pathname. -/
theorem write_end {buffer : List UInt8} (hPath : path ++ [0] <+: buffer)
    (hLength : buffer.length = PATH_MAX) (hShort : path.length < PATH_MAX) :
    ∃ buffer', write buffer (PATH_MAX - 1) [0] = .ok buffer' ∧ path ++ [0] <+: buffer' ∧
      buffer'.length = PATH_MAX := by
  rcases Nat.eq_or_lt_of_le (Nat.le_sub_one_of_lt hShort) with hLast | hBefore
  · have hFront : path <+: buffer := List.IsPrefix.trans (List.prefix_append _ _) hPath
    obtain ⟨buffer', hWrite, hPrefix, hSame⟩ := write_prefix [0] hFront
      (by rw [List.length_append, hLength]; exact hShort)
    rw [hLast] at hWrite
    exact ⟨buffer', hWrite, hPrefix, hSame.trans hLength⟩
  · have hOff : (path ++ [0]).length ≤ PATH_MAX - 1 := by
      rw [List.length_append]
      exact hBefore
    have hFits : PATH_MAX - 1 + [(0 : UInt8)].length ≤ buffer.length := by
      rw [hLength]
      decide
    obtain ⟨buffer', hStore, hPrefix, hSame⟩ := store_behind hPath hOff hFits
    exact ⟨buffer', by rw [write, hStore], hPrefix, hSame.trans hLength⟩

/-- A walk starts with the pathname in its buffer. -/
theorem myftw_ready (dopath : Walk σ → Except Stop (Int × Walk σ)) (block : Block) {cwd : Loc}
    (state : σ) (hNamei : fs.namei false cwd path = some loc) (hZero : 0 ∉ path) :
    ∃ buffer, myftw dopath block cwd state path = dopath ⟨buffer, 0, cwd, state, []⟩ ∧
      Ready fs (⟨buffer, 0, cwd, state, []⟩ : Walk σ) path loc := by
  have hShort := (FileSystem.namei_bounds hNamei).2
  obtain ⟨buffer₁, hCopy, hPrefix₁, hLength₁⟩ := write_prefix (path ++ [0])
    (List.nil_prefix (l := block.val)) (by
      rw [List.nil_append, List.length_append, block.property]
      exact hShort)
  rw [block.property] at hLength₁
  rw [List.length_nil] at hCopy
  obtain ⟨buffer₂, hEnd, hPrefix₂, hLength₂⟩ := write_end hPrefix₁ hLength₁ hShort
  refine ⟨buffer₂, ?_, hNamei, hPrefix₂, hLength₂, hZero⟩
  simp only [myftw, hCopy, hEnd, bind, Except.bind]

end OsLabs.LabFs
