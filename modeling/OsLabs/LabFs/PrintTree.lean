import OsLabs.Fs.Path

/-!
# The separate program `tree.c`

`print_tree` prints the entries of a directory and calls itself for those that are directories. It
looks at no result: `readdir` gets what `opendir` returned, and a null pointer ends the process
there; a `chdir` that fails leaves the working directory as it is; an `lstat` that fails leaves
`sbuf` as it is, at first with whatever is on the stack. The calls fail for want of permission only,
and the tree does not change meanwhile.
-/

namespace OsLabs.LabFs.PrintTree

open Fs

/-- The name of an entry behind `indent` times `"| _"`, or the bar after a directory. -/
inductive Line where
  | entry (indent : Nat) (name : Name)
  | bar
deriving DecidableEq

inductive Fault where
  | readdir
  | fuel
deriving DecidableEq

/-- The working directory, what has been printed, the number of calls of `print_tree` so far, and
for every nested call that has returned the working directories before and after it. -/
structure State where
  cwd : Loc
  lines : List Line
  calls : Nat
  returns : List (Loc × Loc)
deriving DecidableEq

def State.print (s : State) (line : Line) : State := { s with lines := s.lines ++ [line] }

/-- A nested call that was made in `s` has returned in `s'`. -/
def State.back (s s' : State) : State := { s' with returns := s'.returns ++ [(s.cwd, s'.cwd)] }

/-- One more call. -/
def State.call (s : State) : State := { s with calls := s.calls + 1 }

/-- A `chdir` whose result is not looked at. -/
def State.chdir (fs : FileSystem) (s : State) (path : List UInt8) : State :=
  { s with cwd := (fs.chdir s.cwd path).getD s.cwd }

/-- What `S_ISDIR(sbuf.st_mode)` says after `lstat(name, &sbuf)`, whose result is not looked at. -/
def State.lstat (fs : FileSystem) (s : State) (name : Name) (sbuf : Bool) : Bool :=
  match fs.lstat s.cwd name with
  | some node => node.isDir
  | none => sbuf

/-- The loop over the entries. -/
def readEntries (fs : FileSystem) (printTree : State → Name → Nat → Except Fault State)
    (indent : Nat) : List Name → Bool → State → Except Fault State
  | [], _, s => .ok s
  | name :: rest, sbuf, s =>
    let sbuf := s.lstat fs name sbuf
    if name = dot ∨ name = dotdot then readEntries fs printTree indent rest sbuf s
    else
      let s := s.print (.entry indent name)
      if sbuf then do
        let s' ← printTree s name (indent + 2)
        readEntries fs printTree indent rest sbuf ((s.back s').print .bar)
      else readEntries fs printTree indent rest sbuf s

/-- `garbage` is what `sbuf` of each call says before the first `lstat`. -/
def printTree (fs : FileSystem) (garbage : Nat → Bool) :
    Nat → State → List UInt8 → Nat → Except Fault State
  | 0, _, _, _ => .error .fuel
  | fuel + 1, s, dirname, indent =>
    match fs.opendir s.cwd dirname with
    | none => .error .readdir
    | some names => do
      let s' ← readEntries fs (printTree fs garbage fuel) indent names (garbage s.calls)
        (s.call.chdir fs dirname)
      return s'.chdir fs dotdot

/-- The process calls `print_tree(argv[1], 1)`. -/
def start (fs : FileSystem) (garbage : Nat → Bool) (fuel : Nat) (cwd : Loc)
    (dirname : List UInt8) : Except Fault State :=
  printTree fs garbage fuel ⟨cwd, [], 0, []⟩ dirname 1

/-! ## A faithful listing -/

mutual

/-- What is printed for the entries of a directory that can be read and entered. -/
def Lists (depth : Nat) : Entries → List Line → Prop
  | .nil, lines => lines = []
  | .self rest, lines | .parent rest, lines => Lists depth rest lines
  | .entry name node rest, lines => ∃ below after,
    lines = .entry (1 + 2 * depth) name :: below ++ after ∧ ListsBelow depth node below ∧
      Lists depth rest after

/-- What is printed below an entry: anything if the entry is a directory that cannot be read or
entered. -/
def ListsBelow (depth : Nat) : Node → List Line → Prop
  | .dir readable searchable entries, lines => readable = true → searchable = true →
    ∃ before, lines = before ++ [.bar] ∧ Lists (depth + 1) entries before
  | .other, lines | .link _, lines => lines = []

end

/-- Every nested call has returned to the directory in which it was made. -/
def Restored (returns : List (Loc × Loc)) : Prop := ∀ r ∈ returns, r.1 = r.2

/-- Wherever the tree is and from wherever it is listed, `print_tree` returns, has listed the tree,
and every nested call has come back. -/
def Faithful (readable searchable : Bool) (entries : Entries) : Prop :=
  ∀ (fs : FileSystem) (garbage : Nat → Bool) (cwd : Loc) (dirname : List UInt8) (loc : Loc),
    fs.namei true cwd dirname = some loc →
    fs.node loc = some (.dir readable searchable entries) →
    ∃ fuel s, start fs garbage fuel cwd dirname = .ok s ∧
      (readable = true → searchable = true → Lists 0 entries s.lines) ∧ Restored s.returns

mutual

/-- Every directory among these can be read and entered, with all directories below. -/
def AllOpen : Entries → Prop
  | .nil => True
  | .self rest | .parent rest => AllOpen rest
  | .entry _ node rest => Open node ∧ AllOpen rest

def Open : Node → Prop
  | .dir readable searchable entries => readable = true ∧ searchable = true ∧ AllOpen entries
  | .other | .link _ => True

end

variable {fs : FileSystem} {garbage : Nat → Bool}

/-! ## What a call keeps -/

/-- What the loop does with an entry. -/
theorem readEntries_cons {rec : State → Name → Nat → Except Fault State} {indent : Nat}
    {name : Name} {rest : List Name} {sbuf : Bool} {s s' : State}
    (h : readEntries fs rec indent (name :: rest) sbuf s = .ok s') :
    ((name = dot ∨ name = dotdot) ∧
      readEntries fs rec indent rest (s.lstat fs name sbuf) s = .ok s') ∨
    (¬ (name = dot ∨ name = dotdot) ∧ s.lstat fs name sbuf = false ∧
      readEntries fs rec indent rest false (s.print (.entry indent name)) = .ok s') ∨
    ¬ (name = dot ∨ name = dotdot) ∧ s.lstat fs name sbuf = true ∧
      ∃ s₁, rec (s.print (.entry indent name)) name (indent + 2) = .ok s₁ ∧
        readEntries fs rec indent rest true
          (((s.print (.entry indent name)).back s₁).print .bar) = .ok s' := by
  simp only [readEntries] at h
  by_cases hSkip : name = dot ∨ name = dotdot
  · rw [if_pos hSkip] at h
    exact .inl ⟨hSkip, h⟩
  · rw [if_neg hSkip] at h
    cases hDir : s.lstat fs name sbuf with
    | false =>
      rw [hDir, if_neg Bool.false_ne_true] at h
      exact .inr (.inl ⟨hSkip, rfl, h⟩)
    | true =>
      rw [hDir, if_pos rfl] at h
      cases hCall : rec (s.print (.entry indent name)) name (indent + 2) with
      | error fault =>
        rw [hCall] at h
        cases h
      | ok s₁ =>
        rw [hCall] at h
        exact .inr (.inr ⟨hSkip, rfl, s₁, rfl, h⟩)

theorem printTree_ok {fuel indent : Nat} {dirname : List UInt8} {s s' : State}
    (h : printTree fs garbage (fuel + 1) s dirname indent = .ok s') :
    ∃ names s₁, fs.opendir s.cwd dirname = some names ∧
      readEntries fs (printTree fs garbage fuel) indent names (garbage s.calls)
        (s.call.chdir fs dirname) = .ok s₁ ∧
      s' = s₁.chdir fs dotdot := by
  rw [printTree] at h
  cases hOpen : fs.opendir s.cwd dirname with
  | none =>
    rw [hOpen] at h
    cases h
  | some names =>
    rw [hOpen] at h
    dsimp only at h
    cases hRead : readEntries fs (printTree fs garbage fuel) indent names (garbage s.calls)
      (s.call.chdir fs dirname) with
    | error fault =>
      rw [hRead] at h
      cases h
    | ok s₁ =>
      rw [hRead] at h
      cases h
      exact ⟨names, s₁, rfl, hRead, rfl⟩

/-- No return is forgotten. -/
def Records (rec : State → Name → Nat → Except Fault State) : Prop :=
  ∀ s name indent s', rec s name indent = .ok s' → s.returns ⊆ s'.returns

theorem readEntries_records {rec : State → Name → Nat → Except Fault State} (hRec : Records rec)
    {indent : Nat} {names : List Name} {sbuf : Bool} {s s' : State}
    (h : readEntries fs rec indent names sbuf s = .ok s') : s.returns ⊆ s'.returns := by
  induction names generalizing sbuf s with
  | nil =>
    cases h
    exact List.Subset.refl _
  | cons name rest ih =>
    rcases readEntries_cons h with ⟨-, hRest⟩ | ⟨-, -, hRest⟩ | ⟨-, -, s₁, hCall, hRest⟩
    · exact ih hRest
    · exact ih (s := s.print (.entry indent name)) hRest
    · exact fun r hr => ih hRest (List.mem_append_left _ (hRec _ _ _ _ hCall hr))

theorem printTree_records (fs : FileSystem) (garbage : Nat → Bool) (fuel : Nat) :
    Records (printTree fs garbage fuel) := by
  induction fuel with
  | zero => exact fun _ _ _ _ h => nomatch h
  | succ fuel ih =>
    intro s name indent s' h
    obtain ⟨names, s₁, -, hRead, rfl⟩ := printTree_ok h
    have hKept := readEntries_records (s := s.call.chdir fs name) ih hRead
    exact hKept

/-- If every nested call comes back, then so does the loop. -/
theorem readEntries_cwd {rec : State → Name → Nat → Except Fault State} (hRec : Records rec)
    {indent : Nat} {names : List Name} {sbuf : Bool} {s s' : State}
    (h : readEntries fs rec indent names sbuf s = .ok s') (hRestored : Restored s'.returns) :
    s'.cwd = s.cwd := by
  induction names generalizing sbuf s with
  | nil =>
    cases h
    rfl
  | cons name rest ih =>
    rcases readEntries_cons h with ⟨-, hRest⟩ | ⟨-, -, hRest⟩ | ⟨-, -, s₁, hCall, hRest⟩
    · exact ih hRest
    · exact ih (s := s.print (.entry indent name)) hRest
    · have hBack : (s.cwd, s₁.cwd) ∈ s'.returns :=
        readEntries_records hRec hRest (List.mem_append_right _ (List.mem_singleton.mpr rfl))
      exact (ih hRest).trans (hRestored _ hBack).symm

/-! ## The entries of a directory that has been entered -/

theorem lstat_name {s : State} {name : Name} {node : Node} (hSearch : fs.searchable s.cwd = true)
    (hName : ValidName name) (hNode : fs.node (s.cwd ++ [name]) = some node) (sbuf : Bool) :
    s.lstat fs name sbuf = node.isDir := by
  have hLstat : fs.lstat s.cwd name = some node := by
    rw [FileSystem.lstat, FileSystem.namei_name hSearch hName (by rw [hNode]; rfl)]
    exact hNode
  rw [State.lstat, hLstat]

theorem namei_dir {cwd : Loc} {name : Name} {readable searchable : Bool} {entries : Entries}
    (hSearch : fs.searchable cwd = true) (hName : ValidName name)
    (hNode : fs.node (cwd ++ [name]) = some (.dir readable searchable entries)) :
    fs.namei true cwd name = some (cwd ++ [name]) :=
  FileSystem.namei_follow (FileSystem.namei_name hSearch hName (by rw [hNode]; rfl))
    (FileSystem.isDir_of_node hNode)

theorem opendir_eq {cwd loc : Loc} {dirname : List UInt8} {readable searchable : Bool}
    {entries : Entries} (hNamei : fs.namei true cwd dirname = some loc)
    (hNode : fs.node loc = some (.dir readable searchable entries)) :
    fs.opendir cwd dirname = if readable then some entries.names else none := by
  rw [FileSystem.opendir, hNamei, Option.bind_some, hNode]
  cases readable with
  | true => rfl
  | false => rfl

/-- A directory that cannot be entered is not left either. -/
theorem chdir_cwd {s : State} {loc : Loc} {dirname : List UInt8} {readable searchable : Bool}
    {entries : Entries} (hNamei : fs.namei true s.cwd dirname = some loc)
    (hNode : fs.node loc = some (.dir readable searchable entries)) :
    (s.chdir fs dirname).cwd = if searchable then loc else s.cwd := by
  have hSearch : fs.searchable loc = searchable := by
    rw [FileSystem.searchable, hNode]
  rw [State.chdir, FileSystem.chdir, hNamei]
  dsimp only
  rw [hSearch]
  cases searchable with
  | true => rfl
  | false => rfl

/-- The process is in a directory below the root that it can leave. -/
structure Inside (fs : FileSystem) (cwd : Loc) : Prop where
  searchable : fs.searchable cwd = true
  above : fs.searchable cwd.dropLast = true
  below : cwd ≠ []

theorem Inside.chdir_dotdot {s : State} (h : Inside fs s.cwd) :
    (s.chdir fs dotdot).cwd = s.cwd.dropLast := by
  rw [State.chdir, FileSystem.chdir_dotdot h.searchable, if_pos h.above]
  rfl

/-- The directory above is another one. -/
theorem Inside.ne {cwd : Loc} (h : Inside fs cwd) : cwd.dropLast ≠ cwd := by
  intro hEq
  have hLength := congrArg List.length hEq
  rw [List.length_dropLast] at hLength
  have hPos := List.length_pos_of_ne_nil h.below
  omega

theorem Inside.child {cwd : Loc} {name : Name} {readable : Bool} {entries : Entries}
    (hSearch : fs.searchable cwd = true)
    (hNode : fs.node (cwd ++ [name]) = some (.dir readable true entries)) :
    Inside fs (cwd ++ [name]) where
  searchable := by
    rw [FileSystem.searchable, hNode]
  above := by
    rw [List.dropLast_concat]
    exact hSearch
  below := by simp

/-- These are the entries of the working directory. -/
def EntriesOf (fs : FileSystem) (cwd : Loc) (entries : Entries) : Prop :=
  ∀ name node, entries.find name = some node →
    ValidName name ∧ fs.node (cwd ++ [name]) = some node

theorem entriesOf_dir {loc : Loc} {readable searchable : Bool} {entries : Entries}
    (hNode : fs.node loc = some (.dir readable searchable entries)) : EntriesOf fs loc entries := by
  intro name node hFind
  have hWf : entries.WellFormed := Node.WellFormed.at fs.wellFormed hNode
  refine ⟨(hWf.find hFind).1, ?_⟩
  rw [FileSystem.node, Node.at_child hNode]
  exact hFind

/-! ## Every directory has to be open -/

/-- A call that comes back with all its nested calls has listed an open directory. -/
def NeedsOpen (fs : FileSystem) (rec : State → Name → Nat → Except Fault State) : Prop :=
  ∀ {s s' : State} {name : Name} {indent : Nat} {node : Node}, Inside fs s.cwd →
    ValidName name → fs.node (s.cwd ++ [name]) = some node → node.isDir = true →
    rec s name indent = .ok s' → Restored s'.returns → s'.cwd = s.cwd → Open node

theorem readEntries_open {rec : State → Name → Nat → Except Fault State} (hRec : Records rec)
    (hNeeds : NeedsOpen fs rec) {indent : Nat} (entries : Entries) (hWf : entries.WellFormed)
    {sbuf : Bool} {s s' : State} (hInside : Inside fs s.cwd)
    (hEntries : EntriesOf fs s.cwd entries)
    (h : readEntries fs rec indent entries.names sbuf s = .ok s')
    (hRestored : Restored s'.returns) : AllOpen entries := by
  induction entries using Entries.names.induct generalizing sbuf s with
  | case1 => trivial
  | case2 rest ih =>
    rw [Entries.names, readEntries, if_pos (Or.inl rfl)] at h
    exact ih hWf hInside hEntries h
  | case3 rest ih =>
    rw [Entries.names, readEntries, if_pos (Or.inr rfl)] at h
    exact ih hWf hInside hEntries h
  | case4 name node rest ih =>
    obtain ⟨hName, hNode⟩ := hEntries name node (by rw [Entries.find, if_pos rfl])
    have hRestEntries : EntriesOf fs s.cwd rest :=
      fun c child hFind => hEntries c child (hWf.find_rest hFind)
    have hLstat := lstat_name hInside.searchable hName hNode sbuf
    rw [Entries.names] at h
    rcases readEntries_cons h with ⟨hSkip, -⟩ | ⟨-, hFile, hRest⟩ | ⟨-, hDir, s₁, hCall, hRest⟩
    · exact absurd hSkip (by simp [hName.ne_dot, hName.ne_dotdot])
    · refine ⟨?_, ih (s := s.print (.entry indent name)) hWf.2.2.2 hInside hRestEntries hRest⟩
      rw [hLstat] at hFile
      cases node with
      | other | link target => trivial
      | dir readable searchable below => cases hFile
    · have hKept := readEntries_records hRec hRest
      have hBack : s.cwd = s₁.cwd :=
        hRestored _ (hKept (List.mem_append_right _ (List.mem_singleton.mpr rfl)))
      have hBefore : Restored s₁.returns :=
        fun r hr => hRestored r (hKept (List.mem_append_left _ hr))
      refine ⟨?_, ?_⟩
      · exact hNeeds (s := s.print (.entry indent name)) hInside hName hNode (hLstat ▸ hDir) hCall
          hBefore hBack.symm
      · refine ih hWf.2.2.2 ?_ ?_ hRest
        · exact hBack ▸ hInside
        · exact hBack ▸ hRestEntries

theorem printTree_open (fs : FileSystem) (garbage : Nat → Bool) (fuel : Nat) :
    NeedsOpen fs (printTree fs garbage fuel) := by
  induction fuel with
  | zero => exact fun _ _ _ _ h => nomatch h
  | succ fuel ih =>
    intro s s' name indent node hInside hName hNode hDir h hRestored hCwd
    cases node with
    | other | link target => cases hDir
    | dir readable searchable entries =>
      obtain ⟨names, s₁, hOpen, hRead, rfl⟩ := printTree_ok h
      have hNamei := namei_dir hInside.searchable hName hNode
      have hEnter : (s.call.chdir fs name).cwd = if searchable then s.cwd ++ [name] else s.cwd :=
        chdir_cwd (s := s.call) hNamei hNode
      rw [opendir_eq hNamei hNode] at hOpen
      have hLoop := readEntries_cwd (printTree_records fs garbage fuel) hRead hRestored
      rw [hEnter] at hLoop
      cases readable with
      | false => cases hOpen
      | true =>
        cases hOpen
        cases searchable with
        | false =>
          -- The process has stayed where it was, and goes up from there.
          rw [if_neg Bool.false_ne_true] at hLoop
          have hUp := Inside.chdir_dotdot (s := s₁) (hLoop ▸ hInside)
          rw [hLoop] at hUp
          exact absurd (hUp.symm.trans hCwd) hInside.ne
        | true =>
          refine ⟨rfl, rfl, ?_⟩
          rw [if_pos rfl] at hEnter
          refine readEntries_open (printTree_records fs garbage fuel) ih entries
            (Node.WellFormed.at fs.wellFormed hNode) ?_ ?_ hRead hRestored
          · exact hEnter ▸ Inside.child hInside.searchable hNode
          · exact hEnter ▸ entriesOf_dir hNode

end OsLabs.LabFs.PrintTree
