import OsLabs.LabFs.PrintTree

/-!
# What `tree.c` lists

A tree whose directories can all be read and entered is listed as it should be, and every call comes
back to where it was made. One directory that cannot be read ends the process. After one that cannot
be entered the process is in the directory above the one it was in.
-/

namespace OsLabs.LabFs.PrintTree

open Fs

variable {fs : FileSystem} {garbage : Nat → Bool}

/-! ## Open trees -/

/-- From `s` to `s'` these lines have been printed, and nested calls have come back. -/
structure Listed (lists : List Line → Prop) (s s' : State) : Prop where
  lines : ∃ lines, s'.lines = s.lines ++ lines ∧ lists lines
  returns : Restored s.returns → Restored s'.returns

/-- The calls list the open directories with so many levels. -/
def ListsOpen (fs : FileSystem) (rec : State → Name → Nat → Except Fault State) (fuel : Nat) :
    Prop :=
  ∀ {s : State} {name : Name} (depth : Nat) {entries : Entries}, fs.searchable s.cwd = true →
    ValidName name → fs.node (s.cwd ++ [name]) = some (.dir true true entries) →
    AllOpen entries → entries.height < fuel →
    ∃ s', rec s name (1 + 2 * (depth + 1)) = .ok s' ∧ s'.cwd = s.cwd ∧
      Listed (Lists (depth + 1) entries) s s'

theorem readEntries_lists {rec : State → Name → Nat → Except Fault State} {fuel : Nat}
    (hRec : ListsOpen fs rec fuel) (depth : Nat) (entries : Entries) (hWf : entries.WellFormed)
    (hOpen : AllOpen entries) (hHeight : entries.height ≤ fuel) (sbuf : Bool) {s : State}
    (hSearch : fs.searchable s.cwd = true) (hEntries : EntriesOf fs s.cwd entries) :
    ∃ s', readEntries fs rec (1 + 2 * depth) entries.names sbuf s = .ok s' ∧ s'.cwd = s.cwd ∧
      Listed (Lists depth entries) s s' := by
  induction entries using Entries.names.induct generalizing sbuf s with
  | case1 => exact ⟨s, rfl, rfl, ⟨[], (List.append_nil _).symm, rfl⟩, id⟩
  | case2 rest ih =>
    rw [Entries.names, readEntries, if_pos (Or.inl rfl)]
    exact ih hWf hOpen hHeight _ hSearch hEntries
  | case3 rest ih =>
    rw [Entries.names, readEntries, if_pos (Or.inr rfl)]
    exact ih hWf hOpen hHeight _ hSearch hEntries
  | case4 name node rest ih =>
    obtain ⟨hName, hNode⟩ := hEntries name node (by rw [Entries.find, if_pos rfl])
    have hRestEntries : EntriesOf fs s.cwd rest :=
      fun c child hFind => hEntries c child (hWf.find_rest hFind)
    obtain ⟨hNodeHeight, hRestHeight⟩ := Nat.max_le.mp hHeight
    have hSkip : ¬ (name = dot ∨ name = dotdot) := by simp [hName.ne_dot, hName.ne_dotdot]
    rw [Entries.names]
    simp only [readEntries, if_neg hSkip, lstat_name hSearch hName hNode sbuf]
    cases node with
    | other | link target =>
      obtain ⟨s', hRead, hCwd, ⟨lines, hLines, hLists⟩, hReturns⟩ :=
        ih (s := s.print (.entry (1 + 2 * depth) name)) hWf.2.2.2 hOpen.2 hRestHeight false
          hSearch hRestEntries
      refine ⟨s', hRead, hCwd, ⟨_, ?_, [], lines, rfl, rfl, hLists⟩, hReturns⟩
      rw [hLines]
      simp [State.print]
    | dir readable searchable below =>
      obtain ⟨rfl, rfl, hBelow⟩ := hOpen.1
      obtain ⟨s₁, hCall, hBack, ⟨before, hBefore, hListsBefore⟩, hReturns₁⟩ :=
        hRec (s := s.print (.entry (1 + 2 * depth) name)) depth hSearch hName hNode hBelow
          hNodeHeight
      have hSame : s₁.cwd = s.cwd := hBack
      obtain ⟨s', hRead, hCwd, ⟨lines, hLines, hLists⟩, hReturns⟩ :=
        ih (s := ((s.print (.entry (1 + 2 * depth) name)).back s₁).print .bar) hWf.2.2.2 hOpen.2
          hRestHeight true (hSame ▸ hSearch) (hSame ▸ hRestEntries)
      have hIndent : 1 + 2 * depth + 2 = 1 + 2 * (depth + 1) := by omega
      simp only [Node.isDir, if_true, hIndent, hCall, bind, Except.bind]
      refine ⟨s', hRead, hCwd.trans hSame, ⟨_, ?_, before ++ [.bar], lines, rfl,
        fun _ _ => ⟨before, rfl, hListsBefore⟩, hLists⟩, fun hAll => hReturns fun r hr => ?_⟩
      · rw [hLines]
        simp [State.print, State.back, hBefore]
      · rcases List.mem_append.mp hr with hr | hr
        · exact hReturns₁ hAll r hr
        · rw [List.mem_singleton.mp hr]
          exact hSame.symm

/-- The call of an open directory, up to its last `chdir`. -/
theorem printTree_lists (fs : FileSystem) (garbage : Nat → Bool) (fuel : Nat) :
    ∀ {s : State} {dirname : List UInt8} {loc : Loc} (depth : Nat) {entries : Entries},
      fs.namei true s.cwd dirname = some loc → fs.node loc = some (.dir true true entries) →
      AllOpen entries → entries.height < fuel →
      ∃ s', printTree fs garbage fuel s dirname (1 + 2 * depth) = .ok (s'.chdir fs dotdot) ∧
        s'.cwd = loc ∧ Listed (Lists depth entries) s s' := by
  induction fuel with
  | zero =>
    intro s dirname loc depth entries _ _ _ hHeight
    exact absurd hHeight (Nat.not_lt_zero _)
  | succ fuel ih =>
    intro s dirname loc depth entries hNamei hNode hOpen hHeight
    have hRec : ListsOpen fs (printTree fs garbage fuel) fuel := by
      intro s name depth entries hSearch hName hNode hOpen hHeight
      obtain ⟨s', hCall, hCwd, hListed⟩ :=
        ih (depth + 1) (namei_dir hSearch hName hNode) hNode hOpen hHeight
      refine ⟨_, hCall, ?_, hListed.lines, hListed.returns⟩
      rw [Inside.chdir_dotdot (hCwd ▸ Inside.child hSearch hNode), hCwd, List.dropLast_concat]
    have hEnter : (s.call.chdir fs dirname).cwd = loc := chdir_cwd (s := s.call) hNamei hNode
    have hSearch : fs.searchable (s.call.chdir fs dirname).cwd = true := by
      rw [hEnter, FileSystem.searchable, hNode]
    obtain ⟨s', hRead, hCwd, hListed⟩ :=
      readEntries_lists hRec depth entries (Node.WellFormed.at fs.wellFormed hNode) hOpen
        (Nat.le_of_lt_succ hHeight) (garbage s.calls) hSearch (hEnter ▸ entriesOf_dir hNode)
    refine ⟨s', ?_, hCwd.trans hEnter, hListed.lines, hListed.returns⟩
    rw [printTree, opendir_eq hNamei hNode]
    simp only [if_true, hRead, bind, Except.bind, pure, Except.pure]

/-! ## A directory without entries -/

theorem allOpen_of_bare {entries : Entries} (hBare : ∀ c, entries.find c = none) :
    AllOpen entries := by
  induction entries using Entries.names.induct with
  | case1 => trivial
  | case2 rest ih => exact ih hBare
  | case3 rest ih => exact ih hBare
  | case4 name node rest ih =>
    have hFirst := hBare name
    rw [Entries.find, if_pos rfl] at hFirst
    cases hFirst

/-- The loop does nothing then, wherever the process is. -/
theorem readEntries_bare {rec : State → Name → Nat → Except Fault State} {indent : Nat}
    {entries : Entries} (hBare : ∀ c, entries.find c = none) (sbuf : Bool) (s : State) :
    readEntries fs rec indent entries.names sbuf s = .ok s := by
  induction entries using Entries.names.induct generalizing sbuf with
  | case1 => rfl
  | case2 rest ih =>
    rw [Entries.names, readEntries, if_pos (Or.inl rfl)]
    exact ih hBare _
  | case3 rest ih =>
    rw [Entries.names, readEntries, if_pos (Or.inr rfl)]
    exact ih hBare _
  | case4 name node rest ih =>
    have hFirst := hBare name
    rw [Entries.find, if_pos rfl] at hFirst
    cases hFirst

/-! ## A place for a tree -/

/-- The root with the tree as `t` and an empty directory `e`. -/
def mount (readable searchable : Bool) (entries : Entries) (hWf : entries.WellFormed) :
    FileSystem where
  root := .dir true true (.entry [116] (.dir readable searchable entries)
    (.entry [101] (.dir true true .nil) .nil))
  wellFormed := by
    refine ⟨⟨?_, ?_, ?_, ?_, ?_, ?_⟩, rfl, hWf, ⟨?_, ?_, ?_, ?_, ?_, ?_⟩, rfl, trivial, trivial⟩ <;>
      decide

section

variable {readable searchable : Bool} {entries : Entries} (hWf : entries.WellFormed)

theorem node_mount :
    (mount readable searchable entries hWf).node [[116]] =
      some (.dir readable searchable entries) := rfl

/-- The name of the tree is `/t`, wherever the process is. -/
theorem namei_mount : (mount readable searchable entries hWf).namei true [[101]] [47, 116] =
    some [[116]] := rfl

/-- From `e` no other entry is found. -/
theorem namei_lost {name : Name} (hName : ValidName name) (f : Bool) :
    (mount readable searchable entries hWf).namei f [[101]] name = none :=
  FileSystem.namei_missing hName rfl

/-- A loop over names that are looked up in `e`, with a `sbuf` that says that they are
directories. -/
theorem readEntries_lost {fuel indent : Nat} (others : Entries) (hOthers : others.WellFormed)
    {s s' : State} (hCwd : s.cwd = [[101]])
    (h : readEntries (mount readable searchable entries hWf)
      (printTree (mount readable searchable entries hWf) garbage fuel) indent others.names true s =
        .ok s') : ∀ c, others.find c = none := by
  have hDot : s.lstat (mount readable searchable entries hWf) dot true = true := by
    rw [State.lstat, hCwd]
    rfl
  have hDotdot : s.lstat (mount readable searchable entries hWf) dotdot true = true := by
    rw [State.lstat, hCwd]
    rfl
  induction others using Entries.names.induct with
  | case1 => exact fun _ => rfl
  | case2 rest ih =>
    rw [Entries.names, readEntries, hDot, if_pos (Or.inl rfl)] at h
    exact ih hOthers h
  | case3 rest ih =>
    rw [Entries.names, readEntries, hDotdot, if_pos (Or.inr rfl)] at h
    exact ih hOthers h
  | case4 name node rest ih =>
    have hName : ValidName name := hOthers.1
    have hStat : s.lstat (mount readable searchable entries hWf) name true = true := by
      rw [State.lstat, hCwd, FileSystem.lstat, namei_lost hWf hName]
      rfl
    rw [Entries.names] at h
    rcases readEntries_cons h with ⟨hSkip, -⟩ | ⟨-, hFile, -⟩ | ⟨-, -, s₁, hCall, -⟩
    · exact absurd hSkip (by simp [hName.ne_dot, hName.ne_dotdot])
    · rw [hStat] at hFile
      cases hFile
    · cases fuel with
      | zero => cases hCall
      | succ fuel =>
        obtain ⟨names, _, hOpen, -⟩ := printTree_ok hCall
        have hHere : (s.print (.entry indent name)).cwd = [[101]] := hCwd
        rw [hHere, FileSystem.opendir, namei_lost hWf hName] at hOpen
        cases hOpen

end

/-! ## Which trees are listed faithfully -/

/-- A tree that is listed faithfully at this place is open. -/
theorem open_of_faithful {readable searchable : Bool} {entries : Entries}
    (hWf : entries.WellFormed) (h : Faithful readable searchable entries) :
    readable = true ∧ (searchable = true ∨ ∀ c, entries.find c = none) ∧ AllOpen entries := by
  obtain ⟨fuel, s, hOk, -, hRestored⟩ := h (mount readable searchable entries hWf) (fun _ => true)
    [[101]] [47, 116] [[116]] (namei_mount hWf) (node_mount hWf)
  cases fuel with
  | zero => cases hOk
  | succ fuel =>
    obtain ⟨names, s₁, hOpen, hRead, rfl⟩ := printTree_ok hOk
    rw [opendir_eq (namei_mount hWf) (node_mount hWf)] at hOpen
    cases readable with
    | false => cases hOpen
    | true =>
      cases hOpen
      refine ⟨rfl, ?_⟩
      cases searchable with
      | true =>
        refine ⟨.inl rfl, ?_⟩
        have hInside : Inside (mount true true entries hWf) [[116]] := ⟨rfl, rfl, by decide⟩
        exact readEntries_open (printTree_records _ _ fuel) (printTree_open _ _ fuel) entries hWf
          hInside (entriesOf_dir (node_mount hWf)) hRead hRestored
      | false =>
        have hBare := readEntries_lost hWf entries hWf rfl hRead
        exact ⟨.inr hBare, allOpen_of_bare hBare⟩

theorem faithful_of_open {searchable : Bool} {entries : Entries}
    (hEnter : searchable = true ∨ ∀ c, entries.find c = none) (hOpen : AllOpen entries) :
    Faithful true searchable entries := by
  intro fs garbage cwd dirname loc hNamei hNode
  cases searchable with
  | true =>
    obtain ⟨s, hCall, -, ⟨lines, hLines, hLists⟩, hReturns⟩ :=
      printTree_lists fs garbage (entries.height + 1) (s := ⟨cwd, [], 0, []⟩) 0 hNamei hNode hOpen
        (Nat.lt_succ_self _)
    refine ⟨_, _, hCall, fun _ _ => ?_, hReturns nofun⟩
    have hAll : s.lines = lines := hLines
    exact hAll ▸ hLists
  | false =>
    have hBare : ∀ c, entries.find c = none := hEnter.resolve_left Bool.false_ne_true
    refine ⟨1, ((State.mk cwd [] 0 []).call.chdir fs dirname).chdir fs dotdot, ?_, nofun, nofun⟩
    rw [start, printTree, opendir_eq hNamei hNode]
    simp only [if_true, readEntries_bare hBare, bind, Except.bind, pure, Except.pure]

/-- The start has to be readable; it need not be enterable if it is empty. Every directory below has
to be both. -/
theorem faithful_iff {readable searchable : Bool} {entries : Entries} (hWf : entries.WellFormed) :
    Faithful readable searchable entries ↔
      readable = true ∧ (searchable = true ∨ ∀ c, entries.find c = none) ∧ AllOpen entries := by
  constructor
  · exact open_of_faithful hWf
  · rintro ⟨rfl, hEnter, hOpen⟩
    exact faithful_of_open hEnter hOpen

/-- The entries of a directory with a directory `d`. -/
def oneBelow (readable searchable : Bool) : Entries :=
  .self (.parent (.entry [100] (.dir readable searchable .nil) .nil))

theorem wellFormed_oneBelow (readable searchable : Bool) :
    (oneBelow readable searchable).WellFormed := by
  refine ⟨⟨?_, ?_, ?_, ?_, ?_, ?_⟩, rfl, trivial, trivial⟩ <;> decide

theorem faithful_oneBelow : Faithful true true (oneBelow true true) :=
  (faithful_iff (wellFormed_oneBelow true true)).mpr ⟨rfl, .inl rfl, ⟨rfl, rfl, trivial⟩, trivial⟩

/-- If `d` cannot be read, the process ends. If it can be read and not entered, the call returns to
the directory above. -/
theorem not_faithful_oneBelow :
    (¬ Faithful true true (oneBelow false true) ∧ ∀ garbage,
      start (mount true true (oneBelow false true) (wellFormed_oneBelow false true)) garbage 3
        [[101]] [47, 116] = .error .readdir) ∧
    ¬ Faithful true true (oneBelow true false) ∧ ∀ garbage,
      (start (mount true true (oneBelow true false) (wellFormed_oneBelow true false)) garbage 3
        [[101]] [47, 116]).map State.returns = .ok [([[116]], [])] := by
  refine ⟨⟨fun h => ?_, fun _ => rfl⟩, fun h => ?_, fun _ => rfl⟩
  · exact Bool.false_ne_true (open_of_faithful (wellFormed_oneBelow false true) h).2.2.1.1
  · exact Bool.false_ne_true (open_of_faithful (wellFormed_oneBelow true false) h).2.2.1.2.1

end OsLabs.LabFs.PrintTree
