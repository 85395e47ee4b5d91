import OsLabs.LabFs.Agreement

/-!
# What is stored in `fullpath`

The walk copies a pathname into the buffer before any call could tell that it is too long. A
pathname of up to 4095 bytes fits, with the zero behind it; if it names a directory, the slash takes
the place of the zero and the next zero is stored behind the end. The bytes of a longer pathname are
stored there as soon as its entry is read.
-/

namespace OsLabs.LabFs

open Fs Memory Runs

mutual

/-- In the directories that the walk opens and passes, the pathname of every entry fits into the
buffer, and so does that of every directory with the slash. -/
def StoresFit (path : List UInt8) : Node → Prop
  | .dir readable searchable entries =>
    (path ++ [slash]).length < PATH_MAX ∧ (readable = true → EntriesFit searchable path entries)
  | .other | .link _ => True

def EntriesFit (searchable : Bool) (path : List UInt8) : Entries → Prop
  | .nil => True
  | .self rest | .parent rest => EntriesFit searchable path rest
  | .entry name node rest =>
    (path ++ slash :: name).length < PATH_MAX ∧
      (searchable = true → StoresFit (path ++ slash :: name) node) ∧
      EntriesFit searchable path rest

end

variable {σ : Type} {fs : FileSystem} {func : Myfunc σ} {w : Walk σ} {path : List UInt8}
  {loc : Loc}

/-- The condition on the start: it is copied whatever it names. -/
def StartFits (fs : FileSystem) (cwd : Loc) (pathname : List UInt8) : Prop :=
  pathname.length < PATH_MAX ∧
    ∀ node, fs.lstat cwd pathname = some node → StoresFit pathname node

/-- The walk has come back, and the buffer begins as before, or something has been stored behind the
buffer; the first exactly if everything fits. -/
def Bounded (fits : Prop) (path : List UInt8) (w : Walk σ)
    (result : Except Stop (Int × Walk σ)) : Prop :=
  fits ∧ (∃ w', result = .ok (0, w') ∧ w'.cwd = w.cwd ∧ Begins path w'.buffer) ∨
    ¬ fits ∧ result = .error .overflow

/-- A walk that goes on from `w'` for as long as this fits. -/
theorem Bounded.after {fits fits' : Prop} {w' : Walk σ} {result : Except Stop (Int × Walk σ)}
    (h : Bounded fits path w' result) (hIff : fits' ↔ fits) (hCwd : w'.cwd = w.cwd) :
    Bounded fits' path w result := by
  rw [Bounded, hIff, ← hCwd]
  exact h

/-- The buffer holds this string. -/
structure Holds (path buffer : List UInt8) : Prop where
  terminated : path ++ [0] <+: buffer
  length : buffer.length = PATH_MAX
  zero : 0 ∉ path

theorem Holds.string {buffer : List UInt8} (h : Holds path buffer) : string buffer = .ok path :=
  string_prefix h.terminated h.zero

theorem Holds.begins {buffer : List UInt8} (h : Holds path buffer) : Begins path buffer :=
  ⟨List.IsPrefix.trans (List.prefix_append _ _) h.terminated, h.length⟩

/-- A store behind `path`. -/
theorem Begins.write {buffer : List UInt8} (h : Begins path buffer) (bytes : List UInt8)
    (hFits : path.length + bytes.length ≤ PATH_MAX) :
    ∃ buffer', write buffer path.length bytes = .ok buffer' ∧ Begins (path ++ bytes) buffer' := by
  obtain ⟨buffer', hWrite, hPrefix, hLength⟩ := write_prefix bytes h.1 (by
    rw [List.length_append, h.2]
    exact hFits)
  exact ⟨buffer', hWrite, hPrefix, hLength.trans h.2⟩

theorem write_overflow {buffer bytes : List UInt8} {off : Nat} (hLength : buffer.length = PATH_MAX)
    (hOver : PATH_MAX < off + bytes.length) : write buffer off bytes = .error .overflow := by
  rw [write, store_eq_none.mpr (hLength ▸ hOver)]

/-- What a walk of so many levels stores. -/
def WalksBounded (fs : FileSystem) (dopath : Walk σ → Except Stop (Int × Walk σ)) (fuel : Nat) :
    Prop :=
  ∀ {w : Walk σ} {path : List UInt8}, 0 < fuel →
    (∀ node, fs.lstat w.cwd path = some node → node.height < fuel) → Holds path w.buffer →
    Bounded (∀ node, fs.lstat w.cwd path = some node → StoresFit path node) path w (dopath w)

/-- An entry is found if its directory can be searched. -/
theorem lstat_entry {readable searchable : Bool} {entries : Entries} {name : Name} {node : Node}
    (hNamei : fs.namei false w.cwd path = some loc)
    (hNode : fs.node loc = some (.dir readable searchable entries)) (hName : ValidName name)
    (hFind : entries.find name = some node)
    (hLength : (path ++ slash :: name).length < PATH_MAX) :
    fs.lstat w.cwd (path ++ slash :: name) = if searchable then some node else none := by
  have hChild : fs.node (loc ++ [name]) = some node := by
    rw [FileSystem.node, Node.at_child hNode]
    exact hFind
  have hSearch : fs.searchable loc = searchable := by
    rw [FileSystem.searchable, hNode]
  cases searchable with
  | true =>
    rw [FileSystem.lstat, FileSystem.namei_child hNamei hSearch hName (by rw [hChild]; rfl) hLength]
    exact hChild
  | false =>
    rw [FileSystem.lstat,
      FileSystem.namei_closed hNamei (FileSystem.isDir_of_node hNode) hName hSearch]
    rfl

/-- An entry of the directory `path` whose pathname fits into the buffer. -/
theorem WalksBounded.entry {dopath : Walk σ → Except Stop (Int × Walk σ)} {fuel : Nat}
    (hDopath : WalksBounded fs dopath fuel) {name : Name} {node : Node}
    (hHeight : node.height < fuel) (hName : ValidName name) (hZero : 0 ∉ path) {searchable : Bool}
    (hLstat : fs.lstat w.cwd (path ++ slash :: name) = if searchable then some node else none)
    (hShort : (path ++ slash :: name).length < PATH_MAX)
    (hBegins : Begins (path ++ [slash]) w.buffer) :
    ∃ buffer, write w.buffer (path.length + 1) (name ++ [0]) = .ok buffer ∧
      Bounded (searchable = true → StoresFit (path ++ slash :: name) node) (path ++ slash :: name) w
        (dopath { w with buffer := buffer }) := by
  have hOff : path.length + 1 = (path ++ [slash]).length := by simp
  have hJoin : path ++ [slash] ++ (name ++ [0]) = path ++ slash :: name ++ [0] := by simp
  obtain ⟨buffer, hWrite, hPrefix, hLength⟩ := hBegins.write (name ++ [0]) (by
    simp only [List.length_append, List.length_cons, List.length_nil] at hShort ⊢
    omega)
  rw [hJoin] at hPrefix
  rw [← hOff] at hWrite
  have hHolds : Holds (path ++ slash :: name) buffer :=
    ⟨hPrefix, hLength, by simp [hZero, hName.zero, slash]⟩
  refine ⟨buffer, hWrite, ?_⟩
  have hWalk := hDopath (w := { w with buffer := buffer }) (Nat.zero_lt_of_lt hHeight) (by
    intro child hChild
    rw [hLstat] at hChild
    split at hChild
    · cases hChild
      exact hHeight
    · cases hChild) hHolds
  rw [hLstat] at hWalk
  refine hWalk.after ⟨fun hFits child hChild => ?_, fun hFits hSearch => ?_⟩ rfl
  · split at hChild
    · next hSearch =>
      cases hChild
      exact hFits hSearch
    · cases hChild
  · exact hFits node (if_pos hSearch)

/-- The loop over the entries: every name is stored before its entry is looked at. -/
theorem readAll_bounded {dopath : Walk σ → Except Stop (Int × Walk σ)} {fuel : Nat}
    (hDopath : WalksBounded fs dopath fuel) (searchable : Bool) (entries : Entries)
    (hZero : 0 ∉ path)
    (hEntry : ∀ name node, entries.find name = some node → ValidName name ∧ node.height < fuel ∧
      ((path ++ slash :: name).length < PATH_MAX →
        fs.lstat w.cwd (path ++ slash :: name) = if searchable then some node else none))
    (hWf : entries.WellFormed) (hBegins : Begins (path ++ [slash]) w.buffer) :
    Bounded (EntriesFit searchable path entries) (path ++ [slash]) w
      (readAll dopath (path.length + 1) entries.names 0 w) := by
  induction entries using Entries.names.induct generalizing w with
  | case1 => exact .inl ⟨trivial, w, rfl, rfl, hBegins⟩
  | case2 rest ih =>
    rw [Entries.names, readAll, if_pos (Or.inl rfl)]
    exact ih hEntry hWf hBegins
  | case3 rest ih =>
    rw [Entries.names, readAll, if_pos (Or.inr rfl)]
    exact ih hEntry hWf hBegins
  | case4 name node rest ih =>
    obtain ⟨hName, hHeight, hFound⟩ := hEntry name node (by rw [Entries.find, if_pos rfl])
    rw [Entries.names, readAll, if_neg (by simp [hName.ne_dot, hName.ne_dotdot])]
    by_cases hShort : (path ++ slash :: name).length < PATH_MAX
    · obtain ⟨buffer, hWrite, hFirst⟩ :=
        hDopath.entry hHeight hName hZero (hFound hShort) hShort hBegins
      simp only [hWrite, bind, Except.bind]
      rcases hFirst with ⟨hFits, w', hOk, hCwd, hBegins'⟩ | ⟨hNot, hOver⟩
      · rw [hOk]
        dsimp only
        rw [if_neg (by simp)]
        have hRest := ih (w := w') (fun c child hFind => by
          rw [hCwd]
          exact hEntry c child (hWf.find_rest hFind)) hWf.2.2.2 (hBegins'.mono (by simp))
        exact hRest.after ⟨fun hAll => hAll.2.2, fun hAll => ⟨hShort, hFits, hAll⟩⟩ hCwd
      · rw [hOver]
        exact .inr ⟨fun hAll => hNot hAll.2.1, rfl⟩
    · have hWrite : write w.buffer (path.length + 1) (name ++ [0]) = .error .overflow := by
        refine write_overflow hBegins.2 ?_
        simp only [List.length_append, List.length_cons, List.length_nil] at hShort ⊢
        omega
      simp only [hWrite, bind, Except.bind]
      exact .inr ⟨fun hAll => hShort hAll.1, rfl⟩

section

variable (hAnswer : ∀ state c, (func state c).2 = 0)

include hAnswer

/-- The callback leaves the buffer and the working directory alone. -/
theorem call_zero (hString : string w.buffer = .ok path) (type : FileType) :
    ∃ w', w.call func type = .ok (0, w') ∧ w'.buffer = w.buffer ∧ w'.cwd = w.cwd := by
  have hFirst : (w.after func [⟨path, w.level, type⟩] w.buffer w.cwd).1 = 0 := by
    rw [Walk.after, callUntil_one]
    exact hAnswer _ _
  refine ⟨(w.after func [⟨path, w.level, type⟩] w.buffer w.cwd).2, ?_, rfl, rfl⟩
  rw [call_eq hString, ← hFirst]

/-- A directory: the slash and the zero are stored, then what its entries need. -/
theorem descendNo_bounded {dopath : Walk σ → Except Stop (Int × Walk σ)} {fuel : Nat}
    (hDopath : WalksBounded fs dopath fuel) {readable searchable : Bool} {entries : Entries}
    (hFuel : entries.height < fuel) (hNamei : fs.namei false w.cwd path = some loc)
    (hNode : fs.node loc = some (.dir readable searchable entries)) (hHolds : Holds path w.buffer) :
    Bounded (StoresFit path (.dir readable searchable entries)) path w
      (descendNo fs func dopath w) := by
  have hDir := FileSystem.isDir_of_node hNode
  have hRoom := (FileSystem.namei_bounds hNamei).2
  obtain ⟨buffer₁, hSlash, hBegins₁⟩ := hHolds.begins.write [slash] hRoom
  simp only [descendNo, hHolds.string, hSlash, bind, Except.bind]
  by_cases hShort : (path ++ [slash]).length < PATH_MAX
  · obtain ⟨buffer₂, hEnd, hBegins₂⟩ := hBegins₁.write [0] hShort
    have hHolds₂ : Holds (path ++ [slash]) buffer₂ :=
      ⟨hBegins₂.1, hBegins₂.2, by simp [hHolds.zero, slash]⟩
    rw [List.length_append, List.length_singleton] at hEnd
    have hSlashed : (fs.namei true w.cwd (path ++ [slash])).bind fs.node =
        some (.dir readable searchable entries) := by
      rw [FileSystem.namei_slash hNamei hDir hShort]
      exact hNode
    simp only [hEnd, hHolds₂.string, FileSystem.opendir, hSlashed]
    cases readable with
    | false =>
      obtain ⟨w', hCall, hBuffer, hCwd⟩ :=
        call_zero hAnswer (w := { w with buffer := buffer₂ }) hHolds₂.string .FTW_DNR
      refine .inl ⟨⟨hShort, fun hRead => absurd hRead Bool.false_ne_true⟩, w', hCall, hCwd, ?_⟩
      rw [hBuffer]
      exact hHolds₂.begins.mono (by simp)
    | true =>
      have hWf : entries.WellFormed := Node.WellFormed.at fs.wellFormed hNode
      have hLoop := readAll_bounded (w := { w with buffer := buffer₂, level := w.level + 1 })
        hDopath searchable entries hHolds.zero (fun name node hFind =>
          ⟨(hWf.find hFind).1, Nat.lt_of_le_of_lt (Entries.height_find hFind) hFuel,
            lstat_entry hNamei hNode (hWf.find hFind).1 hFind⟩) hWf hHolds₂.begins
      dsimp only
      rcases hLoop with ⟨hFits, w', hOk, hCwd, hBegins'⟩ | ⟨hNot, hOver⟩
      · have hPath : Begins path w'.buffer := hBegins'.mono (by simp)
        obtain ⟨buffer₃, hCut, hBegins₃⟩ := hPath.write [0] hRoom
        simp only [hOk, hCut]
        exact .inl ⟨⟨hShort, fun _ => hFits⟩, _, rfl, hCwd, hBegins₃.mono (by simp)⟩
      · simp only [hOver]
        exact .inr ⟨fun hAll => hNot (hAll.2 rfl), rfl⟩
  · have hEnd : write buffer₁ (path.length + 1) [0] = .error .overflow := by
      refine write_overflow hBegins₁.2 ?_
      simp only [List.length_append, List.length_cons, List.length_nil] at hShort ⊢
      omega
    simp only [hEnd]
    exact .inr ⟨fun hAll => hShort hAll.1, rfl⟩

theorem dopathNo_bounded (fuel : Nat) : WalksBounded fs (dopathNo fs func fuel) fuel := by
  induction fuel with
  | zero => exact fun hFuel => absurd hFuel (Nat.lt_irrefl _)
  | succ fuel ih =>
    intro w path _ hHeight hHolds
    rw [dopathNo]
    simp only [dopath, hHolds.string, bind, Except.bind]
    cases hLstat : fs.lstat w.cwd path with
    | none =>
      obtain ⟨w', hCall, hBuffer, hCwd⟩ := call_zero hAnswer hHolds.string .FTW_NS
      exact .inl ⟨by simp, w', hCall, hCwd, hBuffer ▸ hHolds.begins⟩
    | some node =>
      have hOne : (∀ child, some node = some child → StoresFit path child) ↔
          StoresFit path node := by
        simp
      obtain ⟨loc, hNamei, hNode⟩ := Option.bind_eq_some_iff.mp hLstat
      cases node with
      | other | link target =>
        obtain ⟨w', hCall, hBuffer, hCwd⟩ := call_zero hAnswer hHolds.string .FTW_F
        exact .inl ⟨hOne.mpr trivial, w', hCall, hCwd, hBuffer ▸ hHolds.begins⟩
      | dir readable searchable entries =>
        obtain ⟨w', hCall, hBuffer, hCwd⟩ := call_zero hAnswer hHolds.string .FTW_D
        have hBelow := Nat.lt_of_succ_lt_succ (hHeight _ hLstat)
        have hAgain := descendNo_bounded (w := w') hAnswer ih hBelow (hCwd ▸ hNamei) hNode
          (hBuffer ▸ hHolds)
        simp only [Node.isDir, Bool.true_eq_false, if_false, hCall]
        rw [if_neg (by simp)]
        exact hAgain.after hOne hCwd

/-- The start is copied before anything is known about it. -/
theorem myftwNo_bounded {fuel : Nat} (block : Block) {cwd : Loc} (state : σ)
    {pathname : List UInt8} (hZero : 0 ∉ pathname) (hFuel : 0 < fuel)
    (hHeight : ∀ node, fs.lstat cwd pathname = some node → node.height < fuel) :
    StartFits fs cwd pathname ∧
        (∃ w, myftwNo fs func fuel block cwd state pathname = .ok (0, w)) ∨
      ¬ StartFits fs cwd pathname ∧
        myftwNo fs func fuel block cwd state pathname = .error .overflow := by
  by_cases hShort : pathname.length < PATH_MAX
  · have hStart : Begins [] block.val := ⟨List.nil_prefix, block.property⟩
    obtain ⟨buffer₁, hCopy, hPrefix₁, hLength₁⟩ := hStart.write (pathname ++ [0]) (by
      simp only [List.length_append, List.length_cons, List.length_nil]
      omega)
    obtain ⟨buffer₂, hEnd, hPrefix₂, hLength₂⟩ := write_end hPrefix₁ hLength₁ hShort
    have hAll : WalksBounded fs (dopathNo fs func fuel) fuel := dopathNo_bounded hAnswer fuel
    have hWalk := hAll (w := ⟨buffer₂, 0, cwd, state, []⟩) hFuel hHeight
      ⟨hPrefix₂, hLength₂, hZero⟩
    rw [List.length_nil] at hCopy
    simp only [myftwNo, myftw, hCopy, hEnd, bind, Except.bind]
    rcases hWalk with ⟨hFits, w', hOk, -⟩ | ⟨hNot, hOver⟩
    · exact .inl ⟨⟨hShort, hFits⟩, w', hOk⟩
    · exact .inr ⟨fun hAll => hNot hAll.2, hOver⟩
  · have hCopy : write block.val 0 (pathname ++ [0]) = .error .overflow := by
      refine write_overflow block.property ?_
      rw [List.length_append, List.length_singleton]
      omega
    simp only [myftwNo, myftw, hCopy, bind, Except.bind]
    exact .inr ⟨fun hAll => hShort hAll.1, trivial⟩

end

/-- A walk with the callback of the program stays inside of the buffer exactly if the start and the
pathnames below it fit. It returns then. -/
theorem fullpath_bounded_iff {fuel : Nat} {cwd : Loc} {pathname : List UInt8} (block : Block)
    (print : Bool) (lines : List Line) (hZero : 0 ∉ pathname) (hFuel : fs.root.height < fuel) :
    (myftwNo fs (myfunc print) fuel block cwd lines pathname ≠ .error .overflow ↔
      StartFits fs cwd pathname) ∧
    (StartFits fs cwd pathname →
      ∃ w, myftwNo fs (myfunc print) fuel block cwd lines pathname = .ok (0, w)) := by
  have hHeight : ∀ node, fs.lstat cwd pathname = some node → node.height < fuel := by
    intro node hLstat
    obtain ⟨loc, -, hNode⟩ := Option.bind_eq_some_iff.mp hLstat
    exact Nat.lt_of_le_of_lt (Node.height_at hNode) hFuel
  rcases myftwNo_bounded (myfunc_answer print) block lines hZero (by omega) hHeight with
    ⟨hFits, w, hOk⟩ | ⟨hNot, hOver⟩
  · rw [hOk]
    exact ⟨⟨fun _ => hFits, fun _ => nofun⟩, fun _ => ⟨w, rfl⟩⟩
  · rw [hOver]
    exact ⟨⟨fun hNever => absurd rfl hNever, fun hFits => absurd hFits hNot⟩,
      fun hFits => absurd hFits hNot⟩

theorem fullpath_bounded_d :
    myftwNo oneDir (myfunc true) 3 zeros [] [] [100] ≠ .error .overflow := by
  refine (fullpath_bounded_iff zeros true [] (by decide) (by decide)).1.mpr ⟨by decide, ?_⟩
  intro node hLstat
  have hNode : oneDir.lstat [] [100] = some (.dir true true .nil) := rfl
  cases hNode.symm.trans hLstat
  refine ⟨?_, fun _ => trivial⟩
  show 2 < PATH_MAX
  decide

/-- The pathname of a directory fits into the buffer, but not with the slash. -/
theorem fullpath_not_bounded :
    ¬ ∀ (fs : FileSystem) (fuel : Nat) (block : Block) (cwd : Loc) (pathname : List UInt8),
      0 ∉ pathname → fs.root.height < fuel →
      myftwNo fs (myfunc true) fuel block cwd [] pathname ≠ .error .overflow := by
  intro hAll
  exact hAll oneDir 3 zeros [] (dots 2047) (not_mem_dots 2047) (by decide) overflow_dots

end OsLabs.LabFs
