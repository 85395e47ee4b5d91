import OsLabs.Fs.Tree

/-!
# Pathnames and the calls that take one

A pathname is resolved component by component, from the root if it starts with a slash and
else from the working directory. Every component but the empty ones (of repeated slashes and
of a slash at the end) is looked up in a directory that has to be searchable. A symbolic link
is replaced by its target, unless it is the last component and is not to be followed; at most
`MAXSYMLINKS` are.

What the walkers need is how the result changes when a pathname that names a directory is
extended: `namei_slash`, `namei_child`.
-/

namespace OsLabs.Fs

def PATH_MAX : Nat := 4096

def MAXSYMLINKS : Nat := 40

/-- Where the resolution of a pathname starts. -/
def start (cwd : Loc) (path : List UInt8) : Loc :=
  if path.head? = some slash then [] else cwd

namespace FileSystem

variable (fs : FileSystem)

/-- Where one component leads to. -/
def lookup (loc : Loc) (c : Name) : Option Loc :=
  if c = [] then if fs.isDir loc then some loc else none
  else if fs.searchable loc = false then none
  else if c = dot then some loc
  else if c = dotdot then some loc.dropLast
  else if (fs.node (loc ++ [c])).isSome then some (loc ++ [c])
  else none

/-- The components in turn; `follow` goes on with the target of a link. -/
def walk (followLast : Bool) (follow : Loc → List UInt8 → List Name → Option Loc) :
    Loc → List Name → Option Loc
  | loc, [] => some loc
  | loc, c :: rest =>
    match fs.lookup loc c with
    | none => none
    | some next =>
      match fs.node next with
      | some (.link target) =>
        if rest = [] ∧ followLast = false then some next else follow loc target rest
      | _ => walk followLast follow next rest

/-- The components in turn, with at most so many links on the way. -/
def resolve (followLast : Bool) : Nat → Loc → List Name → Option Loc
  | 0 => fs.walk followLast fun _ _ _ => none
  | links + 1 => fs.walk followLast fun loc target rest =>
      resolve followLast links (start loc target) (target.splitOn slash ++ rest)

def namei (followLast : Bool) (cwd : Loc) (path : List UInt8) : Option Loc :=
  if path = [] ∨ PATH_MAX ≤ path.length then none
  else fs.resolve followLast MAXSYMLINKS (start cwd path) (path.splitOn slash)

def lstat (cwd : Loc) (path : List UInt8) : Option Node :=
  (fs.namei false cwd path).bind fs.node

/-- The names that `readdir` will return. -/
def opendir (cwd : Loc) (path : List UInt8) : Option (List Name) :=
  match (fs.namei true cwd path).bind fs.node with
  | some (.dir true _ entries) => some entries.names
  | _ => none

/-- The new working directory. -/
def chdir (cwd : Loc) (path : List UInt8) : Option Loc :=
  match fs.namei true cwd path with
  | some loc => if fs.searchable loc then some loc else none
  | none => none

variable {fs} {loc loc' cwd : Loc} {c : Name}

theorem isDir_of_searchable (h : fs.searchable loc = true) : fs.isDir loc = true := by
  unfold searchable at h
  unfold isDir
  split at h
  · next hNode =>
    rw [hNode]
    rfl
  · cases h

theorem isDir_of_node {readable search : Bool} {entries : Entries}
    (h : fs.node loc = some (.dir readable search entries)) : fs.isDir loc = true := by
  unfold isDir
  rw [h]
  rfl

/-- What stands above a directory is a directory. -/
theorem isDir_dropLast (h : fs.isDir loc = true) : fs.isDir loc.dropLast = true := by
  rcases List.eq_nil_or_concat loc with rfl | ⟨above, c, rfl⟩
  · exact h
  · rw [List.concat_eq_append] at h ⊢
    rw [List.dropLast_concat]
    unfold isDir node at h ⊢
    rw [Node.at_append] at h
    cases hAbove : fs.root.at above with
    | none =>
      rw [hAbove] at h
      cases h
    | some parent =>
      rw [hAbove] at h
      cases parent with
      | other | link target => cases h
      | dir readable searchable entries => rfl

/-! ## Longer pathnames -/

theorem isDir_of_link {target : List UInt8} (h : fs.node loc = some (.link target)) :
    fs.isDir loc = false := by
  unfold isDir
  rw [h]
  rfl

section

variable (follow : Bool → Loc → List UInt8 → List Name → Option Loc)

/-- A resolution that ends in a directory is the beginning of that of a longer list of
components, if this is so for the targets of the links. -/
theorem walk_append (links : Nat) (hFollow : ∀ f, fs.resolve f links = fs.walk f (follow f))
    (hLink : ∀ loc target rest loc', follow false loc target rest = some loc' →
      fs.isDir loc' = true → ∃ m, ∀ f more, more ≠ [] →
        follow f loc target (rest ++ more) = fs.resolve f m loc' more)
    {comps : List Name} (hWalk : fs.walk false (follow false) loc comps = some loc')
    (hDir : fs.isDir loc' = true) :
    ∃ m, ∀ f more, more ≠ [] →
      fs.walk f (follow f) loc (comps ++ more) = fs.resolve f m loc' more := by
  induction comps generalizing loc with
  | nil =>
    cases hWalk
    exact ⟨links, fun f more _ => by rw [hFollow f]; rfl⟩
  | cons c rest ih =>
    simp only [List.cons_append, walk] at hWalk ⊢
    split at hWalk
    · cases hWalk
    · split at hWalk
      · next target hNode =>
        split at hWalk
        · cases hWalk
          rw [isDir_of_link hNode] at hDir
          cases hDir
        · obtain ⟨m, hm⟩ := hLink _ _ _ _ hWalk hDir
          refine ⟨m, fun f more hMore => ?_⟩
          rw [if_neg (by simp [hMore]), hm f more hMore]
      · exact ih hWalk

/-- A directory is found whether or not a link at the end would be followed. -/
theorem walk_follow (hLink : ∀ loc target rest loc', follow false loc target rest = some loc' →
      fs.isDir loc' = true → follow true loc target rest = some loc')
    {comps : List Name} (hWalk : fs.walk false (follow false) loc comps = some loc')
    (hDir : fs.isDir loc' = true) : fs.walk true (follow true) loc comps = some loc' := by
  induction comps generalizing loc with
  | nil => exact hWalk
  | cons c rest ih =>
    simp only [walk] at hWalk ⊢
    split at hWalk
    · cases hWalk
    · split at hWalk
      · next target hNode =>
        split at hWalk
        · cases hWalk
          rw [isDir_of_link hNode] at hDir
          cases hDir
        · rw [if_neg (by simp)]
          exact hLink _ _ _ _ hWalk hDir
      · exact ih hWalk

end

theorem resolve_append {links : Nat} {comps : List Name}
    (hResolve : fs.resolve false links loc comps = some loc') (hDir : fs.isDir loc' = true) :
    ∃ m, ∀ f more, more ≠ [] →
      fs.resolve f links loc (comps ++ more) = fs.resolve f m loc' more := by
  induction links generalizing loc loc' comps with
  | zero =>
    exact walk_append (fun _ _ _ _ => none) 0 (fun _ => rfl) nofun hResolve hDir
  | succ links ih =>
    refine walk_append (fun f loc target rest =>
      fs.resolve f links (start loc target) (target.splitOn slash ++ rest)) (links + 1)
      (fun _ => rfl) ?_ hResolve hDir
    intro loc target rest loc' hTarget hEnd
    obtain ⟨m, hm⟩ := ih hTarget hEnd
    refine ⟨m, fun f more hMore => ?_⟩
    rw [← List.append_assoc]
    exact hm f more hMore

theorem resolve_follow {links : Nat} {comps : List Name}
    (hResolve : fs.resolve false links loc comps = some loc') (hDir : fs.isDir loc' = true) :
    fs.resolve true links loc comps = some loc' := by
  induction links generalizing loc loc' comps with
  | zero => exact walk_follow (fun _ _ _ _ => none) nofun hResolve hDir
  | succ links ih =>
    exact walk_follow (fun f loc target rest =>
      fs.resolve f links (start loc target) (target.splitOn slash ++ rest))
      (fun _ _ _ _ hTarget hEnd => ih hTarget hEnd) hResolve hDir

/-! ## One component -/

/-- A component leads to something that is not a link to be followed. -/
theorem resolve_one {f : Bool} {links : Nat} (hLookup : fs.lookup loc c = some loc')
    (hLast : f = false ∨ fs.isDir loc' = true) : fs.resolve f links loc [c] = some loc' := by
  have hWalk (follow : Loc → List UInt8 → List Name → Option Loc) :
      fs.walk f follow loc [c] = some loc' := by
    simp only [walk, hLookup]
    split
    · next target hNode =>
      rcases hLast with hStay | hDir
      · rw [if_pos ⟨trivial, hStay⟩]
      · rw [isDir_of_link hNode] at hDir
        cases hDir
    · rfl
  cases links with
  | zero => exact hWalk _
  | succ links => exact hWalk _

theorem lookup_dot (hSearch : fs.searchable loc = true) : fs.lookup loc dot = some loc := by
  unfold lookup
  rw [if_neg (by decide), if_neg (by simp [hSearch]), if_pos rfl]

theorem resolve_dot {f : Bool} {links : Nat} {rest : List Name}
    (hSearch : fs.searchable loc = true) :
    fs.resolve f links loc (dot :: rest) = fs.resolve f links loc rest := by
  have hWalk (follow : Loc → List UInt8 → List Name → Option Loc) :
      fs.walk f follow loc (dot :: rest) = fs.walk f follow loc rest := by
    simp only [walk, lookup_dot hSearch]
    split
    · next target hNode =>
      rw [searchable, hNode] at hSearch
      cases hSearch
    · rfl
  cases links with
  | zero => exact hWalk _
  | succ links => exact hWalk _

theorem lookup_name (hSearch : fs.searchable loc = true) (hName : ValidName c)
    (hNode : (fs.node (loc ++ [c])).isSome) : fs.lookup loc c = some (loc ++ [c]) := by
  unfold lookup
  rw [if_neg hName.nonempty, if_neg (by simp [hSearch]), if_neg hName.ne_dot,
    if_neg hName.ne_dotdot, if_pos hNode]

theorem namei_eq {f : Bool} {path : List UInt8} (hNe : path ≠ [])
    (hLength : path.length < PATH_MAX) :
    fs.namei f cwd path = fs.resolve f MAXSYMLINKS (start cwd path) (path.splitOn slash) := by
  unfold namei
  rw [if_neg]
  rintro (hNil | hLong)
  · exact hNe hNil
  · omega

theorem namei_bounds {f : Bool} {path : List UInt8} (h : fs.namei f cwd path = some loc) :
    path ≠ [] ∧ path.length < PATH_MAX := by
  unfold namei at h
  split at h
  · cases h
  · next hOk =>
    rw [not_or] at hOk
    exact ⟨hOk.1, Nat.not_le.mp hOk.2⟩

/-- One more component behind a pathname that names a directory is looked up in it. -/
theorem namei_more {path : List UInt8} (hNamei : fs.namei false cwd path = some loc)
    (hDir : fs.isDir loc = true) (hSlash : slash ∉ c)
    (hLength : (path ++ slash :: c).length < PATH_MAX) :
    ∃ links, ∀ f, fs.namei f cwd (path ++ slash :: c) = fs.resolve f links loc [c] := by
  obtain ⟨hNe, hShort⟩ := namei_bounds hNamei
  have hStart : start cwd (path ++ slash :: c) = start cwd path := by
    unfold start
    rw [List.head?_append_of_ne_nil _ hNe]
  rw [namei_eq hNe hShort] at hNamei
  obtain ⟨m, hm⟩ := resolve_append hNamei hDir
  refine ⟨m, fun f => ?_⟩
  rw [namei_eq (by simp) hLength, hStart, List.splitOn_append_cons_self,
    List.splitOn_eq_singleton hSlash, hm f [c] (by simp)]

/-- A pathname that names a directory, with one more component. -/
theorem namei_extend {path : List UInt8} (hNamei : fs.namei false cwd path = some loc)
    (hDir : fs.isDir loc = true) {f : Bool} (hSlash : slash ∉ c)
    (hLength : (path ++ slash :: c).length < PATH_MAX) (hLookup : fs.lookup loc c = some loc')
    (hLast : f = false ∨ fs.isDir loc' = true) :
    fs.namei f cwd (path ++ slash :: c) = some loc' := by
  obtain ⟨links, hMore⟩ := namei_more hNamei hDir hSlash hLength
  rw [hMore f]
  exact resolve_one hLookup hLast

/-- Nothing is found in a directory that is not searchable. -/
theorem namei_closed {path : List UInt8} (hNamei : fs.namei false cwd path = some loc)
    (hDir : fs.isDir loc = true) {f : Bool} (hName : ValidName c)
    (hClosed : fs.searchable loc = false) : fs.namei f cwd (path ++ slash :: c) = none := by
  by_cases hLength : (path ++ slash :: c).length < PATH_MAX
  · have hLookup : fs.lookup loc c = none := by
      unfold lookup
      rw [if_neg hName.nonempty, if_pos hClosed]
    obtain ⟨links, hMore⟩ := namei_more hNamei hDir hName.slash hLength
    rw [hMore f]
    cases links with
    | zero => simp only [resolve, walk, hLookup]
    | succ links => simp only [resolve, walk, hLookup]
  · unfold namei
    rw [if_pos (Or.inr (Nat.not_lt.mp hLength))]

theorem namei_slash {path : List UInt8} (hNamei : fs.namei false cwd path = some loc)
    (hDir : fs.isDir loc = true) (hLength : (path ++ [slash]).length < PATH_MAX) :
    fs.namei true cwd (path ++ [slash]) = some loc := by
  refine namei_extend hNamei hDir (by simp) hLength ?_ (Or.inr hDir)
  unfold lookup
  rw [if_pos rfl, if_pos hDir]

theorem namei_child {path : List UInt8} (hNamei : fs.namei false cwd path = some loc)
    (hSearch : fs.searchable loc = true) (hName : ValidName c)
    (hNode : (fs.node (loc ++ [c])).isSome)
    (hLength : (path ++ slash :: c).length < PATH_MAX) :
    fs.namei false cwd (path ++ slash :: c) = some (loc ++ [c]) :=
  namei_extend hNamei (isDir_of_searchable hSearch) hName.slash hLength
    (lookup_name hSearch hName hNode) (Or.inl rfl)

theorem namei_follow {path : List UInt8} (hNamei : fs.namei false cwd path = some loc)
    (hDir : fs.isDir loc = true) : fs.namei true cwd path = some loc := by
  obtain ⟨hNe, hShort⟩ := namei_bounds hNamei
  rw [namei_eq hNe hShort] at hNamei ⊢
  exact resolve_follow hNamei hDir

theorem start_of_not_mem {path : List UInt8} (hSlash : slash ∉ path) : start cwd path = cwd := by
  unfold start
  rw [if_neg]
  intro hHead
  exact hSlash (List.mem_of_head? hHead)

/-- An entry of the working directory. -/
theorem namei_name (hSearch : fs.searchable cwd = true) (hName : ValidName c)
    (hNode : (fs.node (cwd ++ [c])).isSome) : fs.namei false cwd c = some (cwd ++ [c]) := by
  have hLength : c.length < PATH_MAX := Nat.lt_of_le_of_lt hName.length (by decide)
  rw [namei_eq hName.nonempty hLength, start_of_not_mem hName.slash,
    List.splitOn_eq_singleton hName.slash]
  exact resolve_one (lookup_name hSearch hName hNode) (Or.inl rfl)

/-- A name that is not in the working directory. -/
theorem namei_missing {f : Bool} (hName : ValidName c) (hNode : fs.node (cwd ++ [c]) = none) :
    fs.namei f cwd c = none := by
  have hLength : c.length < PATH_MAX := Nat.lt_of_le_of_lt hName.length (by decide)
  have hLookup : fs.lookup cwd c = none := by
    unfold lookup
    rw [if_neg hName.nonempty, if_neg hName.ne_dot, if_neg hName.ne_dotdot, hNode]
    simp
  rw [namei_eq hName.nonempty hLength, start_of_not_mem hName.slash,
    List.splitOn_eq_singleton hName.slash]
  simp only [MAXSYMLINKS, resolve, walk, hLookup]

/-- The directory above can be entered from a directory that has been. -/
theorem chdir_dotdot (hSearch : fs.searchable cwd = true) :
    fs.chdir cwd dotdot = if fs.searchable cwd.dropLast then some cwd.dropLast else none := by
  have hNamei : fs.namei true cwd dotdot = some cwd.dropLast := by
    rw [namei_eq (by decide) (by decide), start_of_not_mem (by decide),
      List.splitOn_eq_singleton (by decide)]
    refine resolve_one ?_ ?_
    · unfold lookup
      rw [if_neg (by decide), if_neg (by simp [hSearch]), if_neg (by decide), if_pos rfl]
    · exact Or.inr (isDir_dropLast (isDir_of_searchable hSearch))
  unfold chdir
  rw [hNamei]

end FileSystem

end OsLabs.Fs
