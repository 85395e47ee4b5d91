import Mathlib.Data.List.Basic

/-!
# Trees of directories

A directory is a list of entries in the order in which `readdir` gives them, its own `.` and
`..` among them wherever they are. It also says whether the calling process may open it
(`readable`) and whether it may enter it and pass through it (`searchable`). A place in the
tree is the list of the names on the way from the root.
-/

namespace OsLabs.Fs

abbrev Name := List UInt8

def slash : UInt8 := 47

def dot : Name := [46]

def dotdot : Name := [46, 46]

def NAME_MAX : Nat := 255

mutual

inductive Node where
  | other
  | link (target : List UInt8)
  | dir (readable searchable : Bool) (entries : Entries)

inductive Entries where
  | nil
  | self (rest : Entries)
  | parent (rest : Entries)
  | entry (name : Name) (node : Node) (rest : Entries)

end

/-- What `readdir` returns. -/
def Entries.names : Entries → List Name
  | .nil => []
  | .self rest => dot :: rest.names
  | .parent rest => dotdot :: rest.names
  | .entry name _ rest => name :: rest.names

def Entries.find : Entries → Name → Option Node
  | .nil, _ => none
  | .self rest, c | .parent rest, c => rest.find c
  | .entry name node rest, c => if name = c then some node else rest.find c

def Node.find : Node → Name → Option Node
  | .dir _ _ entries, c => entries.find c
  | _, _ => none

/-- A place in the tree. -/
abbrev Loc := List Name

def Node.at : Node → Loc → Option Node
  | node, [] => some node
  | node, c :: rest => (node.find c).bind fun child => child.at rest

def Node.isDir : Node → Bool
  | .dir _ _ _ => true
  | _ => false

mutual

/-- The number of levels of directories. -/
def Node.height : Node → Nat
  | .dir _ _ entries => entries.height + 1
  | _ => 0

def Entries.height : Entries → Nat
  | .nil => 0
  | .self rest | .parent rest => rest.height
  | .entry _ node rest => max node.height rest.height

end

structure ValidName (c : Name) : Prop where
  nonempty : c ≠ []
  ne_dot : c ≠ dot
  ne_dotdot : c ≠ dotdot
  slash : slash ∉ c
  zero : 0 ∉ c
  length : c.length ≤ NAME_MAX

mutual

/-- The entries of every directory have names, and distinct ones. -/
def Node.WellFormed : Node → Prop
  | .other => True
  | .link target => target ≠ []
  | .dir _ _ entries => entries.WellFormed

def Entries.WellFormed : Entries → Prop
  | .nil => True
  | .self rest | .parent rest => rest.WellFormed
  | .entry name node rest =>
    ValidName name ∧ rest.find name = none ∧ node.WellFormed ∧ rest.WellFormed

end

structure FileSystem where
  root : Node
  wellFormed : root.WellFormed

namespace FileSystem

variable (fs : FileSystem)

def node (loc : Loc) : Option Node := fs.root.at loc

def isDir (loc : Loc) : Bool := (fs.node loc).any Node.isDir

def searchable (loc : Loc) : Bool :=
  match fs.node loc with
  | some (.dir _ searchable _) => searchable
  | _ => false

end FileSystem

/-! ## Going down -/

theorem Node.at_append (node : Node) (xs ys : Loc) :
    node.at (xs ++ ys) = (node.at xs).bind fun child => child.at ys := by
  induction xs generalizing node with
  | nil => rfl
  | cons c rest ih =>
    simp only [List.cons_append, Node.at]
    cases node.find c with
    | none => rfl
    | some child => exact ih child

theorem Node.at_child {node child : Node} {loc : Loc} {c : Name}
    (hNode : node.at loc = some child) : node.at (loc ++ [c]) = child.find c := by
  rw [Node.at_append, hNode]
  show (child.find c).bind some = child.find c
  exact Option.bind_fun_some _

/-- What is found has the property `R` that the entries have one by one. -/
theorem Entries.find_elim {Q : Entries → Prop} {R : Name → Node → Prop}
    (hSelf : ∀ rest, Q (.self rest) → Q rest) (hParent : ∀ rest, Q (.parent rest) → Q rest)
    (hEntry : ∀ c node rest, Q (.entry c node rest) → R c node ∧ Q rest) {entries : Entries}
    (h : Q entries) {c : Name} {node : Node} (hFind : entries.find c = some node) : R c node := by
  induction entries, c using Entries.find.induct with
  | case1 c => cases hFind
  | case2 rest c ih => exact ih (hSelf rest h) hFind
  | case3 rest c ih => exact ih (hParent rest h) hFind
  | case4 child rest c =>
    rw [Entries.find, if_pos rfl] at hFind
    cases hFind
    exact (hEntry _ _ _ h).1
  | case5 name child rest c hOther ih =>
    rw [Entries.find, if_neg hOther] at hFind
    exact ih (hEntry name child rest h).2 hFind

theorem Entries.WellFormed.find {entries : Entries} (h : entries.WellFormed) {c : Name}
    {node : Node} (hFind : entries.find c = some node) : ValidName c ∧ node.WellFormed :=
  Entries.find_elim (Q := Entries.WellFormed) (R := fun c child => ValidName c ∧ child.WellFormed)
    (fun _ => id) (fun _ => id) (fun _ _ _ hAll => ⟨⟨hAll.1, hAll.2.2.1⟩, hAll.2.2.2⟩) h hFind

theorem Entries.height_find {entries : Entries} {c : Name} {node : Node}
    (hFind : entries.find c = some node) : node.height ≤ entries.height := by
  refine Entries.find_elim (Q := fun others => others.height ≤ entries.height)
    (R := fun _ child => child.height ≤ entries.height) (fun _ => id) (fun _ => id) ?_
    (Nat.le_refl _) hFind
  intro c child rest hAll
  exact Nat.max_le.mp hAll

theorem Node.height_at {node child : Node} {loc : Loc} (hAt : node.at loc = some child) :
    child.height ≤ node.height := by
  induction loc generalizing node with
  | nil =>
    cases hAt
    exact Nat.le_refl _
  | cons c rest ih =>
    obtain ⟨next, hFind, hRest⟩ := Option.bind_eq_some_iff.mp hAt
    cases node with
    | other | link target => cases hFind
    | dir readable searchable entries =>
      have hBelow := Nat.le_trans (ih hRest) (Entries.height_find hFind)
      rw [Node.height]
      omega

/-- Another entry does not hide what is found behind it. -/
theorem Entries.WellFormed.find_rest {name : Name} {node : Node} {rest : Entries}
    (h : (Entries.entry name node rest).WellFormed) {c : Name} {child : Node}
    (hFind : rest.find c = some child) : (Entries.entry name node rest).find c = some child := by
  have hne : name ≠ c := by
    rintro rfl
    rw [h.2.1] at hFind
    cases hFind
  rw [Entries.find, if_neg hne, hFind]

theorem Node.WellFormed.find {node child : Node} (h : node.WellFormed) {c : Name}
    (hFind : node.find c = some child) : ValidName c ∧ child.WellFormed := by
  cases node with
  | other | link target => cases hFind
  | dir readable searchable entries => exact Entries.WellFormed.find h hFind

theorem Node.WellFormed.at {node child : Node} (h : node.WellFormed) {loc : Loc}
    (hAt : node.at loc = some child) : child.WellFormed := by
  induction loc generalizing node with
  | nil =>
    cases hAt
    exact h
  | cons c rest ih =>
    obtain ⟨next, hFind, hRest⟩ := Option.bind_eq_some_iff.mp hAt
    exact ih (h.find hFind).2 hRest

end OsLabs.Fs
