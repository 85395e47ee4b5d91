import OsLabs.Fs.Path
import OsLabs.Memory.CString
import OsLabs.Runs.Until

/-!
# The two walkers of `lab_fs`

`dopath_no` builds the full pathname of every entry in one buffer; `dopath_chdir` enters the
directories and keeps the name of the entry only. Both report to a callback. The buffer is
the array that `path_alloc` returns, and a write behind its end has no defined result. An
`err_sys` ends the process. The calls of `opendir` fail for want of permission only, and the
tree does not change meanwhile. As many levels of directories are entered as `fuel` says.
-/

namespace OsLabs.LabFs

open Fs Memory Runs

inductive FileType where
  | FTW_F
  | FTW_D
  | FTW_DNR
  | FTW_NS
deriving DecidableEq

structure Call where
  pathname : List UInt8
  level : Nat
  type : FileType
deriving DecidableEq

/-- A callback, with whatever state it has. -/
abbrev Myfunc (σ : Type) := σ → Call → σ × Int

/-- Why a walk has no result. -/
inductive Stop where
  | overflow
  | exit
  | fuel
deriving DecidableEq

/-- The buffer (`fullpath` or `filename`), the level, the working directory, the state of the
callback and the calls made. -/
structure Walk (σ : Type) where
  buffer : List UInt8
  level : Nat
  cwd : Loc
  state : σ
  calls : List Call
deriving DecidableEq

/-- What `path_alloc` returns. -/
abbrev Block := { bytes : List UInt8 // bytes.length = PATH_MAX }

variable {σ : Type}

def write (buffer : List UInt8) (off : Nat) (bytes : List UInt8) : Except Stop (List UInt8) :=
  match store buffer off bytes with
  | some buffer => .ok buffer
  | none => .error .overflow

def string (buffer : List UInt8) : Except Stop (List UInt8) :=
  match cstr buffer 0 with
  | some text => .ok text
  | none => .error .overflow

/-- `func(fullpath, *level, type)`. -/
def Walk.call (w : Walk σ) (func : Myfunc σ) (type : FileType) : Except Stop (Int × Walk σ) := do
  let pathname ← string w.buffer
  let c : Call := ⟨pathname, w.level, type⟩
  return ((func w.state c).2, { w with state := (func w.state c).1, calls := w.calls ++ [c] })

/-- The loop over the entries of a directory. A name is copied to `buffer[off]`. -/
def readAll (dopath : Walk σ → Except Stop (Int × Walk σ)) (off : Nat) :
    List Name → Int → Walk σ → Except Stop (Int × Walk σ)
  | [], ret, w => return (ret, w)
  | name :: rest, ret, w =>
    if name = dot ∨ name = dotdot then readAll dopath off rest ret w
    else do
      let buffer ← write w.buffer off (name ++ [0])
      let (ret, w) ← dopath { w with buffer := buffer }
      if ret ≠ 0 then return (ret, w)
      else readAll dopath off rest ret w

/-- What the two functions do first: `lstat` and the callback. A directory for which the
callback has answered 0 is left to `descend`. -/
def dopath (fs : FileSystem) (func : Myfunc σ) (descend : Walk σ → Except Stop (Int × Walk σ))
    (w : Walk σ) : Except Stop (Int × Walk σ) := do
  let pathname ← string w.buffer
  match fs.lstat w.cwd pathname with
  | none => w.call func .FTW_NS
  | some node =>
    if node.isDir = false then w.call func .FTW_F
    else do
      let (ret, w) ← w.call func .FTW_D
      if ret ≠ 0 then return (ret, w)
      else descend w

/-- The rest of `dopath_no` for a directory. -/
def descendNo (fs : FileSystem) (func : Myfunc σ) (dopath : Walk σ → Except Stop (Int × Walk σ))
    (w : Walk σ) : Except Stop (Int × Walk σ) := do
  let n := (← string w.buffer).length
  let buffer ← write w.buffer n [slash]
  let buffer ← write buffer (n + 1) [0]
  let fullpath ← string buffer
  match fs.opendir w.cwd fullpath with
  | none => Walk.call { w with buffer := buffer } func .FTW_DNR
  | some names => do
    let (ret, w) ← readAll dopath (n + 1) names 0
      { w with buffer := buffer, level := w.level + 1 }
    let buffer ← write w.buffer n [0]
    return (ret, { w with buffer := buffer, level := w.level - 1 })

def dopathNo (fs : FileSystem) (func : Myfunc σ) : Nat → Walk σ → Except Stop (Int × Walk σ)
  | 0, _ => .error .fuel
  | fuel + 1, w => dopath fs func (descendNo fs func (dopathNo fs func fuel)) w

/-- The rest of `dopath_chdir` for a directory. -/
def descendChdir (fs : FileSystem) (func : Myfunc σ)
    (dopath : Walk σ → Except Stop (Int × Walk σ)) (w : Walk σ) :
    Except Stop (Int × Walk σ) := do
  let filename ← string w.buffer
  match fs.opendir w.cwd filename with
  | none => w.call func .FTW_DNR
  | some names =>
    match fs.chdir w.cwd filename with
    | none => .error .exit
    | some cwd => do
      let (ret, w) ← readAll dopath 0 names 0 { w with cwd := cwd, level := w.level + 1 }
      match fs.chdir w.cwd dotdot with
      | none => .error .exit
      | some cwd => return (ret, { w with cwd := cwd, level := w.level - 1 })

def dopathChdir (fs : FileSystem) (func : Myfunc σ) : Nat → Walk σ → Except Stop (Int × Walk σ)
  | 0, _ => .error .fuel
  | fuel + 1, w => dopath fs func (descendChdir fs func (dopathChdir fs func fuel)) w

/-- What the two functions that start a walk have in common. -/
def myftw (dopath : Walk σ → Except Stop (Int × Walk σ)) (block : Block) (cwd : Loc) (state : σ)
    (pathname : List UInt8) : Except Stop (Int × Walk σ) := do
  let buffer ← write block.val 0 (pathname ++ [0])
  let buffer ← write buffer (PATH_MAX - 1) [0]
  dopath ⟨buffer, 0, cwd, state, []⟩

def myftwNo (fs : FileSystem) (func : Myfunc σ) (fuel : Nat) (block : Block) (cwd : Loc)
    (state : σ) (pathname : List UInt8) : Except Stop (Int × Walk σ) :=
  myftw (dopathNo fs func fuel) block cwd state pathname

def myftwChdir (fs : FileSystem) (func : Myfunc σ) (fuel : Nat) (block : Block) (cwd : Loc)
    (state : σ) (pathname : List UInt8) : Except Stop (Int × Walk σ) :=
  myftw (dopathChdir fs func fuel) block cwd state pathname

/-! ## The callback of the program -/

inductive Line where
  | entry (indent : List String) (name : List UInt8)
  | error (text : String) (pathname : List UInt8)
deriving DecidableEq

/-- The name that is printed. -/
def fileName (level : Nat) (pathname : List UInt8) : List UInt8 :=
  if 0 < level then
    match strrchr slash pathname with
    | some found => found.drop 1
    | none => pathname
  else pathname

def indent (level : Nat) : List String :=
  (List.range level).map fun i => if i ≠ level - 1 then "│   " else "└───"

def myfunc (print : Bool) (lines : List Line) (c : Call) : List Line × Int :=
  if print then
    match c.type with
    | .FTW_F | .FTW_D => (lines ++ [.entry (indent c.level) (fileName c.level c.pathname)], 0)
    | .FTW_DNR => (lines ++ [.error "закрыт доступ к каталогу" c.pathname], 0)
    | .FTW_NS => (lines ++ [.error "ошибка вызова функции stat для" c.pathname], 0)
  else (lines, 0)

theorem myfunc_answer (print : Bool) (lines : List Line) (c : Call) :
    (myfunc print lines c).2 = 0 := by
  unfold myfunc
  split
  · split <;> rfl
  · rfl

end OsLabs.LabFs
