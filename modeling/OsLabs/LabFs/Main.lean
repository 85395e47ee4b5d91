import OsLabs.LabFs.Agreement

/-!
# The program as a whole

`main` prints the tree with one walk, and `compare` then takes the time of a walk of each
kind from the same pathname. They are walks over the same tree if the first walk has come
back, which it has from an entry of the working directory.
-/

namespace OsLabs.LabFs

open Fs Runs

/-- The calls that the two walks of `compare` make. -/
def compare (fs : FileSystem) (fuel : Nat) (fullpath filename : Block) (cwd : Loc)
    (pathname : List UInt8) : Except Stop (List Call × List Call) := do
  let (_, no) ← myftwNo fs (myfunc false) fuel fullpath cwd [] pathname
  let (_, chdir) ← myftwChdir fs (myfunc false) fuel filename no.cwd [] pathname
  return (no.calls, chdir.calls)

/-- The exit status, and the calls of the three walks. -/
def main (fs : FileSystem) (fuel : Nat) (block fullpath filename : Block) (cwd : Loc)
    (pathname : List UInt8) : Except Stop (Int × List Call × List Call × List Call) := do
  let (ret, w) ← myftwChdir fs (myfunc true) fuel block cwd [] pathname
  let (no, chdir) ← compare fs fuel fullpath filename w.cwd pathname
  return (ret, w.calls, no, chdir)

variable {fs : FileSystem} {fuel : Nat} {cwd start : Loc} {pathname : List UInt8} {node : Node}

/-- A walk of the program with full pathnames. -/
theorem myftwNo_print (print : Bool) (block : Block) (hZero : 0 ∉ pathname)
    (hNamei : fs.namei false cwd pathname = some start) (hNode : fs.node start = some node)
    (hFits : Fits pathname node) (hEnter : Enterable node) (hFuel : node.height < fuel) :
    ∃ w, myftwNo fs (myfunc print) fuel block cwd [] pathname = .ok (0, w) ∧ w.cwd = cwd ∧
      w.calls = fullpaths pathname 0 node := by
  obtain ⟨buffer, hStart, hReady⟩ := myftw_ready (dopathNo fs (myfunc print) fuel) block []
    hNamei hZero
  obtain ⟨hMade, hAnswer⟩ := callUntil_all (myfunc_answer print) [] (fullpaths pathname 0 node)
  rw [myftwNo, hStart]
  rcases dopathNo_outcome fs (myfunc print) fuel hFuel hNode hReady hFits hEnter with
    ⟨buffer', hResult, -⟩ | ⟨-, hNever⟩
  · refine ⟨_, hResult.trans (by rw [← hAnswer]; rfl), rfl, ?_⟩
    exact hMade
  · exact hNever.elim

/-- A walk of the program with `chdir`, from an entry of the working directory. -/
theorem myftwChdir_print (print : Bool) (block : Block) (hZero : 0 ∉ pathname)
    (hNamei : fs.namei false cwd pathname = some start) (hNode : fs.node start = some node)
    (hEnter : Enterable node) (hAbove : fs.searchable start.dropLast = true)
    (hParent : start.dropLast = cwd) (hFuel : node.height < fuel) :
    ∃ w, myftwChdir fs (myfunc print) fuel block cwd [] pathname = .ok (0, w) ∧ w.cwd = cwd ∧
      w.calls = filenames pathname 0 node := by
  obtain ⟨hMade, hAnswer⟩ := callUntil_all (myfunc_answer print) [] (filenames pathname 0 node)
  obtain ⟨buffer, ⟨buffer', hResult, -⟩ | ⟨-, hBad⟩⟩ :=
    myftwChdir_outcome (myfunc print) fuel block [] hZero hNamei hNode hFuel
  · rw [hParent, ite_self] at hResult
    refine ⟨_, hResult.trans (by rw [← hAnswer]; rfl), rfl, ?_⟩
    exact hMade
  · exact absurd ⟨hEnter, hAbove⟩ hBad

/-- All three walks of the program are walks over the tree at an entry of the working
directory. -/
theorem main_walks (block fullpath filename : Block) (hZero : 0 ∉ pathname)
    (hNamei : fs.namei false cwd pathname = some start) (hNode : fs.node start = some node)
    (hFits : Fits pathname node) (hEnter : Enterable node)
    (hAbove : fs.searchable start.dropLast = true) (hParent : start.dropLast = cwd)
    (hFuel : node.height < fuel) :
    main fs fuel block fullpath filename cwd pathname =
      .ok (0, filenames pathname 0 node, fullpaths pathname 0 node,
        filenames pathname 0 node) := by
  obtain ⟨w₁, hFirst, hCwd₁, hCalls₁⟩ := myftwChdir_print true block hZero hNamei hNode hEnter
    hAbove hParent hFuel
  obtain ⟨w₂, hNo, hCwd₂, hCalls₂⟩ := myftwNo_print false fullpath hZero hNamei hNode hFits
    hEnter hFuel
  obtain ⟨w₃, hChdir, -, hCalls₃⟩ := myftwChdir_print false filename hZero hNamei hNode hEnter
    hAbove hParent hFuel
  simp only [main, compare, hFirst, hCwd₁, hNo, hCwd₂, hChdir, bind, Except.bind, pure,
    Except.pure, hCalls₁, hCalls₂, hCalls₃]

end OsLabs.LabFs
