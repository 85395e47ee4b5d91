import Mathlib.Data.Int.Notation
import OsLabs.Memory.CString

/-!
# The fortune module (`lab_module/task_03/fortune.c`)

The pot is an array of one page, into which `fortuneWrite` copies one cookie after the
other and closes each with a zero byte. `fortuneRead` prints the string at `readInd` with a
line break into `tmpBuf`, hands it to the user and moves `readInd` by its length. An access
outside of an array has no defined result, and then a call returns nothing.

`left` is what `copy_from_user` and `copy_to_user` return: the number of bytes at the end
that could not be copied. In the pot those bytes become zero. The size of the page is a
parameter. The user's buffer length is an argument of `fortuneRead` that the code does not
look at. The messages for the kernel log are not modelled.
-/

namespace OsLabs.Fortune

open Memory

inductive Errno where
  | ENOMEM
  | ENOSPC
  | EFAULT
deriving DecidableEq

/-- The static variables of the module. -/
structure State where
  cookiePot : List UInt8
  tmpBuf : List UInt8
  readInd : Nat
  writeInd : Nat

variable (PAGE_SIZE : Nat)

abbrev COOKIE_POT_SIZE : Nat := PAGE_SIZE

/-- The flags tell which of the four allocations succeed. -/
def mdInit (vmalloc procMkdir procCreate procSymlink : Bool) : Except Errno State :=
  if !vmalloc then .error .ENOMEM
  else if !procMkdir then .error .ENOMEM
  else if !procCreate then .error .ENOMEM
  else if !procSymlink then .error .ENOMEM
  else .ok ⟨List.replicate (COOKIE_POT_SIZE PAGE_SIZE) 0,
    List.replicate (COOKIE_POT_SIZE PAGE_SIZE) 0, 0, 0⟩

/-- What `copy_from_user` writes for the user's bytes `buf`. -/
def copyFromUser (buf : List UInt8) (left : Nat) : List UInt8 :=
  buf.take (buf.length - left) ++ List.replicate (min left buf.length) 0

theorem copyFromUser_all (buf : List UInt8) : copyFromUser buf 0 = buf := by
  simp [copyFromUser]

def fortuneWrite (s : State) (buf : List UInt8) (left : Nat) :
    Option (State × Except Errno Nat) :=
  let len := buf.length
  if (len : Int) > COOKIE_POT_SIZE PAGE_SIZE - s.writeInd + 1 then some (s, .error .ENOSPC)
  else (store s.cookiePot s.writeInd (copyFromUser buf left)).bind fun cookiePot =>
    if left ≠ 0 then some ({ s with cookiePot := cookiePot }, .error .EFAULT)
    else
      let writeInd := s.writeInd + len
      if writeInd = 0 then none
      else (store cookiePot (writeInd - 1) [0]).map fun cookiePot =>
        ({ s with cookiePot := cookiePot, writeInd := writeInd }, .ok len)

/-- The bytes copied to the user, the file position after the call and the result. -/
structure Reading where
  data : List UInt8
  fPos : Int
  ret : Except Errno Nat

def newline : UInt8 := 10

def fortuneRead (s : State) (_len : Nat) (fPos : Int) (left : Nat) : Option (State × Reading) :=
  if fPos > 0 ∨ s.writeInd = 0 then some (s, ⟨[], fPos, .ok 0⟩)
  else
    let readInd := if s.readInd ≥ s.writeInd then 0 else s.readInd
    (cstr s.cookiePot readInd).bind fun cookie =>
    (snprintf s.tmpBuf (COOKIE_POT_SIZE PAGE_SIZE) (cookie ++ [newline])).bind
      fun (tmpBuf, readLen) =>
    (load tmpBuf readLen).map fun data =>
      if left ≠ 0 then
        ({ s with tmpBuf := tmpBuf, readInd := readInd },
          ⟨data.take (readLen - left), fPos, .error .EFAULT⟩)
      else
        ({ s with tmpBuf := tmpBuf, readInd := readInd + readLen },
          ⟨data, fPos + readLen, .ok readLen⟩)

/-! ## Sequences of calls -/

/-- A call of one of the two operations with its arguments. -/
inductive Call where
  | write (buf : List UInt8) (left : Nat)
  | read (len : Nat) (fPos : Int) (left : Nat)

inductive Reply where
  | wrote (ret : Except Errno Nat)
  | read (r : Reading)

def call (s : State) : Call → Option (State × Reply)
  | .write buf left => (fortuneWrite PAGE_SIZE s buf left).map (Prod.map id .wrote)
  | .read len fPos left => (fortuneRead PAGE_SIZE s len fPos left).map (Prod.map id .read)

/-- The calls in order, with their replies. -/
def exec (s : State) : List Call → Option (State × List Reply)
  | [] => some (s, [])
  | c :: rest =>
    (call PAGE_SIZE s c).bind fun (s, reply) => (exec s rest).map (Prod.map id (reply :: ·))

end OsLabs.Fortune
