import OsLabs.Memory.Object

/-!
# The request object of `lab_sockets/lab_03/lab_03/common.h`

`req_t` has `type` at offset 0, a four-byte `status` at offset 4 and `letter` at offset
8, twelve bytes in all. The model keeps the whole object, padding included, because
`send` and `recv` move its bytes and not its fields.
-/

namespace OsLabs.Sockets

open Memory

def ARR_SIZE : Nat := 26

def OK : BitVec 32 := 0
def ERR_BUF_FULL : BitVec 32 := 1
def ERR_BUF_EMPTY : BitVec 32 := 2

/-- The bytes of a `req_t` object. -/
abbrev ReqT := Object 12

namespace ReqT

def type (r : ReqT) : UInt8 := r 0
def status (r : ReqT) : BitVec 32 := intOf (r 4) (r 5) (r 6) (r 7)
def letter (r : ReqT) : UInt8 := r 8

def setType (r : ReqT) (t : UInt8) : ReqT := Function.update r 0 t

def setStatus (r : ReqT) (v : BitVec 32) : ReqT := fun i =>
  if i = 4 then intByte v 0
  else if i = 5 then intByte v 1
  else if i = 6 then intByte v 2
  else if i = 7 then intByte v 3
  else r i

def setLetter (r : ReqT) (c : UInt8) : ReqT := Function.update r 8 c

@[simp] theorem type_setType (r : ReqT) (t : UInt8) : (setType r t).type = t := by
  simp [type, setType]

@[simp] theorem status_setType (r : ReqT) (t : UInt8) : (setType r t).status = r.status := by
  simp [status, setType]

@[simp] theorem letter_setType (r : ReqT) (t : UInt8) : (setType r t).letter = r.letter := by
  simp [letter, setType]

@[simp] theorem type_setStatus (r : ReqT) (v : BitVec 32) : (setStatus r v).type = r.type := by
  simp [type, setStatus]

@[simp] theorem status_setStatus (r : ReqT) (v : BitVec 32) : (setStatus r v).status = v := by
  simp [status, setStatus]

@[simp] theorem letter_setStatus (r : ReqT) (v : BitVec 32) :
    (setStatus r v).letter = r.letter := by
  simp [letter, setStatus]

@[simp] theorem type_setLetter (r : ReqT) (c : UInt8) : (setLetter r c).type = r.type := by
  simp [type, setLetter]

@[simp] theorem status_setLetter (r : ReqT) (c : UInt8) :
    (setLetter r c).status = r.status := by
  simp [status, setLetter]

@[simp] theorem letter_setLetter (r : ReqT) (c : UInt8) : (setLetter r c).letter = c := by
  simp [letter, setLetter]

end ReqT

end OsLabs.Sockets
