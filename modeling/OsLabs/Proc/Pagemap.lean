import OsLabs.Memory.CString
import OsLabs.Proc.Maps

/-!
# The pages of a process (`lab_proc/main.c`, `fprintf_pagemap_info`)

The text of `maps` is read into `buffer` in chunks. At every newline the line before it is
scanned: back to its beginning, then forward through its fields. The newline is overwritten by 0
while the pages of the range are printed, and restored afterwards. A chunk overwrites the
beginning of the buffer and leaves the rest of it as it was; `offset` is always 0.

An access outside of `buffer` or `buf` is a fault. The loop over the pages of a range starts again
at the bottom when the next address is past `2 ^ 64`; the model stops there. Opening the files is
left out, and a call of `fprintf` is kept with its arguments.
-/

namespace OsLabs.Proc

open Memory

inductive Fault where
  | buffer (x : Nat)
  | buf (r : Nat)
  | wrapped
deriving DecidableEq

/-! ## Scanning a line -/

def peek (buffer : List UInt8) (x : Nat) : Except Fault UInt8 :=
  match buffer[x]? with
  | some c => .ok c
  | none => .error (.buffer x)

def poke (buffer : List UInt8) (x : Nat) (c : UInt8) : Except Fault (List UInt8) :=
  if x < buffer.length then .ok (buffer.set x c) else .error (.buffer x)

/-- The loop `while (p(buffer[x]) && x < sizeof buffer) x++`, where the buffer is given from
position `x` on. -/
def skip (p : UInt8 → Bool) : List UInt8 → Nat → Except Fault Nat
  | [], x => .error (.buffer x)
  | c :: rest, x => if p c ∧ x < BUFSIZ then skip p rest (x + 1) else .ok x

/-- The loop `while (x && buffer[x] != '\n') x--`. -/
def back (buffer : List UInt8) : Nat → Except Fault Nat
  | 0 => .ok 0
  | x + 1 => do
    let c ← peek buffer (x + 1)
    if c ≠ newline then back buffer x else .ok (x + 1)

/-- Where the line that ends at `i` begins. -/
def lineStart (buffer : List UInt8) (i : Nat) : Except Fault Nat := do
  let x ← back buffer (i - 1)
  let c ← peek buffer x
  if c = newline then .ok (x + 1) else .ok x

/-- The loop that reads an address up to the byte `stop`: where it ends, and the address. -/
def address (stop : UInt8) : List UInt8 → Nat → Nat → Except Fault (Nat × Nat)
  | [], x, _ => .error (.buffer x)
  | c :: rest, x, value =>
    if c ≠ stop ∧ x < BUFSIZ then
      match hexDigit c with
      | some d => address stop rest (x + 1) ((value * 16 % 2 ^ 64 + d) % 2 ^ 64)
      | none => .ok (x + 1, value * 16 % 2 ^ 64)
    else .ok (x, value)

/-- The loop over `n` fields. -/
def skipFields (buffer : List UInt8) : Nat → Nat → Except Fault Nat
  | 0, x => .ok x
  | n + 1, x => do
    let x ← skip (· ≠ space) (buffer.drop (x + 1)) (x + 1)
    skipFields buffer n x

structure Parsed where
  low : Nat
  high : Nat
  x : Nat
  y : Nat
deriving DecidableEq

def parseLine (buffer : List UInt8) (i : Nat) : Except Fault Parsed := do
  let x ← lineStart buffer i
  let (x, low) ← address dash (buffer.drop x) x 0
  let x ← skip (· ≠ dash) (buffer.drop x) x
  let c ← peek buffer x
  let x := if c = dash then x + 1 else x
  let (x, high) ← address space (buffer.drop x) x 0
  let x ← skipFields buffer 4 x
  let x ← skip (· = space) (buffer.drop x) x
  let y ← skip (· ≠ newline) (buffer.drop x) x
  .ok ⟨low, high, x, y⟩

/-! ## The entry of a page -/

structure PagemapEntry where
  pfn : Nat
  softDirty : Nat
  filePage : Nat
  swapped : Nat
  present : Nat
deriving DecidableEq

/-- What call number `calls` of `pread` gives for this count and offset, nothing if it fails or
is at the end of the file. -/
abbrev Pread := (calls count offset : Nat) → List UInt8

/-- The loop that fills the 8 bytes of `data`, with the number of the next call of `pread`. -/
def readData (pread : Pread) (offset calls : Nat) (data : List UInt8) :
    Option (List UInt8) × Nat :=
  if _hData : data.length < 8 then
    let bytes := (pread calls (8 - data.length) (offset + data.length)).take (8 - data.length)
    if hBytes : bytes = [] then (none, calls + 1)
    else readData pread offset (calls + 1) (data ++ bytes)
  else (some data, calls)
termination_by 8 - data.length
decreasing_by
  have hPos := List.length_pos_of_ne_nil hBytes
  show 8 - (data ++ bytes).length < 8 - data.length
  rw [List.length_append]
  omega

/-- A `uint64_t` in memory. -/
def uint64 (data : List UInt8) : Nat := data.foldr (fun b n => b.toNat + 256 * n) 0

def entryOf (data : Nat) : PagemapEntry :=
  ⟨data % 2 ^ 55, data / 2 ^ 55 % 2, data / 2 ^ 61 % 2, data / 2 ^ 62 % 2, data / 2 ^ 63 % 2⟩

def pagemapGetEntry (page : Nat) (pread : Pread) (calls vaddr : Nat) :
    Option PagemapEntry × Nat :=
  let read := readData pread (vaddr / page * 8) calls []
  (read.1.map fun data => entryOf (uint64 data), read.2)

/-! ## The whole function -/

inductive Out where
  | text (s : String)
  | pages (n : Nat)
  | row (addr : Nat) (entry : PagemapEntry) (libName : List UInt8)

/-- The array `buf` as far as it is filled, the number of `pread` calls so far and the output. -/
structure Log where
  buf : List Nat
  calls : Nat
  out : List Out

structure State where
  buffer : List UInt8
  log : Log

section

variable (page : Nat) (pread : Pread)

/-- The body of the loop over the pages of a range. -/
def printRow (libName : List UInt8) (x : Nat × List Out) (addr : Nat) : Nat × List Out :=
  let read := pagemapGetEntry page pread x.1 addr
  (read.2, match read.1 with
    | some entry => x.2 ++ [.row addr entry libName]
    | none => x.2)

def printRows (libName : List UInt8) (high addr : Nat) (x : Nat × List Out) :
    Except Fault (Nat × List Out) :=
  if addr < high then
    let next := (addr + page) % 2 ^ 64
    if addr < next then printRows libName high next (printRow page pread libName x addr)
    else .error .wrapped
  else .ok x
termination_by high - addr

/-- The body of the loop over the bytes of a chunk. -/
def byteStep (s : State) (i : Nat) : Except Fault State := do
  let c ← peek s.buffer i
  if c = newline ∧ i ≠ 0 then
    let line ← parseLine s.buffer i
    let buffer ← poke s.buffer line.y 0
    let libName := (buffer.drop line.x).takeWhile (· ≠ 0)
    let pages := (line.high + 2 ^ 64 - line.low) % 2 ^ 64 / page
    if s.log.buf.length < 1000 then
      let (calls, out) ← printRows page pread libName line.high line.low
        (s.log.calls, s.log.out ++ [.pages pages])
      let buffer ← poke buffer line.y newline
      .ok ⟨buffer, s.log.buf ++ [pages], calls, out⟩
    else .error (.buf s.log.buf.length)
  else .ok s

/-- What `read` leaves in the buffer. -/
def loadChunk (s : State) (chunk : List UInt8) : Except Fault State :=
  match store s.buffer 0 chunk with
  | some buffer => .ok { s with buffer := buffer }
  | none => .error (.buffer chunk.length)

def readChunk (s : State) (chunk : List UInt8) : Except Fault State := do
  let s ← loadChunk s chunk
  (List.range chunk.length).foldlM (byteStep page pread) s

/-- The chunks that `read` returns, up to the first empty one. -/
def readChunks (s : State) : List (List UInt8) → Except Fault State
  | [] => .ok s
  | chunk :: rest =>
    if chunk = [] then .ok s
    else do
      let s ← readChunk page pread s chunk
      readChunks s rest

def title : List Out :=
  [.text "\nPAGEMAP:\n",
    .text "addr\t\t\tpfn\t\t\tsoft-dirty\tfile/shared swapped present library\n"]

/-- `buffer` is what the array happens to hold at first. -/
def fprintfPagemapInfo (buffer : List UInt8) (chunks : List (List UInt8)) :
    Except Fault State :=
  readChunks page pread ⟨buffer, [], 0, title⟩ chunks

end

end OsLabs.Proc
