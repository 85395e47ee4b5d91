import Mathlib.Data.List.Basic

/-!
# Byte streams cut into blocks of one size

`blocks v n l` cuts the first `n * v` elements of `l` into `n` blocks. A list of pieces,
none longer than `v`, whose total length is that of as many blocks as there are pieces
can only consist of pieces of length `v`.
-/

namespace OsLabs.Memory

variable {α : Type}

def blocks (v : Nat) : Nat → List α → List (List α)
  | 0, _ => []
  | n + 1, l => l.take v :: blocks v n (l.drop v)

@[simp] theorem length_blocks (v n : Nat) (l : List α) : (blocks v n l).length = n := by
  induction n generalizing l with
  | zero => rfl
  | succ n ih => rw [blocks, List.length_cons, ih]

theorem blocks_flatten {v : Nat} {pieces : List (List α)} (h : ∀ p ∈ pieces, p.length = v) :
    blocks v pieces.length pieces.flatten = pieces := by
  induction pieces with
  | nil => rfl
  | cons p rest ih =>
    have hp : p.length = v := h p List.mem_cons_self
    rw [List.length_cons, List.flatten_cons, blocks, List.take_left' hp, List.drop_left' hp,
      ih fun q hq => h q (List.mem_cons_of_mem _ hq)]

theorem length_flatten_le {v : Nat} {pieces : List (List α)} (h : ∀ p ∈ pieces, p.length ≤ v) :
    pieces.flatten.length ≤ pieces.length * v := by
  induction pieces with
  | nil => simp
  | cons p rest ih =>
    have hp := h p List.mem_cons_self
    have hRest := ih fun q hq => h q (List.mem_cons_of_mem _ hq)
    rw [List.flatten_cons, List.length_append, List.length_cons, Nat.succ_mul]
    omega

theorem length_eq_of_flatten {v : Nat} {pieces : List (List α)} (h : ∀ p ∈ pieces, p.length ≤ v)
    (hTotal : pieces.flatten.length = pieces.length * v) : ∀ p ∈ pieces, p.length = v := by
  induction pieces with
  | nil => exact fun p hp => absurd hp (List.not_mem_nil)
  | cons p rest ih =>
    have hp := h p List.mem_cons_self
    have hRest := fun q hq => h q (List.mem_cons_of_mem p hq)
    have hBound := length_flatten_le hRest
    rw [List.flatten_cons, List.length_append, List.length_cons, Nat.succ_mul] at hTotal
    intro q hq
    rcases List.mem_cons.mp hq with rfl | hq
    · omega
    · exact ih hRest (by omega) q hq

theorem length_flatten_eq {v : Nat} {pieces : List (List α)} (h : ∀ p ∈ pieces, p.length = v) :
    pieces.flatten.length = pieces.length * v := by
  induction pieces with
  | nil => simp
  | cons p rest ih =>
    rw [List.flatten_cons, List.length_append, List.length_cons, Nat.succ_mul,
      h p List.mem_cons_self, ih fun q hq => h q (List.mem_cons_of_mem _ hq), Nat.add_comm]

end OsLabs.Memory
