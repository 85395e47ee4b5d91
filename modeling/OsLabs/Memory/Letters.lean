import Mathlib.Data.List.Basic

/-!
# The alphabet as an endless sequence

`letter k` is the `k`-th letter of `'a', 'b', ..., 'z', 'a', ...`, counted from zero.
-/

namespace OsLabs.Memory

def letter (k : Nat) : UInt8 := UInt8.ofNat (97 + k % 26)

/-- The first `n` letters. -/
def letters (n : Nat) : List UInt8 := (List.range n).map letter

/-- Counting letters up with a wrap after `'z'`. -/
theorem letter_succ (k : Nat) :
    letter (k + 1) = if letter k = 'z'.toUInt8 then 'a'.toUInt8 else letter k + 1 := by
  have hTable : ∀ r : Fin 26, UInt8.ofNat (97 + (r.val + 1) % 26) =
      if UInt8.ofNat (97 + r.val) = 'z'.toUInt8 then 'a'.toUInt8
      else UInt8.ofNat (97 + r.val) + 1 := by decide
  have hMod : (k + 1) % 26 = (k % 26 + 1) % 26 := by omega
  rw [letter, letter, hMod]
  exact hTable ⟨k % 26, Nat.mod_lt _ (by decide)⟩

/-- The same, with the wrap recognised after the step. -/
theorem letter_succ_wrap (k : Nat) :
    letter (k + 1) = if letter k + 1 = 'z'.toUInt8 + 1 then 'a'.toUInt8 else letter k + 1 := by
  have hCancel : letter k + 1 = 'z'.toUInt8 + 1 ↔ letter k = 'z'.toUInt8 := UInt8.add_left_inj 1
  rw [letter_succ, if_congr hCancel.symm rfl rfl]

@[simp] theorem length_letters (n : Nat) : (letters n).length = n := by
  simp [letters]

theorem letters_succ (n : Nat) : letters (n + 1) = letters n ++ [letter n] := by
  simp [letters, List.range_succ]

end OsLabs.Memory
