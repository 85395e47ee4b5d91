import OsLabs.Runs.Fairness
import OsLabs.Sockets.Client

/-!
# The commands of one client (`main` of `client.c`)

Every client produces five times and then produces and consumes in turn, forty thousand
times in all. `surplus` is how many letters its commands have put in more than they have taken
out, provided that all of them succeed: never more than six, and six exactly when the next
command is a `consume`.
-/

namespace OsLabs.Sockets.Client

/-- The command that `main` gives as number `k`, while there is one. -/
def command (k : Nat) : Option Command :=
  if k < 5 then some .produce
  else if k - 5 < 40000 then some (if (k - 5) % 2 = 0 then .produce else .consume)
  else none

/-- The letters produced less those consumed by the first `k` commands. -/
def surplus (k : Nat) : Nat := if k < 5 then k else 5 + (k - 5) % 2

theorem command_isSome {k : Nat} (h : k < 40005) : ∃ cmd, command k = some cmd := by
  unfold command
  split
  · exact ⟨_, rfl⟩
  · rw [if_pos (by omega)]
    exact ⟨_, rfl⟩

theorem lt_of_command {k : Nat} {cmd : Command} (h : command k = some cmd) : k < 40005 := by
  unfold command at h
  split at h
  · omega
  · split at h
    · omega
    · cases h

theorem surplus_le (k : Nat) : surplus k ≤ 6 := by
  unfold surplus
  split <;> omega

theorem surplus_produce {k : Nat} (h : command k = some .produce) :
    surplus (k + 1) = surplus k + 1 ∧ surplus k ≤ 5 := by
  unfold command at h
  unfold surplus
  split at h
  · split <;> omega
  · split at h
    · split at h
      · split <;> omega
      · cases h
    · cases h

theorem surplus_consume {k : Nat} (h : command k = some .consume) :
    surplus (k + 1) = 5 ∧ surplus k = 6 := by
  unfold command at h
  unfold surplus
  split at h
  · cases h
  · split at h
    · split at h
      · cases h
      · split <;> omega
    · cases h

theorem command_first {k : Nat} (h : k ≤ 5) : command k = some .produce := by
  unfold command
  split
  · rfl
  · obtain rfl : k = 5 := by omega
    rfl

end OsLabs.Sockets.Client
