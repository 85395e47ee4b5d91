import Mathlib.Algebra.Group.Nat.Defs
import Mathlib.Data.List.Basic
import Mathlib.Logic.Function.Basic

/-!
# Becoming a daemon (`daemonize` of `daemon.c`)

The child of `daemonize` closes the descriptors below the hard limit, or below 1024 where there is
none, and then expects `/dev/null` at the descriptors 0, 1 and 2. `open` and `dup` return the
lowest free descriptor, if there is one below the soft limit.
-/

namespace OsLabs.Daemon

/-- What a descriptor stands for: something that the parent had opened, `/dev/null`, the
configuration file, or something that the C library has opened for itself. -/
inductive Description where
  | inherited (k : Nat)
  | devNull
  | config
  | library
deriving DecidableEq

/-- The open descriptors. -/
abbrev Descriptors := Nat → Option Description

def close (t : Descriptors) (fd : Nat) : Descriptors := Function.update t fd none

def lowestFree (limit : Nat) (t : Descriptors) : Option Nat :=
  (List.range limit).find? fun fd => (t fd).isNone

/-- A call that returns a new descriptor for `d`, or `-1`. -/
def install (limit : Nat) (t : Descriptors) (d : Description) : Descriptors × Int :=
  match lowestFree limit t with
  | none => (t, -1)
  | some fd => (Function.update t fd (some d), fd)

def dup (limit : Nat) (t : Descriptors) (fd : Nat) : Descriptors × Int :=
  match t fd with
  | none => (t, -1)
  | some d => install limit t d

def RLIM_INFINITY : Nat := 2 ^ 64 - 1

/-- The limits of the number of descriptors. The kernel keeps the soft limit below the hard one,
and a hard limit fits in the `int` that counts the descriptors. -/
structure Rlimit where
  cur : Nat
  max : Nat
  cur_le_max : cur ≤ max
  max_fits : max = RLIM_INFINITY ∨ max < 2 ^ 31

inductive Fork where
  | failed
  | parent
  | child
deriving DecidableEq

/-- What the system calls of `daemonize` return; `rl` is what `getrlimit` stores, `none` if it
fails. -/
structure Calls where
  rl : Option Rlimit
  fork : Fork
  setsid : Bool
  sigaction : Bool
  chdir : Bool
  devNull : Bool

/-- How `daemonize` ends: the process exits after a message, or it goes on as the daemon. -/
inductive Outcome where
  | exited (status : Nat) (message : String)
  | daemon (t : Descriptors)

/-- The limit of the loop that closes the descriptors. -/
def Rlimit.closed (rl : Rlimit) : Nat := if rl.max = RLIM_INFINITY then 1024 else rl.max

def closeAll (t : Descriptors) (n : Nat) : Descriptors := (List.range n).foldl close t

def daemonize (calls : Calls) (t : Descriptors) : Outcome :=
  match calls.rl with
  | none => .exited 1 "getrlimit"
  | some rl =>
    if calls.fork = .failed then .exited 1 "fork"
    else if calls.fork = .parent then .exited 0 ""
    else if calls.setsid = false then .exited 1 "setsid"
    else if calls.sigaction = false then .exited 1 "sigaction"
    else if calls.chdir = false then .exited 1 "chdir"
    else
      let t := closeAll t rl.closed
      let opened := if calls.devNull then install rl.cur t .devNull else (t, -1)
      let first := dup rl.cur opened.1 0
      let second := dup rl.cur first.1 0
      if opened.2 ≠ 0 then .exited 1 "stdin"
      else if first.2 ≠ 1 then .exited 1 "stdout"
      else if second.2 ≠ 2 then .exited 1 "stderr"
      else .daemon second.1

/-! ## Descriptors -/

theorem closeAll_apply (t : Descriptors) (n fd : Nat) :
    closeAll t n fd = if fd < n then none else t fd := by
  induction n with
  | zero => rfl
  | succ n ih =>
    rw [closeAll, List.range_succ, List.foldl_append, ← closeAll]
    show Function.update (closeAll t n) n none fd = _
    by_cases hLast : fd = n
    · subst hLast
      rw [Function.update_self, if_pos (Nat.lt_succ_self fd)]
    · rw [Function.update_of_ne hLast, ih]
      by_cases hLess : fd < n
      · rw [if_pos hLess, if_pos (Nat.lt_succ_of_lt hLess)]
      · rw [if_neg hLess, if_neg (by omega)]

/-- The lowest descriptor that is free: all below are open. -/
theorem install_eq {limit fd : Nat} {t : Descriptors} (d : Description) (hFree : t fd = none)
    (hBelow : ∀ k < fd, t k ≠ none) (hLimit : fd < limit) :
    install limit t d = (Function.update t fd (some d), (fd : Int)) := by
  have hFind : lowestFree limit t = some fd := by
    refine List.find?_range_eq_some.mpr ⟨by rw [hFree]; rfl, List.mem_range.mpr hLimit, ?_⟩
    intro k hk
    obtain ⟨d, hd⟩ := Option.ne_none_iff_exists'.mp (hBelow k hk)
    rw [hd]
    rfl
  rw [install, hFind]

theorem install_full {limit : Nat} {t : Descriptors} (d : Description)
    (hFull : ∀ k < limit, t k ≠ none) : install limit t d = (t, -1) := by
  have hFind : lowestFree limit t = none := by
    refine List.find?_eq_none.mpr fun k hk => ?_
    obtain ⟨d, hd⟩ := Option.ne_none_iff_exists'.mp (hFull k (List.mem_range.mp hk))
    simp [hd]
  rw [install, hFind]

/-- An opened descriptor that is closed again leaves the table as it was. -/
theorem close_install {limit fd : Nat} {t t' : Descriptors} {d : Description}
    (h : install limit t d = (t', (fd : Int))) : close t' fd = t := by
  unfold install at h
  split at h
  · simp only [Prod.mk.injEq] at h
    omega
  · next k hFind =>
    cases h
    have hFree : (t fd).isNone = true := List.find?_some (p := fun fd => (t fd).isNone) hFind
    rw [close, Function.update_idem]
    exact Function.update_eq_self_iff.mpr (Option.isNone_iff_eq_none.mp hFree).symm

/-- The descriptors when `n` of the three are open: what the parent had opened is left from the
limit of the loop on. -/
def daemonTable (t : Descriptors) (limit n : Nat) : Descriptors := fun fd =>
  if fd < n then some .devNull else if fd < limit then none else t fd

theorem daemonTable_zero (t : Descriptors) (limit : Nat) :
    daemonTable t limit 0 = closeAll t limit := by
  ext1 fd
  rw [closeAll_apply, daemonTable, if_neg (Nat.not_lt_zero fd)]

/-- Each of the three calls gives the next descriptor, up to the soft limit. -/
theorem install_daemonTable {cur limit n : Nat} (t : Descriptors) (hLimit : n < cur → n < limit) :
    install cur (daemonTable t limit n) .devNull =
      if n < cur then (daemonTable t limit (n + 1), (n : Int))
      else (daemonTable t limit n, -1) := by
  by_cases hCur : n < cur
  · have hFree : daemonTable t limit n n = none := by
      rw [daemonTable, if_neg (Nat.lt_irrefl n), if_pos (hLimit hCur)]
    have hBelow : ∀ k < n, daemonTable t limit n k ≠ none := by
      intro k hk
      rw [daemonTable, if_pos hk]
      exact Option.some_ne_none _
    rw [if_pos hCur, install_eq .devNull hFree hBelow hCur, Prod.mk.injEq]
    refine ⟨?_, rfl⟩
    ext1 fd
    by_cases hLast : fd = n
    · subst hLast
      rw [Function.update_self, daemonTable, if_pos (Nat.lt_succ_self fd)]
    · have hIff : fd < n + 1 ↔ fd < n := by omega
      simp only [Function.update_of_ne hLast, daemonTable, hIff]
  · rw [if_neg hCur]
    apply install_full
    intro k hk
    rw [daemonTable, if_pos (by omega)]
    exact Option.some_ne_none _

/-- A descriptor that the loop has not closed stays what it was. -/
theorem dup_daemonTable {cur limit n : Nat} (t : Descriptors) :
    dup cur (daemonTable t limit (n + 1)) 0 =
      install cur (daemonTable t limit (n + 1)) .devNull := by
  rw [dup, show daemonTable t limit (n + 1) 0 = some .devNull from if_pos (Nat.succ_pos n)]

theorem Rlimit.lt_closed (rl : Rlimit) {n : Nat} (hThree : n < 3) (hCur : n < rl.cur) :
    n < rl.closed := by
  have hMax := rl.cur_le_max
  unfold Rlimit.closed
  split <;> omega

/-- The three calls give 0, 1 and 2 exactly when there is room for three descriptors. -/
theorem three_installed_iff (rl : Rlimit) (t t' : Descriptors) :
    (let opened := install rl.cur (closeAll t rl.closed) .devNull
     let first := dup rl.cur opened.1 0
     let second := dup rl.cur first.1 0
     opened.2 = 0 ∧ first.2 = 1 ∧ second.2 = 2 ∧ second.1 = t') ↔
      3 ≤ rl.cur ∧ t' = daemonTable t rl.closed 3 := by
  have hInstall : ∀ n < 3, install rl.cur (daemonTable t rl.closed n) .devNull =
      if n < rl.cur then (daemonTable t rl.closed (n + 1), (n : Int))
      else (daemonTable t rl.closed n, -1) :=
    fun n hn => install_daemonTable t fun hCur => rl.lt_closed hn hCur
  rw [← daemonTable_zero, hInstall 0 (by omega)]
  by_cases hOne : 0 < rl.cur
  · rw [if_pos hOne]
    simp only [dup_daemonTable, hInstall 1 (by omega)]
    by_cases hTwo : 1 < rl.cur
    · rw [if_pos hTwo]
      simp only [dup_daemonTable, hInstall 2 (by omega)]
      by_cases hThree : 2 < rl.cur
      · simp [hThree, eq_comm (a := t')]
        omega
      · simp [hThree]
        omega
    · simp [hTwo]
      omega
  · simp [hOne]
    omega

/-- `daemonize` comes to its end exactly when its calls succeed and the soft limit leaves room for
three descriptors. Then these are `/dev/null`, and of what the parent had opened the daemon keeps
the descriptors from the limit of the loop on. -/
theorem daemonize_iff (calls : Calls) (t t' : Descriptors) :
    daemonize calls t = .daemon t' ↔
      ∃ rl, calls.rl = some rl ∧ calls.fork = .child ∧ calls.setsid = true ∧
        calls.sigaction = true ∧ calls.chdir = true ∧ calls.devNull = true ∧ 3 ≤ rl.cur ∧
        t' = daemonTable t rl.closed 3 := by
  rcases calls with ⟨rl, fork, setsid, sigaction, chdir, devNull⟩
  cases rl with
  | none => simp [daemonize]
  | some rl =>
    have hThree := three_installed_iff rl t t'
    cases fork
    · simp [daemonize]
    · simp [daemonize]
    cases setsid
    · simp [daemonize]
    cases sigaction
    · simp [daemonize]
    cases chdir
    · simp [daemonize]
    cases devNull
    · simp [daemonize]
    simp only [true_and, Option.some.injEq, exists_eq_left']
    rw [← hThree]
    simp only [daemonize, reduceCtorEq, Bool.true_eq_false, if_true, if_false]
    split_ifs <;> simp_all

/-- The limits that many systems set. -/
def usualLimits : Rlimit := ⟨1024, 4096, by decide, by decide⟩

/-- A parent with a terminal at 0, 1 and 2 and with the descriptor 5000 open. -/
def parentTable : Descriptors := fun fd =>
  if fd < 3 ∨ fd = 5000 then some (.inherited fd) else none

theorem daemonize_usual : ∃ t', daemonize ⟨some usualLimits, .child, true, true, true, true⟩
    parentTable = .daemon t' ∧ t' 2 = some .devNull ∧ t' 3 = none ∧
      t' 5000 = some (.inherited 5000) :=
  ⟨_, (daemonize_iff _ _ _).mpr ⟨usualLimits, rfl, rfl, rfl, rfl, rfl, rfl, by decide, rfl⟩,
    rfl, rfl, rfl⟩

end OsLabs.Daemon
