import OsLabs.Runs.Pool
import OsLabs.Stdio.Decimal

/-!
# The lock file of the daemon (`already_running` of `daemon.c`)

`already_running` creates the lock file with `O_EXCL` and then asks for a record lock on it. Any
number of processes call it, each may be killed at any time, and somebody may remove the file. The
lock cannot be refused, because a file that a process has just created is locked by nobody else:
so `already_running` never returns 1. Nobody removes the file when the daemon ends, so a second
daemon can only start after somebody has, and it does so even when the first one still runs.
-/

namespace OsLabs.Daemon

open Runs Stdio

variable {τ : Type}

/-- The file that `LOCKFILE` names, the number of lock files created so far, the process that has
locked each of them, and their contents. -/
structure Files (τ : Type) where
  lockFile : Option Nat
  created : Nat
  locks : Nat → Option τ
  contents : Nat → List UInt8

/-- The next statement of `already_running`, with the file that is open. -/
inductive Pc where
  | openFile
  | lock (ino : Nat)
  | truncate (ino : Nat)
  | write (ino : Nat)
  | running (ino : Nat)
  | exited

structure Process (τ : Type) where
  self : τ
  pid : Nat
  pc : Pc

/-- The statements with what their calls return, and what others do: `kill` ends the process, and
`unlink` removes the lock file. `write` stores a part of its text. -/
inductive Action where
  | openFile (fails : Bool)
  | lock (fails : Bool)
  | truncate (ok : Bool)
  | write (written : Nat)
  | kill
  | unlink

inductive Event where
  | syslog (text : String)
  | created
  | passed
  | unlinked
deriving DecidableEq

def cannotRestart : String := "невозможно повторно запустить демона; /var/run/daemon.pid: "
def fcntlFailed : String := "fcntl /var/run/daemon.pid: "
def alreadyRunning : String := "демон уже запущен"

/-- The string that `sprintf` prints, with its end. -/
def pidText (pid : Nat) : List UInt8 := render pid ++ [0]

/-- The locks of a process that ends are released. -/
def Files.release [DecidableEq τ] (files : Files τ) (t : τ) : Files τ :=
  { files with locks := fun ino => if files.locks ino = some t then none else files.locks ino }

def Process.exit [DecidableEq τ] (p : Process τ) (files : Files τ) (es : List Event) :
    Option (Files τ × Process τ × List Event) :=
  some (files.release p.self, { p with pc := .exited }, es)

def step [DecidableEq τ] (files : Files τ) (p : Process τ) :
    Action → Option (Files τ × Process τ × List Event)
  | .openFile fails =>
    match p.pc with
    | .openFile =>
      if files.lockFile.isSome ∨ fails then p.exit files [.syslog cannotRestart]
      else
        let ino := files.created
        some ({ files with
          lockFile := some ino
          created := ino + 1
          contents := Function.update files.contents ino [] },
          { p with pc := .lock ino }, [.created])
    | _ => none
  | .lock fails =>
    match p.pc with
    | .lock ino =>
      -- another process holds the lock: `already_running` returns 1, and `main` gives up
      if (files.locks ino).any (· ≠ p.self) then p.exit files [.syslog alreadyRunning]
      else if fails then p.exit files [.syslog fcntlFailed]
      else
        some ({ files with locks := Function.update files.locks ino (some p.self) },
          { p with pc := .truncate ino }, [])
    | _ => none
  | .truncate ok =>
    match p.pc with
    | .truncate ino =>
      let contents := if ok then Function.update files.contents ino [] else files.contents
      some ({ files with contents := contents }, { p with pc := .write ino }, [])
    | _ => none
  | .write written =>
    match p.pc with
    | .write ino =>
      let text := (pidText p.pid).take written
      some ({ files with
        contents := Function.update files.contents ino
          (text ++ (files.contents ino).drop text.length) },
        { p with pc := .running ino }, [.passed])
    | _ => none
  | .kill =>
    match p.pc with
    | .exited => none
    | _ => p.exit files []
  | .unlink =>
    if files.lockFile.isSome then some ({ files with lockFile := none }, p, [.unlinked]) else none

/-- Processes that are about to call `already_running`, before there is a lock file. -/
def init (pid : τ → Nat) : Conf τ (Files τ) (Process τ) :=
  ⟨⟨none, 0, fun _ => none, fun _ => []⟩, fun t => ⟨t, pid t, .openFile⟩⟩

def execute [DecidableEq τ] (pid : τ → Nat) (sched : List (τ × Action)) :
    Conf τ (Files τ) (Process τ) × List (τ × Event) :=
  run (poolStep step) (init pid) sched

/-! ## The file a process has created -/

/-- The file that a process has open. -/
def Pc.file : Pc → Option Nat
  | .lock ino | .truncate ino | .write ino | .running ino => some ino
  | .openFile | .exited => none

/-- The file that a process has locked. -/
def Pc.locked : Pc → Option Nat
  | .truncate ino | .write ino | .running ino => some ino
  | .openFile | .lock _ | .exited => none

/-- The process is still in `already_running` with its file. -/
def Pc.pending : Pc → Prop
  | .lock _ | .truncate _ | .write _ => True
  | .openFile | .running _ | .exited => False

instance (pc : Pc) : Decidable pc.pending := by
  cases pc <;> unfold Pc.pending <;> infer_instance

theorem file_of_locked {pc : Pc} {ino : Nat} (h : pc.locked = some ino) : pc.file = some ino := by
  cases pc with
  | openFile | lock k | exited => cases h
  | truncate k | write k | running k => exact h

/-- What a process and its file have to do with each other. -/
structure Sound (n : Nat) (files : Files τ) (t : τ) (p : Process τ) : Prop where
  self : p.self = t
  pid : p.pid = n
  old : ∀ ino, p.pc.file = some ino → ino < files.created
  locks : ∀ ino, files.locks ino = some t ↔ p.pc.locked = some ino
  contents : ∀ ino, p.pc.file = some ino → files.contents ino <+: pidText n
  empty : p.pc.pending → ∀ ino, p.pc.file = some ino → files.contents ino = []

variable [Fintype τ]

/-- Every process works with a file of its own. -/
structure Inv (pid : τ → Nat) (c : Conf τ (Files τ) (Process τ)) (h : List Event) : Prop where
  sound : ∀ t, Sound (pid t) c.shared t (c.procs t)
  own : ∀ t u ino, (c.procs t).pc.file = some ino → (c.procs u).pc.file = some ino → t = u
  created : c.shared.created = h.count .unlinked + c.shared.lockFile.isSome.toNat
  passed : h.count .passed + count (fun p => p.pc.pending) c.procs ≤ c.shared.created
  granted : Event.syslog alreadyRunning ∉ h

theorem inv_init (pid : τ → Nat) : Inv pid (init pid) [] := by
  refine ⟨fun t => ⟨rfl, rfl, nofun, fun ino => ⟨nofun, nofun⟩, nofun, fun h => h.elim⟩, nofun, rfl,
    ?_, List.not_mem_nil⟩
  rw [List.count_nil, Nat.zero_add]
  exact Nat.le_of_eq (count_eq_zero.mpr fun _ h => h)

omit [Fintype τ] in
/-- The other processes do not notice what happens to files they have not opened. -/
theorem Sound.other {n : Nat} {files files' : Files τ} {u : τ} {p : Process τ}
    (h : Sound n files u p) (hCreated : files.created ≤ files'.created)
    (hLocks : ∀ ino, files'.locks ino = some u ↔ files.locks ino = some u)
    (hContents : ∀ ino, p.pc.file = some ino → files'.contents ino = files.contents ino) :
    Sound n files' u p := by
  refine ⟨h.self, h.pid, fun ino hFile => Nat.lt_of_lt_of_le (h.old ino hFile) hCreated,
    fun ino => (hLocks ino).trans (h.locks ino), fun ino hFile => ?_, fun hPending ino hFile => ?_⟩
  · rw [hContents ino hFile]
    exact h.contents ino hFile
  · rw [hContents ino hFile]
    exact h.empty hPending ino hFile

variable [DecidableEq τ]

/-- A step of a process that opens no file. -/
theorem Inv.advance {pid : τ → Nat} {c : Conf τ (Files τ) (Process τ)} {h : List Event}
    (hInv : Inv pid c h) {t : τ} {files : Files τ} {p : Process τ} {es : List Event}
    (hSound : Sound (pid t) files t p)
    (hFile : ∀ ino, p.pc.file = some ino → (c.procs t).pc.file = some ino)
    (hCreated : files.created = c.shared.created) (hLockFile : files.lockFile = c.shared.lockFile)
    (hLocks : ∀ u, u ≠ t → ∀ ino, files.locks ino = some u ↔ c.shared.locks ino = some u)
    (hContents : ∀ ino, (c.procs t).pc.file ≠ some ino →
      files.contents ino = c.shared.contents ino)
    (hUnlinked : es.count .unlinked = 0)
    (hPassed : es.count .passed + (if p.pc.pending then 1 else 0) ≤
      if (c.procs t).pc.pending then 1 else 0)
    (hGranted : Event.syslog alreadyRunning ∉ es) :
    Inv pid ⟨files, Function.update c.procs t p⟩ (h ++ es) := by
  have hOld (u : τ) (ino : Nat) (hu : (Function.update c.procs t p u).pc.file = some ino) :
      (c.procs u).pc.file = some ino := by
    by_cases ht : u = t
    · subst ht
      rw [Function.update_self] at hu
      exact hFile ino hu
    · rwa [Function.update_of_ne ht] at hu
  refine ⟨fun u => ?_, fun u v ino hu hv => hInv.own u v ino (hOld u ino hu) (hOld v ino hv),
    ?_, ?_, ?_⟩
  · dsimp only
    by_cases hu : u = t
    · subst hu
      rwa [Function.update_self]
    · rw [Function.update_of_ne hu]
      refine (hInv.sound u).other (Nat.le_of_eq hCreated.symm) (hLocks u hu) fun ino hFile => ?_
      exact hContents ino fun hSame => hu (hInv.own u t ino hFile hSame)
  · rw [List.count_append, hUnlinked, Nat.add_zero, hCreated, hLockFile]
    exact hInv.created
  · have hCount := count_update (fun p => p.pc.pending) c.procs t p
    have hBefore := hInv.passed
    rw [List.count_append, hCreated]
    dsimp only at hCount ⊢
    omega
  · exact fun hMem => (List.mem_append.mp hMem).elim hInv.granted hGranted

/-- A process ends. -/
theorem Inv.exit {pid : τ → Nat} {c : Conf τ (Files τ) (Process τ)} {h : List Event}
    (hInv : Inv pid c h) {t : τ} {files : Files τ} {p : Process τ} {es es' : List Event}
    (hStep : (c.procs t).exit c.shared es = some (files, p, es'))
    (hUnlinked : es.count .unlinked = 0) (hPassed : es.count .passed = 0)
    (hGranted : Event.syslog alreadyRunning ∉ es) :
    Inv pid ⟨files, Function.update c.procs t p⟩ (h ++ es') := by
  cases hStep
  have hSelf := (hInv.sound t).self
  refine hInv.advance ⟨hSelf, (hInv.sound t).pid, nofun, fun ino => ⟨?_, nofun⟩, nofun,
    fun h => h.elim⟩ nofun rfl rfl (fun u hu ino => ?_) (fun ino _ => rfl) hUnlinked ?_ hGranted
  · show (if c.shared.locks ino = some (c.procs t).self then none else c.shared.locks ino) =
      some t → _
    rw [hSelf]
    split
    · nofun
    · next hNot => exact fun hLock => absurd hLock hNot
  · show (if c.shared.locks ino = some (c.procs t).self then none else c.shared.locks ino) =
      some u ↔ _
    rw [hSelf]
    split
    · next hLock =>
      rw [hLock]
      exact ⟨nofun, fun hEq => absurd (Option.some.inj hEq).symm hu⟩
    · exact Iff.rfl
  · rw [hPassed, if_neg (fun h : Pc.pending .exited => h)]
    exact Nat.zero_le _

/-- A process creates the lock file. -/
theorem Inv.create {pid : τ → Nat} {c : Conf τ (Files τ) (Process τ)} {h : List Event}
    (hInv : Inv pid c h) {t : τ} (hPc : (c.procs t).pc = .openFile)
    (hNone : c.shared.lockFile = none) :
    Inv pid ⟨{ c.shared with
        lockFile := some c.shared.created
        created := c.shared.created + 1
        contents := Function.update c.shared.contents c.shared.created [] },
      Function.update c.procs t { c.procs t with pc := .lock c.shared.created }⟩
      (h ++ [.created]) := by
  have hOld := hInv.sound t
  have hFresh (u : τ) (ino : Nat) (hu : (c.procs u).pc.file = some ino) :
      ino ≠ c.shared.created := Nat.ne_of_lt ((hInv.sound u).old ino hu)
  have hFile (u : τ) (ino : Nat) (hu : (Function.update c.procs t
      { c.procs t with pc := .lock c.shared.created } u).pc.file = some ino) :
      (u = t ∧ ino = c.shared.created) ∨ u ≠ t ∧ (c.procs u).pc.file = some ino := by
    by_cases ht : u = t
    · subst ht
      rw [Function.update_self] at hu
      exact Or.inl ⟨rfl, (Option.some.inj hu).symm⟩
    · rw [Function.update_of_ne ht] at hu
      exact Or.inr ⟨ht, hu⟩
  refine ⟨fun u => ?_, fun u v ino hu hv => ?_, ?_, ?_, ?_⟩
  · dsimp only
    by_cases hu : u = t
    · subst hu
      rw [Function.update_self]
      refine ⟨hOld.self, hOld.pid, fun ino hEq => ?_, fun ino => ?_, fun ino hEq => ?_,
        fun _ ino hEq => ?_⟩
      · cases hEq
        exact Nat.lt_succ_self _
      · rw [hOld.locks ino, hPc]
        exact ⟨nofun, nofun⟩
      · cases hEq
        dsimp only
        rw [Function.update_self]
        exact List.nil_prefix
      · cases hEq
        exact Function.update_self _ _ _
    · rw [Function.update_of_ne hu]
      refine (hInv.sound u).other (Nat.le_succ _) (fun _ => Iff.rfl) fun ino hEq => ?_
      exact Function.update_of_ne (hFresh u ino hEq) _ _
  · rcases hFile u ino hu with ⟨hut, hNew⟩ | ⟨-, hu'⟩
    · rcases hFile v ino hv with ⟨hvt, -⟩ | ⟨-, hv'⟩
      · rw [hut, hvt]
      · exact absurd hNew (hFresh v ino hv')
    · rcases hFile v ino hv with ⟨-, hNew⟩ | ⟨-, hv'⟩
      · exact absurd hNew (hFresh u ino hu')
      · exact hInv.own u v ino hu' hv'
  · have hCount := hInv.created
    rw [hNone] at hCount
    rw [List.count_append]
    exact congrArg (· + 1) hCount
  · have hCount := count_update (fun p => p.pc.pending) c.procs t
      { c.procs t with pc := .lock c.shared.created }
    have hBefore := hInv.passed
    rw [hPc, if_neg (fun h : Pc.pending .openFile => h),
      if_pos (show Pc.pending (.lock _) from trivial)] at hCount
    have hNew : (h ++ [Event.created]).count .passed = h.count .passed := by
      rw [List.count_append]
      rfl
    rw [hNew]
    dsimp only at hCount ⊢
    omega
  · exact fun hMem => (List.mem_append.mp hMem).elim hInv.granted (by decide)

omit [DecidableEq τ] in
/-- Somebody removes the lock file. -/
theorem Inv.unlink {pid : τ → Nat} {c : Conf τ (Files τ) (Process τ)} {h : List Event}
    (hInv : Inv pid c h) (hSome : c.shared.lockFile.isSome) :
    Inv pid ⟨{ c.shared with lockFile := none }, c.procs⟩ (h ++ [.unlinked]) := by
  refine ⟨fun u => (hInv.sound u).other (Nat.le_refl _) (fun _ => Iff.rfl) fun _ _ => rfl, hInv.own,
    ?_, ?_, ?_⟩
  · have hCount := hInv.created
    rw [hSome] at hCount
    rw [List.count_append]
    exact hCount
  · rw [List.count_append]
    exact hInv.passed
  · exact fun hMem => (List.mem_append.mp hMem).elim hInv.granted (by decide)

/-- A process locks the file it has created. -/
theorem Inv.lock {pid : τ → Nat} {c : Conf τ (Files τ) (Process τ)} {h : List Event}
    (hInv : Inv pid c h) {t : τ} {ino : Nat} (hPc : (c.procs t).pc = .lock ino)
    (hNobody : c.shared.locks ino = none) :
    Inv pid ⟨{ c.shared with
        locks := Function.update c.shared.locks ino (some (c.procs t).self) },
      Function.update c.procs t { c.procs t with pc := .truncate ino }⟩ (h ++ []) := by
  obtain ⟨hSelf, hPid, hOld, hLocks, hContents, hEmpty⟩ := hInv.sound t
  rw [hPc] at hOld hLocks hContents hEmpty
  refine hInv.advance ⟨hSelf, hPid, hOld, fun k => ?_, hContents, hEmpty⟩ ?_ rfl rfl
    (fun u hu k => ?_) (fun _ _ => rfl) rfl ?_ List.not_mem_nil
  · dsimp only
    by_cases hk : k = ino
    · subst hk
      rw [Function.update_self, hSelf]
      exact iff_of_true rfl rfl
    · rw [Function.update_of_ne hk, hLocks k]
      exact ⟨nofun, fun hEq => absurd (Option.some.inj hEq).symm hk⟩
  · rw [hPc]
    exact fun _ hEq => hEq
  · dsimp only
    by_cases hk : k = ino
    · subst hk
      rw [Function.update_self, hSelf, hNobody]
      exact ⟨fun hEq => absurd (Option.some.inj hEq).symm hu, nofun⟩
    · rw [Function.update_of_ne hk]
  · rw [hPc]
    exact Nat.le_refl 1

/-- A process stores in the file it has locked. -/
theorem Inv.store {pid : τ → Nat} {c : Conf τ (Files τ) (Process τ)} {h : List Event}
    (hInv : Inv pid c h) {t : τ} {ino : Nat} (hFile : (c.procs t).pc.file = some ino) (pc : Pc)
    {text : List UInt8} (es : List Event) (hSame : pc.file = (c.procs t).pc.file)
    (hLocked : pc.locked = (c.procs t).pc.locked) (hText : text <+: pidText (pid t))
    (hEmpty : pc.pending → text = []) (hUnlinked : es.count .unlinked = 0)
    (hPassed : es.count .passed + (if pc.pending then 1 else 0) ≤
      if (c.procs t).pc.pending then 1 else 0)
    (hGranted : Event.syslog alreadyRunning ∉ es) :
    Inv pid ⟨{ c.shared with contents := Function.update c.shared.contents ino text },
      Function.update c.procs t { c.procs t with pc := pc }⟩ (h ++ es) := by
  obtain ⟨hSelf, hPid, hOld, hLocks, -, -⟩ := hInv.sound t
  have hHere {k : Nat} (hk : pc.file = some k) : k = ino :=
    Option.some.inj (hk.symm.trans (hSame.trans hFile))
  refine hInv.advance ⟨hSelf, hPid, fun k hk => hOld k (hSame ▸ hk), fun k => ?_,
    fun k hk => ?_, fun hPending k hk => ?_⟩ (fun k hk => hSame ▸ hk) rfl rfl
    (fun _ _ _ => Iff.rfl) (fun k hk => ?_) hUnlinked hPassed hGranted
  · rw [hLocked]
    exact hLocks k
  · rw [hHere hk]
    dsimp only
    rwa [Function.update_self]
  · rw [hHere hk]
    dsimp only
    rw [Function.update_self]
    exact hEmpty hPending
  · refine Function.update_of_ne ?_ _ _
    rintro rfl
    exact hk hFile

theorem Inv.step {pid : τ → Nat} {c : Conf τ (Files τ) (Process τ)} {h : List Event}
    (hInv : Inv pid c h) {t : τ} {a : Action} {files : Files τ} {p : Process τ} {es : List Event}
    (hStep : Daemon.step c.shared (c.procs t) a = some (files, p, es)) :
    Inv pid ⟨files, Function.update c.procs t p⟩ (h ++ es) := by
  have hOld := hInv.sound t
  cases a with
  | openFile fails =>
    simp only [Daemon.step] at hStep
    split at hStep
    · next hPc =>
      split at hStep
      · exact hInv.exit hStep rfl rfl (by decide)
      · next hNew =>
        cases hStep
        exact hInv.create hPc (Option.not_isSome_iff_eq_none.mp fun h => hNew (Or.inl h))
    · cases hStep
  | lock fails =>
    simp only [Daemon.step] at hStep
    split at hStep
    · next ino hPc =>
      have hNobody : c.shared.locks ino = none := by
        by_contra hSome
        obtain ⟨u, hu⟩ := Option.ne_none_iff_exists'.mp hSome
        have hLocked := ((hInv.sound u).locks ino).mp hu
        have hMine := hInv.own u t ino (file_of_locked hLocked) (by rw [hPc]; rfl)
        subst hMine
        rw [hPc] at hLocked
        cases hLocked
      rw [hNobody] at hStep
      split at hStep
      · next hOther => cases hOther
      · split at hStep
        · exact hInv.exit hStep rfl rfl (by decide)
        · cases hStep
          exact hInv.lock hPc hNobody
    · cases hStep
  | truncate ok =>
    simp only [Daemon.step] at hStep
    split at hStep
    · next ino hPc =>
      cases hStep
      have hFile : (c.procs t).pc.file = some ino := by rw [hPc]; rfl
      have hEmpty : c.shared.contents ino = [] := hOld.empty (by rw [hPc]; trivial) ino hFile
      have hText : (if ok then Function.update c.shared.contents ino [] else c.shared.contents) =
          Function.update c.shared.contents ino [] := by
        cases ok with
        | true => rfl
        | false => exact (Function.update_eq_self_iff.mpr hEmpty.symm).symm
      rw [hText]
      refine hInv.store hFile (.write ino) [] (by rw [hPc]; rfl) (by rw [hPc]; rfl) List.nil_prefix
        (fun _ => rfl) rfl ?_ List.not_mem_nil
      rw [hPc]
      exact Nat.le_refl 1
    · cases hStep
  | write written =>
    simp only [Daemon.step] at hStep
    split at hStep
    · next ino hPc =>
      cases hStep
      have hFile : (c.procs t).pc.file = some ino := by rw [hPc]; rfl
      have hEmpty : c.shared.contents ino = [] := hOld.empty (by rw [hPc]; trivial) ino hFile
      have hText : (pidText (c.procs t).pid).take written <+: pidText (pid t) := by
        rw [hOld.pid]
        exact List.take_prefix _ _
      rw [hEmpty, List.drop_nil, List.append_nil]
      refine hInv.store hFile (.running ino) [.passed] (by rw [hPc]; rfl) (by rw [hPc]; rfl) hText
        (fun h => h.elim) rfl ?_ (by decide)
      rw [hPc]
      exact Nat.le_refl 1
    · cases hStep
  | kill =>
    simp only [Daemon.step] at hStep
    split at hStep
    · cases hStep
    · exact hInv.exit hStep rfl rfl List.not_mem_nil
  | unlink =>
    simp only [Daemon.step] at hStep
    split at hStep
    · next hSome =>
      cases hStep
      rw [Function.update_eq_self]
      exact hInv.unlink hSome
    · cases hStep

theorem inv_execute (pid : τ → Nat) (sched : List (τ × Action)) :
    Inv pid (execute pid sched).1 ((execute pid sched).2.map Prod.snd) := by
  refine pool_invariant (P := fun c h => Inv pid c (h.map Prod.snd)) (inv_init pid) ?_ sched
  intro c h t a files p es hInv hStep
  rw [map_snd_append]
  exact hInv.step hStep

/-- However many processes start, are killed and see the lock file removed, `already_running`
never finds the file locked, the processes it lets pass are at most one more than the removals of
the file, and each of them holds the lock of a file of its own with its own number in it. -/
theorem passes_le_removals (pid : τ → Nat) (sched : List (τ × Action)) :
    let r := execute pid sched
    Event.syslog alreadyRunning ∉ r.2.map Prod.snd ∧
      (r.2.map Prod.snd).count .passed ≤ (r.2.map Prod.snd).count .unlinked + 1 ∧
      ∀ t ino, (r.1.procs t).pc = .running ino →
        r.1.shared.locks ino = some t ∧ r.1.shared.contents ino <+: pidText (pid t) ∧
          ∀ u, (r.1.procs u).pc = .running ino → u = t := by
  have hInv := inv_execute pid sched
  refine ⟨hInv.granted, ?_, fun t ino hPc => ?_⟩
  · have hCreated := hInv.created
    have hPassed := hInv.passed
    have hOne := Bool.toNat_le (execute pid sched).1.shared.lockFile.isSome
    omega
  · refine ⟨?_, ?_, fun u hu => ?_⟩
    · rw [(hInv.sound t).locks ino, hPc]
      rfl
    · exact (hInv.sound t).contents ino (by rw [hPc]; rfl)
    · exact hInv.own u t ino (by rw [hu]; rfl) (by rw [hPc]; rfl)

end OsLabs.Daemon
