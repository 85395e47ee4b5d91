import OsLabs.Daemon.Daemonize
import OsLabs.Runs.Schedule
import OsLabs.Stdio.Scanf

/-!
# Signals of the daemon (`thr_fn` and `reread` of `daemon.c`)

All signals are blocked, and one thread waits for them. At SIGHUP it reads the configuration file
and reports what stands there; at SIGTERM it ends, and the daemon goes on without it. Meanwhile
anybody changes the file, in place or by another one of its name, and sends signals. A signal that
is pending is not counted twice.

`openlog` opens nothing: the connection to the log is opened by the first `syslog`, of this thread
or of `main`, and stays open till it breaks. So the C library takes a descriptor of its own, and
may give it back, between any two statements of the thread; `localtime` does so too.
-/

namespace OsLabs.Daemon

open Runs Stdio

def SIGHUP : Nat := 1
def SIGTERM : Nat := 15

/-- The next statement of the thread, with the descriptor of the file and what the thread knows of
it. -/
inductive Handler where
  | sigwait
  | openFile
  | read (fd ino : Nat)
  | scan (fd : Nat) (buf : List UInt8)
  | close (fd : Nat)
  | ended
deriving DecidableEq

/-- Files with their texts, `none` for a directory; the one that `CONFIGFILE` names; the pending
signals, the descriptors and the thread. -/
structure Host where
  files : Nat → Option (List UInt8)
  created : Nat
  configFile : Option Nat
  pending : Nat → Bool
  table : Descriptors
  handler : Handler

/-- What others do, and the statements of the thread: `sigwait` takes any signal that is
pending. -/
inductive Turn where
  | libraryOpens
  | libraryCloses (fd : Nat)
  | replace (content : Option (List UInt8))
  | rewrite (content : Option (List UInt8))
  | remove
  | kill (signo : Nat)
  | sigwait (signo : Nat)
  | statement

/-- `user` is the line `UID: %ld, UNAME: %s`, and `unexpected` the line
`не получен нужный сигнал %d`. -/
inductive Line where
  | changed
  | sent (signo : Nat)
  | syslog (text : String)
  | unexpected (signo : Nat)
  | user (uid : Int) (uname : List UInt8)
deriving DecidableEq

def rereading : String := "Чтение конфигурационного файла"
def terminated : String := "получен сигнал SIGTERM; завершение потока"
def cannotOpen : String := "Невозможно открыть конфигурационный файл /etc/daemon.conf"
def cannotRead : String := "Невозможно прочитать конфигурационный файл /etc/daemon.conf"

/-- The format is `%ld %s`, and `buf` holds 127 bytes at most. -/
def scanLine (buf : List UInt8) : Line :=
  match sscanf buf [.conv .ld, .space, .conv (.s 127)] with
  | [.num uid, .text uname] => .user uid uname
  | _ => .syslog cannotRead

def statement (limit : Nat) (s : Host) : Option (Host × List Line) :=
  match s.handler with
  | .openFile =>
    match s.configFile, install limit s.table .config with
    | none, _ => some ({ s with handler := .sigwait }, [.syslog cannotOpen])
    | some _, (_, .negSucc _) => some ({ s with handler := .sigwait }, [.syslog cannotOpen])
    | some ino, (table, .ofNat fd) =>
      some ({ s with table := table, handler := .read fd ino }, [])
  | .read fd ino =>
    match s.files ino with
    | none => some ({ s with handler := .close fd }, [.syslog cannotRead])
    | some text => some ({ s with handler := .scan fd (text.take (128 - 1)) }, [])
  | .scan fd buf => some ({ s with handler := .close fd }, [scanLine buf])
  | .close fd => some ({ s with table := close s.table fd, handler := .sigwait }, [])
  | .sigwait | .ended => none

/-- The `switch` of the thread. -/
def Host.dispatch (s : Host) (signo : Nat) : Host × List Line :=
  let s := { s with pending := Function.update s.pending signo false }
  if signo = SIGHUP then ({ s with handler := .openFile }, [.syslog rereading])
  else if signo = SIGTERM then ({ s with handler := .ended }, [.syslog terminated])
  else (s, [.unexpected signo])

def turn (limit : Nat) (s : Host) : Turn → Option (Host × List Line)
  | .libraryOpens => some ({ s with table := (install limit s.table .library).1 }, [])
  | .libraryCloses fd =>
    if s.table fd = some .library then some ({ s with table := close s.table fd }, []) else none
  | .replace content =>
    some ({ s with
      files := Function.update s.files s.created content
      created := s.created + 1
      configFile := some s.created }, [.changed])
  | .rewrite content =>
    match s.configFile with
    | none => none
    | some ino => some ({ s with files := Function.update s.files ino content }, [.changed])
  | .remove => some ({ s with configFile := none }, [.changed])
  | .kill signo => some ({ s with pending := Function.update s.pending signo true }, [.sent signo])
  | .sigwait signo =>
    if s.handler = .sigwait ∧ s.pending signo = true then some (s.dispatch signo) else none
  | .statement => statement limit s

/-- The lines that `reread` writes. -/
def Line.isReport : Line → Bool
  | .user _ _ => true
  | .syslog text => text = cannotOpen ∨ text = cannotRead
  | .changed | .sent _ | .unexpected _ => false

def lastReport (h : List Line) : Option Line := (h.filter Line.isReport).getLast?

/-- What `reread` has to report. -/
def Host.report (s : Host) : Line :=
  match s.configFile with
  | none => .syslog cannotOpen
  | some ino =>
    match s.files ino with
    | none => .syslog cannotRead
    | some text => scanLine (text.take 127)

/-- The descriptors that the daemon has opened itself, or its parent. -/
def ownDescriptors (t : Descriptors) : Descriptors := fun fd =>
  if t fd = some .library then none else t fd

/-- When the thread opens the file, a descriptor is free. -/
def Room (limit : Nat) (s : Host) (_ : Turn) : Prop :=
  s.handler = .openFile → lowestFree limit s.table ≠ none

instance (limit : Nat) (s : Host) (a : Turn) : Decidable (Room limit s a) :=
  inferInstanceAs (Decidable (s.handler = .openFile → lowestFree limit s.table ≠ none))

/-- A SIGHUP has been sent after the last change of the file. -/
def Notified (h : List Line) : Prop :=
  ∃ h₁ h₂, h = h₁ ++ h₂ ∧ Line.sent SIGHUP ∈ h₂ ∧ Line.changed ∉ h₂

/-! ## Lines of the log -/

theorem notified_snoc {h : List Line} {e : Line} (hNotified : Notified (h ++ [e])) :
    e ≠ .changed ∧ (e = .sent SIGHUP ∨ Notified h) := by
  obtain ⟨h₁, h₂, hEq, hSent, hSame⟩ := hNotified
  obtain rfl | ⟨h₂, last, rfl⟩ := List.eq_nil_or_concat h₂
  · cases hSent
  · obtain ⟨rfl, rfl⟩ : h = h₁ ++ h₂ ∧ e = last := by
      rw [List.concat_eq_append, ← List.append_assoc] at hEq
      obtain ⟨hInit, hLast⟩ := List.append_inj' hEq rfl
      exact ⟨hInit, List.singleton_inj.mp hLast⟩
    simp only [List.concat_eq_append, List.mem_append, List.mem_singleton, not_or] at hSent hSame
    refine ⟨Ne.symm hSame.2, ?_⟩
    rcases hSent with hSent | hLast
    · exact Or.inr ⟨h₁, h₂, rfl, hSent, hSame.1⟩
    · exact Or.inl hLast.symm

theorem lastReport_snoc {e : Line} (h : List Line) (hReport : e.isReport = true) :
    lastReport (h ++ [e]) = some e := by
  rw [lastReport, List.filter_append, List.filter_singleton, hReport]
  exact List.getLast?_concat

theorem lastReport_snoc_other {e : Line} (h : List Line) (hOther : e.isReport = false) :
    lastReport (h ++ [e]) = lastReport h := by
  rw [lastReport, List.filter_append, List.filter_singleton, hOther]
  exact congrArg List.getLast? (List.append_nil _)

theorem isReport_scanLine (buf : List UInt8) : (scanLine buf).isReport = true := by
  unfold scanLine
  split <;> simp [Line.isReport]

/-! ## Reading the configuration file -/

/-- `%s` without a width stores no more than with one, so the name fits in its array. -/
theorem sscanf_width {buf : List UInt8} (hBuf : buf.length ≤ 127) {w : Nat} (hWidth : 127 ≤ w) :
    sscanf buf [.conv .ld, .space, .conv (.s w)] =
      sscanf buf [.conv .ld, .space, .conv (.s 127)] := by
  have hText : (cString buf).length ≤ 127 :=
    (List.takeWhile_sublist _).length_le.trans hBuf
  unfold sscanf scan convert convNumber
  cases hNumber : number 10 (cString buf) with
  | none => rfl
  | some read =>
    have hRest : (skipSpace read.2).length ≤ 127 :=
      (skipSpace_length _).trans ((number_length (n := read.1) hNumber).trans hText)
    simp only [Option.map_some, scan, convert_word (hRest.trans hWidth) hRest]

/-! ## Descriptors of the C library -/

theorem ownDescriptors_open {t : Descriptors} {fd : Nat} (hFree : t fd = none) :
    ownDescriptors (Function.update t fd (some .library)) = ownDescriptors t := by
  ext1 k
  by_cases hk : k = fd
  · subst hk
    simp [ownDescriptors, hFree]
  · simp only [ownDescriptors, Function.update_of_ne hk]

theorem ownDescriptors_close {t : Descriptors} {fd : Nat} (hLibrary : t fd = some .library) :
    ownDescriptors (close t fd) = ownDescriptors t := by
  ext1 k
  by_cases hk : k = fd
  · subst hk
    simp [ownDescriptors, close, hLibrary]
  · simp only [ownDescriptors, close, Function.update_of_ne hk]

/-- A call that finds no free descriptor changes nothing. -/
theorem install_cases (limit : Nat) (t : Descriptors) (d : Description) :
    (lowestFree limit t = none ∧ install limit t d = (t, -1)) ∨
      ∃ fd, lowestFree limit t = some fd ∧ t fd = none ∧
        install limit t d = (Function.update t fd (some d), (fd : Int)) := by
  unfold install
  cases hFind : lowestFree limit t with
  | none => exact Or.inl ⟨rfl, rfl⟩
  | some fd =>
    have hFree : (t fd).isNone = true := List.find?_some (p := fun fd => (t fd).isNone) hFind
    exact Or.inr ⟨fd, rfl, Option.isNone_iff_eq_none.mp hFree, rfl⟩

/-- Of the descriptors that are not the library's, `t` are open, and the configuration file while
it is read. -/
def Host.Opened (t : Descriptors) (s : Host) : Prop :=
  match s.handler with
  | .sigwait | .openFile | .ended => ownDescriptors s.table = t
  | .read fd _ | .scan fd _ | .close fd =>
    s.table fd = some .config ∧ ownDescriptors (close s.table fd) = t

/-- The library changes a descriptor `k` that is not the one of the file. -/
theorem Host.Opened.other {t : Descriptors} {s : Host} (h : s.Opened t) {k : Nat}
    {d : Option Description} (hConfig : s.table k ≠ some .config)
    (hOwn : ∀ t' : Descriptors, t' k = s.table k →
      ownDescriptors (Function.update t' k d) = ownDescriptors t') :
    Host.Opened t { s with table := Function.update s.table k d } := by
  unfold Host.Opened at h ⊢
  cases hPc : s.handler with
  | sigwait | openFile | ended =>
    simp only [hPc] at h ⊢
    rw [hOwn s.table rfl, h]
  | read fd _ | scan fd _ | close fd =>
    simp only [hPc] at h ⊢
    have hne : k ≠ fd := by
      rintro rfl
      exact hConfig h.1
    refine ⟨by rw [Function.update_of_ne hne.symm, h.1], ?_⟩
    rw [close, Function.update_comm hne, hOwn _ (Function.update_of_ne hne _ _)]
    exact h.2

theorem opened_statement {limit : Nat} {t : Descriptors} {s s' : Host} {es : List Line}
    (h : s.Opened t) (hStep : statement limit s = some (s', es)) : s'.Opened t := by
  unfold statement at hStep
  cases hPc : s.handler with
  | sigwait | ended => simp only [hPc, reduceCtorEq] at hStep
  | openFile =>
    simp only [Host.Opened, hPc] at h
    simp only [hPc] at hStep
    split at hStep
    · cases hStep
      exact h
    · cases hStep
      exact h
    · next ino table fd hConfig hInstall =>
      cases hStep
      rcases install_cases limit s.table .config with ⟨-, hFull⟩ | ⟨fd', -, -, hSome⟩
      · rw [hFull] at hInstall
        cases hInstall
      · have hClosed := close_install hInstall
        rw [hSome] at hInstall
        cases hInstall
        exact ⟨Function.update_self _ _ _, by rw [hClosed, h]⟩
  | read fd ino =>
    simp only [Host.Opened, hPc] at h
    simp only [hPc] at hStep
    split at hStep
    · cases hStep
      exact h
    · cases hStep
      exact h
  | scan fd buf =>
    simp only [Host.Opened, hPc] at h
    simp only [hPc] at hStep
    cases hStep
    exact h
  | close fd =>
    simp only [Host.Opened, hPc] at h
    simp only [hPc] at hStep
    cases hStep
    exact h.2

theorem opened_turn {limit : Nat} {t : Descriptors} {s s' : Host} {es : List Line} {a : Turn}
    (h : s.Opened t) (hStep : turn limit s a = some (s', es)) : s'.Opened t := by
  cases a with
  | replace content | remove | kill signo =>
    cases hStep
    exact h
  | rewrite content =>
    simp only [turn] at hStep
    split at hStep
    · cases hStep
    · cases hStep
      exact h
  | sigwait signo =>
    simp only [turn] at hStep
    split_ifs at hStep with hWait
    have hTable : ownDescriptors s.table = t := by
      rwa [Host.Opened, hWait.1] at h
    unfold Host.dispatch at hStep
    split_ifs at hStep
    · cases hStep
      exact hTable
    · cases hStep
      exact hTable
    · cases hStep
      exact h
  | libraryOpens =>
    cases hStep
    rcases install_cases limit s.table .library with ⟨-, hFull⟩ | ⟨fd, -, hFree, hSome⟩
    · rw [hFull]
      exact h
    · rw [hSome]
      refine h.other (by rw [hFree]; simp) fun t' hSame => ?_
      exact ownDescriptors_open (hSame.trans hFree)
  | libraryCloses fd =>
    simp only [turn] at hStep
    split_ifs at hStep with hLibrary
    cases hStep
    refine h.other (by rw [hLibrary]; decide) fun t' hSame => ?_
    exact ownDescriptors_close (hSame.trans hLibrary)
  | statement => exact opened_statement h hStep

/-! ## The last report -/

/-- The thread is about to report what stands in the file, or has done so. -/
def Current (s : Host) (h : List Line) : Prop :=
  match s.handler with
  | .sigwait | .close _ => lastReport h = some s.report
  | .openFile | .ended => True
  | .read _ ino => s.configFile = some ino
  | .scan _ buf => scanLine buf = s.report

/-- What every turn keeps: a SIGHUP that came after the last change is pending, or is being
answered. -/
def Answers (s : Host) (h : List Line) : Prop :=
  Notified h → s.pending SIGHUP = true ∨ Current s h

theorem isReport_cannotOpen : (Line.syslog cannotOpen).isReport = true := by
  simp [Line.isReport]

theorem isReport_cannotRead : (Line.syslog cannotRead).isReport = true := by
  simp [Line.isReport]

theorem Line.ne_sent {e : Line} (signo : Nat) (h : e.isReport = true) : e ≠ .sent signo := by
  rintro rfl
  cases h

theorem notified_of_snoc {h : List Line} {e : Line} (hNotified : Notified (h ++ [e]))
    (hOther : e ≠ .sent SIGHUP) : Notified h :=
  (notified_snoc hNotified).2.resolve_left hOther

theorem answers_statement {limit : Nat} {s s' : Host} {h es : List Line} (hInv : Answers s h)
    (hRoom : s.handler = .openFile → lowestFree limit s.table ≠ none)
    (hStep : statement limit s = some (s', es)) : Answers s' (h ++ es) := by
  unfold statement at hStep
  cases hPc : s.handler with
  | sigwait | ended => simp only [hPc, reduceCtorEq] at hStep
  | openFile =>
    simp only [hPc] at hStep
    split at hStep
    · next _ _ hConfig =>
      cases hStep
      refine fun _ => Or.inr ?_
      simp only [Current, lastReport_snoc h isReport_cannotOpen, Host.report, hConfig]
    · next ino table k hConfig hInstall =>
      rcases install_cases limit s.table .config with ⟨hFull, -⟩ | ⟨fd, -, -, hSome⟩
      · exact absurd hFull (hRoom hPc)
      · rw [hSome] at hInstall
        cases hInstall
    · next ino table fd hConfig hInstall =>
      cases hStep
      exact fun _ => Or.inr hConfig
  | read fd ino =>
    simp only [hPc] at hStep
    simp only [Answers, Current, hPc] at hInv
    split at hStep
    · next hDirectory =>
      cases hStep
      intro hNotified
      refine (hInv (notified_of_snoc hNotified (by simp))).imp id fun hSame => ?_
      simp only [Current, lastReport_snoc h isReport_cannotRead, Host.report, hSame, hDirectory]
    · next text hText =>
      cases hStep
      rw [List.append_nil]
      intro hNotified
      refine (hInv hNotified).imp id fun hSame => ?_
      simp only [Current, Host.report, hSame, hText]
  | scan fd buf =>
    simp only [hPc] at hStep
    simp only [Answers, Current, hPc] at hInv
    cases hStep
    intro hNotified
    have hOther := Line.ne_sent SIGHUP (isReport_scanLine buf)
    refine (hInv (notified_of_snoc hNotified hOther)).imp id fun hSame => ?_
    rw [Current, lastReport_snoc h (isReport_scanLine buf), hSame]
    rfl
  | close fd =>
    simp only [hPc] at hStep
    simp only [Answers, Current, hPc] at hInv
    cases hStep
    rw [List.append_nil]
    exact hInv

/-- Nothing that the thread knows of the file changes. -/
theorem Answers.other {s : Host} {h : List Line} {e : Line} (hInv : Answers s h)
    (pending : Nat → Bool) (hOther : e.isReport = false)
    (hPending : e = .sent SIGHUP ∨ s.pending SIGHUP = true → pending SIGHUP = true) :
    Answers { s with pending := pending } (h ++ [e]) := by
  intro hNotified
  rcases (notified_snoc hNotified).2 with hSent | hBefore
  · exact Or.inl (hPending (Or.inl hSent))
  · rcases hInv hBefore with hWaits | hCurrent
    · exact Or.inl (hPending (Or.inr hWaits))
    · refine Or.inr ?_
      unfold Current at hCurrent ⊢
      rw [lastReport_snoc_other h hOther]
      exact hCurrent

theorem answers_dispatch {s : Host} {h : List Line} (signo : Nat) (hInv : Answers s h) :
    Answers (s.dispatch signo).1 (h ++ (s.dispatch signo).2) := by
  unfold Host.dispatch
  split_ifs with hHup hTerm
  · exact fun _ => Or.inr trivial
  · exact fun _ => Or.inr trivial
  · refine hInv.other _ rfl fun hSent => ?_
    rw [Function.update_of_ne (Ne.symm hHup)]
    exact hSent.resolve_left nofun

theorem answers_changed {s : Host} (h : List Line) : Answers s (h ++ [.changed]) :=
  fun hNotified => absurd rfl (notified_snoc hNotified).1

theorem answers_turn {limit : Nat} {s s' : Host} {h es : List Line} {a : Turn}
    (hInv : Answers s h) (hRoom : Room limit s a) (hStep : turn limit s a = some (s', es)) :
    Answers s' (h ++ es) := by
  cases a with
  | replace content | remove =>
    cases hStep
    exact answers_changed h
  | rewrite content =>
    simp only [turn] at hStep
    split at hStep
    · cases hStep
    · cases hStep
      exact answers_changed h
  | kill signo =>
    cases hStep
    refine hInv.other _ rfl fun hSent => ?_
    by_cases hHup : SIGHUP = signo
    · rw [hHup, Function.update_self]
    · rw [Function.update_of_ne hHup]
      refine hSent.resolve_left fun hEq => hHup ?_
      cases hEq
      rfl
  | sigwait signo =>
    simp only [turn] at hStep
    split_ifs at hStep with hWait
    have hDispatch : s.dispatch signo = (s', es) := Option.some_inj.mp hStep
    have hKept := answers_dispatch signo hInv
    rwa [hDispatch] at hKept
  | libraryOpens =>
    cases hStep
    rw [List.append_nil]
    exact hInv
  | libraryCloses fd =>
    simp only [turn] at hStep
    split_ifs at hStep
    cases hStep
    rw [List.append_nil]
    exact hInv
  | statement => exact answers_statement hInv hRoom hStep

/-- Whenever the thread waits for a signal, the descriptors that are not the library's are what
they were at the start. If a descriptor was free whenever the file was opened, and no SIGHUP is
pending although one came after the last change of the file, then the last report is that of the
file as it is now: no change is missed, and no report comes from a file that has been replaced. -/
theorem last_report_present {limit : Nat} {s s' : Host} {h : List Line} {sched : List Turn}
    (hStart : s.handler = .sigwait) (hRun : run (turn limit) s sched = (s', h))
    (hWait : s'.handler = .sigwait) :
    ownDescriptors s'.table = ownDescriptors s.table ∧
      (Along (turn limit) (Room limit) s sched → Notified h → s'.pending SIGHUP = false →
        lastReport h = some s'.report) := by
  constructor
  · have hInit : s.Opened (ownDescriptors s.table) := by rw [Host.Opened, hStart]
    have hOpened : (run (turn limit) s sched).1.Opened (ownDescriptors s.table) :=
      run_invariant (P := fun s' _ => s'.Opened (ownDescriptors s.table)) hInit
        (fun _ _ _ _ _ hKept hStep => opened_turn hKept hStep) sched
    rwa [hRun, Host.Opened, hWait] at hOpened
  · intro hRoom hNotified hNone
    have hInit : Answers s [] := by
      rintro ⟨h₁, h₂, hEq, hSent, -⟩
      obtain ⟨rfl, rfl⟩ := List.append_eq_nil_iff.mp hEq.symm
      cases hSent
    have hInv : Answers (run (turn limit) s sched).1 (run (turn limit) s sched).2 :=
      run_invariant_along hInit
        (fun _ _ _ _ _ hKept hNow hStep => answers_turn hKept hNow hStep) hRoom
    rw [hRun] at hInv
    have hCurrent := (hInv hNotified).resolve_left (by rw [hNone]; exact Bool.false_ne_true)
    rwa [Current, hWait] at hCurrent

/-- A file with nothing in it gets the line `7 a`, and a SIGHUP makes the daemon read it. The
first line of the log takes a descriptor. -/
theorem last_report_present_rewritten :
    let host : Host := ⟨fun _ => some [], 1, some 0, fun _ => false, fun _ => none, .sigwait⟩
    let r := run (turn 2) host [.rewrite (some [55, 32, 97]), .kill SIGHUP, .sigwait SIGHUP,
      .libraryOpens, .statement, .statement, .statement, .statement]
    r.1.table 0 = some .library ∧ ownDescriptors r.1.table = ownDescriptors host.table ∧
      lastReport r.2 = some (.user 7 [97]) := by
  intro host r
  obtain ⟨hTable, hReport⟩ := last_report_present (show host.handler = .sigwait from rfl)
    (show run (turn 2) host _ = (r.1, r.2) from rfl) rfl
  refine ⟨rfl, hTable, hReport (by decide) ?_ rfl⟩
  exact ⟨[.changed], [.sent SIGHUP, .syslog rereading, .user 7 [97]], rfl, by simp, by simp⟩

end OsLabs.Daemon
