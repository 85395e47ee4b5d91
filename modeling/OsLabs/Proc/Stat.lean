import OsLabs.Stdio.Decimal

/-!
# The fields of the process (`lab_proc/main.c`, `read_stat`)

The file has one line of 52 fields. It is read by one `fscanf` of 54 conversions into 52
variables, and the result is not tested: a variable that is not read keeps what it was before. The
name of the command stands in parentheses and is read by `%255s`, which ends at white space.

The times, the addresses and the limit of the resident set are unsigned 64-bit numbers. Some of
them are read by `%ld`, which saturates.
-/

namespace OsLabs.Proc

open Stdio

/-- The fields of the line, and the variables that are named after them. -/
inductive StatField where
  | pid | comm | state | ppid | pgrp | session | ttyNr | tpgid | flags
  | minflt | cminflt | majflt | cmajflt | utime | stime | cutime | cstime
  | priority | nice | numThreads | itrealvalue | starttime | vsize | rss | rsslim
  | startcode | endcode | startstack | kstkesp | kstkeip
  | signal | blocked | sigignore | sigcatch | wchan | nswap | cnswap
  | exitSignal | processor | rtPriority | policy
  | delayacctBlkioTicks | guestTime | cguestTime
  | startData | endData | startBrk | argStart | argEnd | envStart | envEnd | exitCode
deriving DecidableEq

/-- The line, in the order of the kernel. -/
def kernelFields : List StatField :=
  [.pid, .comm, .state, .ppid, .pgrp, .session, .ttyNr, .tpgid, .flags, .minflt, .cminflt,
    .majflt, .cmajflt, .utime, .stime, .cutime, .cstime, .priority, .nice, .numThreads,
    .itrealvalue, .starttime, .vsize, .rss, .rsslim, .startcode, .endcode, .startstack, .kstkesp,
    .kstkeip, .signal, .blocked, .sigignore, .sigcatch, .wchan, .nswap, .cnswap, .exitSignal,
    .processor, .rtPriority, .policy, .delayacctBlkioTicks, .guestTime, .cguestTime, .startData,
    .endData, .startBrk, .argStart, .argEnd, .envStart, .envEnd, .exitCode]

/-- A name is at most 15 bytes long, and every other field but the state is a number. -/
structure StatLine where
  comm : List UInt8
  state : UInt8
  num : StatField → Int
  hLength : comm.length ≤ 15
  hComm : 0 ∉ comm
  hState : isSpace state = false

namespace StatLine

def commText (l : StatLine) : List UInt8 := '('.toUInt8 :: (l.comm ++ [')'.toUInt8])

def token (l : StatLine) : StatField → List UInt8
  | .comm => l.commText
  | .state => [l.state]
  | f => render (l.num f)

def text (l : StatLine) : List UInt8 := tokenLine (kernelFields.map l.token)

def value (l : StatLine) : StatField → Value
  | .comm => .text l.commText
  | .state => .text [l.state]
  | f => .num (l.num f)

end StatLine

/-- The conversions of the format of `fscanf`. -/
def statConvs : List Conv :=
  [.ld, .s 255, .c, .ld, .ld, .ld, .ld, .ld, .ld, .lu, .lu, .lu, .lu, .lu, .lu, .lu, .lu,
    .ld, .ld, .ld, .ld, .ld, .ld, .ld, .ld, .ld, .ld, .ld, .ld, .ld,
    .lu, .lu, .lu, .lu, .lu, .lu, .lu, .d, .d, .d, .u,
    .lu, .lu, .lu, .lu, .lu, .lu, .lu, .lu, .lu, .lu, .lu, .lu, .d]

/-- The further arguments of `fscanf`. -/
def statArgs : List StatField :=
  [.pid, .comm, .state, .ppid, .pgrp, .session, .ttyNr, .tpgid, .flags,
    .minflt, .cminflt, .majflt, .cmajflt, .utime, .stime, .cutime, .cstime,
    .priority, .nice, .numThreads, .itrealvalue, .starttime, .vsize, .rss, .rsslim,
    .startcode, .endcode, .startstack, .kstkesp, .kstkeip, .signal, .blocked, .sigignore,
    .sigcatch, .wchan, .nswap, .cnswap, .exitSignal, .processor, .rtPriority,
    .policy, .delayacctBlkioTicks, .guestTime, .cguestTime, .startData, .endData,
    .startBrk, .argStart, .argEnd, .envStart, .envEnd, .exitCode]

/-- `"%ld"`, `"%lu"`, `"%lu (%lx)"`, `"%d"`, `"%s"` and `"%c"` -/
inductive StatPrint where
  | ld
  | lu
  | luLx
  | d
  | s
  | c
deriving DecidableEq

/-- What is printed for a variable. An `int` is the lower half of a longer variable. -/
def StatPrint.args : StatPrint → Value → List Value
  | .ld, .num n => [.num (n.bmod (2 ^ 64))]
  | .lu, .num n => [.num (n % 2 ^ 64)]
  | .luLx, .num n => [.num (n % 2 ^ 64), .num (n % 2 ^ 64)]
  | .d, .num n => [.num (n.bmod (2 ^ 32))]
  | .s, .text bytes => [.text (cString bytes)]
  | .c, .text bytes => [.text bytes]
  | _, _ => []

structure StatRow where
  label : String
  args : List Value
deriving DecidableEq

/-- The calls of `fprintf`. There is none for `itrealvalue`. -/
def statPrints : List (String × StatPrint × StatField) :=
  [("1. PID", .ld, .pid), ("2. Command", .s, .comm), ("3. State", .c, .state),
    ("4. PPID", .ld, .ppid), ("5. PGRP", .ld, .pgrp), ("6. Session", .ld, .session),
    ("7. TTY_NR", .ld, .ttyNr), ("8. Tpgid", .ld, .tpgid), ("9. Flags", .ld, .flags),
    ("10. Minflt", .lu, .minflt), ("11. Cminflt", .lu, .cminflt), ("12. Majflt", .lu, .majflt),
    ("13. Cmajflt", .lu, .cmajflt), ("14. Utime", .lu, .utime), ("15. Stime", .lu, .stime),
    ("16. Cutime", .lu, .cutime), ("17. Cstime", .lu, .cstime),
    ("18. Priority", .ld, .priority), ("19. Nice", .ld, .nice),
    ("20. Num Threads", .ld, .numThreads), ("21. Starttime", .ld, .starttime),
    ("22. Vsize", .ld, .vsize), ("23. Rss", .ld, .rss), ("24. Rsslim", .ld, .rsslim),
    ("25. Startcode", .luLx, .startcode), ("26. Endcode", .luLx, .endcode),
    ("27. Startstack", .lu, .startstack), ("28. Kstkesp", .lu, .kstkesp),
    ("29. Kstkeip", .lu, .kstkeip), ("30. Signal", .lu, .signal), ("31. Blocked", .lu, .blocked),
    ("32. Sigignore", .lu, .sigignore), ("33. Sigcatch", .lu, .sigcatch),
    ("34. Wchan", .lu, .wchan), ("35. Nswap", .lu, .nswap), ("36. Cnswap", .lu, .cnswap),
    ("37. Exit_signal", .d, .exitSignal), ("38. Processor", .d, .processor),
    ("39. Rt_priority", .d, .rtPriority), ("40. Policy", .d, .policy),
    ("41. Delayacct_blkio_ticks", .lu, .delayacctBlkioTicks),
    ("42. Guest_time", .lu, .guestTime), ("43. Cguest_time", .lu, .cguestTime),
    ("44. Start_data", .lu, .startData), ("45. End_data", .lu, .endData),
    ("46. Start_brk", .lu, .startBrk), ("47. Arg_start", .lu, .argStart),
    ("48. Arg_end", .lu, .argEnd), ("49. Env_start", .lu, .envStart),
    ("50. Env_end", .lu, .envEnd), ("51. Exit_code", .d, .exitCode)]

/-- The variables after `fscanf`, if `garbage` is what they were before. -/
def stored (garbage : StatField → Value) (values : List Value) (f : StatField) : Value :=
  ((statArgs.zip values).lookup f).getD (garbage f)

/-- There is no result if a number is stored for which there is no argument. -/
def readStat (garbage : StatField → Value) (text : List UInt8) : Option (List StatRow) :=
  let values := scan (format statConvs) text
  if statArgs.length < values.length then none
  else some (statPrints.map fun p => ⟨p.1, p.2.1.args (stored garbage values p.2.2)⟩)

end OsLabs.Proc
