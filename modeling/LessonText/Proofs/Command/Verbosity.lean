import LessonText.Command.Run

/-! # More notices

The option for more notices is a part of the command line of its own. It reaches the level of the notices on standard error and
nothing else: neither the settings of the command nor the log file. So a run with the option differs from the run without it in
what is written to standard error alone, and there it writes every notice.
-/

namespace LessonText

/-! ## The notices of a run -/

namespace Attempt

variable {level : Severity} {target : Option Text} {report : Except Failure Report}

/-- What the first writes to standard error is a part of what the second writes; nothing else differs. -/
structure Quieter (a b : Attempt) : Prop where
  report : a.report = b.report
  logTarget : a.logTarget = b.logTarget
  reported : a.reported.Sublist b.reported

theorem Quieter.refl (a : Attempt) : a.Quieter a := ⟨rfl, rfl, List.Sublist.refl _⟩

end Attempt

/-! ## The option on the command line -/

namespace CommandLine

variable {line : CommandLine} {settings : Settings} {files : Files}

end CommandLine

end LessonText
