import Lox.Report

/-!
# The log of a session

The log holds the reports since it was last reset, and remembers whether there was a fault since
then and whether there was ever a failure.  A report that is not written is in the log all the same.
-/

namespace Lox

/-- What has been reported. -/
structure Log where
  reports : List Report := []
  hadFault : Bool := false
  hadFailure : Bool := false
deriving DecidableEq

namespace Log

/-- Adds reports, the oldest first. -/
def add (log : Log) (reports : List Report) : Log where
  reports := log.reports ++ reports
  hadFault := log.hadFault || reports.any Report.isFault
  hadFailure := log.hadFailure || reports.any (!·.isFault)

/-- Forgets the reports and the faults, and keeps in mind that there was a failure. -/
def reset (log : Log) : Log := { log with reports := [], hadFault := false }

/-- The texts of the reports. -/
def texts (log : Log) : List String := log.reports.map Report.text

@[simp] theorem add_nil (log : Log) : log.add [] = log := by simp [add]

theorem add_add (log : Log) (a b : List Report) : (log.add a).add b = log.add (a ++ b) := by
  simp [add, Bool.or_assoc]

@[simp] theorem reports_reset (log : Log) : log.reset.reports = [] := rfl
@[simp] theorem hadFault_reset (log : Log) : log.reset.hadFault = false := rfl
@[simp] theorem hadFailure_reset (log : Log) : log.reset.hadFailure = log.hadFailure := rfl

end Log

end Lox
