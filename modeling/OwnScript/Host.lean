import OwnScript.Analysis.Check
import OwnScript.Lowering.Compile
import OwnScript.Machine.Run
import OwnScript.Text.Column

/-!
From a program to its result: analysis, code generation and a run in one go, for hosts that embed
the language.
-/

namespace OwnScript

/-- Why a program has no executable form. -/
inductive BuildFault where
  | analysis (diagnostics : List Diagnostic)
  | lowering (fault : LoweringFault)

/-- Analyzes a program and generates its code. -/
def Program.build (program : Program) : Except BuildFault CodeUnit :=
  let analyzed := program.analyze
  if analyzed.diagnostics.isEmpty then
    match analyzed.program.compile with
    | .ok unit => .ok unit
    | .error fault => .error (.lowering fault)
  else .error (.analysis analyzed.diagnostics)

/-- The diagnostic that stands for a build that failed because of the program: the first of
analysis, or that of code generation. -/
def BuildFault.diagnostic? : BuildFault → Option Diagnostic
  | .analysis diagnostics => diagnostics.head?
  | .lowering (.rejected diagnostic) => some diagnostic
  | .lowering _ => none

namespace Machine

/-- One line of the statistics. -/
def statisticsLine (label : String) (count : Nat) (suffix : String) : String :=
  label ++ Text.alignRight 10 ' ' (toString count) ++ suffix ++ "\n"

/-- The memory statistics as text. -/
def statisticsText (m : Machine) : String :=
  let s := m.heap.statistics
  "\n=== Kestrel VM Statistics ===\n"
    ++ statisticsLine "Total Allocated:  " s.totalAllocated.toNat " bytes"
    ++ statisticsLine "Total Freed:      " s.totalFreed.toNat " bytes"
    ++ statisticsLine "Live Bytes:       " s.bytesLive.toNat " bytes"
    ++ statisticsLine "Current Objects:  " s.objects ""
    ++ statisticsLine "Peak Objects:     " s.peakObjects ""
    ++ statisticsLine "Collections:      " s.collections ""
    ++ statisticsLine "Reused Blocks:    " s.reusedBlocks ""
    ++ "=============================\n"

/-- Prints the memory statistics. -/
def printStatistics (m : Machine) : Machine :=
  { m with output := m.output ++ m.statisticsText }

/-- Gives the machine up, which prints the memory statistics if that is wanted. -/
def shutdown (m : Machine) : Machine :=
  if m.config.reportStatistics then m.printStatistics else m

end Machine

end OwnScript
