import TapeFlow.Check.Report
import TapeFlow.Lowering.Pass

/-!
# Compiling a source

`compile` lowers a whole source and, unless the options say otherwise, checks
the result.  It also returns what was reported on the way, in order; a failure
keeps what was reported before it.
-/

namespace TapeFlow

/-- A module and what is known about it. -/
structure Compiled where
  /-- The module. -/
  result : Module
  /-- What the pass counted. -/
  tally : Tally
  /-- What the checker found, if it was asked. -/
  report : Option Report
  deriving DecidableEq

/-- Check a module, unless the options say otherwise. -/
def verify (options : Options) (result : Module) (tally : Tally) :
    Except Error Compiled × List Event :=
  if options.verify then
    let report := result.check
    let events := report.warnings.map .warned
    if report.valid then
      (.ok ⟨result, tally, some report⟩, events)
    else
      (.error (.rejected (report.violations.map Violation.message)), events)
  else
    (.ok ⟨result, tally, none⟩, [])

/-- Compile a source. -/
def compile (options : Options) (source : Source) : Except Error Compiled × List Event :=
  let started := Event.started source.length options.moduleName
  match lower options (.ofSource source) with
  | (.error e, events) => (.error e, started :: events)
  | (.ok (result, tally), events) =>
    let (outcome, warned) := verify options result tally
    (outcome, started :: events ++ warned)

/-- The module a source becomes when nothing is chosen. -/
def compileDefault (source : Source) : Except Error Module :=
  (compile {} source).1.map Compiled.result

end TapeFlow
