import Provision.Report.Document
import Provision.Report.Text

/-!
# Report formats

A report is shown as text for people or as a JSON document for programs.
-/

namespace Provision.Report

/-- A form of a report. -/
inductive Format where
  | text
  | json
deriving DecidableEq, Repr

/-- A plan in some format. -/
def renderPlan (format : Format) (options : Options) (content : Plan) : String :=
  match format with
  | .text => planText options content
  | .json => (plan content).prettyText

/-- The account of a run in some format. -/
def renderApplied (format : Format) (options : Options) (report : ApplyReport) : String :=
  match format with
  | .text => applyText options report
  | .json => (applied report).prettyText

end Provision.Report
