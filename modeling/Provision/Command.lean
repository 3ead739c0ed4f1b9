import Provision.Command.Arguments
import Provision.Local.Session

/-!
# The command line

What a run of the program shows and leaves behind on the disk, as a function of
its arguments and of the disk it finds.
-/

namespace Provision.Command

/-- What a run shows: its exit code, its output, and the error it ends with. -/
structure Shown where
  exitCode : Nat
  output : String := ""
  error : Option String := none
deriving DecidableEq, Repr

/-- The help text of the program. -/
def programHelp : String :=
  "Declarative infrastructure orchestrator\n\n" ++
  "Usage: cairn [OPTIONS] <COMMAND>\n\n" ++
  "Commands:\n" ++
  "  up    Plan and apply the configuration rooted at a file\n" ++
  "  help  Print this message or the help of the given subcommand(s)\n\n" ++
  "Options:\n" ++
  "  -v...       Raise log verbosity (-v info, -vv debug, -vvv trace)\n" ++
  "  -h, --help  Print help\n"

/-- The help text of `up`. -/
def upHelp : String :=
  "Plan and apply the configuration rooted at a file\n\n" ++
  "Usage: cairn up [OPTIONS] <ROOT>\n\n" ++
  "Arguments:\n" ++
  "  <ROOT>  \n\n" ++
  "Options:\n" ++
  "      --skip-refresh     Trust recorded state instead of refreshing it from providers\n" ++
  "  -v...                  Raise log verbosity (-v info, -vv debug, -vvv trace)\n" ++
  "  -y, --yes              Approve every change group without prompting\n" ++
  "      --dry-run          Stop at the plan\n" ++
  "      --keep-going       Keep executing a group after one of its changes fails\n" ++
  "      --color <COLOR>    [default: auto] [possible values: auto, always, never]\n" ++
  "      --verbose          \n" ++
  "      --format <FORMAT>  [default: text] [possible values: text, json]\n" ++
  "  -h, --help             Print help\n"

/-- The help text of `help`. -/
def helpHelp : String :=
  "Print this message or the help of the given subcommand(s)\n\n" ++
  "Usage: cairn help [COMMAND]...\n\n" ++
  "Arguments:\n" ++
  "  [COMMAND]...  Print help for the subcommand(s)\n"

/-- The help text about a topic. -/
def helpText : HelpTopic → String
  | .program => programHelp
  | .up => upHelp
  | .help => helpHelp

/-- A text that ends with a line break. -/
def asLines (text : String) : String :=
  if text.toList.getLast? = some '\n' then text else text ++ "\n"

/-- How the reports of a request are shown.  Nothing is painted unless it is asked for, since the
output is no terminal. -/
def UpRequest.options (request : UpRequest) : Report.Options where
  colour := request.colour = .always
  verbose := request.verbose
  target := some request.root

/-- The exit code of a run that went well or not. -/
def exitCodeOf (failed : Bool) : Nat :=
  if failed then 1 else 0

/-- Carries out `up`.  Groups are approved all or not at all, since nobody can be asked. -/
def up (request : UpRequest) (disk : Disk) : Shown × Disk :=
  match Local.plan ⟨request.root⟩ (!request.skipRefresh) disk with
  | (.error e, disk) => (⟨1, "", some ("error: " ++ e.message)⟩, disk)
  | (.ok session, disk) =>
    let plan := session.plan
    let planned := asLines (Report.renderPlan request.format request.options plan)
    if plan.hasErrors || !plan.hasChanges || request.dryRun then
      (⟨exitCodeOf plan.hasErrors, planned, none⟩, disk)
    else
      let (report, run) := Local.apply session (fun _ _ => request.yes) (!request.keepGoing) disk
      let applied := asLines (Report.renderApplied request.format request.options report)
      let output := if request.format = .text then planned ++ applied else applied
      (⟨exitCodeOf report.hasFailures, output, none⟩, run.world)

/-- Runs the program. -/
def run (arguments : List String) (disk : Disk) : Shown × Disk :=
  match arguments? arguments with
  | none => (⟨1, "", some "usage"⟩, disk)
  | some (.help topic) => (⟨0, helpText topic, none⟩, disk)
  | some (.up request) => up request disk

end Provision.Command
