import Provision.Report.Rendering

/-!
# Arguments of the command line

Reads the arguments from left to right.  The first that is wrong decides, and a
request for help decides as soon as it is met.
-/

namespace Provision.Command

/-- When a report is painted. -/
inductive ColourChoice where
  | auto
  | always
  | never
deriving DecidableEq, Repr

/-- What `up` is asked to do. -/
structure UpRequest where
  root : String
  /-- Trust the recorded state. -/
  skipRefresh : Bool
  /-- Approve every group of changes. -/
  yes : Bool
  /-- Stop at the plan. -/
  dryRun : Bool
  /-- Go on in a group after a change failed. -/
  keepGoing : Bool
  colour : ColourChoice
  verbose : Bool
  format : Report.Format
deriving DecidableEq, Repr

/-- What a help text is about. -/
inductive HelpTopic where
  | program
  | up
  | help
deriving DecidableEq, Repr

/-- What the arguments ask for. -/
inductive Invocation where
  | up (request : UpRequest)
  | help (topic : HelpTopic)
deriving DecidableEq, Repr

/-- What was read of the arguments of `up` so far. -/
structure Draft where
  root : Option String := none
  skipRefresh : Bool := false
  yes : Bool := false
  dryRun : Bool := false
  keepGoing : Bool := false
  colour : Option ColourChoice := none
  verbose : Bool := false
  format : Option Report.Format := none

namespace Draft

/-- The request, once its root is known. -/
def finish? (draft : Draft) : Option Invocation :=
  draft.root.map fun root =>
    .up {
      root := root
      skipRefresh := draft.skipRefresh
      yes := draft.yes
      dryRun := draft.dryRun
      keepGoing := draft.keepGoing
      colour := draft.colour.getD .auto
      verbose := draft.verbose
      format := draft.format.getD .text }

/-- Takes the root; there is one, and it is not empty. -/
def withRoot? (draft : Draft) (root : String) : Option Draft :=
  if draft.root.isSome || root.isEmpty then none else some { draft with root := some root }

/-- Takes a flag, which may not be repeated. -/
def withFlag? (draft : Draft) (name : String) : Option Draft :=
  if name = "skip-refresh" && !draft.skipRefresh then some { draft with skipRefresh := true }
  else if name = "yes" && !draft.yes then some { draft with yes := true }
  else if name = "dry-run" && !draft.dryRun then some { draft with dryRun := true }
  else if name = "keep-going" && !draft.keepGoing then some { draft with keepGoing := true }
  else if name = "verbose" && !draft.verbose then some { draft with verbose := true }
  else none

/-- The colour choice with a name. -/
def colour? (name : String) : Option ColourChoice :=
  if name = "auto" then some .auto
  else if name = "always" then some .always
  else if name = "never" then some .never
  else none

/-- The format with a name. -/
def format? (name : String) : Option Report.Format :=
  if name = "text" then some .text
  else if name = "json" then some .json
  else none

/-- Takes an option with its value; an option may not be repeated. -/
def withOption? (draft : Draft) (name value : String) : Option Draft :=
  if name = "color" && draft.colour.isNone then
    (colour? value).map fun choice => { draft with colour := some choice }
  else if name = "format" && draft.format.isNone then
    (format? value).map fun format => { draft with format := some format }
  else none

end Draft

/-- What short flags lead to: nothing further, or a request for help. -/
inductive ShortFlags where
  | taken (draft : Draft)
  | help

/-- Takes the letters of a group of short flags. -/
def shortFlags? (draft : Draft) : List Char → Option ShortFlags
  | [] => some (.taken draft)
  | 'v' :: rest => shortFlags? draft rest
  | 'h' :: _ => some .help
  | 'y' :: rest =>
    match draft.withFlag? "yes" with
    | some draft => shortFlags? draft rest
    | none => none
  | _ :: _ => none

/-- Whether a long option takes a value. -/
def takesValue (name : String) : Bool :=
  name = "color" || name = "format"

/-- Whether an argument has the look of an option. -/
def looksLikeOption (argument : List Char) : Bool :=
  argument.head? == some '-' && argument.length > 1

/-- Takes arguments that are no options, whatever they look like. -/
def positionals? (draft : Draft) : List String → Option Invocation
  | [] => draft.finish?
  | argument :: rest =>
    match draft.withRoot? argument with
    | some draft => positionals? draft rest
    | none => none

/-- Reads the arguments behind `up`. -/
def upArguments? (draft : Draft) : List String → Option Invocation
  | [] => draft.finish?
  | argument :: rest =>
    match argument.toList with
    | ['-', '-'] => positionals? draft rest
    | '-' :: '-' :: long =>
      match Text.splitFirst '=' long with
      | some (name, value) =>
        match draft.withOption? (String.ofList name) (String.ofList value) with
        | some draft => upArguments? draft rest
        | none => none
      | none =>
        let name := String.ofList long
        if name = "help" then some (.help .up)
        else if takesValue name then
          match rest with
          | [] => none
          | value :: rest =>
            if looksLikeOption value.toList then none
            else
              match draft.withOption? name value with
              | some draft => upArguments? draft rest
              | none => none
        else
          match draft.withFlag? name with
          | some draft => upArguments? draft rest
          | none => none
    | '-' :: letter :: letters =>
      match shortFlags? draft (letter :: letters) with
      | some (.taken draft) => upArguments? draft rest
      | some .help => some (.help .up)
      | none => none
    | _ =>
      match draft.withRoot? argument with
      | some draft => upArguments? draft rest
      | none => none

/-- The topic of a request for help by word. -/
def helpTopic? : List String → Option Invocation
  | [] => some (.help .program)
  | ["up"] => some (.help .up)
  | ["help"] => some (.help .help)
  | _ => none

/-- Reads the arguments of the program. -/
def arguments? : List String → Option Invocation
  | [] => none
  | argument :: rest =>
    if argument = "up" then upArguments? {} rest
    else if argument = "help" then helpTopic? rest
    else if argument = "--help" then some (.help .program)
    else
      match argument.toList with
      | '-' :: letter :: letters =>
        if (letter :: letters).all (· == 'v') then arguments? rest
        else if ((letter :: letters).dropWhile (· == 'v')).head? = some 'h' then some (.help .program)
        else none
      | _ => none

end Provision.Command
