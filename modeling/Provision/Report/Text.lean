import Provision.Plan

/-!
# Reports as text

A report is a list of pieces, some of them painted.  With colour a painted piece
carries escape codes around its text; without, it is its text alone.
-/

namespace Provision.Report

/-- A colour of painted text. -/
inductive Colour where
  | red
  | green
  | yellow
  | cyan
  | white
deriving DecidableEq, Repr

/-- The number of a colour in its escape code. -/
def Colour.code : Colour → List Char
  | red => ['3', '1']
  | green => ['3', '2']
  | yellow => ['3', '3']
  | cyan => ['3', '6']
  | white => ['3', '7']

/-- How a piece is painted. -/
structure Paint where
  colour : Option Colour := none
  bold : Bool := false
  dim : Bool := false
deriving DecidableEq, Repr

/-- The escape character. -/
def escape : Char := Char.ofNat 27

/-- An escape code with the given number. -/
def escapeCode (number : List Char) : List Char :=
  escape :: '[' :: (number ++ ['m'])

/-- The codes that start a paint. -/
def Paint.codes (paint : Paint) : List Char :=
  (match paint.colour with
    | some colour => escapeCode colour.code
    | none => []) ++
  (if paint.bold then escapeCode ['1'] else []) ++
  (if paint.dim then escapeCode ['2'] else [])

/-- A part of a report. -/
inductive Piece where
  | plain (text : String)
  | painted (paint : Paint) (text : String)
deriving DecidableEq, Repr

/-- The characters of a piece. -/
def Piece.write (colour : Bool) : Piece → List Char
  | plain text => text.toList
  | painted paint text =>
    if colour then paint.codes ++ text.toList ++ escapeCode ['0'] else text.toList

/-- The text of a report. -/
def write (colour : Bool) (pieces : List Piece) : String :=
  String.ofList (pieces.flatMap (Piece.write colour))

/-- How a report is shown. -/
structure Options where
  colour : Bool := false
  verbose : Bool := false
  target : Option String := none

/-! ## Paints -/

/-- Secondary text. -/
def faint (text : String) : Piece := .painted { dim := true } text

/-- What a line is about. -/
def primary (text : String) : Piece := .painted { colour := some .white } text

/-- Headings. -/
def heading (text : String) : Piece := .painted { colour := some .white, bold := true } text

/-- The word before a warning. -/
def warning (text : String) : Piece := .painted { colour := some .yellow, bold := true } text

/-- The word before an error. -/
def failure (text : String) : Piece := .painted { colour := some .red, bold := true } text

/-- Text about failures and deletions. -/
def red (text : String) : Piece := .painted { colour := some .red } text

/-- The colour of a kind of change. -/
def kindColour : ChangeKind → Colour
  | .create => .green
  | .update => .cyan
  | .replace => .yellow
  | .delete => .red

/-- Text in the colour of a kind of change. -/
def inKind (kind : ChangeKind) (text : String) : Piece :=
  .painted { colour := some (kindColour kind) } text

/-- The sign of a kind of change. -/
def kindSign : ChangeKind → String
  | .create => "+"
  | .update => "~"
  | .replace => "-/+"
  | .delete => "-"

/-! ## Layout -/

/-- Blanks that fill a text up to a width. -/
def fill (width : Nat) (text : String) : String :=
  String.ofList (List.replicate (width - text.length) ' ')

/-- A sign, three columns wide with the text on the right. -/
def signColumn (piece : String → Piece) (text : String) : List Piece :=
  [.plain (fill 3 text), piece text]

/-- A label, ten columns wide with the text on the left; a longer text is followed by one blank. -/
def labelColumn (piece : String → Piece) (text : String) : List Piece :=
  [piece text, .plain (if text.length < 10 then fill 10 text else " ")]

/-- A line break. -/
def lineBreak : Piece := .plain "\n"

/-- The first line of a report. -/
def header (command : String) (target : Option String) : List Piece :=
  heading command ::
    (match target with
      | some t => [.plain " ", faint t]
      | none => []) ++ [lineBreak]

/-- The lines of warnings and errors, behind an empty line when there are any. -/
def notes (warnings errors : List String) : List Piece :=
  if warnings.isEmpty && errors.isEmpty then []
  else
    lineBreak ::
      (warnings.flatMap fun w => [.plain "  ", warning "warn:", .plain (" " ++ w ++ "\n")]) ++
      (errors.flatMap fun e => [.plain "  ", failure "error:", .plain (" " ++ e ++ "\n")])

/-- A detail line with faint text. -/
def faintLine (text : String) : List Piece :=
  [.plain "      ", faint text, lineBreak]

/-- The line with the number of a change and the file it stands in. -/
def originLine (change : PlannedChange) : List Piece :=
  let name :=
    match change.file.fileName? with
    | some segment => String.ofList segment
    | none => change.file.text
  faintLine ("#" ++ toString change.id ++ " " ++ name)

/-- Line breaks written as an escape. -/
def withoutBreaks : List Char → List Char
  | [] => []
  | c :: rest => if c = '\n' then '\\' :: 'n' :: withoutBreaks rest else c :: withoutBreaks rest

/-- The text of a value, cut to sixty characters unless the report is verbose. -/
def shortened (verbose : Bool) (value : Value) : String :=
  let full := withoutBreaks value.display.toList
  if verbose || full.length ≤ 60 then String.ofList full
  else String.ofList (full.take 57 ++ ['.', '.', '.'])

/-- The line of a field that changes. -/
def fieldLine (verbose : Bool) (kind : ChangeKind) (change : FieldChange) : List Piece :=
  let pending := shortened verbose change.pending
  if kind = .create then [.plain ("      " ++ change.field ++ ": " ++ pending ++ "\n")]
  else
    let marker :=
      if change.updatable || kind ≠ .replace then []
      else [.plain " ", inKind .replace "(forces replacement)"]
    [.plain ("      " ++ change.field ++ ": "), faint (shortened verbose change.current), .plain " ",
      faint "->", .plain " ", primary pending] ++ marker ++ [lineBreak]

/-- The lines of a planned change. -/
def changeLines (verbose : Bool) (change : PlannedChange) : List Piece :=
  .plain "  " ::
    signColumn (fun s => .painted { colour := some (kindColour change.kind), bold := true } s)
      (kindSign change.kind) ++
    .plain " " :: labelColumn (inKind change.kind) change.kind.text ++
    [primary change.key.text, lineBreak] ++
    (if verbose then originLine change else []) ++
    (if verbose || change.kind ≠ .create then
      change.fields.flatMap (fieldLine verbose change.kind) else []) ++
    (match change.workflow with
      | some workflow => faintLine ("via workflow " ++ workflow)
      | none => []) ++
    (match change.hint with
      | some hint => [.plain "      ", warning "warn:", .plain (" " ++ hint ++ "\n")]
      | none => [])

/-! ## Tallies -/

/-- Parts with commas between them. -/
def commaSeparated : List Piece → List Piece
  | [] => []
  | [piece] => [piece]
  | piece :: rest => piece :: .plain ", " :: commaSeparated rest

/-- The last line of a report: a title and what was counted. -/
def tallyLine (title : String) (parts : List (Nat × (String → Piece) × String)) : List Piece :=
  let counted := parts.filterMap fun part =>
    if part.1 = 0 then none else some (part.2.1 (toString part.1 ++ " " ++ part.2.2))
  heading title :: .plain " " ::
    (if counted.isEmpty then [.plain "nothing to do"] else commaSeparated counted) ++ [lineBreak]

/-- How many changes of a plan are of a kind. -/
def countKind (plan : Plan) (kind : ChangeKind) : Nat :=
  (plan.changes.filter fun change => change.kind = kind).length

/-- The tally of a plan. -/
def planTally (plan : Plan) : List Piece :=
  tallyLine "Plan:" [
    (countKind plan .create, inKind .create, "to create"),
    (countKind plan .update, inKind .update, "to update"),
    (countKind plan .replace, inKind .replace, "to replace"),
    (countKind plan .delete, inKind .delete, "to delete"),
    (plan.errors.length, red, "error"),
    (plan.unchanged, faint, "unchanged")]

/-- How many changes of a kind were applied. -/
def countApplied (results : List ChangeResult) (kind : ChangeKind) : Nat :=
  (results.filter fun result => result.status = .applied && result.kind = kind).length

/-- How many changes ended with a status. -/
def countStatus (results : List ChangeResult) (status : ChangeStatus) : Nat :=
  (results.filter fun result => result.status = status).length

/-- The tally of a run. -/
def applyTally (results : List ChangeResult) : List Piece :=
  tallyLine "Applied:" [
    (countApplied results .create, inKind .create, "created"),
    (countApplied results .update, inKind .update, "updated"),
    (countApplied results .replace, inKind .replace, "replaced"),
    (countApplied results .delete, inKind .delete, "deleted"),
    (countStatus results .failed, red, "failed"),
    (countStatus results .skipped, faint, "skipped"),
    (countStatus results .declined, faint, "declined")]

/-! ## Reports -/

/-- The pieces of a plan. -/
def planPieces (options : Options) (plan : Plan) : List Piece :=
  header "plan" options.target ++
    (if plan.changes.isEmpty then
      .plain "  Nothing to do.\n" :: notes plan.warnings plan.errors ++
        (if plan.unchanged ≠ 0 && options.verbose then
          [.plain "  ", faint (toString plan.unchanged ++ " unchanged"), lineBreak] else [])
    else
      lineBreak :: notes plan.warnings plan.errors ++
        plan.changes.flatMap (changeLines options.verbose) ++ lineBreak :: planTally plan)

/-- The past tense of a kind of change. -/
def kindDone : ChangeKind → String
  | .create => "created"
  | .update => "updated"
  | .replace => "replaced"
  | .delete => "deleted"

/-- The sign and label of a result. -/
def resultColumns (result : ChangeResult) : List Piece :=
  match result.status with
  | .applied =>
    signColumn (fun s => .painted { colour := some (kindColour result.kind), bold := true } s)
      (kindSign result.kind) ++ .plain " " :: labelColumn (inKind result.kind) (kindDone result.kind)
  | .failed => signColumn failure "!" ++ .plain " " :: labelColumn red "failed"
  | .skipped => signColumn faint "=" ++ .plain " " :: labelColumn faint "skipped"
  | .declined => signColumn faint "x" ++ .plain " " :: labelColumn faint "declined"

/-- The line about what went wrong with a change. -/
def errorLine (result : ChangeResult) : List Piece :=
  match result.error with
  | none => []
  | some error =>
    if result.status = .failed then [.plain "      ", red error, lineBreak]
    else [.plain "      ", warning "warn:", .plain (" " ++ error ++ "\n")]

/-- The lines of a result. -/
def resultLines (verbose : Bool) (plan : Plan) (result : ChangeResult) : List Piece :=
  .plain "  " :: resultColumns result ++ [primary result.key.text, lineBreak] ++
    (if result.stages.isEmpty then []
      else faintLine ("stages: " ++ joinTexts ", " result.stages)) ++
    errorLine result ++
    (match verbose, plan.changes.reverse.find? fun change => change.id = result.changeId with
      | true, some change => originLine change
      | _, _ => [])

/-- The pieces of the account of a run. -/
def applyPieces (options : Options) (report : ApplyReport) : List Piece :=
  header "apply" options.target ++
    (if report.results.isEmpty then .plain "  Nothing to do.\n" :: notes [] report.errors
    else
      lineBreak :: notes [] report.errors ++
        report.results.flatMap (resultLines options.verbose report.plan) ++
        lineBreak :: applyTally report.results)

/-- A plan as text. -/
def planText (options : Options) (plan : Plan) : String :=
  write options.colour (planPieces options plan)

/-- The account of a run as text. -/
def applyText (options : Options) (report : ApplyReport) : String :=
  write options.colour (applyPieces options report)

end Provision.Report
