import Provision.Text

/-!
# Syntax trees

One tree type for expressions and statements of the configuration language.
Statements, references and map entries carry the place where they start;
`Node.bare` forgets those places, so that two trees can be compared up to them.
-/

namespace Provision

/-- A place in a file; lines and columns count from one. -/
structure Span where
  file : String
  line : Nat
  column : Nat
deriving DecidableEq, Repr, Inhabited

namespace Span

/-- The place of a tree that was made without a file. -/
def generated : Span := ⟨"<generated>", 0, 0⟩

/-- A place as `file:line:column`. -/
def text (span : Span) : String :=
  span.file ++ ":" ++ toString span.line ++ ":" ++ toString span.column

end Span

namespace Language

/-- The binary operators. -/
inductive Operator where
  | or
  | and
  | eq
  | ne
  | lt
  | le
  | gt
  | ge
  | add
  | sub
  | mul
  | div
deriving DecidableEq, Repr

namespace Operator

/-- The spelling of an operator. -/
def symbol : Operator → String
  | or => "or"
  | and => "and"
  | eq => "=="
  | ne => "!="
  | lt => "<"
  | le => "<="
  | gt => ">"
  | ge => ">="
  | add => "+"
  | sub => "-"
  | mul => "*"
  | div => "/"

/-- How strongly an operator binds. -/
def precedence : Operator → Nat
  | or => 1
  | and => 2
  | eq | ne | lt | le | gt | ge => 3
  | add | sub => 4
  | mul | div => 5

end Operator

mutual

/-- An expression or a statement. -/
inductive Node where
  | null
  | bool (b : Bool)
  | number (x : Float)
  | text (s : String)
  /-- A double-quoted string with references; literal pieces are `text` nodes. -/
  | interpolated (parts : List Node)
  | list (items : List Node)
  | map (entries : List Entry)
  /-- `$(name.path)`: a variable and a path into its value. -/
  | var (path : List String) (span : Span)
  /-- `$(ns::kind name | field.path)`: without a name, every resource of the type; a name
  ending in `*` stands for every resource whose name starts so. -/
  | ref (type : String) (name : Option Node) (path : List String) (span : Span)
  | binary (op : Operator) (left right : Node)
  | pair (entry : Entry)
  | resource (type : String) (name : Node) (body : List Node) (span : Span)
  /-- A named block inside a resource. -/
  | block (key : String) (body : List Node) (span : Span)
  | directive (d : Directive)

/-- `key: value`, as a statement or in a map. -/
structure Entry where
  key : String
  value : Node
  span : Span

/-- `-name arguments` of a directive. -/
structure Clause where
  name : String
  arguments : List Node

/-- An `@else` part of a directive, with a guard when it has arguments. -/
structure Branch where
  name : String
  arguments : List Node
  body : List Node
  span : Span

/-- `@name arguments -option arguments`, with a body unless a colon follows the name. -/
structure Directive where
  name : String
  arguments : List Node
  clauses : List Clause
  bodyless : Bool
  body : List Node
  branches : List Branch
  span : Span

end

instance : Inhabited Node := ⟨.null⟩

instance : Inhabited Entry := ⟨"", .null, Span.generated⟩

namespace Node

/-- The place of a statement or reference. -/
def span? : Node → Option Span
  | var _ span | ref _ _ _ span | resource _ _ _ span | block _ _ span => some span
  | pair entry => some entry.span
  | directive d => some d.span
  | _ => none

/-- The characters of a node that is a string without references. -/
def asText? : Node → Option String
  | text s => some s
  | _ => none

end Node

/-- The first clause of a directive with the given name. -/
def Directive.clause? (d : Directive) (name : String) : Option Clause :=
  d.clauses.find? (·.name = name)

mutual

/-- The tree with every place replaced by the generated one. -/
def Node.bare : Node → Node
  | .interpolated parts => .interpolated (bareNodes parts)
  | .list items => .list (bareNodes items)
  | .map entries => .map (bareEntries entries)
  | .var path _ => .var path Span.generated
  | .ref type name path _ => .ref type (bareOption name) path Span.generated
  | .binary op left right => .binary op left.bare right.bare
  | .pair entry => .pair entry.bare
  | .resource type name body _ => .resource type name.bare (bareNodes body) Span.generated
  | .block key body _ => .block key (bareNodes body) Span.generated
  | .directive d => .directive d.bare
  | .null => .null
  | .bool b => .bool b
  | .number x => .number x
  | .text s => .text s

/-- Several trees without their places. -/
def bareNodes : List Node → List Node
  | [] => []
  | node :: rest => node.bare :: bareNodes rest

/-- An optional tree without its places. -/
def bareOption : Option Node → Option Node
  | none => none
  | some node => some node.bare

/-- An entry without its places. -/
def Entry.bare : Entry → Entry
  | ⟨key, value, _⟩ => ⟨key, value.bare, Span.generated⟩

/-- Several entries without their places. -/
def bareEntries : List Entry → List Entry
  | [] => []
  | entry :: rest => entry.bare :: bareEntries rest

/-- A clause without its places. -/
def Clause.bare : Clause → Clause
  | ⟨name, arguments⟩ => ⟨name, bareNodes arguments⟩

/-- Several clauses without their places. -/
def bareClauses : List Clause → List Clause
  | [] => []
  | clause :: rest => clause.bare :: bareClauses rest

/-- A branch without its places. -/
def Branch.bare : Branch → Branch
  | ⟨name, arguments, body, _⟩ => ⟨name, bareNodes arguments, bareNodes body, Span.generated⟩

/-- Several branches without their places. -/
def bareBranches : List Branch → List Branch
  | [] => []
  | branch :: rest => branch.bare :: bareBranches rest

/-- A directive without its places. -/
def Directive.bare : Directive → Directive
  | ⟨name, arguments, clauses, bodyless, body, branches, _⟩ =>
    ⟨name, bareNodes arguments, bareClauses clauses, bodyless, bareNodes body,
      bareBranches branches, Span.generated⟩

end

/-- The statements of one file. -/
structure SourceFile where
  path : String
  body : List Node

namespace SourceFile

/-- The argument of a top-level `@import` that is a plain string, with the place of the directive. -/
def importOf? : Node → Option (String × Span)
  | .directive d =>
    if d.name = "import" then
      match d.arguments.head? with
      | some (.text path) => some (path, d.span)
      | _ => none
    else none
  | _ => none

/-- What the top-level `@import` directives name, in source order. -/
def imports (file : SourceFile) : List (String × Span) :=
  file.body.filterMap importOf?

end SourceFile

end Language

end Provision
