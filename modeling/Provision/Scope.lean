import Provision.Value

/-!
# Scopes

The names that are visible while statements run.  Reads fall through to the
enclosing scopes, writes stay in the innermost one.  Values of named blocks are
collected apart from the bindings and become fields when a body ends.
-/

namespace Provision

/-- Collected block values by block name. -/
abbrev Blocks := Table String (List Value)

/-- Appends to the values collected under a name. -/
def Blocks.append (blocks : Blocks) (key : String) (values : List Value) : Blocks :=
  Table.set blocks key ((Table.get? blocks key).getD [] ++ values)

/-- One level of bindings on top of the enclosing ones, nearest first. -/
structure Scope where
  values : Bindings := []
  blocks : Blocks := []
  enclosing : List Bindings := []

namespace Scope

/-- A scope without enclosing ones that holds the given bindings. -/
def withValues (values : Bindings) : Scope :=
  ⟨values, [], []⟩

/-- An empty scope inside another. -/
def child (parent : Scope) : Scope :=
  ⟨[], [], parent.values :: parent.enclosing⟩

/-- The first binding of a name in a list of levels. -/
def findIn : List Bindings → String → Option Value
  | [], _ => none
  | level :: rest, name =>
    match level.get? name with
    | some value => some value
    | none => findIn rest name

/-- The nearest binding of a name. -/
def find (scope : Scope) (name : String) : Option Value :=
  findIn (scope.values :: scope.enclosing) name

/-- The binding of a name in this scope alone. -/
def get? (scope : Scope) (name : String) : Option Value :=
  Table.get? scope.values name

/-- Binds a name in this scope. -/
def put (scope : Scope) (name : String) (value : Value) : Scope :=
  { scope with values := Table.set scope.values name value }

/-- Collects the value of a block. -/
def addBlock (scope : Scope) (key : String) (value : Value) : Scope :=
  { scope with blocks := scope.blocks.append key [value] }

/-- Collects several values under each name. -/
def extendBlocks (scope : Scope) (blocks : Blocks) : Scope :=
  { scope with blocks := blocks.foldl (fun all entry => Blocks.append all entry.1 entry.2) scope.blocks }

/-- The bindings of several levels in one table, the nearest winning. -/
def flattenLevels : List Bindings → Bindings
  | [] => []
  | level :: rest => (flattenLevels rest).setAll level

/-- Every visible binding; outer names come first. -/
def flatten (scope : Scope) : Bindings :=
  flattenLevels (scope.values :: scope.enclosing)

/-- What the values collected under one name become: a single one stays itself. -/
def blockValue : List Value → Value
  | [value] => value
  | values => .list values

/-- The bindings together with the collected blocks. -/
def fields (scope : Scope) : Bindings :=
  scope.values.setAll (scope.blocks.map fun entry => (entry.1, blockValue entry.2))

end Scope

end Provision
