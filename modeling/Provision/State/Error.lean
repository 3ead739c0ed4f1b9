import Provision.Evaluation.Error
import Provision.Language.Parser
import Provision.Path

/-!
# State errors

Why recorded state cannot be loaded or saved.
-/

namespace Provision

/-- Why state cannot be loaded or saved. -/
inductive StateError where
  | read (path : Path)
  | write (path : Path)
  | persist (path : Path)
  | remove (path : Path)
  | parse (error : Language.ParseError)
  | eval (error : EvalError)

/-- The wording of a state error. -/
def StateError.message : StateError → String
  | read path => "failed to read state file: " ++ path.text
  | write path => "failed to write state file: " ++ path.text
  | persist path => "failed to replace state file: " ++ path.text
  | remove path => "failed to remove state file: " ++ path.text
  | parse e => e.text
  | eval e => "invalid state: " ++ e.message

end Provision
