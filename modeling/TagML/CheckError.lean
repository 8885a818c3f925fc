import TagML.Ty.Unify

/-!
Why a form fails to check, and where.

A failure is a unification failure or a lookup failure, tagged with the expression node
whose rule raised it.  A bare unification failure, outside any expression, carries no node.
-/
namespace TagML

/-- What went wrong while checking a form. -/
inductive Cause where
  | unify (err : UnifyError)
  | undefinedTag (name : String)
  /-- A construction supplies `found` arguments to a tag declared with `expected`. -/
  | tagArity (name : String) (expected found : Nat)
  | undefinedVar (name : String)

/-- A failure and the expression node it is attributed to. -/
structure CheckError where
  cause : Cause
  expr : Option Nat := none

namespace Cause

/-- The short description of a failure. -/
def text : Cause → String
  | unify err => err.text
  | undefinedTag _ => "undefined tag"
  | tagArity _ e f =>
    "tag expects " ++ toString e ++ " argument(s) but " ++ toString f ++ " were supplied"
  | undefinedVar _ => "undefined variable"

/-- Attribute the failure to expression node `id`. -/
def atNode (c : Cause) (id : Nat) : CheckError := { cause := c, expr := some id }

end Cause

end TagML
