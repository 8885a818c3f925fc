import TagML.CheckError
import TagML.Ty.Pool

/-!
Diagnostics: the user-facing form of a failure.

A diagnostic has a code, a message and notes, and displays as `error [CODE]: message` with one
`\n  = note: …` line per note.  Types in a message are printed as they stand in the pool at
the time of printing, links included.
-/
namespace TagML

/-- The codes of checker diagnostics. -/
inductive Code where
  /-- Type mismatch. -/
  | e2001
  /-- Unknown variable. -/
  | e2003
  /-- Wrong number of tag arguments. -/
  | e2004
  /-- Infinite type. -/
  | e2005
  /-- Unknown tag. -/
  | e2006
  deriving DecidableEq

/-- The text of a code. -/
def Code.text : Code → String
  | e2001 => "E2001"
  | e2003 => "E2003"
  | e2004 => "E2004"
  | e2005 => "E2005"
  | e2006 => "E2006"

/-- A code, a message and notes. -/
structure Diagnostic where
  code : Code
  message : String
  notes : List String := []

/-- `error [CODE]: message`, then a `  = note: …` line per note. -/
def Diagnostic.display (d : Diagnostic) : String :=
  "error [" ++ d.code.text ++ "]: " ++ d.message
    ++ String.join (d.notes.map (fun n => "\n  = note: " ++ n))

/-- The code of a failure. -/
def Cause.code : Cause → Code
  | unify (.mismatch _ _) => .e2001
  | unify (.infinite _ _) => .e2005
  | undefinedVar _ => .e2003
  | tagArity _ _ _ => .e2004
  | undefinedTag _ => .e2006

/-- `s` unless the count is one. -/
private def plural (n : Nat) : String := if n = 1 then "" else "s"

/-- The message and the cause-specific notes of a failure. -/
def Cause.explain (s : Pool) : Cause → String × List String
  | unify (.mismatch e f) =>
    ("type mismatch: expected `" ++ s.render e ++ "`, found `" ++ s.render f ++ "`", [])
  | unify (.infinite v t) =>
    ("infinite type: `" ++ varName v ++ "` occurs in `" ++ s.render t ++ "`",
      ["a type variable cannot be bound to a type containing itself"])
  | undefinedTag n => ("undefined tag `" ++ n ++ "`", [])
  | tagArity n e f =>
    ("tag `" ++ n ++ "` expects " ++ toString e ++ " argument" ++ plural e ++ " but "
        ++ toString f ++ " " ++ (if f = 1 then "was" else "were") ++ " supplied",
      ["`" ++ n ++ "` is declared with " ++ toString e ++ " argument type" ++ plural e])
  | undefinedVar n => ("undefined variable `" ++ n ++ "`", [])

/-- The diagnostic of a failure, printed against pool `s`; a failure attributed to a node
ends with the note naming it. -/
def CheckError.diagnostic (err : CheckError) (s : Pool) : Diagnostic :=
  let (message, notes) := err.cause.explain s
  let place := match err.expr with
    | some id => ["while checking expression #" ++ toString id]
    | none => []
  { code := err.cause.code, message, notes := notes ++ place }

end TagML
