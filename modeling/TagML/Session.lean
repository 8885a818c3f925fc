import TagML.Check
import TagML.Diagnostic
import TagML.Syntax.Print
import TagML.Text.WhiteSpace

/-!
Checking sessions: a checker run over programs form by form, with a report per program.

A session is configured by an error policy, whether the context starts with the arithmetic
prelude, and whether tracing is on (tracing writes nothing that a report shows).  Each
program's forms are checked in order against the context the session has reached; a failed
form is reported by its diagnostic and, under the halting policy, ends the program, while the
next program still runs.  A report has one line per checked form.
-/
namespace TagML

/-- What a session does after a form fails to check. -/
inductive ErrorPolicy where
  /-- Stop the program at its first failing form. -/
  | halt
  /-- Report the failure and go on with the next form, in the context as it stood. -/
  | proceed
  deriving DecidableEq

/-- Why a configuration could not be read. -/
inductive ConfigError where
  | invalidPolicy (raw : String)

/-- The text of a configuration error. -/
def ConfigError.message : ConfigError → String
  | .invalidPolicy raw =>
    "invalid KILN_ERROR_POLICY `" ++ raw ++ "`: expected `halt` or `continue`"

/-- The policy named by a text: `halt` or `continue`, ignoring surrounding white space and
ASCII case. -/
def ErrorPolicy.parse (raw : String) : Except ConfigError ErrorPolicy :=
  match (trimWhiteSpace raw).map Char.toLower with
  | "halt" => .ok .halt
  | "continue" => .ok .proceed
  | _ => .error (.invalidPolicy raw)

/-- The name of a policy. -/
def ErrorPolicy.name : ErrorPolicy → String
  | .halt => "halt"
  | .proceed => "continue"

/-- The settings of a session. -/
structure Config where
  errorPolicy : ErrorPolicy := .halt
  prelude : Bool := true
  trace : Bool := false

namespace Config

/-- Whether a setting's value turns it on: anything but `""`, `0`, `false` or `no` once
trimmed. -/
def isTruthy (value : String) : Bool :=
  !(["", "0", "false", "no"].contains (trimWhiteSpace value))

/-- Read a configuration from named settings: `KILN_ERROR_POLICY` chooses the policy,
`KILN_NO_PRELUDE` turns the prelude off when truthy, and a non-empty `KILN_LOG` turns tracing
on.  An unset name keeps its default. -/
def ofLookup (lookup : String → Option String) : Except ConfigError Config := do
  let errorPolicy ← match lookup "KILN_ERROR_POLICY" with
    | some raw => ErrorPolicy.parse raw
    | none => pure .halt
  let prelude := !((lookup "KILN_NO_PRELUDE").map isTruthy).getD false
  let trace := ((lookup "KILN_LOG").map (fun v => !v.isEmpty)).getD false
  return { errorPolicy, prelude, trace }

/-- Read a configuration from settings placed in a process environment first.  An environment
value cannot hold a NUL character, so a setting whose value holds one stays unset. -/
def ofEnvironment (settings : List (String × String)) : Except ConfigError Config :=
  ofLookup fun k => (settings.lookup k).filter fun v => !v.contains '\x00'

end Config

/-- One line of a report. -/
inductive Entry where
  | typeDefined (types tags : List String)
  | evaluated (expr ty : String)
  | bound (name scheme : String)
  | failed (d : Diagnostic)

namespace Entry

/-- The text of a report line. -/
def line : Entry → String
  | typeDefined types tags => "type " ++ ", ".intercalate types ++ ": " ++ ", ".intercalate tags
  | evaluated e t => e ++ " : " ++ t
  | bound n σ => "let " ++ n ++ " : " ++ σ
  | failed d => d.display

/-- The diagnostic of a failed form. -/
def diagnostic? : Entry → Option Diagnostic
  | failed d => some d
  | _ => none

end Entry

/-- The lines of one program's run, in form order. -/
structure Report where
  entries : List Entry := []

namespace Report

/-- Whether some form failed. -/
def hasErrors (r : Report) : Bool := r.entries.any (·.diagnostic?.isSome)

/-- The diagnostics of the failed forms, in order. -/
def diagnostics (r : Report) : List Diagnostic := r.entries.filterMap (·.diagnostic?)

/-- Every line followed by a line break. -/
def render (r : Report) : String := String.join (r.entries.map (·.line ++ "\n"))

end Report

/-- A configuration and the checker it drives. -/
structure Session where
  config : Config
  checker : Checker

namespace Session

/-- A session whose checker starts with the prelude if the configuration asks for it. -/
def new (config : Config) : Session :=
  { config, checker := if config.prelude then Checker.withPrelude else {} }

/-- The report line of a successfully checked form. -/
def describe (s : Pool) (f : Form) : Outcome → Entry
  | .typeDefined types tags => .typeDefined types tags
  | .evaluated _ ty =>
    let text := match f with
      | .eval e => e.text
      | _ => ""
    .evaluated text (s.render ty)
  | .bound name σ => .bound name (s.renderScheme σ)

/-- Check the forms of one program in order, reporting each; under the halting policy the
first failure ends the program. -/
def run (ses : Session) : List Form → Session × Report
  | [] => (ses, {})
  | f :: fs =>
    let (c, r) := ses.checker.checkForm f
    let ses := { ses with checker := c }
    match r with
    | .ok done =>
      let entry := describe c.pool f done.outcome
      let (ses, rest) := ses.run fs
      (ses, { entries := entry :: rest.entries })
    | .error err =>
      let entry := Entry.failed (err.diagnostic c.pool)
      if ses.config.errorPolicy = .halt then (ses, { entries := [entry] })
      else
        let (ses, rest) := ses.run fs
        (ses, { entries := entry :: rest.entries })

/-- The listing of the context the session has reached. -/
def contextDump (ses : Session) : String := ses.checker.ctx.render ses.checker.pool

end Session

end TagML
