import TagML.Syntax.Expr
import TagML.Decimal.Shortest
import TagML.Text.Quoted

/-!
Source-like text of expressions, as report lines show them.

Literals print as themselves: integers in decimal, doubles in their shortest round-trip form,
strings and characters quoted, `()` for unit, `true` and `false`.  A construction prints as
`Name(a, b)`, with `Name()` for none; a lambda as `(x) -> body` or `(x: T) -> body`; an
application as `f(arg)`, the callee in parentheses unless it is a variable, a construction or
an application; then `if c then a else b`, `match s as p then a else b` and
`let x = v in b`.
-/
namespace TagML

/-- How doubles are written: positional notation from `1e-4` up to below `1e16` (and for
zero), with at least one digit after the point; scientific notation outside that range;
`NaN`, `inf` and `-inf` for the others.  A negative value, zero included, has a minus sign. -/
def doubleText (x : Float) : String :=
  match (Decimal.Bits.ofFloat x).classify with
  | .nan => "NaN"
  | .infinite neg => if neg then "-inf" else "inf"
  | .zero neg => if neg then "-0.0" else "0.0"
  | .finite neg m e narrow =>
    let (d, k) := Decimal.shortest m e narrow
    let (digits, point) := Decimal.digitsAndPoint d k
    let a := x.abs
    let body := if a < 1e-4 || a ≥ 1e16 then Decimal.scientific digits point
      else Decimal.positional digits point
    (if neg then "-" else "") ++ body

/-- The text of a literal. -/
def Literal.text : Literal → String
  | .int v => toString v
  | .double v => doubleText v
  | .str s => Quoted.string s
  | .char c => Quoted.char c
  | .unit => "()"
  | .bool b => if b then "true" else "false"

/-- The text of a written type: a function argument that is itself a function is
parenthesised, and `_` stands for a type left to inference. -/
def TypeExpr.text : TypeExpr → String
  | .prim p => p.name
  | .infer => "_"
  | .fn a r =>
    let arg := a.text
    (match a with
      | .fn _ _ => "(" ++ arg ++ ")"
      | _ => arg) ++ " -> " ++ r.text
  | .named n args =>
    if args.isEmpty then n else n ++ "<" ++ ", ".intercalate (args.attach.map fun ⟨t, _⟩ => t.text) ++ ">"

/-- Whether an expression needs no parentheses as a callee. -/
def Expr.isAtomicCallee : Expr → Bool
  | .var _ _ | .tag _ _ _ | .app _ _ _ => true
  | _ => false

/-- The source-like text of an expression. -/
def Expr.text : Expr → String
  | .lit _ l => l.text
  | .tag _ n args => n ++ "(" ++ ", ".intercalate (args.attach.map fun ⟨a, _⟩ => a.text) ++ ")"
  | .var _ n => n
  | .lam _ x ann body =>
    let head := match ann with
      | .infer => "(" ++ x ++ ")"
      | _ => "(" ++ x ++ ": " ++ ann.text ++ ")"
    head ++ " -> " ++ body.text
  | .app _ f x =>
    let callee := if f.isAtomicCallee then f.text else "(" ++ f.text ++ ")"
    callee ++ "(" ++ x.text ++ ")"
  | .ite _ c t e => "if " ++ c.text ++ " then " ++ t.text ++ " else " ++ e.text
  | .matchAs _ s p t e =>
    "match " ++ s.text ++ " as " ++ p.binder.getD "_" ++ " then " ++ t.text ++ " else " ++ e.text
  | .letIn _ x v b => "let " ++ x ++ " = " ++ v.text ++ " in " ++ b.text

end TagML
