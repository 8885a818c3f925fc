import TagML.Ty.Scheme
import TagML.Catalogue

/-!
The running context that a program's forms are checked in: variable schemes, type arities
and tag signatures, each a persistent environment.

Extending the context makes a new one: a top-level `let` is bound in front, and a type
definition's tables are put behind the existing ones, so a type or tag already known keeps
its meaning and a new entry is only found for a name not seen before.
-/
namespace TagML

/-- Variable schemes, type arities and tag signatures. -/
structure Context where
  vars : Env Scheme := {}
  arities : Env Nat := {}
  tags : Env TagSig := {}

namespace Context

/-- The names of the arithmetic operators of the prelude, in binding order. -/
def preludeOperators : List String := ["(+)", "(-)", "(*)", "(/)"]

/-- The context with the prelude: each arithmetic operator bound, unquantified, to
`Int -> Int -> Int`, built in pool `p`.  It allocates no variable. -/
def prelude (p : Pool) : Context × Pool :=
  let (binary, p) := p.curried [Prim.int.idx, Prim.int.idx] Prim.int.idx
  ({ vars := Env.ofList (preludeOperators.map (fun n => (n, Scheme.mono binary))) }, p)

/-- Put a definition's tables behind this context's. -/
def withCatalogue (ctx : Context) (c : Catalogue) : Context :=
  { ctx with arities := ctx.arities.append c.arities, tags := ctx.tags.append c.tags }

/-- Bind `name` to `σ` in front of every other variable. -/
def withBinding (ctx : Context) (name : String) (σ : Scheme) : Context :=
  { ctx with vars := ctx.vars.prepend name σ }

/-- The tag signature a construction by this name uses. -/
def lookupTag (ctx : Context) (name : String) : Option TagSig := ctx.tags.lookup name

/-- A listing of the three tables, innermost binding first:
`types:` with `  Name/arity` lines, `tags:` with `  Name#index(args) : Result` lines (no
parentheses without arguments), and `vars:` with `  name : scheme` lines. -/
def render (ctx : Context) (s : Pool) : String :=
  let types := ctx.arities.bindings.map (fun p => "  " ++ p.1 ++ "/" ++ toString p.2 ++ "\n")
  let tags := ctx.tags.bindings.map (fun p =>
    let args := if p.2.args.isEmpty then ""
      else "(" ++ ", ".intercalate (p.2.args.map s.render) ++ ")"
    "  " ++ p.1 ++ "#" ++ toString p.2.index ++ args ++ " : " ++ s.render p.2.result ++ "\n")
  let vars := ctx.vars.bindings.map (fun p => "  " ++ p.1 ++ " : " ++ s.renderScheme p.2 ++ "\n")
  "types:\n" ++ String.join types ++ "tags:\n" ++ String.join tags ++ "vars:\n" ++ String.join vars

end Context

end TagML
