import TagML.Ty.Pool
import TagML.Syntax.Expr
import TagML.Env

/-!
Type definitions and the tag catalogue they produce.

A definition of several types is processed item by item.  Each item gets one fresh variable
per parameter, even when it has no tags, and its result type is the item's name applied to
those variables.  Each tag then resolves its argument types left to right: a bare reference
to a parameter name becomes that parameter's variable (the last of repeated names wins), any
other name is a user type taken literally, and `_` becomes a fresh variable quantified in
that tag only.  A tag quantifies its item's parameter variables and its own `_` variables.

Nothing here can fail.  The tables a definition produces are environments: within an item a
later tag of the same name shadows an earlier one, and across items an earlier item's tag is
found first.
-/
namespace TagML

mutual
/-- Resolve a written type into a type, with `params` mapping parameter names to their
variables; `_` allocates a fresh variable. -/
def TypeExpr.resolve (params : Env Idx) (s : Pool) : TypeExpr → Idx × Pool
  | .prim p => (p.idx, s)
  | .infer => s.fresh
  | .fn a r =>
    let (a, s) := a.resolve params s
    let (r, s) := r.resolve params s
    s.fn a r
  | .named n args =>
    match args, params.lookup n with
    | [], some v => (v, s)
    | _, _ =>
      let (args, s) := TypeExpr.resolveList params s args
      s.user n args

/-- Resolve written types left to right. -/
def TypeExpr.resolveList (params : Env Idx) (s : Pool) : List TypeExpr → List Idx × Pool
  | [] => ([], s)
  | t :: ts =>
    let (t, s) := t.resolve params s
    let (ts, s) := TypeExpr.resolveList params s ts
    (t :: ts, s)
end

/-- The signature of one tag. -/
structure TagSig where
  name : String
  /-- Position among its type's tags, in declaration order. -/
  index : Nat
  /-- The owning type's parameter variables and the tag's own `_` variables, ascending. -/
  bounded : List Nat
  args : List Idx
  /-- The owning type applied to its parameter variables. -/
  result : Idx

/-- The number of arguments a construction of the tag must supply. -/
def TagSig.arity (t : TagSig) : Nat := t.args.length

/-- The tables a type definition adds to a context. -/
structure Catalogue where
  /-- Each defined type's parameter count, the last item innermost. -/
  arities : Env Nat := {}
  tags : Env TagSig := {}
  /-- The declared tag names in declaration order, repeats kept. -/
  declared : List String := []

namespace Catalogue

/-- The defined type names in declaration order. -/
def typeNames (c : Catalogue) : List String := c.arities.bindings.reverse.map (·.1)

end Catalogue

/-- Build the signatures of one item's tags, numbered from `index`, each quantifying
`bounded` and the variables its own arguments allocate. -/
def TypeItem.tagSigs (params : Env Idx) (bounded : List Nat) (result : Idx) (s : Pool) :
    Nat → List TagDecl → List TagSig × Pool
  | _, [] => ([], s)
  | index, d :: ds =>
    let first := s.varCount
    let (args, s) := TypeExpr.resolveList params s d.args
    let own := (List.range (s.varCount - first)).map (first + ·)
    let sig : TagSig := { name := d.name, index, bounded := bounded ++ own, args, result }
    let (sigs, s) := TypeItem.tagSigs params bounded result s (index + 1) ds
    (sig :: sigs, s)

/-- The tags of one item, with fresh variables for its parameters. -/
def TypeItem.build (item : TypeItem) (s : Pool) : List TagSig × Pool :=
  let first := s.varCount
  let (vars, s) := s.freshMany item.params.length
  let params := Env.ofList (item.params.zip vars)
  let bounded := (List.range item.params.length).map (first + ·)
  let (result, s) := s.user item.name vars
  TypeItem.tagSigs params bounded result s 0 item.tags

/-- The catalogue of a type definition, items processed in order. -/
def Catalogue.build (items : List TypeItem) (s : Pool) : Catalogue × Pool :=
  let arities := Env.ofList (items.map (fun item => (item.name, item.params.length)))
  let step (acc : Env TagSig × Pool) (item : TypeItem) : Env TagSig × Pool :=
    let (sigs, s) := item.build acc.2
    (acc.1.append (Env.ofList (sigs.map (fun t => (t.name, t)))), s)
  let (tags, s) := items.foldl step ({}, s)
  ({ arities, tags, declared := items.flatMap (fun item => item.tags.map (·.name)) }, s)

end TagML
