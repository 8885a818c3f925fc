import TagML.Infer

/-!
Checking a program form by form.

The checker owns the pool and the running context.  A type definition adds its tables; an
evaluated expression is inferred against a fresh result variable and reported with its
deep-resolved type; a top-level `let` is inferred against a fresh variable, deep-resolved,
generalized against the context's variables, and bound in front of them.  A form that fails
leaves the context as it was, while the links it made stay in the pool.
-/
namespace TagML

/-- The pool and the running context. -/
structure Checker where
  pool : Pool := {}
  ctx : Context := {}

/-- What checking one form produced. -/
inductive Outcome where
  /-- The defined type names and the declared tag names, both in declaration order. -/
  | typeDefined (types tags : List String)
  /-- An evaluated expression (by its root id) and its deep-resolved type. -/
  | evaluated (expr : Nat) (ty : Idx)
  /-- A top-level `let` and the scheme it was generalized to. -/
  | bound (name : String) (σ : Scheme)

/-- A successfully checked form and the resolved types of its nodes. -/
structure Checked where
  outcome : Outcome
  tables : Tables := {}

/-- What a successful inference leaves: the type it was checked against resolved deeply, the
finished tables, and the pool holding both.  Deep resolution only adds items, so the links
are those inference left. -/
def Engine.settle (eng : Engine) (expected : Idx) : Idx × Tables × Pool :=
  match eng with
  | ⟨pool, recorded⟩ =>
    let (ty, pool) := pool.resolveDeep expected
    let (tables, pool) := Engine.finish ⟨pool, recorded⟩
    (ty, tables, pool)

namespace Checker

/-- A checker whose context starts with the arithmetic prelude. -/
def withPrelude : Checker :=
  let (ctx, pool) := Context.prelude {}
  { pool, ctx }

/-- Add a type definition's tables behind the context's. -/
def defineTypes (c : Checker) (items : List TypeItem) : Checker × Catalogue :=
  let (cat, pool) := Catalogue.build items c.pool
  ({ pool, ctx := c.ctx.withCatalogue cat }, cat)

/-- Check one form against the running context, extending the context on success. -/
def checkForm (c : Checker) : Form → Checker × Except CheckError Checked
  | .typeDef items =>
    let (c, cat) := c.defineTypes items
    (c, .ok { outcome := .typeDefined cat.typeNames cat.declared })
  | .eval e =>
    let (result, pool) := c.pool.fresh
    match (infer c.ctx c.ctx.vars e result).run { pool } with
    | .ok _ eng =>
      let (ty, tables, pool) := eng.settle result
      ({ c with pool }, .ok { outcome := .evaluated e.id ty, tables })
    | .error err eng => ({ c with pool := eng.pool }, .error err)
  | .bind x v =>
    let (valueTy, pool) := c.pool.fresh
    match (infer c.ctx c.ctx.vars v valueTy).run { pool } with
    | .ok _ eng =>
      let (ty, tables, pool) := eng.settle valueTy
      let σ := pool.generalize c.ctx.vars ty
      ({ pool, ctx := c.ctx.withBinding x σ }, .ok { outcome := .bound x σ, tables })
    | .error err eng => ({ c with pool := eng.pool }, .error err)

/-- Check every form in order, stopping at the first failure. -/
def checkProgram (c : Checker) : List Form → Checker × Except CheckError (List Checked)
  | [] => (c, .ok [])
  | f :: fs =>
    match c.checkForm f with
    | (c, .error err) => (c, .error err)
    | (c, .ok done) =>
      match c.checkProgram fs with
      | (c, .ok rest) => (c, .ok (done :: rest))
      | failed => failed

/-- Infer one expression in the checker's context against an expected type, a fresh variable
when none is given (a written `_` also stands for a fresh variable).  Returns the expected type,
the engine as inference left it, and whether inference succeeded; the context is unchanged. -/
def inferExpr (c : Checker) (expected : Option TypeExpr) (e : Expr) :
    Idx × Engine × Except CheckError Unit :=
  let (exp, pool) := match expected with
    | none => c.pool.fresh
    | some t => t.resolve {} c.pool
  match (infer c.ctx c.ctx.vars e exp).run { pool } with
  | .ok _ eng => (exp, eng, .ok ())
  | .error err eng => (exp, eng, .error err)

end Checker

end TagML
