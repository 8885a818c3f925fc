import TagML.Ty.Unify
import TagML.Ty.Scheme
import TagML.Ty.Rewrite
import TagML.Context
import TagML.CheckError

/-!
Type inference for expressions, with the expected type pushed down (Algorithm M).

Every rule first records the type its node is checked against, then pushes expectations into
the children and unifies at the leaves; nothing is synthesized bottom-up.  The order in which
rules allocate fresh variables and call unification is part of the answer, since it fixes
every variable id and which side of a failed unification is the expected one:

* a literal unifies (expected, its primitive);
* a construction looks its tag up, instantiates it (one fresh variable per quantified id,
  ascending, shared by argument and result types), records the tag's index, checks the number
  of arguments before inferring any, infers the arguments against their instantiated types and
  unifies (expected, result);
* a variable instantiates its scheme, allocates its own slot, unifies (slot, instance) and then
  (expected, instance);
* a lambda resolves its annotation, binds the parameter unquantified, allocates the result
  variable, infers the body and unifies (expected, parameter -> result);
* an application allocates the argument variable and infers the function against
  `argument -> expected`, then the argument;
* a conditional infers the condition against `Bool`, then both branches against expected;
* a match allocates the scrutinee's variable, then the pattern's slot, unifies (slot,
  scrutinee), and infers the scrutinee in the outer environment, the first branch with the
  pattern's binding in front, and the second in the outer environment;
* a let allocates the value's variable, infers the value, generalizes it against the
  environment, and infers the body with the name bound in front.

The first failure ends inference; the pool keeps the links made before it.
-/
namespace TagML

/-- The types recorded for the nodes of one form, in the order they were recorded. -/
structure Tables where
  /-- Each expression node and the type it was checked against. -/
  exprs : List (Nat × Idx) := []
  /-- Each variable reference and its own slot, unified with its instance. -/
  slots : List (Nat × Idx) := []
  /-- Each construction and the declared index of its tag. -/
  tagIndices : List (Nat × Nat) := []
  /-- Each pattern and its slot. -/
  pats : List (Nat × Idx) := []

/-- The state of inference: the pool and the tables recorded so far. -/
structure Engine where
  pool : Pool
  tables : Tables := {}

/-- Inference steps: they thread the engine, and a failure keeps the engine as it stood. -/
abbrev InferM := EStateM CheckError Engine

namespace Engine

/-- The tables with every type resolved deeply through the pool's links in one pass, each list
sorted by node id, and the pool holding the rebuilt types. -/
def finish (e : Engine) : Tables × Pool :=
  let byId {β : Type} (xs : List (Nat × β)) := xs.mergeSort (fun a b => a.1 ≤ b.1)
  let t := e.tables
  let pass : RewriteM (List (Nat × Idx) × List (Nat × Idx) × List (Nat × Idx)) := do
    let deep (xs : List (Nat × Idx)) : RewriteM (List (Nat × Idx)) :=
      xs.mapM fun (id, ty) => do return (id, ← Rewrite.substitute [] ty)
    return (← deep t.exprs, ← deep t.slots, ← deep t.pats)
  match e.pool.rewrite pass with
  | ((exprs, slots, pats), pool) =>
    let tables : Tables :=
      { exprs := byId exprs, slots := byId slots, tagIndices := byId t.tagIndices
        pats := byId pats }
    (tables, pool)

end Engine

namespace InferM

/-- Run a pool operation on the engine's pool.  The engine is taken apart first, so that the
pool is updated in place. -/
def withPool {α : Type} (f : Pool → α × Pool) : InferM α :=
  modifyGet fun
    | ⟨pool, tables⟩ =>
      match f pool with
      | (a, pool) => (a, ⟨pool, tables⟩)

/-- A fresh variable. -/
def fresh : InferM Idx := withPool Pool.fresh

/-- The function type from `a` to `r`. -/
def fnType (a r : Idx) : InferM Idx := withPool (·.fn a r)

/-- Unify (expected, found), attributing a failure to node `id`. -/
def unifyAt (expected found : Idx) (id : Nat) : InferM Unit := do
  let r ← withPool fun p => match p.unify expected found with | (p, r) => (r, p)
  match r with
  | none => pure ()
  | some err => throw ((Cause.unify err).atNode id)

/-- Record the type node `id` is checked against. -/
def recordExpr (id : Nat) (t : Idx) : InferM Unit :=
  modify fun e => { e with tables := { e.tables with exprs := (id, t) :: e.tables.exprs } }

/-- Record a variable reference's slot. -/
def recordSlot (id : Nat) (t : Idx) : InferM Unit :=
  modify fun e => { e with tables := { e.tables with slots := (id, t) :: e.tables.slots } }

/-- Record the index of the tag a construction builds. -/
def recordTagIndex (id : Nat) (index : Nat) : InferM Unit :=
  modify fun e => { e with tables := { e.tables with tagIndices := (id, index) :: e.tables.tagIndices } }

/-- Record a pattern's slot. -/
def recordPat (id : Nat) (t : Idx) : InferM Unit :=
  modify fun e => { e with tables := { e.tables with pats := (id, t) :: e.tables.pats } }

/-- A fresh instance of a scheme. -/
def instantiate (σ : Scheme) : InferM Idx := withPool (·.instantiate σ)

/-- A fresh instance of a tag's argument and result types, under one renaming of its
quantified variables applied in one rewriting pass. -/
def instantiateTag (sig : TagSig) : InferM (List Idx × Idx) :=
  withPool fun p =>
    let (m, p) := p.freshFor sig.bounded
    p.rewrite do
      let args ← sig.args.mapM (Rewrite.substitute m)
      return (args, ← Rewrite.substitute m sig.result)

/-- Generalize `t` against `env` in the current pool. -/
def generalize (env : Env Scheme) (t : Idx) : InferM Scheme := do
  return (← get).pool.generalize env t

/-- Resolve an annotation, with no type parameters in scope. -/
def resolveType (ann : TypeExpr) : InferM Idx := withPool (ann.resolve {} ·)

end InferM

section Rules

open InferM

mutual
/-- Check expression `e` against `expected` in the variable environment `env`, with the tags
of `ctx`. -/
def infer (ctx : Context) (env : Env Scheme) : Expr → Idx → InferM Unit
  | .lit id l, expected => do
    recordExpr id expected
    unifyAt expected l.prim.idx id
  | .tag id name args, expected => do
    recordExpr id expected
    match ctx.lookupTag name with
    | none => throw ((Cause.undefinedTag name).atNode id)
    | some sig =>
      let (argTys, result) ← instantiateTag sig
      recordTagIndex id sig.index
      if args.length ≠ sig.arity then
        throw ((Cause.tagArity name sig.arity args.length).atNode id)
      inferArgs ctx env args argTys
      unifyAt expected result id
  | .var id name, expected => do
    recordExpr id expected
    match env.lookup name with
    | none => throw ((Cause.undefinedVar name).atNode id)
    | some σ =>
      let inst ← InferM.instantiate σ
      let slot ← fresh
      recordSlot id slot
      unifyAt slot inst id
      unifyAt expected inst id
  | .lam id x ann body, expected => do
    recordExpr id expected
    let param ← resolveType ann
    let ret ← fresh
    infer ctx (env.prepend x (Scheme.mono param)) body ret
    unifyAt expected (← fnType param ret) id
  | .app id f x, expected => do
    recordExpr id expected
    let argTy ← fresh
    infer ctx env f (← fnType argTy expected)
    infer ctx env x argTy
  | .ite id c t e, expected => do
    recordExpr id expected
    infer ctx env c Prim.bool.idx
    infer ctx env t expected
    infer ctx env e expected
  | .matchAs id scrut pat t e, expected => do
    recordExpr id expected
    let scrutTy ← fresh
    let slot ← fresh
    recordPat pat.id slot
    unifyAt slot scrutTy id
    let bindings : Env Scheme := match pat.binder with
      | none => {}
      | some x => Env.empty.prepend x (Scheme.mono scrutTy)
    infer ctx env scrut scrutTy
    infer ctx (bindings.append env) t expected
    infer ctx env e expected
  | .letIn id x v b, expected => do
    recordExpr id expected
    let valueTy ← fresh
    infer ctx env v valueTy
    let σ ← InferM.generalize env valueTy
    infer ctx (env.prepend x σ) b expected

/-- Check the arguments of a construction against their types, left to right. -/
def inferArgs (ctx : Context) (env : Env Scheme) : List Expr → List Idx → InferM Unit
  | e :: es, t :: ts => do
    infer ctx env e t
    inferArgs ctx env es ts
  | _, _ => pure ()
end

end Rules

end TagML
