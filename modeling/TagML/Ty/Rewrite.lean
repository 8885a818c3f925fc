import TagML.Ty.Pool

/-!
Rewriting types through links: deep resolution, and substitution for unbound variables.

A pass rewrites a type from its parts up.  A part without variables is kept as it is; any
other part is resolved through links first; an unbound variable that the substitution names
becomes its image, and a compound is rebuilt from its rewritten parts by hash-consing.  Links
do not change while a pass runs, so the rewrite of each resolved handle is remembered and
reused: a type whose parts repeat is rewritten in time proportional to its distinct parts, not
to its size as a tree.  Several types rewritten in one pass share what it remembers.

The walk carries a budget of levels equal to the number of items when the pass starts.  Every
handle it descends into is an item that existed then, and a path through parts of resolved
items in an acyclic pool visits each item once, so the budget is never used up.
-/
namespace TagML

/-- The state of a rewriting pass: the pool it builds into, and the rewrite of each resolved
handle met so far. -/
structure Rewrite where
  pool : Pool
  done : Std.HashMap Idx Idx := {}

/-- Steps of a rewriting pass. -/
abbrev RewriteM := StateM Rewrite

namespace Rewrite

/-- The handle of a compound structure, built into the pass's pool if it is new.  The state
is taken apart first, so that the pool is extended in place. -/
def build (it : Item) : RewriteM Idx :=
  modifyGet fun
    | ⟨pool, done⟩ =>
      match pool.intern it with
      | (i, pool) => (i, ⟨pool, done⟩)

/-- Remember the rewrite of a resolved handle. -/
def remember (i out : Idx) : RewriteM Unit :=
  modify fun
    | ⟨pool, done⟩ => ⟨pool, done.insert i out⟩

/-- Rewrite `i` within a budget of levels, replacing each unbound variable that `σ` names by
its image. -/
def substWithin (σ : List (Nat × Idx)) : Nat → Idx → RewriteM Idx
  | 0, i => pure i
  | n + 1, i => do
    let st ← get
    if !st.pool.hasVars i then return i
    let i := st.pool.resolve i
    if !st.pool.hasVars i then return i
    match st.done[i]? with
    | some out => return out
    | none =>
      let out ← match st.pool.item i with
        | .var v => pure ((σ.lookup v).getD i)
        | .fn a r => do
          let a ← substWithin σ n a
          let r ← substWithin σ n r
          build (.fn a r)
        | .user name args => do
          let args ← args.mapM (fun a => substWithin σ n a)
          build (.user name args)
        | .prim _ => pure i
      remember i out
      return out

/-- Rewrite `i` in the current pass. -/
def substitute (σ : List (Nat × Idx)) (i : Idx) : RewriteM Idx := do
  substWithin σ (← get).pool.size i

end Rewrite

namespace Pool

/-- Run one rewriting pass on the pool. -/
def rewrite {α : Type} (p : Pool) (pass : RewriteM α) : α × Pool :=
  match pass.run { pool := p } with
  | (a, st) => (a, st.pool)

/-- Rewrite `i` through links, replacing the unbound variables that `σ` names. -/
def substitute (p : Pool) (σ : List (Nat × Idx)) (i : Idx) : Idx × Pool :=
  p.rewrite (Rewrite.substitute σ i)

/-- Rewrite several types through links in one pass, replacing the unbound variables that `σ`
names; common parts are rewritten once. -/
def substituteAll (p : Pool) (σ : List (Nat × Idx)) (is : List Idx) : List Idx × Pool :=
  p.rewrite (is.mapM (Rewrite.substitute σ))

/-- `i` with every linked variable replaced by what it resolves to, all the way down: the only
variables left are unbound. -/
def resolveDeep (p : Pool) (i : Idx) : Idx × Pool :=
  p.substitute [] i

/-- Deep resolution of several types in one pass. -/
def resolveDeepAll (p : Pool) (is : List Idx) : List Idx × Pool :=
  p.substituteAll [] is

end Pool

end TagML
