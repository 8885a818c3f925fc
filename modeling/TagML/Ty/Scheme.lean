import TagML.Ty.Rewrite
import TagML.Env

/-!
Type schemes: let-polymorphism.

A scheme quantifies a set of variables of its body.  Generalizing a type against an
environment quantifies exactly the variables free in the type and free in no scheme of the
environment, shadowed bindings included.  Instantiating a scheme makes one fresh variable
per quantified variable, in ascending id order, and rebuilds the body with those in place of
the quantified ones; every other variable stays shared with the scheme.  A scheme that
quantifies nothing instantiates to its body and allocates nothing.
-/
namespace TagML

/-- A type with some of its variables quantified; `bounded` is ascending and free of
repeats. -/
structure Scheme where
  bounded : List Nat
  body : Idx

namespace Scheme

/-- The scheme that quantifies nothing. -/
def mono (t : Idx) : Scheme := ⟨[], t⟩

/-- A scheme quantifying the given ids, listed in any order. -/
def ofVars (vars : List Nat) (body : Idx) : Scheme := ⟨VarSet.ofList vars, body⟩

/-- Whether the scheme quantifies nothing. -/
def isMono (σ : Scheme) : Bool := σ.bounded.isEmpty

/-- Whether the scheme quantifies `v`. -/
def quantifies (σ : Scheme) (v : Nat) : Bool := σ.bounded.contains v

end Scheme

namespace Pool

/-- The free variables of a scheme's body that it does not quantify, ascending. -/
def freeVarsScheme (p : Pool) (σ : Scheme) : List Nat :=
  (p.freeVars σ.body).filter (fun v => !σ.quantifies v)

/-- The free variables of every scheme of an environment, shadowed bindings included,
ascending. -/
def freeVarsEnv (p : Pool) (env : Env Scheme) : List Nat :=
  env.bindings.foldl (fun acc b => VarSet.union (p.freeVarsScheme b.2) acc) []

/-- Quantify the variables free in `t` and free nowhere in `env`. -/
def generalize (p : Pool) (env : Env Scheme) (t : Idx) : Scheme :=
  let outer := p.freeVarsEnv env
  ⟨(p.freeVars t).filter (fun v => !outer.contains v), t⟩

/-- One fresh variable for each id of `vars`, allocated in list order. -/
def freshFor (p : Pool) : List Nat → List (Nat × Idx) × Pool
  | [] => ([], p)
  | v :: vs =>
    let (t, p) := p.fresh
    let (m, p) := p.freshFor vs
    ((v, t) :: m, p)

/-- A fresh instance of `σ`: its quantified variables replaced by fresh ones. -/
def instantiate (p : Pool) (σ : Scheme) : Idx × Pool :=
  if σ.isMono then (σ.body, p)
  else
    let (m, p) := p.freshFor σ.bounded
    p.substitute m σ.body

/-- `forall $t0 $t1. body`, or just the body when nothing is quantified. -/
def renderScheme (p : Pool) (σ : Scheme) : String :=
  if σ.isMono then p.render σ.body
  else
    "forall" ++ String.join (σ.bounded.map (fun v => " " ++ varName v)) ++ ". "
      ++ p.render σ.body

end Pool

end TagML
