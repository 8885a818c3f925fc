import TagML.Ty.Pool

/-!
Unification: making two types equal by linking variables.

Equal handles are equal types and unify at once; otherwise both sides are resolved through
links, and equal resolved handles unify too.  Two distinct unbound variables are joined by
linking the younger (higher id) to the older; a variable against anything else is linked to
it after the occurs check; functions unify argument then result, and user types of the same
name and argument count unify their arguments left to right.  Everything else is a mismatch
that reports the two resolved types where unification failed, the first argument of the
call being the expected side.  Links made before a failure stay in the pool, so every
operation here returns the pool together with the outcome.

The walk carries a budget of levels equal to the number of items.  Along one path of the
recursion each side moves from a resolved item to one of its parts; links are only added, so
that path is a path of the final, acyclic pool and meets each item once.
-/
namespace TagML

/-- Why two types could not be made equal. -/
inductive UnifyError where
  /-- Incompatible shapes, primitives, user type names or argument counts, as resolved at the
  point of failure. -/
  | mismatch (expected found : Idx)
  /-- Linking `v` to `containing` would make an infinite type. -/
  | infinite (v : Nat) (containing : Idx)

namespace UnifyError

/-- The short description of a unification failure. -/
def text : UnifyError → String
  | mismatch _ _ => "type mismatch"
  | infinite v _ => "infinite type: variable " ++ varName v ++ " occurs in its own definition"

end UnifyError

namespace Pool

/-- Link the unbound variable `v` to `t`, unless `v` occurs in `t`. -/
def bind (p : Pool) (v : Nat) (t : Idx) : Pool × Option UnifyError :=
  if p.occurs v t then (p, some (.infinite v t)) else (p.link v t, none)

/-- Unify `a` (expected) with `b` (found) within a budget of levels. -/
def unifyWithin : Nat → Pool → Idx → Idx → Pool × Option UnifyError
  | 0, p, _, _ => (p, none)
  | n + 1, p, a, b =>
    if a = b then (p, none)
    else
      let a := p.resolve a
      let b := p.resolve b
      if a = b then (p, none)
      else match p.item a, p.item b with
        | .var va, .var vb => if va < vb then p.bind vb a else p.bind va b
        | .var va, _ => p.bind va b
        | _, .var vb => p.bind vb a
        | .fn x r, .fn y q =>
          match unifyWithin n p x y with
          | (p, none) => unifyWithin n p r q
          | failed => failed
        | .user m xs, .user m' ys =>
          if m = m' ∧ xs.length = ys.length then
            (xs.zip ys).foldl (fun acc pair =>
              match acc with
              | (p, none) => unifyWithin n p pair.1 pair.2
              | failed => failed) (p, none)
          else (p, some (.mismatch a b))
        | _, _ => (p, some (.mismatch a b))

/-- Unify `expected` with `found`.  The pool is returned also on failure, holding the links
made before it. -/
def unify (p : Pool) (expected found : Idx) : Pool × Option UnifyError :=
  unifyWithin (p.size + 1) p expected found

end Pool

end TagML
