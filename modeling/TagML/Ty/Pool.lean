import TagML.Ty.Basic
import Std.Data.HashMap

/-!
The type pool: every type built so far, and the state of every type variable.

The six primitives hold the first six positions.  A fresh variable is a new item carrying the
next variable id.  Function and user types are hash-consed: building a structure that already
exists returns the existing handle, so two compound handles are equal exactly when they name
the same structure, and a type whose parts repeat costs one item per distinct part.  Each item
carries a flag saying whether a variable item is among its parts, transitively, links not
followed; a walk looking for variables skips an item without it.

A variable is unbound or linked to a type.  Links are written once and never shortened, and
unification's occurs check keeps them acyclic: no variable is reachable from its own link
target through links and parts.  Every walk below carries a budget of steps equal to the
number of items.  A path through links and parts in an acyclic pool visits each item at most
once, so the budget is never used up; the walks are total all the same, with no invariant
needed to define them.
-/
namespace TagML

/-- The items built so far with their variable flags, the link of each variable by id, the
item of each variable by id, and the handle of each compound structure. -/
structure Pool where
  items : Array Item := (Prim.all.map Item.prim).toArray
  flags : Array Bool := (Prim.all.map fun _ => false).toArray
  links : Array (Option Idx) := #[]
  varItems : Array Idx := #[]
  interned : Std.HashMap Item Idx := {}

namespace Pool

/-- The number of items: six primitives, one per variable, and one per distinct compound
structure ever built. -/
def size (p : Pool) : Nat := p.items.size

/-- The number of variables allocated so far; ids are dense from `0`. -/
def varCount (p : Pool) : Nat := p.links.size

/-- The item a handle names.  A handle the pool never issued reads as `Int`. -/
def item (p : Pool) (i : Idx) : Item := p.items[i.raw]?.getD (.prim .int)

/-- Whether a variable item is among the parts of `i`, transitively, links not followed. -/
def hasVars (p : Pool) (i : Idx) : Bool := p.flags[i.raw]?.getD false

/-- The shape of the item a handle names. -/
def kind (p : Pool) (i : Idx) : Kind := (p.item i).kind

/-- The item of variable `v`, if it has been allocated. -/
def varItem? (p : Pool) (v : Nat) : Option Idx := p.varItems[v]?

/-- Add an item with its flag.  The pool is taken apart first, so that its arrays are
extended in place. -/
def push (p : Pool) (it : Item) (flag : Bool) : Idx × Pool :=
  match p with
  | ⟨items, flags, links, varItems, interned⟩ =>
    (⟨items.size⟩, ⟨items.push it, flags.push flag, links, varItems, interned⟩)

/-- A fresh unbound variable, with the next id. -/
def fresh (p : Pool) : Idx × Pool :=
  match p.push (.var p.links.size) true with
  | (i, ⟨items, flags, links, varItems, interned⟩) =>
    (i, ⟨items, flags, links.push none, varItems.push i, interned⟩)

/-- `n` fresh variables in ascending id order. -/
def freshMany (p : Pool) : Nat → List Idx × Pool
  | 0 => ([], p)
  | n + 1 =>
    let (t, p) := p.fresh
    let (ts, p) := p.freshMany n
    (t :: ts, p)

/-- The handle of a compound structure, built if it is new. -/
def intern (p : Pool) (it : Item) : Idx × Pool :=
  match p.interned[it]? with
  | some i => (i, p)
  | none =>
    match p.push it (it.parts.any p.hasVars) with
    | (i, ⟨items, flags, links, varItems, interned⟩) =>
      (i, ⟨items, flags, links, varItems, interned.insert it i⟩)

/-- The function type from `a` to `r`. -/
def fn (p : Pool) (a r : Idx) : Idx × Pool := p.intern (.fn a r)

/-- The user type `name` applied to `args`. -/
def user (p : Pool) (name : String) (args : List Idx) : Idx × Pool :=
  p.intern (.user name args)

/-- `a₁ -> a₂ -> … -> ret`: functions nest to the right, and the innermost is built first. -/
def curried (p : Pool) (args : List Idx) (ret : Idx) : Idx × Pool :=
  args.foldr (fun a acc => acc.2.fn a acc.1) (ret, p)

/-- The type variable `v` is linked to, if it is linked. -/
def target? (p : Pool) (v : Nat) : Option Idx :=
  match p.links[v]? with
  | some (some t) => some t
  | _ => none

/-- Link variable `v` to `t`. -/
def link (p : Pool) (v : Nat) (t : Idx) : Pool :=
  match p with
  | ⟨items, flags, links, varItems, interned⟩ =>
    ⟨items, flags, links.setIfInBounds v (some t), varItems, interned⟩

/-- Follow links from `i`, within a budget of link steps. -/
def resolveWithin (p : Pool) : Nat → Idx → Idx
  | 0, i => i
  | n + 1, i =>
    match p.item i with
    | .var v =>
      match p.target? v with
      | some t => p.resolveWithin n t
      | none => i
    | _ => i

/-- The type reached by following links from `i`: a non-variable, or an unbound variable.
Shallow: parts are left as they are. -/
def resolve (p : Pool) (i : Idx) : Idx :=
  p.resolveWithin p.size i

/-- The unbound variable a type resolves to, if it resolves to one. -/
def unboundVar? (p : Pool) (i : Idx) : Option Nat :=
  match p.item (p.resolve i) with
  | .var v => some v
  | _ => none

/-- Whether variable `v` occurs in `i`, looking through links, within a budget of steps. -/
def occursWithin (p : Pool) (v : Nat) : Nat → Idx → Bool
  | 0, _ => false
  | n + 1, i =>
    if !p.hasVars i then false
    else match p.item i with
      | .var w =>
        w == v || match p.target? w with
          | some t => p.occursWithin v n t
          | none => false
      | .fn a r => p.occursWithin v n a || p.occursWithin v n r
      | .user _ args => args.any (fun a => p.occursWithin v n a)
      | .prim _ => false

/-- Whether variable `v` occurs in `i`, looking through links. -/
def occurs (p : Pool) (v : Nat) (i : Idx) : Bool :=
  p.occursWithin v p.size i

/-- Add the unbound variables reachable from `i` through links to the ascending list `acc`,
within a budget of steps. -/
def freeVarsWithin (p : Pool) : Nat → List Nat → Idx → List Nat
  | 0, acc, _ => acc
  | n + 1, acc, i =>
    if !p.hasVars i then acc
    else match p.item i with
      | .var w =>
        match p.target? w with
        | some t => p.freeVarsWithin n acc t
        | none => VarSet.insert w acc
      | .fn a r => p.freeVarsWithin n (p.freeVarsWithin n acc a) r
      | .user _ args => args.foldl (fun acc a => p.freeVarsWithin n acc a) acc
      | .prim _ => acc

/-- The unbound variables reachable from `i` through links, ascending. -/
def freeVars (p : Pool) (i : Idx) : List Nat :=
  p.freeVarsWithin p.size [] i

/-- Print `i` as source-like text within a budget of steps, seeing through links: a linked
variable prints as its target, an unbound one as `$tN`; a user type prints as `Name` or
`Name<A, B>`; and a function's argument is parenthesised exactly when it resolves to a
function, since arrows nest to the right. -/
def renderWithin (p : Pool) : Nat → Idx → String
  | 0, _ => ""
  | n + 1, i =>
    match p.item i with
    | .prim q => q.name
    | .var w =>
      match p.target? w with
      | some t => p.renderWithin n t
      | none => varName w
    | .fn a r =>
      let arg := p.renderWithin n a
      (if (p.item (p.resolve a)).isFn then "(" ++ arg ++ ")" else arg) ++ " -> "
        ++ p.renderWithin n r
    | .user name args =>
      if args.isEmpty then name
      else name ++ "<" ++ ", ".intercalate (args.map (fun a => p.renderWithin n a)) ++ ">"

/-- The text of a type, seeing through links. -/
def render (p : Pool) (i : Idx) : String :=
  p.renderWithin p.size i

end Pool

end TagML
