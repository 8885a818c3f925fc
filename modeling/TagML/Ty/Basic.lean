/-!
Types of the checked language, as items of a pool.

A type is a primitive, a type variable named by a dense id, a function from one type to
another, or a named user type applied to arguments.  Types live in a pool (`TagML.Ty.Pool`)
and are named by handles.  An item names its parts by their handles, so a type's parts are
shared rather than copied, and a type whose parts are themselves large costs one item.  What a
variable has been solved to is kept by the pool beside the items, not in them.
-/
namespace TagML

/-- The six built-in types, in their fixed order. -/
inductive Prim where
  | int
  | double
  | string
  | char
  | unit
  | bool
  deriving DecidableEq, Hashable, Repr

namespace Prim

/-- The name a primitive is written and printed with. -/
def name : Prim → String
  | int => "Int"
  | double => "Double"
  | string => "String"
  | char => "Char"
  | unit => "Unit"
  | bool => "Bool"

/-- All primitives in their fixed order; a primitive's position is its handle. -/
def all : List Prim := [int, double, string, char, unit, bool]

/-- The primitive written with this name, if any. -/
def ofName? (s : String) : Option Prim :=
  all.find? (fun p => p.name == s)

end Prim

/-- A handle to a type in a pool: the position of its item.  The six primitives hold the
first six positions of every pool, in their fixed order. -/
structure Idx where
  raw : Nat
  deriving DecidableEq, Hashable, Repr

namespace Prim

/-- The position of a primitive in the fixed order. -/
def index : Prim → Nat
  | int => 0
  | double => 1
  | string => 2
  | char => 3
  | unit => 4
  | bool => 5

/-- The handle of a primitive in every pool. -/
def idx (p : Prim) : Idx := ⟨p.index⟩

end Prim

/-- What a pool item stands for: a primitive, the variable with a given id, a function from
one type to another, or a named user type applied to arguments.  Parts are handles, so a
compound item is one level of structure and shares its parts with every other item that
names them. -/
inductive Item where
  | prim (p : Prim)
  | var (v : Nat)
  | fn (arg ret : Idx)
  | user (name : String) (args : List Idx)
  deriving DecidableEq, Hashable

namespace Item

/-- The handles an item names as its parts, left to right. -/
def parts : Item → List Idx
  | fn a r => [a, r]
  | user _ args => args
  | _ => []

/-- Whether the item is a function type. -/
def isFn : Item → Bool
  | fn _ _ => true
  | _ => false

end Item

/-- The printed name of variable `v`. -/
def varName (v : Nat) : String :=
  "$t" ++ toString v

/-- The shape of a type's root. -/
inductive Kind where
  | prim (p : Prim)
  | fn
  | user
  | var
  deriving DecidableEq

namespace Kind

/-- The name of a shape: the primitive's own name, or `Fun`, `User`, `Var`. -/
def name : Kind → String
  | prim p => p.name
  | fn => "Fun"
  | user => "User"
  | var => "Var"

/-- Whether the shape is one of the six primitives. -/
def isPrim : Kind → Bool
  | prim _ => true
  | _ => false

/-- Every shape, the primitives first in their fixed order. -/
def all : List Kind := Prim.all.map prim ++ [fn, user, var]

end Kind

/-- The shape of an item. -/
def Item.kind : Item → Kind
  | prim p => .prim p
  | var _ => .var
  | fn _ _ => .fn
  | user _ _ => .user

/-!
Sets of variables are kept as strictly ascending lists: quantified variables are listed,
printed and instantiated in ascending order.
-/

namespace VarSet

/-- Insert `v` into an ascending list, keeping it ascending and free of repeats. -/
def insert (v : Nat) : List Nat → List Nat
  | [] => [v]
  | w :: ws => if v < w then v :: w :: ws else if v = w then w :: ws else w :: insert v ws

/-- The union of two ascending lists. -/
def union (xs ys : List Nat) : List Nat :=
  xs.foldl (fun acc v => insert v acc) ys

/-- The ascending list of the ids in a list. -/
def ofList (xs : List Nat) : List Nat :=
  union xs []

end VarSet

end TagML
