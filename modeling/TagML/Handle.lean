import TagML.Ty.Basic

/-!
The written forms of handles: the numbers that name types in a pool, expression and pattern
nodes, interned names and type variables, as they appear in listings.
-/
namespace TagML

namespace Handle

/-- A type handle: the six primitives have fixed handles `0` to `5` and are written by name;
any other handle is written by its number. -/
def type (n : Nat) : String :=
  match Prim.all[n]? with
  | some p => "Idx::" ++ p.name
  | none => "Idx(" ++ toString n ++ ")"

/-- The primitive a type handle stands for, if it is one of the fixed six. -/
def primitive? (n : Nat) : Option Prim := Prim.all[n]?

/-- An expression node handle. -/
def expr (n : Nat) : String := "ExprId(" ++ toString n ++ ")"

/-- A pattern handle. -/
def pat (n : Nat) : String := "PatId(" ++ toString n ++ ")"

/-- An interned name handle. -/
def name (n : Nat) : String := "Name(" ++ toString n ++ ")"

/-- The written form of a shape. -/
def kind (k : Kind) : String := "Kind::" ++ k.name

end Handle

end TagML
