import TagML.Ty.Basic

/-!
The syntax of programs: written types, expressions, patterns and top-level forms.

Every expression node carries its id, and every pattern its own id in a separate numbering.
A program numbers its nodes in one pass over its forms, in order: each expression after all
of its children (post-order), counting from `0` across the whole program.  Type-checking
answers refer to nodes by these ids.
-/
namespace TagML

/-- A type as written in an annotation or a tag declaration. -/
inductive TypeExpr where
  | prim (p : Prim)
  /-- `_`: whatever type inference finds. -/
  | infer
  | fn (arg ret : TypeExpr)
  /-- A named type applied to arguments; with no arguments it may name a type parameter. -/
  | named (name : String) (args : List TypeExpr)

/-- A literal constant. -/
inductive Literal where
  | int (v : Int)
  | double (v : Float)
  | str (s : String)
  | char (c : Char)
  | unit
  | bool (b : Bool)

/-- The primitive type of a literal. -/
def Literal.prim : Literal → Prim
  | int _ => .int
  | double _ => .double
  | str _ => .string
  | char _ => .char
  | unit => .unit
  | bool _ => .bool

/-- A match pattern: a wildcard (`binder = none`) or a name bound to the scrutinee. -/
structure Pattern where
  id : Nat
  binder : Option String

/-- Expressions, each node carrying its id. -/
inductive Expr where
  | lit (id : Nat) (l : Literal)
  /-- Construction of a tagged value. -/
  | tag (id : Nat) (name : String) (args : List Expr)
  | var (id : Nat) (name : String)
  | lam (id : Nat) (param : String) (ann : TypeExpr) (body : Expr)
  | app (id : Nat) (fn arg : Expr)
  | ite (id : Nat) (cond thenBr elseBr : Expr)
  /-- `match scrut as pat then thenBr else elseBr`: the pattern's binding is visible in
  `thenBr` only. -/
  | matchAs (id : Nat) (scrut : Expr) (pat : Pattern) (thenBr elseBr : Expr)
  | letIn (id : Nat) (name : String) (value body : Expr)

namespace Expr

/-- The id of the root node. -/
def id : Expr → Nat
  | lit i _ | tag i _ _ | var i _ | lam i _ _ _ | app i _ _ | ite i _ _ _ | matchAs i _ _ _ _
  | letIn i _ _ _ => i

end Expr

/-- One tag of a type definition and its argument types. -/
structure TagDecl where
  name : String
  args : List TypeExpr := []

/-- One type of a definition: its name, parameters and tags. -/
structure TypeItem where
  name : String
  params : List String := []
  tags : List TagDecl := []

/-- A top-level form. -/
inductive Form where
  /-- A definition of one or more types, processed together. -/
  | typeDef (items : List TypeItem)
  /-- An expression checked for its type. -/
  | eval (e : Expr)
  /-- A top-level `let`, generalized and added to the context. -/
  | bind (name : String) (value : Expr)

/-- The next free expression id and pattern id. -/
structure Arena where
  nextExpr : Nat := 0
  nextPat : Nat := 0

namespace Arena

/-- Take the next expression id. -/
def takeExpr (a : Arena) : Nat × Arena := (a.nextExpr, { a with nextExpr := a.nextExpr + 1 })

/-- Take the next pattern id. -/
def takePat (a : Arena) : Nat × Arena := (a.nextPat, { a with nextPat := a.nextPat + 1 })

end Arena

mutual
/-- Give every node of `e` its id, children before their parent, in the order of the
children: tag arguments left to right; a lambda's body; function then argument; condition,
then branch, else branch; for a match the scrutinee and both branches, then the pattern (in
its own numbering), then the match itself; a let's value then body. -/
def Expr.number (a : Arena) : Expr → Expr × Arena
  | .lit _ l => let (i, a) := a.takeExpr; (.lit i l, a)
  | .tag _ n args =>
    let (args, a) := Expr.numberList a args
    let (i, a) := a.takeExpr
    (.tag i n args, a)
  | .var _ n => let (i, a) := a.takeExpr; (.var i n, a)
  | .lam _ x ann body =>
    let (body, a) := body.number a
    let (i, a) := a.takeExpr
    (.lam i x ann body, a)
  | .app _ f x =>
    let (f, a) := f.number a
    let (x, a) := x.number a
    let (i, a) := a.takeExpr
    (.app i f x, a)
  | .ite _ c t e =>
    let (c, a) := c.number a
    let (t, a) := t.number a
    let (e, a) := e.number a
    let (i, a) := a.takeExpr
    (.ite i c t e, a)
  | .matchAs _ s p t e =>
    let (s, a) := s.number a
    let (t, a) := t.number a
    let (e, a) := e.number a
    let (pid, a) := a.takePat
    let (i, a) := a.takeExpr
    (.matchAs i s { p with id := pid } t e, a)
  | .letIn _ x v b =>
    let (v, a) := v.number a
    let (b, a) := b.number a
    let (i, a) := a.takeExpr
    (.letIn i x v b, a)

/-- Number a list of expressions left to right. -/
def Expr.numberList (a : Arena) : List Expr → List Expr × Arena
  | [] => ([], a)
  | e :: es =>
    let (e, a) := e.number a
    let (es, a) := Expr.numberList a es
    (e :: es, a)
end

/-- Number the expressions of a form. -/
def Form.number (a : Arena) : Form → Form × Arena
  | .typeDef items => (.typeDef items, a)
  | .eval e => let (e, a) := e.number a; (.eval e, a)
  | .bind x v => let (v, a) := v.number a; (.bind x v, a)

/-- A program: forms numbered in order over one arena. -/
def Form.numberAll (a : Arena) : List Form → List Form
  | [] => []
  | f :: fs => let (f, a) := f.number a; f :: Form.numberAll a fs

end TagML
