import TagML.Env
import TagML.SymbolTable

/-!
A workbench for persistent environments of integers: named slots holding environments, and
steps that build new environments from old ones and query them.

Every step makes new environments and leaves the old ones usable.  Names met by the steps are
numbered in order of first appearance, the empty name being `0`, and a listing written for
debugging shows each binding as `(Name(n), value)`.  A step that fails keeps the numbers it had
handed out before failing.
-/
namespace TagML

/-- An argument of a step as written: its value, or the complaint about how it was written. -/
abbrev Arg (α : Type) := Except String α

/-- One step over environment slots.  Each argument may be malformed; a step reads its
arguments in a fixed order (source slots first, then keys and values, the destination last)
and stops at the first that cannot be used. -/
inductive EnvStep where
  | new (dst : Arg String)
  | prepend (dst src key : Arg String) (value : Arg Int)
  /-- Bind `k{i mod 97}` to `i` for `i = 0, …, n - 1`, in that order, for a count `n` from `0`
  to `manyLimit`. -/
  | prependMany (dst src : Arg String) (n : Arg Int)
  | append (dst front back : Arg String)
  | ofList (dst : Arg String) (pairs : Arg (List (Arg (String × Int))))
  | lookup (slot key : Arg String)
  | contains (slot key : Arg String)
  | info (slot : Arg String)
  | list (slot : Arg String)
  | debug (slot : Arg String)
  | drop (slot : Arg String)

/-- What a step answers. -/
inductive EnvAnswer where
  | ok
  | size (n : Nat)
  | value (v : Option Int)
  | contains (b : Bool)
  | info (size : Nat) (isEmpty : Bool)
  | entries (bindings : List (String × Int))
  | debug (text : String)
  | dropped (b : Bool)

/-- The slots and the numbering of the names met so far. -/
structure EnvBench where
  slots : List (String × Env Int) := []
  names : SymbolTable := {}

/-- Steps over a bench; a failed step keeps what it did before failing, such as the names it
had already numbered. -/
abbrev EnvM := EStateM String EnvBench

namespace EnvBench

/-- The environment in a slot. -/
def get? (b : EnvBench) (slot : String) : Option (Env Int) := b.slots.lookup slot

/-- Put an environment in a slot, replacing what it held. -/
def put (b : EnvBench) (slot : String) (e : Env Int) : EnvBench :=
  { b with slots := (slot, e) :: b.slots.filter (·.1 != slot) }

/-- Number the names in order of first appearance. -/
def meet (b : EnvBench) (names : List String) : EnvBench :=
  { b with names := (b.names.internAll names).2 }

/-- The largest count `prependMany` accepts. -/
def manyLimit : Nat := 200000

/-- The key of the `i`-th binding made by `prependMany`. -/
def manyKey (i : Nat) : String := "k" ++ toString (i % 97)

/-- A listing of an environment's bindings, innermost first, each name by its number. -/
def debugText (b : EnvBench) (e : Env Int) : String :=
  let item (p : String × Int) : String :=
    "(Name(" ++ toString ((b.names.get? p.1).getD 0) ++ "), " ++ toString p.2 ++ ")"
  "[" ++ ", ".intercalate (e.bindings.map item) ++ "]"

/-- The value of an argument, or its complaint. -/
def arg {α : Type} (a : Arg α) : EnvM α :=
  match a with
  | .ok v => pure v
  | .error why => throw why

/-- The environment in the slot an argument names. -/
def source (a : Arg String) : EnvM (Env Int) := do
  let s ← arg a
  match (← get).get? s with
  | some e => pure e
  | none => throw ("no env `" ++ s ++ "`")

/-- A key argument, numbered as it is met. -/
def key (a : Arg String) : EnvM String := do
  let k ← arg a
  modify (·.meet [k])
  pure k

/-- Put a new environment in the slot an argument names, answering its size. -/
def store (dst : Arg String) (e : Env Int) : EnvM EnvAnswer := do
  let d ← arg dst
  modify (·.put d e)
  pure (.size e.size)

/-- Run one step. -/
def step : EnvStep → EnvM EnvAnswer
  | .new dst => do
    let d ← arg dst
    modify (·.put d {})
    pure .ok
  | .prepend dst src k v => do
    let e ← source src
    let k ← key k
    let v ← arg v
    store dst (e.prepend k v)
  | .prependMany dst src n => do
    let e ← source src
    let n ← arg n
    if n < 0 || n > manyLimit then throw "count out of range"
    let n := n.toNat
    modify (·.meet ((List.range n).map manyKey))
    store dst ((List.range n).foldl (fun e i => e.prepend (manyKey i) (i : Int)) e)
  | .append dst front back => do
    let f ← source front
    let k ← source back
    store dst (f.append k)
  | .ofList dst pairs => do
    let ps ← arg pairs
    let ps ← ps.mapM fun p => do
      let (k, v) ← arg p
      modify (·.meet [k])
      pure (k, v)
    store dst (Env.ofList ps)
  | .lookup s k => do
    let e ← source s
    let k ← key k
    pure (.value (e.lookup k))
  | .contains s k => do
    let e ← source s
    let k ← key k
    pure (.contains (e.contains k))
  | .info s => do
    let e ← source s
    pure (.info e.size e.isEmpty)
  | .list s => do
    let e ← source s
    pure (.entries e.bindings)
  | .debug s => do
    let e ← source s
    pure (.debug ((← get).debugText e))
  | .drop s => do
    let s ← arg s
    let b ← get
    set { b with slots := b.slots.filter (·.1 != s) }
    pure (.dropped (b.get? s).isSome)

end EnvBench

end TagML
