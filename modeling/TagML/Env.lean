/-!
Persistent environments: names bound to values, innermost binding first.

An environment is never changed in place.  Adding a binding in front, or putting one
environment in front of another, makes a new environment and leaves the old ones as they
were, so a failed step can always go on from the environment it started in.  A later binding
of a name shadows an earlier one without removing it: the size counts shadowed bindings, and
so does every walk over the bindings.

The size is not counted from the bindings: each environment carries it beside them, and every
operation that builds an environment sets it from the sizes it starts from.
-/
namespace TagML

/-- Bindings of names to values, innermost first, with a count of them kept beside. -/
@[ext]
structure Env (α : Type) where
  bindings : List (String × α) := []
  /-- The number of bindings, set by the operation that made the environment. -/
  len : Nat := 0

namespace Env

variable {α : Type}

/-- The environment with no bindings. -/
def empty : Env α := {}

/-- Bind `name` to `value` in front of every binding of `e`. -/
def prepend (e : Env α) (name : String) (value : α) : Env α :=
  { bindings := (name, value) :: e.bindings, len := e.len + 1 }

/-- The bindings of `front`, then those of `back`: a name bound in `front` is found there.
The bindings of `front` are collected, and bound again in front of `back` from the outermost
in, so that `back` is shared and only `front` is copied. -/
def append (front back : Env α) : Env α :=
  front.bindings.reverse.foldl (fun e p => e.prepend p.1 p.2) back

/-- The environment made by binding the pairs in order, so the last pair is innermost. -/
def ofList (pairs : List (String × α)) : Env α :=
  pairs.foldl (fun e p => e.prepend p.1 p.2) empty

/-- The value of the innermost binding of `name`. -/
def lookup (e : Env α) (name : String) : Option α :=
  (e.bindings.find? (fun p => p.1 == name)).map (·.2)

/-- Whether `name` is bound. -/
def contains (e : Env α) (name : String) : Bool :=
  (e.lookup name).isSome

/-- The number of bindings, shadowed ones included, as the environment records it. -/
def size (e : Env α) : Nat := e.len

/-- Whether there are no bindings at all. -/
def isEmpty (e : Env α) : Bool := e.bindings.isEmpty

@[simp] theorem bindings_prepend (e : Env α) (name : String) (value : α) :
    (e.prepend name value).bindings = (name, value) :: e.bindings := rfl

@[simp] theorem len_prepend (e : Env α) (name : String) (value : α) :
    (e.prepend name value).len = e.len + 1 := rfl

@[simp] theorem bindings_empty : (empty : Env α).bindings = [] := rfl

@[simp] theorem len_empty : (empty : Env α).len = 0 := rfl

/-- Binding pairs one at a time puts them in front in reverse, and counts each once. -/
theorem foldl_prepend (pairs : List (String × α)) (e : Env α) :
    pairs.foldl (fun e p => e.prepend p.1 p.2) e =
      { bindings := pairs.reverse ++ e.bindings, len := e.len + pairs.length } := by
  induction pairs generalizing e with
  | nil => rfl
  | cons p ps ih =>
    rw [List.foldl_cons, ih]
    ext <;> simp [Nat.add_assoc, Nat.add_comm 1]

@[simp] theorem bindings_append (front back : Env α) :
    (front.append back).bindings = front.bindings ++ back.bindings := by
  rw [append, foldl_prepend, List.reverse_reverse]

/-- The count of a joined environment adds the bindings walked in `front` to the count of
`back`. -/
@[simp] theorem len_append (front back : Env α) :
    (front.append back).len = back.len + front.bindings.length := by
  rw [append, foldl_prepend, List.length_reverse]

@[simp] theorem bindings_ofList (pairs : List (String × α)) :
    (ofList pairs).bindings = pairs.reverse := by
  simp [ofList, foldl_prepend]

@[simp] theorem len_ofList (pairs : List (String × α)) :
    (ofList pairs).len = pairs.length := by
  simp [ofList, foldl_prepend]

/-- The innermost binding of a name just bound is the new one. -/
theorem lookup_prepend_self (e : Env α) (name : String) (value : α) :
    (e.prepend name value).lookup name = some value := by
  simp [lookup]

/-- Binding another name leaves a lookup as it was. -/
theorem lookup_prepend_of_ne (e : Env α) {name other : String} (value : α) (h : other ≠ name) :
    (e.prepend name value).lookup other = e.lookup other := by
  simp [lookup, Ne.symm h]

/-- A name bound in front is found there; otherwise it is looked up behind. -/
theorem lookup_append (front back : Env α) (name : String) :
    (front.append back).lookup name = (front.lookup name).or (back.lookup name) := by
  simp only [lookup, bindings_append, List.find?_append]
  cases front.bindings.find? (fun p => p.1 == name) <;> rfl

end Env

end TagML
