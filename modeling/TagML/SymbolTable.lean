import Std.Data.HashMap

/-!
Symbol tables: texts numbered densely in order of first interning.

A table keeps each interned text twice: in a map from the text to its number, and in a list
where the number is the position.  Interning looks the text up in the map; a new text is
pushed at the end of the list and put in the map under the position it got.  The empty text
is interned first, so it is `0`; each new text gets the next number and a repeated text gets
its first number back, so interning is a bijection between the texts seen and the numbers
`0, 1, …, size - 1`.
-/
namespace TagML

/-- The interned texts, each under its number in a map and at its number in a list.  The
fields start as `new` leaves them, with the empty text interned as `0`. -/
structure SymbolTable where
  /-- The number of each interned text. -/
  numbers : Std.HashMap String Nat := (∅ : Std.HashMap String Nat).insert "" 0
  /-- The interned texts; a text's number is its position. -/
  texts : Array String := #[""]

namespace SymbolTable

/-- The table with nothing interned, not even the empty text. -/
def blank : SymbolTable := ⟨∅, #[]⟩

/-- The number of a text already interned. -/
def get? (t : SymbolTable) (s : String) : Option Nat := t.numbers[s]?

/-- The number of a text, interning it if it is new. -/
def intern (t : SymbolTable) (s : String) : Nat × SymbolTable :=
  match t.get? s with
  | some n => (n, t)
  | none => (t.texts.size, { numbers := t.numbers.insert s t.texts.size, texts := t.texts.push s })

/-- The table every session starts from: the empty text interned, as `0`. -/
def new : SymbolTable := (blank.intern "").2

/-- The text with number `n`, or `<unknown>` for a number never handed out. -/
def lookup (t : SymbolTable) (n : Nat) : String := t.texts[n]?.getD "<unknown>"

/-- The number of texts interned, the empty text included. -/
def size (t : SymbolTable) : Nat := t.texts.size

/-- Intern texts in order, returning their numbers. -/
def internAll (t : SymbolTable) : List String → List Nat × SymbolTable
  | [] => ([], t)
  | s :: ss =>
    let (n, t) := t.intern s
    let (ns, t) := t.internAll ss
    (n :: ns, t)

@[simp] theorem internAll_cons (t : SymbolTable) (s : String) (ss : List String) :
    t.internAll (s :: ss) =
      ((t.intern s).1 :: ((t.intern s).2.internAll ss).1, ((t.intern s).2.internAll ss).2) := rfl

/-- The fields' defaults are the table `new` builds. -/
theorem new_eq_default : new = {} := by
  have hnone : blank.get? "" = none := Std.HashMap.getElem?_empty
  simp only [new, intern, hnone]
  rfl

end SymbolTable

end TagML
