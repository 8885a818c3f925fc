import TagML.Env

/-!
Laws of persistent environments.

Every environment there is comes from the empty one by binding in front and by joining two
environments (`Env.Built`); binding a list of pairs is binding them in front one at a time.  The
count an environment carries is then the number of its bindings (`Built.size_eq`), although no
operation counts them: binding in front adds one to the count it starts from, and joining adds
to the back's count the bindings it walks in the front.

The main statement, `Env.persistent_laws`, collects what the checker relies on whenever it puts
pattern bindings in front of a scope or a context's tables in front of a definition's: joining
puts the front's bindings before the back's and adds the counts; a lookup finds the first
binding of the name, so in a joined environment the front shadows the back; binding in front
and binding a list put the new pairs before the old ones, the list reversed.  Environments are
values, so an operation leaves the ones it starts from as they were; what it builds holds their
bindings unchanged, as its tail.
-/
namespace TagML

namespace Env

variable {α : Type}

/-- The environments the operations build: the empty one, and those made from built ones by
binding in front or joining.  The fields are set by these operations only, so these are all the
environments the checker has. -/
inductive Built : Env α → Prop
  | empty : Built empty
  | prepend {e : Env α} (name : String) (value : α) : Built e → Built (e.prepend name value)
  | append {front back : Env α} : Built front → Built back → Built (front.append back)

/-- Binding pairs in front one at a time keeps an environment built. -/
theorem Built.foldl_prepend {e : Env α} (he : e.Built) (pairs : List (String × α)) :
    (pairs.foldl (fun e p => e.prepend p.1 p.2) e).Built := by
  induction pairs generalizing e with
  | nil => exact he
  | cons p ps ih => exact ih (he.prepend p.1 p.2)

theorem Built.ofList (pairs : List (String × α)) : (ofList pairs).Built :=
  Built.empty.foldl_prepend pairs

/-- The count of a built environment is the number of its bindings, shadowed ones included. -/
theorem Built.size_eq {e : Env α} (he : e.Built) : e.size = e.bindings.length := by
  induction he with
  | empty => rfl
  | prepend name value _ ih =>
    rw [size, len_prepend, bindings_prepend, List.length_cons, ← size, ih]
  | append _ _ ihf ihb =>
    -- joining counts the front by walking it, and takes the back's count as it is
    rw [size, len_append, bindings_append, List.length_append, ← size, ihb, Nat.add_comm]

/-- Joining adds the counts: the back's as it is, the front's as the number of its
bindings. -/
theorem size_append {front : Env α} (hf : front.Built) (back : Env α) :
    (front.append back).size = front.size + back.size := by
  rw [size, len_append, ← size, hf.size_eq, Nat.add_comm]

/-- A lookup finds the first binding of the name: the value it gives is bound to the name
with no binding of the name before it. -/
theorem lookup_eq_some_iff {e : Env α} {name : String} {value : α} :
    e.lookup name = some value ↔
      ∃ pre post, e.bindings = pre ++ (name, value) :: post ∧ ∀ p ∈ pre, p.1 ≠ name := by
  simp only [lookup, Option.map_eq_some_iff, List.find?_eq_some_iff_append, beq_iff_eq,
    Bool.not_eq_true', beq_eq_false_iff_ne]
  constructor
  · rintro ⟨⟨n, v⟩, ⟨hn, pre, post, hsplit, hpre⟩, hv⟩
    simp only at hn hv
    subst hn hv
    exact ⟨pre, post, hsplit, hpre⟩
  · rintro ⟨pre, post, hsplit, hpre⟩
    exact ⟨(name, value), ⟨rfl, pre, post, hsplit, hpre⟩, rfl⟩

/-- The laws of persistent environments, for built environments `front` and `e` and any `back`:
joining walks the front's bindings and then the back's, and adds the counts; a lookup gives the
value of the first binding of the name, so in a joined environment the front's binding shadows
the back's; binding in front puts the new pair before every old binding; binding a list of pairs
puts them in reverse; and the count is the number of bindings. -/
theorem persistent_laws {front e : Env α} (hf : front.Built) (he : e.Built) (back : Env α)
    (name : String) :
    (front.append back).bindings = front.bindings ++ back.bindings ∧
    (front.append back).size = front.size + back.size ∧
    (∀ value, e.lookup name = some value ↔
      ∃ pre post, e.bindings = pre ++ (name, value) :: post ∧ ∀ p ∈ pre, p.1 ≠ name) ∧
    (front.append back).lookup name = (front.lookup name).or (back.lookup name) ∧
    (∀ other value, (e.prepend other value).bindings = (other, value) :: e.bindings) ∧
    (∀ pairs : List (String × α), (ofList pairs).bindings = pairs.reverse) ∧
    e.size = e.bindings.length :=
  ⟨bindings_append front back, size_append hf back, fun _ => lookup_eq_some_iff,
    lookup_append front back name, bindings_prepend e, bindings_ofList, he.size_eq⟩

/-- The laws at a front binding `x` to `1` put before a back binding `x` to `2`. -/
theorem persistent_laws_shadowing :
    ((empty : Env Int).prepend "x" 1).Built ∧
    (((empty : Env Int).prepend "x" 1).append ((empty : Env Int).prepend "x" 2)).bindings =
      ((empty : Env Int).prepend "x" 1).bindings ++ ((empty : Env Int).prepend "x" 2).bindings ∧
    (((empty : Env Int).prepend "x" 1).append ((empty : Env Int).prepend "x" 2)).size =
      ((empty : Env Int).prepend "x" 1).size + ((empty : Env Int).prepend "x" 2).size ∧
    (∀ value, ((empty : Env Int).prepend "x" 1).lookup "x" = some value ↔
      ∃ pre post, ((empty : Env Int).prepend "x" 1).bindings = pre ++ ("x", value) :: post ∧
        ∀ p ∈ pre, p.1 ≠ "x") ∧
    (((empty : Env Int).prepend "x" 1).append ((empty : Env Int).prepend "x" 2)).lookup "x" =
      (((empty : Env Int).prepend "x" 1).lookup "x").or
        (((empty : Env Int).prepend "x" 2).lookup "x") ∧
    (∀ other value, (((empty : Env Int).prepend "x" 1).prepend other value).bindings =
      (other, value) :: ((empty : Env Int).prepend "x" 1).bindings) ∧
    (∀ pairs : List (String × Int), (ofList pairs).bindings = pairs.reverse) ∧
    ((empty : Env Int).prepend "x" 1).size = ((empty : Env Int).prepend "x" 1).bindings.length :=
  have hf : ((empty : Env Int).prepend "x" 1).Built := Built.empty.prepend "x" 1
  ⟨hf, persistent_laws hf hf _ "x"⟩

end Env

end TagML
