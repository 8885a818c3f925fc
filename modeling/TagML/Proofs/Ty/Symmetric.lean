import Mathlib.Data.List.Zip
import TagML.Proofs.Pool.Representation

/-!
Unification does not depend on the order of its two sides.

Which side is the expected one only decides how a mismatch is reported.  The equality tests and
resolution treat both sides alike, a variable on either side is bound to the other side after
the same occurs check, and two distinct unbound variables are ordered by id, the younger linked
to the older whichever side it stands on.  The tie-break is never a tie: a pool holds each
variable in one item, so two distinct resolved handles never hold the same variable.  Functions
and user types unify their parts left to right on both sides.  So exchanging the sides leaves
the same pool, with the same links also when a failure stops the walk midway, and the same
error with a mismatch's two types exchanged (`Pool.unify_symm`).

Unification only writes links, so the items, and with them the fact that no two handles hold
one variable, are the same at every level of the walk.
-/
namespace TagML

/-- The error unification reports with its two sides exchanged: a mismatch swaps its expected
and found types, and an infinite type stays as it is. -/
def UnifyError.swap : UnifyError → UnifyError
  | mismatch e f => mismatch f e
  | infinite v t => infinite v t

namespace Pool

variable {p : Pool}

@[simp] theorem item_bind (v : Nat) (t : Idx) : (p.bind v t).1.item = p.item := by
  rw [bind_eq]
  split <;> simp

/-- Binding reports only an infinite type, which exchanging the sides leaves as it is. -/
theorem swap_bind (v : Nat) (t : Idx) :
    (p.bind v t).2.map UnifyError.swap = (p.bind v t).2 := by
  rw [bind_eq]
  split <;> rfl

/-- A fold of calls that keep the items keeps them. -/
theorem item_unifyPairs {f : Pool → Idx → Idx → Pool × Option UnifyError}
    (hf : ∀ p x y, (f p x y).1.item = p.item) :
    ∀ (pairs : List (Idx × Idx)) (acc : Pool × Option UnifyError),
      (unifyPairs f acc pairs).1.item = acc.1.item
  | [], _ => rfl
  | pair :: pairs, (q, none) => by
    rw [unifyPairs_cons, item_unifyPairs hf pairs, hf]
  | _ :: pairs, (q, some e) => by rw [unifyPairs_error]

/-- Unification writes links and nothing else, whatever its budget. -/
theorem item_unifyWithin (n : Nat) (p : Pool) (a b : Idx) : (p.unifyWithin n a b).1.item = p.item := by
  induction n generalizing p a b with
  | zero => rfl
  | succ n ih =>
    rw [unifyWithin_succ]
    split
    · rfl
    split
    · rfl
    split
    · split <;> exact item_bind _ _
    · exact item_bind _ _
    · exact item_bind _ _
    · next x r y q _ _ =>
      -- the result's pool is that of the first part's call, or of the second after it
      cases h₁ : p.unifyWithin n x y with
      | mk p₁ r₁ =>
        cases r₁ with
        | none => rw [ih p₁ r q, ← ih p x y, h₁]
        | some e => rw [← ih p x y, h₁]
    · split
      · exact item_unifyPairs (fun q x y => ih q x y) _ _
      · rfl
    · rfl

theorem VarsDistinct.unifyWithin (hp : p.VarsDistinct) (n : Nat) (a b : Idx) :
    (p.unifyWithin n a b).1.VarsDistinct := by
  unfold VarsDistinct
  rw [item_unifyWithin]
  exact hp

/-- A fold of calls that do not depend on the order of their sides does not depend on the
order within each pair. -/
theorem unifyPairs_swap {f : Pool → Idx → Idx → Pool × Option UnifyError}
    (hd : ∀ p x y, p.VarsDistinct → (f p x y).1.VarsDistinct)
    (hf : ∀ p x y, p.VarsDistinct → f p y x = ((f p x y).1, (f p x y).2.map UnifyError.swap)) :
    ∀ (pairs : List (Idx × Idx)) (p : Pool), p.VarsDistinct →
      unifyPairs f (p, none) (pairs.map Prod.swap) =
        ((unifyPairs f (p, none) pairs).1, (unifyPairs f (p, none) pairs).2.map UnifyError.swap)
  | [], _, _ => rfl
  | (x, y) :: pairs, p, hp => by
    rw [List.map_cons, unifyPairs_cons, unifyPairs_cons, Prod.swap_prod_mk, hf p x y hp]
    cases h₁ : f p x y with
    | mk p₁ r₁ =>
      have hp₁ : p₁.VarsDistinct := by
        have := hd p x y hp
        rwa [h₁] at this
      cases r₁ with
      | none => exact unifyPairs_swap hd hf pairs p₁ hp₁
      | some e =>
        rw [Option.map_some, unifyPairs_error, unifyPairs_error]
        rfl

/-- Exchanging the sides of a unification, at any budget, gives the same pool and the error with
its sides exchanged. -/
theorem unifyWithin_swap (n : Nat) (p : Pool) (hp : p.VarsDistinct) (a b : Idx) :
    p.unifyWithin n b a =
      ((p.unifyWithin n a b).1, (p.unifyWithin n a b).2.map UnifyError.swap) := by
  induction n generalizing p a b with
  | zero => rfl
  | succ n ih =>
    rw [unifyWithin_succ, unifyWithin_succ]
    by_cases hab : a = b
    · subst hab
      simp
    rw [if_neg (Ne.symm hab), if_neg hab]
    by_cases hr : p.resolve a = p.resolve b
    · rw [if_pos hr.symm, if_pos hr]
      rfl
    rw [if_neg (Ne.symm hr), if_neg hr]
    -- a variable held by both resolved handles would make them one handle
    have hne : ∀ v w, p.item (p.resolve a) = .var v → p.item (p.resolve b) = .var w → v ≠ w :=
      fun v w hv hw hvw => hr (hp _ _ v hv (hvw ▸ hw))
    cases hA : p.item (p.resolve a) with
    | var va =>
      cases hB : p.item (p.resolve b) with
      | var vb =>
        rcases Nat.lt_or_gt_of_ne (hne va vb hA hB) with hlt | hlt
        · simp only [if_neg (Nat.lt_asymm hlt), if_pos hlt, swap_bind]
        · simp only [if_pos hlt, if_neg (Nat.lt_asymm hlt), swap_bind]
      | prim _ | fn _ _ | user _ _ => simp only [swap_bind]
    | prim qa =>
      cases hB : p.item (p.resolve b) <;> simp only [swap_bind] <;> rfl
    | fn x r =>
      cases hB : p.item (p.resolve b) with
      | var vb => simp only [swap_bind]
      | fn y q =>
        simp only
        rw [ih p hp x y]
        cases h₁ : p.unifyWithin n x y with
        | mk p₁ r₁ =>
          cases r₁ with
          | none => exact ih p₁ (by simpa [h₁] using hp.unifyWithin n x y) r q
          | some e => rfl
      | prim _ | user _ _ => rfl
    | user m xs =>
      cases hB : p.item (p.resolve b) with
      | var vb => simp only [swap_bind]
      | user m' ys =>
        simp only
        by_cases hm : m = m' ∧ xs.length = ys.length
        · rw [if_pos ⟨hm.1.symm, hm.2.symm⟩, if_pos hm, ← List.zip_swap]
          exact unifyPairs_swap (fun q x y hq => hq.unifyWithin n x y)
            (fun q x y hq => ih q hq x y) _ p hp
        · rw [if_neg (fun h => hm ⟨h.1.symm, h.2.symm⟩), if_neg hm]
          rfl
      | prim _ | fn _ _ => rfl

/-- Unification is symmetric from every reachable pool: unifying `b` with `a` leaves the same
pool as unifying `a` with `b`, links made before a failure included, and the two succeed or fail
together, with the same error up to exchanging a mismatch's expected and found types. -/
theorem unify_symm {p : Pool} (hp : p.Reachable) (a b : Idx) :
    p.unify b a = ((p.unify a b).1, (p.unify a b).2.map UnifyError.swap) :=
  unifyWithin_swap _ p hp.wf.varsDistinct a b

/-- Symmetry at the pool of `reachable_fn_pair`, unifying `a -> b` (handle 8, with `b` linked
to `Int`) with `Bool -> c` (handle 10) and with `Int`: the first links `a` to `Bool` and `c` to
`Int` in either order; the second fails in either order, with the mismatch's sides exchanged. -/
theorem unify_symm_fn_pair :
    ∃ q : Pool, q = (((({} : Pool).fresh.2.fresh.2.fn ⟨6⟩ ⟨7⟩).2.unify ⟨7⟩
        Prim.int.idx).1.fresh.2.fn Prim.bool.idx ⟨9⟩).2 ∧ q.Reachable ∧
      (q.unify ⟨8⟩ ⟨10⟩).2 = none ∧ (q.unify ⟨8⟩ ⟨10⟩).1.target? 0 = some Prim.bool.idx ∧
      (q.unify ⟨8⟩ ⟨10⟩).1.target? 2 = some Prim.int.idx ∧
      q.unify ⟨10⟩ ⟨8⟩ = ((q.unify ⟨8⟩ ⟨10⟩).1, none) ∧
      (q.unify ⟨8⟩ Prim.int.idx).2 = some (.mismatch ⟨8⟩ Prim.int.idx) ∧
      q.unify Prim.int.idx ⟨8⟩ =
        ((q.unify ⟨8⟩ Prim.int.idx).1, some (.mismatch Prim.int.idx ⟨8⟩)) := by
  obtain ⟨q, hq⟩ : ∃ q, q = (((({} : Pool).fresh.2.fresh.2.fn ⟨6⟩ ⟨7⟩).2.unify ⟨7⟩
      Prim.int.idx).1.fresh.2.fn Prim.bool.idx ⟨9⟩).2 := ⟨_, rfl⟩
  have hr : q.Reachable := hq ▸ reachable_fn_pair
  -- the pool itself, both function types interned at its end
  have hval := hq
  rw [fn_second_compound, fn_first_compound] at hval
  have hok : (q.unify ⟨8⟩ ⟨10⟩).2 = none := by rw [hval]; rfl
  have hbad : (q.unify ⟨8⟩ Prim.int.idx).2 = some (.mismatch ⟨8⟩ Prim.int.idx) := by
    rw [hval]; rfl
  refine ⟨q, hq, hr, hok, by rw [hval]; decide,
    by rw [hval]; decide, ?_, hbad, ?_⟩
  · rw [unify_symm hr ⟨8⟩ ⟨10⟩, hok]
    rfl
  · rw [unify_symm hr ⟨8⟩ Prim.int.idx, hbad]
    rfl

end Pool

end TagML
