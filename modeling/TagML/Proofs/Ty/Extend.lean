import TagML.Proofs.Ty.Unify
import TagML.Proofs.Ty.Build

/-!
Pools that extend one another.

Every operation on a pool keeps what was there: items keep their places and flags, variables
their items, and links, once written, their targets.  `Extends` collects these; building types
(`Grows`) and unification (`AddsLinks`) both extend.  Along an extension the type a handle
stands for changes only by the new links: it is the old type with the new pool's solution
applied (`Extends.term_eq_subst`), so an equation between types, once it holds, holds in every
later pool.
-/
namespace TagML

namespace Pool

/-- `q` keeps everything of `p` and may add items, variables and links. -/
structure Extends (p q : Pool) : Prop where
  size_le : p.size ≤ q.size
  varCount_le : p.varCount ≤ q.varCount
  item_eq : ∀ i : Idx, i.raw < p.size → q.item i = p.item i
  hasVars_eq : ∀ i : Idx, i.raw < p.size → q.hasVars i = p.hasVars i
  varItem?_eq : ∀ v, v < p.varCount → q.varItem? v = p.varItem? v
  target?_of : ∀ v t, p.target? v = some t → q.target? v = some t

namespace Extends

variable {p q r : Pool}

protected theorem refl (p : Pool) : p.Extends p :=
  ⟨Nat.le_refl _, Nat.le_refl _, fun _ _ => rfl, fun _ _ => rfl, fun _ _ => rfl,
    fun _ _ h => h⟩

protected theorem trans (h₁ : p.Extends q) (h₂ : q.Extends r) : p.Extends r where
  size_le := Nat.le_trans h₁.size_le h₂.size_le
  varCount_le := Nat.le_trans h₁.varCount_le h₂.varCount_le
  item_eq i hi := (h₂.item_eq i (Nat.lt_of_lt_of_le hi h₁.size_le)).trans (h₁.item_eq i hi)
  hasVars_eq i hi :=
    (h₂.hasVars_eq i (Nat.lt_of_lt_of_le hi h₁.size_le)).trans (h₁.hasVars_eq i hi)
  varItem?_eq v hv :=
    (h₂.varItem?_eq v (Nat.lt_of_lt_of_le hv h₁.varCount_le)).trans (h₁.varItem?_eq v hv)
  target?_of v t ht := h₂.target?_of v t (h₁.target?_of v t ht)

theorem of_grows (h : p.Grows q) : p.Extends q where
  size_le := h.size_le
  varCount_le := h.varCount_le
  item_eq := h.item_eq
  hasVars_eq := h.hasVars_eq
  varItem?_eq := h.varItem?_eq
  target?_of v t ht := by
    have hv : v < p.varCount := by
      by_contra hle
      rw [target?_of_le p (Nat.le_of_not_lt hle)] at ht
      cases ht
    rw [h.target?_eq v hv]
    exact ht

theorem of_addsLinks (h : p.AddsLinks q) : p.Extends q where
  size_le := Nat.le_of_eq h.size_eq.symm
  varCount_le := by
    induction h with
    | refl => exact Nat.le_refl _
    | link t _ _ ih => rw [varCount_link]; exact ih
  item_eq i _ := by rw [h.item_eq]
  hasVars_eq i _ := by rw [h.hasVars_eq]
  varItem?_eq v _ := by rw [h.varItem?_eq]
  target?_of _ _ ht := h.target?_of ht

/-- Without their links, the two pools are one growing into the other. -/
theorem unlinked (h : p.Extends q) : p.unlinked.Grows q.unlinked where
  size_le := by rw [size_unlinked, size_unlinked]; exact h.size_le
  varCount_le := by rw [varCount_unlinked, varCount_unlinked]; exact h.varCount_le
  item_eq i hi := by
    rw [size_unlinked] at hi
    rw [item_unlinked, item_unlinked, h.item_eq i hi]
  hasVars_eq i hi := by
    rw [size_unlinked] at hi
    rw [hasVars_unlinked, hasVars_unlinked, h.hasVars_eq i hi]
  target?_eq v _ := by rw [target?_unlinked, target?_unlinked]
  varItem?_eq v hv := by
    rw [varCount_unlinked] at hv
    rw [varItem?_unlinked, varItem?_unlinked, h.varItem?_eq v hv]
  target?_new v _ := target?_unlinked v

theorem raw_eq (hp : p.WF) (hq : q.WF) (h : p.Extends q) {i : Idx} (hi : i.raw < p.size) :
    q.raw i = p.raw i :=
  h.unlinked.term_eq hp.unlinked hq.unlinked (by rw [size_unlinked]; exact hi)

/-- A substitution solving the links of `q` solves those of `p`. -/
theorem sat (hp : p.WF) (hq : q.WF) (h : p.Extends q) {σ : Nat → Term} (hs : q.Sat σ) :
    p.Sat σ := by
  intro v t ht
  rw [hs v t (h.target?_of v t ht), h.raw_eq hp hq (hp.target_lt v t ht)]

/-- What a handle stands for in `q` is what it stood for in `p`, with the solution of `q`
applied. -/
theorem term_eq_subst (hp : p.WF) (hq : q.WF) (h : p.Extends q) {i : Idx}
    (hi : i.raw < p.size) : q.term i = (p.term i).subst q.binding := by
  rw [subst_term_of_sat hp (h.sat hp hq (sat_binding hq)), ← h.raw_eq hp hq hi,
    raw_subst_binding hq]

/-- What a variable stands for in `q` is what it stood for in `p`, with the solution of `q`
applied. -/
theorem binding_eq_subst (hp : p.WF) (hq : q.WF) (h : p.Extends q) (v : Nat) :
    q.binding v = (p.binding v).subst q.binding := by
  cases hx : p.varItem? v with
  | none =>
    have hpv : p.binding v = .var v := by simp only [binding, hx]
    rw [hpv, Term.subst_var]
  | some x =>
    have hv : v < p.varCount := by
      rw [← hp.varItems_size]
      exact (Array.getElem?_eq_some_iff.1 hx).1
    have hx' : q.varItem? v = some x := (h.varItem?_eq v hv).trans hx
    simp only [binding, hx, hx']
    exact h.term_eq_subst hp hq (hp.varItem?_spec hx).1

/-- An equation between types of `p` still holds in `q`. -/
theorem term_congr (hp : p.WF) (hq : q.WF) (h : p.Extends q) {i j : Idx} (hi : i.raw < p.size)
    (hj : j.raw < p.size) (he : p.term i = p.term j) : q.term i = q.term j := by
  rw [h.term_eq_subst hp hq hi, h.term_eq_subst hp hq hj, he]

end Extends

variable {p : Pool}

/-- A successful unification makes the two sides stand for the same type. -/
theorem term_eq_of_unify (h : p.WF) {a b : Idx} (ha : a.raw < p.size) (hb : b.raw < p.size)
    (hok : (p.unify a b).2 = none) : (p.unify a b).1.term a = (p.unify a b).1.term b := by
  obtain ⟨hq, hl⟩ := unify_wf h ha hb
  have hs := unify_solves h ha hb
  generalize p.unify a b = res at hq hl hs hok ⊢
  obtain ⟨q, r⟩ := res
  cases hok
  -- the new pool's own solution solves the new links, so it equates the two sides
  have he := ((hs q.binding).1 (sat_binding hq)).2
  rwa [← hl.raw_eq, raw_subst_binding hq, raw_subst_binding hq] at he

end Pool

end TagML
