import TagML.Proofs.Reachable

/-!
Unification computes a most general unifier.

Read through what handles stand for, a successful unification of `a` with `b` leaves the two
sides deep-resolving to the very same handle, and the links it added are a most general
unifier of the types the two sides stood for: the pool's new solution equates them, and any
substitution of the previously unbound variables that equates them is that solution followed by
a further substitution.  A failed unification leaves the two types without any common
instance.  Deep resolution is canonical because the pool hash-conses compounds: two handles with
nothing linked below them that stand for the same type are one handle (`eq_of_term_eq`).
-/
namespace TagML

namespace Pool

variable {p : Pool}

/-- The substitution a pool's links solve for, followed by `σ`: on the unbound variables it is
`σ`, and it solves every link. -/
theorem sat_binding_subst (h : p.WF) (σ : Nat → Term) :
    p.Sat (fun v => (p.binding v).subst σ) :=
  (sat_binding h).comp σ

theorem raw_subst_binding_subst (h : p.WF) (σ : Nat → Term) (i : Idx) :
    (p.raw i).subst (fun v => (p.binding v).subst σ) = (p.term i).subst σ := by
  rw [← Term.subst_subst, raw_subst_binding h]

/-- Deep-resolving two handles that stand for the same type, one after the other, gives one
handle. -/
theorem resolveDeep_resolveDeep_eq (h : p.WF) {a b : Idx} (ha : a.raw < p.size)
    (hb : b.raw < p.size) (he : p.term a = p.term b) :
    ((p.resolveDeep a).2.resolveDeep b).1 = (p.resolveDeep a).1 := by
  obtain ⟨h₁, hg₁, hra, hres₁, hterm₁⟩ := resolveDeep_spec h ha
  obtain ⟨h₂, hg₂, hrb, hres₂, hterm₂⟩ :=
    resolveDeep_spec h₁ (Nat.lt_of_lt_of_le hb hg₁.size_le)
  -- both results live in the last pool, have nothing linked below them, and stand for one type
  refine eq_of_term_eq h₂ hrb (Nat.lt_of_lt_of_le hra hg₂.size_le) hres₂
    ((hg₂.resolved_iff h₁ hra).2 hres₁) ?_
  rw [hterm₂, hg₂.term_eq h₁ h₂ hra, hterm₁, hg₁.term_eq h h₁ hb, he]

/-- A unification whose two sides have a common instance under `σ` succeeds, and on the
variables that were unbound `σ` factors through the links it added. -/
theorem unify_complete (h : p.WF) {a b : Idx} (ha : a.raw < p.size) (hb : b.raw < p.size)
    {σ : Nat → Term} (hσ : (p.term a).subst σ = (p.term b).subst σ) :
    (p.unify a b).2 = none ∧ ∃ τ : Nat → Term, ∀ v, p.target? v = none →
      σ v = ((p.unify a b).1.binding v).subst τ := by
  obtain ⟨hq, -⟩ := unify_wf h ha hb
  have hs := unify_solves h ha hb
  -- `σ` after the old solution solves the old links and equates the two sides
  have hraw : (p.raw a).subst (fun v => (p.binding v).subst σ) =
      (p.raw b).subst (fun v => (p.binding v).subst σ) := by
    rw [raw_subst_binding_subst h, raw_subst_binding_subst h, hσ]
  generalize p.unify a b = res at hq hs ⊢
  obtain ⟨q, r⟩ := res
  cases r with
  | some e => exact (hs _ (sat_binding_subst h σ) hraw).elim
  | none =>
    refine ⟨rfl, fun v => (p.binding v).subst σ, fun v hv => ?_⟩
    -- so it solves the new links too, and fixes the new solution
    have hsat := (hs _).2 ⟨sat_binding_subst h σ, hraw⟩
    rw [binding_subst_of_sat hq hsat v, binding_of_unbound h hv, Term.subst_var]

/-- Unification from a reachable pool: on success the two sides deep-resolve to one handle,
the new links' solution equates the types they stood for, and every substitution equating
those types factors through it on the variables that were unbound; on failure no
substitution equates them. -/
theorem unify_most_general (hp : p.Reachable) {a b : Idx} (ha : a.raw < p.size)
    (hb : b.raw < p.size) :
    match p.unify a b with
    | (q, none) =>
      ((q.resolveDeep a).2.resolveDeep b).1 = (q.resolveDeep a).1 ∧
      (p.term a).subst q.binding = (p.term b).subst q.binding ∧
      ∀ σ : Nat → Term, (p.term a).subst σ = (p.term b).subst σ →
        ∃ τ : Nat → Term, ∀ v, p.target? v = none → σ v = (q.binding v).subst τ
    | (_, some _) => ∀ σ : Nat → Term, (p.term a).subst σ ≠ (p.term b).subst σ := by
  have h := hp.wf
  obtain ⟨hq, hl⟩ := unify_wf h ha hb
  have hok := term_eq_of_unify h ha hb
  have hc : ∀ σ : Nat → Term, (p.term a).subst σ = (p.term b).subst σ → _ :=
    fun σ hσ => unify_complete h ha hb hσ
  generalize p.unify a b = res at hq hl hok hc ⊢
  obtain ⟨q, r⟩ := res
  cases r with
  | some e => exact fun σ he => absurd (hc σ he).1 (Option.some_ne_none e)
  | none =>
    have hext := Extends.of_addsLinks hl
    have he := hok rfl
    refine ⟨resolveDeep_resolveDeep_eq hq (hl.size_eq ▸ ha) (hl.size_eq ▸ hb) he, ?_,
      fun σ hσ => (hc σ hσ).2⟩
    rw [← hext.term_eq_subst h hq ha, ← hext.term_eq_subst h hq hb, he]

/-- The most general unifier at the pool of `reachable_fn_pair`: unifying `a -> b` (handle 8,
with `b` linked to `Int`) with `Bool -> c` (handle 10) succeeds, both sides then resolve to one
type, and every substitution that equates the two types factors through the new links. -/
theorem unify_most_general_fn_pair :
    ∃ q : Pool, q = (((({} : Pool).fresh.2.fresh.2.fn ⟨6⟩ ⟨7⟩).2.unify ⟨7⟩
        Prim.int.idx).1.fresh.2.fn Prim.bool.idx ⟨9⟩).2 ∧ q.Reachable ∧
      q.term ⟨8⟩ = .fn (.var 0) (.prim .int) ∧ q.term ⟨10⟩ = .fn (.prim .bool) (.var 2) ∧
      (q.unify ⟨8⟩ ⟨10⟩).2 = none ∧
      (((q.unify ⟨8⟩ ⟨10⟩).1.resolveDeep ⟨8⟩).2.resolveDeep ⟨10⟩).1 =
        ((q.unify ⟨8⟩ ⟨10⟩).1.resolveDeep ⟨8⟩).1 ∧
      (q.term ⟨8⟩).subst (q.unify ⟨8⟩ ⟨10⟩).1.binding =
        (q.term ⟨10⟩).subst (q.unify ⟨8⟩ ⟨10⟩).1.binding ∧
      ∀ σ : Nat → Term, (q.term ⟨8⟩).subst σ = (q.term ⟨10⟩).subst σ →
        ∃ τ : Nat → Term, ∀ v, q.target? v = none →
          σ v = ((q.unify ⟨8⟩ ⟨10⟩).1.binding v).subst τ := by
  obtain ⟨q, hq⟩ : ∃ q, q = (((({} : Pool).fresh.2.fresh.2.fn ⟨6⟩ ⟨7⟩).2.unify ⟨7⟩
      Prim.int.idx).1.fresh.2.fn Prim.bool.idx ⟨9⟩).2 := ⟨_, rfl⟩
  have hr : q.Reachable := hq ▸ reachable_fn_pair
  -- the pool itself, both function types interned at its end
  have hval := hq
  rw [fn_second_compound, fn_first_compound] at hval
  have hok : (q.unify ⟨8⟩ ⟨10⟩).2 = none := by rw [hval]; rfl
  have H := unify_most_general hr (a := ⟨8⟩) (b := ⟨10⟩) (by rw [hval]; decide)
    (by rw [hval]; decide)
  -- the unification succeeds, so the theorem speaks of its pool
  rw [show q.unify ⟨8⟩ ⟨10⟩ = ((q.unify ⟨8⟩ ⟨10⟩).1, none) from Prod.ext rfl hok] at H
  exact ⟨q, hq, hr, by rw [hval]; rfl, by rw [hval]; rfl, hok, H⟩

end Pool

end TagML
