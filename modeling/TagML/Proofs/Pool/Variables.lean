import TagML.Proofs.Ty.Deep

/-!
The three walks that look for variables agree.

The occurs check, the collection of free variables and substitution each follow links and parts
down from a handle, and each skips a handle whose flag says that no variable item lies below it.
In a well-formed pool the flag is exact, so the skip never hides a variable
(`not_occurs_of_hasVars_false`).  For an unbound variable the occurs check then answers exactly
whether the variable is free in the type (`occurs_iff_mem_freeVars`).  Deep resolution rebuilds
the type with every link followed, so its result, written out as built, has exactly the free
variables of the type (`mem_freeVars_iff_resolveDeep`); and the free variables of a scheme are
those of its body that it does not quantify.  The three together are `variable_walks_agree`.
-/
namespace TagML

namespace Pool

variable {p : Pool}

/-- A handle with nothing linked below it stands for the type it was built as. -/
theorem Resolved.raw_eq_term (h : p.WF) {i : Idx} (hr : p.Resolved i) : p.raw i = p.term i := by
  rw [← raw_subst_binding h i, subst_binding_of_unbound h fun v hv => ?_]
  -- a variable of the type as built has its item below `i` through parts alone
  obtain ⟨j, hij, hj⟩ := occurs_of_mem_vars_term h.unlinked hv
  have hij' : Relation.ReflTransGen p.Succ i j :=
    Relation.ReflTransGen.mono (fun _ _ hs => Or.inl (succ_unlinked hs)) _ _ hij
  exact hr j hij' v hj

/-- No variable is reachable through links and parts from a handle without the flag. -/
theorem not_occurs_of_hasVars_false (h : p.WF) {i : Idx} (hf : p.hasVars i = false) (v : Nat) :
    ¬ p.Occurs v i := by
  rintro ⟨j, hij, hj⟩
  have hvar := (not_isVar_of_hasVars_false h hf hij).2
  rw [hj] at hvar
  cases hvar

/-- For an unbound variable, the occurs check answers whether the variable is free in the
type. -/
theorem occurs_iff_mem_freeVars (h : p.WF) {v : Nat} (hv : p.target? v = none) (i : Idx) :
    p.occurs v i = true ↔ v ∈ p.freeVars i := by
  rw [occurs_iff h, mem_freeVars h]
  exact ⟨mem_vars_term_of_occurs h hv, occurs_of_mem_vars_term h⟩

/-- The free variables of a type are the variables its deep resolution was built from. -/
theorem mem_freeVars_iff_resolveDeep (h : p.WF) {t : Idx} (ht : t.raw < p.size) (v : Nat) :
    v ∈ p.freeVars t ↔ v ∈ ((p.resolveDeep t).2.raw (p.resolveDeep t).1).vars := by
  obtain ⟨hq, -, -, hres, hterm⟩ := resolveDeep_spec h ht
  rw [hres.raw_eq_term hq, hterm, mem_freeVars h]

/-- The free variables of a scheme are those of its body that it does not quantify. -/
theorem mem_freeVarsScheme_iff_body (σ : Scheme) (v : Nat) :
    v ∈ p.freeVarsScheme σ ↔ v ∈ p.freeVars σ.body ∧ v ∉ σ.bounded := by
  simp [freeVarsScheme, Scheme.quantifies]

/-- The three walks that look for variables agree in every reachable pool.  For an unbound
variable, the occurs check holds of a type exactly when the variable is among the type's free
variables; the free variables of a type are exactly the variables its deep resolution was built
from; the free variables of a scheme are those of its body minus the quantified ones; and the
flag all three walks use to skip a handle never hides a variable reachable from it. -/
theorem variable_walks_agree (hp : p.Reachable) :
    (∀ (v : Nat) (t : Idx), p.target? v = none → (p.occurs v t = true ↔ v ∈ p.freeVars t)) ∧
    (∀ t : Idx, t.raw < p.size → ∀ v : Nat,
      v ∈ p.freeVars t ↔ v ∈ ((p.resolveDeep t).2.raw (p.resolveDeep t).1).vars) ∧
    (∀ (σ : Scheme) (v : Nat), v ∈ p.freeVarsScheme σ ↔ v ∈ p.freeVars σ.body ∧ v ∉ σ.bounded) ∧
    ∀ t : Idx, p.hasVars t = false → ∀ v : Nat, ¬ p.Occurs v t :=
  have h := hp.wf
  ⟨fun _ t hv => occurs_iff_mem_freeVars h hv t, fun _ ht => mem_freeVars_iff_resolveDeep h ht,
    mem_freeVarsScheme_iff_body, fun _ hf => not_occurs_of_hasVars_false h hf⟩

/-- The walks over variables at the pool of `reachable_fn_unify`, where the function type
`a -> b` (handle 8) holds `b`, linked to `Int`: `a` is its one free variable and occurs in it,
deep resolution keeps exactly that variable, quantifying `a` leaves nothing free, and `Int`
holds no variable. -/
theorem variable_walks_agree_fn_unify :
    ∃ p : Pool, p = ((({} : Pool).fresh.2.fresh.2.fn ⟨6⟩ ⟨7⟩).2.unify ⟨7⟩ Prim.int.idx).1 ∧
      p.Reachable ∧ p.target? 0 = none ∧ p.target? 1 = some Prim.int.idx ∧
      p.freeVars ⟨8⟩ = [0] ∧ (p.occurs 0 ⟨8⟩ = true ↔ 0 ∈ p.freeVars ⟨8⟩) ∧
      (⟨8⟩ : Idx).raw < p.size ∧
      (∀ v, v ∈ p.freeVars ⟨8⟩ ↔ v ∈ ((p.resolveDeep ⟨8⟩).2.raw (p.resolveDeep ⟨8⟩).1).vars) ∧
      (∀ v, v ∈ p.freeVarsScheme ⟨[0], ⟨8⟩⟩ ↔ v ∈ p.freeVars ⟨8⟩ ∧ v ∉ [0]) ∧
      p.hasVars Prim.int.idx = false ∧ ∀ v, ¬ p.Occurs v Prim.int.idx := by
  obtain ⟨p, hp⟩ : ∃ p, p = ((({} : Pool).fresh.2.fresh.2.fn ⟨6⟩ ⟨7⟩).2.unify ⟨7⟩ Prim.int.idx).1 :=
    ⟨_, rfl⟩
  have hr : p.Reachable := hp ▸ reachable_fn_unify
  -- the pool itself, `a -> b` interned at its end
  have hval := hp
  rw [fn_first_compound] at hval
  have H := variable_walks_agree hr
  have hv : p.target? 0 = none := by rw [hval]; decide
  have h8 : (⟨8⟩ : Idx).raw < p.size := by rw [hval]; decide
  have hint : p.hasVars Prim.int.idx = false := by rw [hval]; decide
  exact ⟨p, hp, hr, hv, by rw [hval]; decide, by rw [hval]; decide, H.1 0 ⟨8⟩ hv, h8,
    H.2.1 ⟨8⟩ h8, H.2.2.1 ⟨[0], ⟨8⟩⟩, hint, H.2.2.2 Prim.int.idx hint⟩

end Pool

end TagML
