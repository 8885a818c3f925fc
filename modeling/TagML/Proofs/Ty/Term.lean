import TagML.Ty.Basic

/-!
Types written out in full, and substitution on them.

A pool shares parts and solves variables by links; a `Term` is the type a handle stands for
once both are undone, a finite tree.  Statements about what the checker computes (that two
types were made equal, that a substitution solves them) are made on terms, where equality is
plain structural equality.  Substitution replaces every variable by its image; `size` counts
constructors, so a variable never equals a substitution instance of a larger term that
contains it (`ne_subst_of_mem_vars`), which is why the occurs check may fail a unification.
-/
namespace TagML

/-- A type written out in full: a primitive, a variable, a function, or a user type applied
to arguments. -/
inductive Term where
  | prim (p : Prim)
  | var (v : Nat)
  | fn (arg ret : Term)
  | user (name : String) (args : List Term)

namespace Term

mutual
/-- Replace every variable by its image under `σ`. -/
def subst (σ : Nat → Term) : Term → Term
  | prim q => prim q
  | var v => σ v
  | fn a r => fn (a.subst σ) (r.subst σ)
  | user n args => user n (substList σ args)

/-- `subst` on each term of a list. -/
def substList (σ : Nat → Term) : List Term → List Term
  | [] => []
  | t :: ts => t.subst σ :: substList σ ts
end

mutual
/-- The variables of a term, left to right, repeats kept. -/
def vars : Term → List Nat
  | prim _ => []
  | var v => [v]
  | fn a r => a.vars ++ r.vars
  | user _ args => varsList args

/-- The variables of a list of terms. -/
def varsList : List Term → List Nat
  | [] => []
  | t :: ts => t.vars ++ varsList ts
end

mutual
/-- The number of constructors of a term. -/
def size : Term → Nat
  | prim _ => 1
  | var _ => 1
  | fn a r => a.size + r.size + 1
  | user _ args => sizeList args + 1

/-- The total size of a list of terms. -/
def sizeList : List Term → Nat
  | [] => 0
  | t :: ts => t.size + sizeList ts
end

theorem substList_eq_map (σ : Nat → Term) (ts : List Term) :
    substList σ ts = ts.map (subst σ) := by
  induction ts with
  | nil => rfl
  | cons t ts ih => simp [substList, ih]

@[simp] theorem subst_prim (σ : Nat → Term) (q : Prim) : (prim q).subst σ = prim q := rfl

@[simp] theorem subst_var (σ : Nat → Term) (v : Nat) : (var v).subst σ = σ v := rfl

@[simp] theorem subst_fn (σ : Nat → Term) (a r : Term) :
    (fn a r).subst σ = fn (a.subst σ) (r.subst σ) := rfl

@[simp] theorem subst_user (σ : Nat → Term) (n : String) (args : List Term) :
    (user n args).subst σ = user n (args.map (subst σ)) := by
  rw [subst, substList_eq_map]

theorem mem_varsList {v : Nat} {ts : List Term} : v ∈ varsList ts ↔ ∃ t ∈ ts, v ∈ t.vars := by
  induction ts with
  | nil => simp [varsList]
  | cons t ts ih => simp [varsList, ih]

@[simp] theorem vars_user (n : String) (args : List Term) :
    (user n args).vars = varsList args := rfl

@[simp] theorem mem_vars_var {v w : Nat} : w ∈ (var v).vars ↔ w = v := List.mem_singleton

/-- A property of every variable of a variable's term is a property of that variable. -/
theorem forall_mem_vars_var {P : Nat → Prop} {v : Nat} : (∀ w ∈ (var v).vars, P w) ↔ P v := by
  simp

mutual
/-- Substituting twice is substituting once by the composed images. -/
theorem subst_subst (σ τ : Nat → Term) :
    ∀ t : Term, (t.subst σ).subst τ = t.subst (fun v => (σ v).subst τ)
  | prim _ => rfl
  | var _ => rfl
  | fn a r => by rw [subst_fn, subst_fn, subst_fn, subst_subst σ τ a, subst_subst σ τ r]
  | user n args => by
    simp only [subst, substList_subst σ τ args]

theorem substList_subst (σ τ : Nat → Term) :
    ∀ ts : List Term, substList τ (substList σ ts) = substList (fun v => (σ v).subst τ) ts
  | [] => rfl
  | t :: ts => by simp only [substList, subst_subst σ τ t, substList_subst σ τ ts]
end

mutual
/-- The identity images change nothing. -/
theorem subst_var_self : ∀ t : Term, t.subst var = t
  | prim _ => rfl
  | var _ => rfl
  | fn a r => by rw [subst_fn, subst_var_self a, subst_var_self r]
  | user n args => by simp only [subst, substList_var_self args]

theorem substList_var_self : ∀ ts : List Term, substList var ts = ts
  | [] => rfl
  | t :: ts => by simp only [substList, subst_var_self t, substList_var_self ts]
end

mutual
/-- Images of variables a term does not mention do not matter. -/
theorem subst_congr {σ τ : Nat → Term} :
    ∀ t : Term, (∀ v ∈ t.vars, σ v = τ v) → t.subst σ = t.subst τ
  | prim _, _ => rfl
  | var v, h => h v (by simp [vars])
  | fn a r, h => by
    rw [subst_fn, subst_fn,
      subst_congr a (fun v hv => h v (by simp [vars, hv])),
      subst_congr r (fun v hv => h v (by simp [vars, hv]))]
  | user n args, h => by
    simp only [subst]
    rw [substList_congr args h]

theorem substList_congr {σ τ : Nat → Term} :
    ∀ ts : List Term, (∀ v ∈ varsList ts, σ v = τ v) → substList σ ts = substList τ ts
  | [], _ => rfl
  | t :: ts, h => by
    simp only [substList]
    rw [subst_congr t (fun v hv => h v (by simp [varsList, hv])),
      substList_congr ts (fun v hv => h v (by simp [varsList, hv]))]
end

mutual
/-- The variables of an instance are those of the images of the term's variables. -/
theorem mem_vars_subst (σ : Nat → Term) {w : Nat} :
    ∀ t : Term, w ∈ (t.subst σ).vars ↔ ∃ v ∈ t.vars, w ∈ (σ v).vars
  | prim _ => by simp [vars]
  | var v => by simp [vars]
  | fn a r => by
    simp only [subst_fn, vars, List.mem_append, mem_vars_subst σ a, mem_vars_subst σ r,
      or_and_right, exists_or]
  | user n args => by
    simp only [subst, vars, mem_varsList_substList σ args]

theorem mem_varsList_substList (σ : Nat → Term) {w : Nat} :
    ∀ ts : List Term, w ∈ varsList (substList σ ts) ↔ ∃ v ∈ varsList ts, w ∈ (σ v).vars
  | [] => by simp [varsList, substList]
  | t :: ts => by
    simp only [substList, varsList, List.mem_append, mem_vars_subst σ t,
      mem_varsList_substList σ ts, or_and_right, exists_or]
end

mutual
/-- The image of a variable of `t` is no larger than the instance of `t`. -/
theorem size_le_subst (σ : Nat → Term) {v : Nat} :
    ∀ t : Term, v ∈ t.vars → (σ v).size ≤ (t.subst σ).size
  | prim _, h => by simp [vars] at h
  | var w, h => by
    simp only [vars, List.mem_singleton] at h
    subst h
    exact Nat.le_refl _
  | fn a r, h => by
    simp only [vars, List.mem_append] at h
    simp only [subst_fn, size]
    rcases h with h | h
    · have := size_le_subst σ a h
      omega
    · have := size_le_subst σ r h
      omega
  | user n args, h => by
    simp only [subst, size]
    have := sizeList_le_subst σ args h
    omega

theorem sizeList_le_subst (σ : Nat → Term) {v : Nat} :
    ∀ ts : List Term, v ∈ varsList ts → (σ v).size ≤ sizeList (substList σ ts)
  | [], h => by simp [varsList] at h
  | t :: ts, h => by
    simp only [varsList, List.mem_append] at h
    simp only [substList, sizeList]
    rcases h with h | h
    · have := size_le_subst σ t h
      omega
    · have := sizeList_le_subst σ ts h
      omega
end

/-- A variable of a term that is not a variable never equals the term's instance: the
instance is strictly larger than the variable's image. -/
theorem ne_subst_of_mem_vars (σ : Nat → Term) {v : Nat} {t : Term} (hv : v ∈ t.vars)
    (ht : ∀ w, t ≠ var w) : σ v ≠ t.subst σ := by
  intro he
  have hlt : (σ v).size < (t.subst σ).size := by
    cases t with
    | prim _ => simp [vars] at hv
    | var w => exact absurd rfl (ht w)
    | fn a r =>
      simp only [vars, List.mem_append] at hv
      simp only [subst_fn, size]
      rcases hv with hv | hv
      · have := size_le_subst σ a hv
        omega
      · have := size_le_subst σ r hv
        omega
    | user n args =>
      simp only [subst, size]
      have := sizeList_le_subst σ args hv
      omega
  rw [he] at hlt
  exact Nat.lt_irrefl _ hlt

/-- `ι` renames the ids of `B` apart: each to a variable of its own from `n` on, every other id
to itself. -/
structure Renames (ι : Nat → Term) (B : List Nat) (n : Nat) : Prop where
  fixes : ∀ v, v ∉ B → ι v = var v
  fresh : ∀ v ∈ B, ∃ w, n ≤ w ∧ ι v = var w
  inj : ∀ v₁ ∈ B, ∀ v₂ ∈ B, ι v₁ = ι v₂ → v₁ = v₂

/-- After a renaming apart, one substitution gives the renamed ids any images `θ` and agrees
with `σ` below `n`. -/
theorem Renames.extend {ι : Nat → Term} {B : List Nat} {n : Nat} (h : Renames ι B n)
    (σ θ : Nat → Term) :
    ∃ σ' : Nat → Term, (∀ w < n, σ' w = σ w) ∧ ∀ v ∈ B, (ι v).subst σ' = θ v := by
  classical
  -- a variable that renames some id of `B` takes that id's image
  refine ⟨fun w => if hw : ∃ v ∈ B, ι v = var w then θ hw.choose else σ w, fun w hw => ?_,
    fun v hv => ?_⟩
  · dsimp only
    rw [dif_neg]
    rintro ⟨v, hv, hιv⟩
    obtain ⟨w', hw', hιw'⟩ := h.fresh v hv
    rw [hιw', var.injEq] at hιv
    exact Nat.not_le_of_lt hw (hιv ▸ hw')
  · obtain ⟨w, -, hιv⟩ := h.fresh v hv
    have hex : ∃ u ∈ B, ι u = var w := ⟨v, hv, hιv⟩
    rw [hιv, subst_var, dif_pos hex]
    exact congrArg θ (h.inj _ hex.choose_spec.1 v hv (hex.choose_spec.2.trans hιv.symm))

end Term

end TagML
