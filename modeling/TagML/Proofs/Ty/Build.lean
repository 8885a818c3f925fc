import TagML.Ty.Scheme
import TagML.Proofs.Ty.Rewrite

/-!
Building types keeps the pool well formed.

Fresh variables, compounds, curried functions and instances of schemes only add items and
variables: every handle of the old pool keeps what it stands for, and the handle returned is a
handle of the new pool.  A fresh variable, and so each image of the renaming an instance is
made with, is an unbound variable with nothing linked below it.
-/
namespace TagML

namespace Pool

variable {p : Pool}

theorem fresh_spec (h : p.WF) :
    p.fresh.2.WF ∧ p.Grows p.fresh.2 ∧ p.fresh.1.raw < p.fresh.2.size ∧
      p.fresh.2.Resolved p.fresh.1 := by
  have hit : p.fresh.2.item p.fresh.1 = .var p.varCount := by
    rw [item_fresh, fresh_fst, if_pos rfl]
  have hv : p.fresh.2.target? p.varCount = none := by
    rw [target?_fresh, target?_of_le p (Nat.le_refl _)]
  exact ⟨h.fresh, grows_fresh h, by simp, resolved_of_unbound hit hv⟩

theorem intern_spec (h : p.WF) {it : Item} (hc : it.isCompound = true)
    (hparts : ∀ j ∈ it.parts, j.raw < p.size) :
    (p.intern it).2.WF ∧ p.Grows (p.intern it).2 ∧ (p.intern it).1.raw < (p.intern it).2.size :=
  ⟨h.intern hc hparts, grows_intern h it, (h.intern_fst it).1⟩

theorem fn_spec (h : p.WF) {a r : Idx} (ha : a.raw < p.size) (hr : r.raw < p.size) :
    (p.fn a r).2.WF ∧ p.Grows (p.fn a r).2 ∧ (p.fn a r).1.raw < (p.fn a r).2.size :=
  intern_spec h rfl (by simp [Item.parts, ha, hr])

/-- A function type's handle names the function item. -/
theorem fn_item (h : p.WF) (a r : Idx) : (p.fn a r).2.item (p.fn a r).1 = .fn a r :=
  (h.intern_fst _).2

theorem user_spec (h : p.WF) (name : String) {args : List Idx}
    (hargs : ∀ a ∈ args, a.raw < p.size) :
    (p.user name args).2.WF ∧ p.Grows (p.user name args).2 ∧
      (p.user name args).1.raw < (p.user name args).2.size :=
  intern_spec h rfl hargs

/-- A fresh variable stands for the variable it allocates. -/
theorem fresh_term (h : p.WF) : p.fresh.2.term p.fresh.1 = .var p.varCount :=
  term_of_unbound h.fresh (by rw [item_fresh, fresh_fst, if_pos rfl])
    (by rw [target?_fresh, target?_of_le _ (Nat.le_refl _)])

/-- A function type stands for its two parts, read where they were built. -/
theorem fn_term (h : p.WF) {a r : Idx} (ha : a.raw < p.size) (hr : r.raw < p.size) :
    (p.fn a r).2.term (p.fn a r).1 = .fn (p.term a) (p.term r) := by
  obtain ⟨h₁, hg, -⟩ := fn_spec h ha hr
  rw [term_of_fn h₁ (fn_item h a r), hg.term_eq h h₁ ha, hg.term_eq h h₁ hr]

/-- A user type stands for its name applied to its arguments, read where they were built. -/
theorem user_term (h : p.WF) (name : String) {args : List Idx}
    (hargs : ∀ a ∈ args, a.raw < p.size) :
    (p.user name args).2.term (p.user name args).1 = .user name (args.map p.term) := by
  obtain ⟨h₁, hg, -⟩ := user_spec h name hargs
  have hit : (p.user name args).2.item (p.user name args).1 = .user name args :=
    (h.intern_fst _).2
  rw [term_of_user h₁ hit]
  exact congrArg _ (List.map_congr_left fun a ha => hg.term_eq h h₁ (hargs a ha))

theorem curried_spec (h : p.WF) {ret : Idx} (hret : ret.raw < p.size) :
    ∀ {args : List Idx}, (∀ a ∈ args, a.raw < p.size) →
      (p.curried args ret).2.WF ∧ p.Grows (p.curried args ret).2 ∧
        (p.curried args ret).1.raw < (p.curried args ret).2.size
  | [], _ => ⟨h, Grows.refl p, hret⟩
  | a :: args, hargs => by
    obtain ⟨h₁, hg₁, hr₁⟩ := curried_spec h hret (fun b hb => hargs b (List.mem_cons_of_mem a hb))
    have ha := Nat.lt_of_lt_of_le (hargs a List.mem_cons_self) hg₁.size_le
    obtain ⟨h₂, hg₂, hr₂⟩ := fn_spec h₁ ha hr₁
    exact ⟨h₂, hg₁.trans hg₂, hr₂⟩

/-- Interning allocates no variable. -/
theorem varCount_intern (p : Pool) (it : Item) : (p.intern it).2.varCount = p.varCount := by
  unfold intern
  split
  · rfl
  · rfl

/-- Curried functions allocate no variable. -/
theorem varCount_curried (p : Pool) (ret : Idx) :
    ∀ args : List Idx, (p.curried args ret).2.varCount = p.varCount
  | [] => rfl
  | _ :: args => (varCount_intern _ _).trans (varCount_curried p ret args)

theorem freshFor_cons (v : Nat) (vs : List Nat) :
    p.freshFor (v :: vs) =
      ((v, p.fresh.1) :: (p.fresh.2.freshFor vs).1, (p.fresh.2.freshFor vs).2) := rfl

/-- The renaming `freshFor` makes sends each id to a fresh unbound variable. -/
theorem freshFor_spec (h : p.WF) (vs : List Nat) :
    (p.freshFor vs).2.WF ∧ p.Grows (p.freshFor vs).2 ∧
      (p.freshFor vs).2.ResolvedImages (p.freshFor vs).1 := by
  induction vs generalizing p with
  | nil => exact ⟨h, Grows.refl p, fun _ _ hl => by cases hl⟩
  | cons v vs ih =>
    obtain ⟨h₁, hg₁, ht, hres⟩ := fresh_spec h
    obtain ⟨h₂, hg₂, him⟩ := ih h₁
    refine ⟨h₂, hg₁.trans hg₂, fun w j hl => ?_⟩
    rw [freshFor_cons, List.lookup_cons] at hl
    split at hl
    · cases hl
      exact ⟨Nat.lt_of_lt_of_le ht hg₂.size_le, (hg₂.resolved_iff h₁ ht).2 hres⟩
    · exact him w j hl

theorem image_cons (u : Nat) (j : Idx) (σ : List (Nat × Idx)) (v : Nat) :
    p.image ((u, j) :: σ) v = if v = u then p.term j else p.image σ v := by
  unfold image
  rw [List.lookup_cons]
  by_cases hv : v = u
  · rw [if_pos hv, beq_iff_eq.2 hv]
  · rw [if_neg hv, beq_false_of_ne hv]

/-- The renaming `freshFor vs` makes renames the ids of `vs` apart, to the variables it
allocated. -/
theorem freshFor_renames (h : p.WF) (vs : List Nat) :
    Term.Renames ((p.freshFor vs).2.image (p.freshFor vs).1) vs p.varCount := by
  induction vs generalizing p with
  | nil => exact ⟨fun _ _ => rfl, fun v hv => absurd hv List.not_mem_nil,
      fun v hv => absurd hv List.not_mem_nil⟩
  | cons u us ih =>
    obtain ⟨h₁, hg₁, ht, -⟩ := fresh_spec h
    obtain ⟨h₂, hg₂, -⟩ := freshFor_spec h₁ us
    have ih₁ := ih h₁
    have hcount : p.fresh.2.varCount = p.varCount + 1 := varCount_fresh p
    -- the head id is sent to the variable allocated first, the others as the tail sends them
    have hhead : (p.fresh.2.freshFor us).2.term p.fresh.1 = .var p.varCount := by
      have hit : p.fresh.2.item p.fresh.1 = .var p.varCount := by
        rw [item_fresh, fresh_fst, if_pos rfl]
      have hunb : p.fresh.2.target? p.varCount = none := by
        rw [target?_fresh, target?_of_le p (Nat.le_refl _)]
      rw [hg₂.term_eq h₁ h₂ ht, term_of_unbound h₁ hit hunb]
    have himage : ∀ v, (p.freshFor (u :: us)).2.image (p.freshFor (u :: us)).1 v =
        if v = u then .var p.varCount else (p.fresh.2.freshFor us).2.image (p.fresh.2.freshFor us).1 v := by
      intro v
      rw [freshFor_cons, image_cons, hhead]
    have htail : ∀ v ∈ u :: us, v ≠ u → ∃ w, p.varCount + 1 ≤ w ∧
        (p.fresh.2.freshFor us).2.image (p.fresh.2.freshFor us).1 v = .var w := fun v hv hvu =>
      hcount ▸ ih₁.fresh v ((List.mem_cons.1 hv).resolve_left hvu)
    refine ⟨fun v hv => ?_, fun v hv => ?_, fun v₁ hv₁ v₂ hv₂ he => ?_⟩
    · have hvu : v ≠ u := fun hvu => hv (hvu ▸ List.mem_cons_self)
      rw [himage, if_neg hvu, ih₁.fixes v fun hm => hv (List.mem_cons_of_mem u hm)]
    · rw [himage]
      split
      · exact ⟨p.varCount, Nat.le_refl _, rfl⟩
      · next hvu =>
        obtain ⟨w, hw, hιw⟩ := htail v hv hvu
        exact ⟨w, Nat.le_of_succ_le hw, hιw⟩
    · rw [himage, himage] at he
      by_cases h₁u : v₁ = u <;> by_cases h₂u : v₂ = u
      · rw [h₁u, h₂u]
      · -- the head's variable is older than every variable the tail's renaming allocated
        obtain ⟨w, hw, hιw⟩ := htail v₂ hv₂ h₂u
        rw [if_pos h₁u, if_neg h₂u, hιw, Term.var.injEq] at he
        omega
      · obtain ⟨w, hw, hιw⟩ := htail v₁ hv₁ h₁u
        rw [if_neg h₁u, if_pos h₂u, hιw, Term.var.injEq] at he
        omega
      · rw [if_neg h₁u, if_neg h₂u] at he
        exact ih₁.inj v₁ ((List.mem_cons.1 hv₁).resolve_left h₁u) v₂
          ((List.mem_cons.1 hv₂).resolve_left h₂u) he

theorem instantiate_spec (h : p.WF) {σ : Scheme} (hb : σ.body.raw < p.size) :
    (p.instantiate σ).2.WF ∧ p.Grows (p.instantiate σ).2 ∧
      (p.instantiate σ).1.raw < (p.instantiate σ).2.size := by
  unfold instantiate
  split
  · exact ⟨h, Grows.refl p, hb⟩
  · obtain ⟨h₁, hg₁, him⟩ := freshFor_spec h σ.bounded
    obtain ⟨h₂, hg₂, hr⟩ := substitute_spec h₁ him (Nat.lt_of_lt_of_le hb hg₁.size_le)
    exact ⟨h₂, hg₁.trans hg₂, hr.1⟩

/-- An instance of `σ` stands for the scheme's body with each quantified variable replaced by a
variable the instantiation allocated, and every other variable kept. -/
theorem instantiate_term (h : p.WF) {σ : Scheme} (hb : σ.body.raw < p.size) :
    ∃ ι : Nat → Term, Term.Renames ι σ.bounded p.varCount ∧
      (p.instantiate σ).2.term (p.instantiate σ).1 = (p.term σ.body).subst ι := by
  unfold instantiate
  split
  · next hmono =>
    -- nothing is quantified, so the instance is the body itself
    have hnil : σ.bounded = [] := List.isEmpty_iff.1 hmono
    refine ⟨.var, ⟨fun _ _ => rfl, fun v hv => absurd hv (hnil ▸ List.not_mem_nil),
      fun v hv => absurd hv (hnil ▸ List.not_mem_nil)⟩, ?_⟩
    rw [Term.subst_var_self]
  · obtain ⟨h₁, hg₁, him⟩ := freshFor_spec h σ.bounded
    obtain ⟨-, -, hr⟩ := substitute_spec h₁ him (Nat.lt_of_lt_of_le hb hg₁.size_le)
    refine ⟨(p.freshFor σ.bounded).2.image (p.freshFor σ.bounded).1,
      freshFor_renames h σ.bounded, ?_⟩
    rw [hr.2.2, hg₁.term_eq h h₁ hb]

end Pool

end TagML
