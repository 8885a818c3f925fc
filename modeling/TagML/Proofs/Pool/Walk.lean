import TagML.Proofs.Pool.Invariant

/-!
The walks of a well-formed pool never run out of budget.

Each walk spends one level of its budget per step of the pool's graph, and in a well-formed
pool a handle's rank is below the number of items, so the budget of `size` levels always
suffices: a walk gives the same answer with any larger budget.  Beside that, resolution and the
occurs check get their meaning here.  Resolution follows link steps to the first handle that is
not a linked variable (`resolve_spec`), and the occurs check answers whether the variable's
item lies at or below the handle (`occurs_iff`); the flag shortcut is sound because a handle
without the flag has no variable item at or below it (`not_isVar_of_hasVars_false`).
-/
namespace TagML

namespace Pool

/-- One link step: from a linked variable's item to its target. -/
def LinkStep (p : Pool) (i j : Idx) : Prop := ∃ v, p.item i = .var v ∧ p.target? v = some j

/-- A handle where following links stops: it is not a linked variable. -/
def Settled (p : Pool) (i : Idx) : Prop := ∀ v, p.item i = .var v → p.target? v = none

/-- Variable `v`'s item lies at or below `i`. -/
def Occurs (p : Pool) (v : Nat) (i : Idx) : Prop :=
  ∃ j, Relation.ReflTransGen p.Succ i j ∧ p.item j = .var v

variable {p : Pool}

theorem LinkStep.succ {i j : Idx} (h : p.LinkStep i j) : p.Succ i j := Or.inr h

theorem LinkStep.functional {i j k : Idx} (h₁ : p.LinkStep i j) (h₂ : p.LinkStep i k) :
    j = k := by
  obtain ⟨v, hv, hj⟩ := h₁
  obtain ⟨w, hw, hk⟩ := h₂
  rw [hv] at hw
  cases hw
  rw [hj] at hk
  exact Option.some.inj hk

theorem Settled.not_linkStep {i j : Idx} (hs : p.Settled i) : ¬ p.LinkStep i j := by
  rintro ⟨v, hv, ht⟩
  rw [hs v hv] at ht
  cases ht

/-- Two link chains from one handle that both end where links stop end at the same handle. -/
theorem LinkStep.chain_end_unique {i r r' : Idx} (h : Relation.ReflTransGen p.LinkStep i r)
    (hs : p.Settled r) (h' : Relation.ReflTransGen p.LinkStep i r') (hs' : p.Settled r') :
    r = r' := by
  induction h using Relation.ReflTransGen.head_induction_on with
  | refl =>
    rcases Relation.ReflTransGen.cases_head h' with rfl | ⟨k, hk, _⟩
    · rfl
    · exact absurd hk hs.not_linkStep
  | head hstep _ ih =>
    rcases Relation.ReflTransGen.cases_head h' with rfl | ⟨k, hk, hrest⟩
    · exact absurd hstep hs'.not_linkStep
    · rw [LinkStep.functional hstep hk] at ih
      exact ih hrest

theorem Below.exists_succ {i j : Idx} (h : p.Below i j) : ∃ k, p.Succ i k := by
  induction h with
  | single hs => exact ⟨_, hs⟩
  | tail _ _ ih => exact ih

/-- Every handle of a well-formed pool has rank below the number of items; a handle the pool
never issued has nothing below it. -/
theorem WF.rank_lt (h : p.WF) (i : Idx) : p.rank i < p.size := by
  by_cases hi : i.raw < p.size
  · exact h.rank_lt_size hi
  · have hnone : ∀ j, ¬ p.Below i j := fun j hb => by
      obtain ⟨k, hk⟩ := hb.exists_succ
      exact not_succ_of_prim (p.item_of_le (Nat.le_of_not_lt hi)) hk
    have hzero : p.rank i = 0 := by
      classical
      unfold rank
      rw [Finset.card_eq_zero, Finset.filter_eq_empty_iff]
      exact fun j _ => hnone ⟨j⟩
    rw [hzero]
    exact Nat.lt_of_le_of_lt (Nat.zero_le _) (h.prim .int).1

/-! ## Resolution -/

/-- Within a budget above the rank, resolution follows link steps to a handle where they
stop. -/
theorem resolveWithin_spec (h : p.WF) : ∀ {n : Nat} {i : Idx}, p.rank i < n →
    Relation.ReflTransGen p.LinkStep i (p.resolveWithin n i) ∧ p.Settled (p.resolveWithin n i)
  | 0, _, hn => absurd hn (Nat.not_lt_zero _)
  | n + 1, i, hn => by
    unfold resolveWithin
    split
    · next v hv =>
      split
      · next t ht =>
        have hs : p.LinkStep i t := ⟨v, hv, ht⟩
        have hr := h.rank_lt_of_succ hs.succ
        obtain ⟨hc, hset⟩ := resolveWithin_spec h (n := n) (i := t) (by omega)
        exact ⟨Relation.ReflTransGen.head hs hc, hset⟩
      · next ht =>
        refine ⟨Relation.ReflTransGen.refl, fun w hw => ?_⟩
        rw [hv] at hw
        cases hw
        exact ht
    · next hv => exact ⟨Relation.ReflTransGen.refl, fun w hw => absurd hw (hv w)⟩

theorem resolve_spec (h : p.WF) (i : Idx) :
    Relation.ReflTransGen p.LinkStep i (p.resolve i) ∧ p.Settled (p.resolve i) :=
  resolveWithin_spec h (h.rank_lt i)

/-- Resolution ends at the one handle where the link chain stops. -/
theorem resolve_eq_of (h : p.WF) {i r : Idx} (hc : Relation.ReflTransGen p.LinkStep i r)
    (hs : p.Settled r) : p.resolve i = r :=
  LinkStep.chain_end_unique (resolve_spec h i).1 (resolve_spec h i).2 hc hs

/-- Any budget above the rank resolves as the pool's own budget does. -/
theorem resolveWithin_eq (h : p.WF) {n : Nat} {i : Idx} (hn : p.rank i < n) :
    p.resolveWithin n i = p.resolve i :=
  (resolve_eq_of h (resolveWithin_spec h hn).1 (resolveWithin_spec h hn).2).symm

theorem resolve_of_settled (h : p.WF) {i : Idx} (hs : p.Settled i) : p.resolve i = i :=
  resolve_eq_of h Relation.ReflTransGen.refl hs

/-- A function type is its own resolution. -/
theorem resolve_of_fn (h : p.WF) {i a r : Idx} (hi : p.item i = .fn a r) : p.resolve i = i :=
  resolve_of_settled h fun v hv => by
    rw [hi] at hv
    cases hv

theorem resolve_resolve (h : p.WF) (i : Idx) : p.resolve (p.resolve i) = p.resolve i :=
  resolve_of_settled h (resolve_spec h i).2

theorem reach_resolve (h : p.WF) (i : Idx) : Relation.ReflTransGen p.Succ i (p.resolve i) :=
  Relation.ReflTransGen.mono (fun _ _ hs => LinkStep.succ hs) _ _ (resolve_spec h i).1

theorem rank_resolve_le (h : p.WF) (i : Idx) : p.rank (p.resolve i) ≤ p.rank i :=
  rank_le_of_reach h.acyclic h.closed (reach_resolve h i)

/-- A handle reached from a handle of the pool is a handle of the pool. -/
theorem lt_size_of_reach (h : p.WF) {i j : Idx} (hi : i.raw < p.size)
    (hr : Relation.ReflTransGen p.Succ i j) : j.raw < p.size := by
  rcases Relation.reflTransGen_iff_eq_or_transGen.1 hr with rfl | hb
  · exact hi
  · obtain ⟨k, _, hk⟩ := Relation.TransGen.tail'_iff.1 hb
    exact h.closed _ _ hk

theorem resolve_lt_size (h : p.WF) {i : Idx} (hi : i.raw < p.size) : (p.resolve i).raw < p.size :=
  lt_size_of_reach h hi (reach_resolve h i)

/-- A variable reached by resolution is unbound. -/
theorem target?_resolve (h : p.WF) {i : Idx} {v : Nat} (hv : p.item (p.resolve i) = .var v) :
    p.target? v = none :=
  (resolve_spec h i).2 v hv

/-! ## The occurs check -/

/-- A handle without the flag has no variable item at or below it. -/
theorem not_isVar_of_hasVars_false (h : p.WF) {i j : Idx} (hf : p.hasVars i = false)
    (hr : Relation.ReflTransGen p.Succ i j) : p.hasVars j = false ∧ (p.item j).isVar = false := by
  have hself : ∀ k, p.hasVars k = false → (p.item k).isVar = false := by
    intro k hk
    by_cases hks : k.raw < p.size
    · rw [h.hasVars_eq k hks, Bool.or_eq_false_iff] at hk
      exact hk.1
    · rw [p.item_of_le (Nat.le_of_not_lt hks)]
      rfl
  induction hr with
  | refl => exact ⟨hf, hself i hf⟩
  | tail _ hs ih =>
    obtain ⟨hk, hkv⟩ := ih
    rename_i k j' _
    have hks : k.raw < p.size := by
      by_contra hle
      exact not_succ_of_prim (p.item_of_le (Nat.le_of_not_lt hle)) hs
    rw [h.hasVars_eq k hks, Bool.or_eq_false_iff] at hk
    rcases hs with hp | ⟨w, hw, _⟩
    · have hj : p.hasVars j' = false := Bool.eq_false_iff.2 (List.any_eq_false.1 hk.2 j' hp)
      exact ⟨hj, hself j' hj⟩
    · rw [hw] at hkv
      cases hkv

theorem occurs_step {v : Nat} {i : Idx} :
    p.Occurs v i ↔ p.item i = .var v ∨ ∃ k, p.Succ i k ∧ p.Occurs v k := by
  constructor
  · rintro ⟨j, hr, hj⟩
    rcases Relation.ReflTransGen.cases_head hr with rfl | ⟨k, hk, hr⟩
    · exact Or.inl hj
    · exact Or.inr ⟨k, hk, j, hr, hj⟩
  · rintro (hi | ⟨k, hk, j, hr, hj⟩)
    · exact ⟨i, Relation.ReflTransGen.refl, hi⟩
    · exact ⟨j, Relation.ReflTransGen.head hk hr, hj⟩

/-- Within a budget above the rank, the occurs check answers whether the variable's item lies
at or below the handle. -/
theorem occursWithin_iff (h : p.WF) (v : Nat) : ∀ {n : Nat} {i : Idx}, p.rank i < n →
    (p.occursWithin v n i = true ↔ p.Occurs v i)
  | 0, _, hn => absurd hn (Nat.not_lt_zero _)
  | n + 1, i, hn => by
    have ih : ∀ k, p.Succ i k → (p.occursWithin v n k = true ↔ p.Occurs v k) := fun k hk =>
      occursWithin_iff h v (Nat.lt_of_lt_of_le (h.rank_lt_of_succ hk) (Nat.le_of_lt_succ hn))
    unfold occursWithin
    by_cases hf : p.hasVars i = false
    · simp only [hf, Bool.not_false, if_true, Bool.false_eq_true, false_iff]
      rintro ⟨j, hr, hj⟩
      have := (not_isVar_of_hasVars_false h hf hr).2
      rw [hj] at this
      cases this
    · simp only [Bool.not_eq_false] at hf
      simp only [hf, Bool.not_true, Bool.false_eq_true, if_false]
      rw [occurs_step]
      split
      · next w hw =>
        have hsucc := fun k => succ_of_var (p := p) (j := k) hw
        rw [hw]
        by_cases hwv : w = v
        · subst hwv
          simp
        · rw [beq_false_of_ne hwv, Bool.false_or]
          simp only [Item.var.injEq, hwv, false_or]
          split
          · next t ht =>
            rw [ih t ((hsucc t).2 ht)]
            constructor
            · intro hocc
              exact ⟨t, (hsucc t).2 ht, hocc⟩
            · rintro ⟨k, hk, hocc⟩
              rw [hsucc, ht] at hk
              cases hk
              exact hocc
          · next ht =>
            simp only [Bool.false_eq_true, false_iff, not_exists, not_and]
            intro k hk
            rw [hsucc, ht] at hk
            cases hk
      · next a r ha =>
        have hsucc := fun k => succ_of_fn (p := p) (j := k) ha
        rw [ha, Bool.or_eq_true, ih a ((hsucc a).2 (Or.inl rfl)),
          ih r ((hsucc r).2 (Or.inr rfl))]
        simp [hsucc]
      · next name args ha =>
        have hsucc := fun k => succ_of_user (p := p) (j := k) ha
        rw [ha, List.any_eq_true]
        simp only [reduceCtorEq, false_or, hsucc]
        constructor
        · rintro ⟨a, ha, hocc⟩
          exact ⟨a, ha, (ih a ((hsucc a).2 ha)).1 hocc⟩
        · rintro ⟨a, ha, hocc⟩
          exact ⟨a, ha, (ih a ((hsucc a).2 ha)).2 hocc⟩
      · next q hq =>
        rw [hq]
        simp [not_succ_of_prim hq]

/-- Below an unbound variable's item lies nothing else, so only its own id occurs there. -/
theorem occurs_of_unbound {v w : Nat} {i : Idx} (hi : p.item i = .var w)
    (hw : p.target? w = none) : p.Occurs v i ↔ v = w := by
  constructor
  · rintro ⟨j, hr, hj⟩
    rcases Relation.ReflTransGen.cases_head hr with rfl | ⟨k, hk, _⟩
    · rw [hi] at hj
      cases hj
      rfl
    · rw [succ_of_var hi, hw] at hk
      cases hk
  · rintro rfl
    exact ⟨i, Relation.ReflTransGen.refl, hi⟩

theorem occurs_iff (h : p.WF) (v : Nat) (i : Idx) : p.occurs v i = true ↔ p.Occurs v i :=
  occursWithin_iff h v (h.rank_lt i)

/-! ## Budgets are never used up

In a well-formed pool every walk meets each item at most once along a path, so any budget
above the rank of the handle gives the same answer as the pool's size. -/

theorem occursWithin_eq (h : p.WF) (v : Nat) {n : Nat} {i : Idx} (hn : p.rank i < n) :
    p.occursWithin v n i = p.occurs v i :=
  Bool.eq_iff_iff.2 ((occursWithin_iff h v hn).trans (occurs_iff h v i).symm)

theorem freeVarsWithin_congr (h : p.WF) :
    ∀ {n m : Nat} {acc : List Nat} {i : Idx}, p.rank i < n → p.rank i < m →
      p.freeVarsWithin n acc i = p.freeVarsWithin m acc i
  | 0, _, _, _, hn, _ => absurd hn (Nat.not_lt_zero _)
  | _ + 1, 0, _, _, _, hm => absurd hm (Nat.not_lt_zero _)
  | n + 1, m + 1, acc, i, hn, hm => by
    have ih : ∀ {k : Idx} (acc : List Nat), p.Succ i k →
        p.freeVarsWithin n acc k = p.freeVarsWithin m acc k := fun acc hk =>
      freeVarsWithin_congr h (Nat.lt_of_lt_of_le (h.rank_lt_of_succ hk) (Nat.le_of_lt_succ hn))
        (Nat.lt_of_lt_of_le (h.rank_lt_of_succ hk) (Nat.le_of_lt_succ hm))
    unfold freeVarsWithin
    cases hit : p.item i with
    | prim q => rfl
    | var w =>
      dsimp only
      cases ht : p.target? w with
      | none => rfl
      | some t =>
        dsimp only
        rw [ih acc ((succ_of_var hit).2 ht)]
    | fn a r =>
      dsimp only
      rw [ih acc ((succ_of_fn hit).2 (Or.inl rfl)), ih _ ((succ_of_fn hit).2 (Or.inr rfl))]
    | user name args =>
      dsimp only
      rw [List.foldl_ext _ _ acc fun acc a ha => ih acc ((succ_of_user hit).2 ha)]

theorem renderWithin_congr (h : p.WF) :
    ∀ {n m : Nat} {i : Idx}, p.rank i < n → p.rank i < m → p.renderWithin n i = p.renderWithin m i
  | 0, _, _, hn, _ => absurd hn (Nat.not_lt_zero _)
  | _ + 1, 0, _, _, hm => absurd hm (Nat.not_lt_zero _)
  | n + 1, m + 1, i, hn, hm => by
    have ih : ∀ {k : Idx}, p.Succ i k → p.renderWithin n k = p.renderWithin m k := fun hk =>
      renderWithin_congr h (Nat.lt_of_lt_of_le (h.rank_lt_of_succ hk) (Nat.le_of_lt_succ hn))
        (Nat.lt_of_lt_of_le (h.rank_lt_of_succ hk) (Nat.le_of_lt_succ hm))
    unfold renderWithin
    cases hit : p.item i with
    | prim q => rfl
    | var w =>
      dsimp only
      cases ht : p.target? w with
      | none => rfl
      | some t =>
        dsimp only
        rw [ih ((succ_of_var hit).2 ht)]
    | fn a r =>
      dsimp only
      rw [ih ((succ_of_fn hit).2 (Or.inl rfl)), ih ((succ_of_fn hit).2 (Or.inr rfl))]
    | user name args =>
      dsimp only
      rw [List.map_congr_left fun a ha => ih ((succ_of_user hit).2 ha)]

end Pool

end TagML
