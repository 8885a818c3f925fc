import TagML.Proofs.Embed.Unify

/-!
Rewriting passes read the same in a pool and in one it sits in.

A pass over `B` with substitution `σB` and a pass over `A` with `σA`, which sends each renamed
variable to the image of what `σB` sends it to, take the same path when started on a handle and
its image: the checks for variables agree, resolution commutes with `ε`, the remembered rewrites
of a handle and of its image correspond, and a compound is rebuilt from corresponding parts, so
hash-consing returns corresponding handles and `ε` extends to what `B` builds.  `Rewrite.Embeds`
is the relation between the two states, and `Rewrite.Reaches` what a step reaches from related
states.  Each pass runs within the size of its own pool, and the walk in `B` bounds both budgets
by the rank of the handle where the walk starts (`substWithin_embeds`).
-/
namespace TagML

namespace Rewrite

open Pool (SameBelow)

variable {n k : Nat} {ε : Idx → Idx} {σB σA : List (Nat × Idx)} {stB stA : Rewrite}

/-- Two states of rewriting passes correspond through `ε`, with `σB` and `σA` the substitutions
they apply: the pools, both well formed, embed; `σB` substitutes handles of its pool, and `σA`
sends each renamed variable to the image of what `σB` sends it to; every handle of `B` has its
remembered rewrite remembered for its image, sent through `ε`; and `A` remembers rewrites only
for images. -/
structure Embeds (n k : Nat) (ε : Idx → Idx) (σB σA : List (Nat × Idx)) (stB stA : Rewrite) :
    Prop where
  wfB : stB.pool.WF
  wfA : stA.pool.WF
  pool : stB.pool.Embeds n k ε stA.pool
  images : ∀ v j, σB.lookup v = some j → j.raw < stB.pool.size
  lookup : ∀ v, σA.lookup (shiftFrom n k v) = (σB.lookup v).map ε
  done : ∀ i : Idx, i.raw < stB.pool.size → stA.done[ε i]? = (stB.done[i]?).map ε
  keys : ∀ x o : Idx, stA.done[x]? = some o → ∃ i : Idx, i.raw < stB.pool.size ∧ x = ε i
  valid : ∀ i o : Idx, stB.done[i]? = some o → i.raw < stB.pool.size ∧ o.raw < stB.pool.size

/-- What corresponding steps reach from related states when run on a handle of `B` and its
image: related states, with `ε` extended past the handles of `stB`, a pool of `B` that only
grew, and a returned handle of `B` whose image `A` returns. -/
def Reaches (n k : Nat) (σB σA : List (Nat × Idx)) (ε : Idx → Idx) (stB : Rewrite)
    (rB rA : Idx × Rewrite) : Prop :=
  ∃ ε', SameBelow stB.pool.size ε ε' ∧ Embeds n k ε' σB σA rB.2 rA.2 ∧
    stB.pool.Grows rB.2.pool ∧ rB.1.raw < rB.2.pool.size ∧ rA.1 = ε' rB.1

/-- `Reaches` for steps that return lists of handles. -/
def ReachesAll (n k : Nat) (σB σA : List (Nat × Idx)) (ε : Idx → Idx) (stB : Rewrite)
    (rB rA : List Idx × Rewrite) : Prop :=
  ∃ ε', SameBelow stB.pool.size ε ε' ∧ Embeds n k ε' σB σA rB.2 rA.2 ∧
    stB.pool.Grows rB.2.pool ∧ (∀ o ∈ rB.1, o.raw < rB.2.pool.size) ∧ rA.1 = rB.1.map ε'

/-- `Reaches` for steps that return lists of node ids paired with handles. -/
def ReachesPairs (n k : Nat) (σB σA : List (Nat × Idx)) (ε : Idx → Idx) (stB : Rewrite)
    (rB rA : List (Nat × Idx) × Rewrite) : Prop :=
  ∃ ε', SameBelow stB.pool.size ε ε' ∧ Embeds n k ε' σB σA rB.2 rA.2 ∧
    stB.pool.Grows rB.2.pool ∧ (∀ y ∈ rB.1, y.2.raw < rB.2.pool.size) ∧
    rA.1 = rB.1.map (Prod.map id ε')

/-- Passes started on embedded pools start related. -/
theorem Embeds.start {B A : Pool} (hB : B.WF) (hA : A.WF) (he : B.Embeds n k ε A)
    (hσ : ∀ v j, σB.lookup v = some j → j.raw < B.size)
    (hl : ∀ v, σA.lookup (shiftFrom n k v) = (σB.lookup v).map ε) :
    Embeds n k ε σB σA { pool := B } { pool := A } where
  wfB := hB
  wfA := hA
  pool := he
  images := hσ
  lookup := hl
  done _ _ := by simp
  keys _ _ h := by simp at h
  valid _ _ h := by simp at h

/-- Related states stay related when both pools grow and `ε` extends to what `B` gained. -/
theorem Embeds.grow (h : Embeds n k ε σB σA stB stA) {B A : Pool} {ε' : Idx → Idx}
    (hB : B.WF) (hA : A.WF) (he : B.Embeds n k ε' A) (hε : SameBelow stB.pool.size ε ε')
    (hs : stB.pool.size ≤ B.size) :
    Embeds n k ε' σB σA { stB with pool := B } { stA with pool := A } where
  wfB := hB
  wfA := hA
  pool := he
  images v j hj := Nat.lt_of_lt_of_le (h.images v j hj) hs
  lookup v := by
    rw [h.lookup v]
    cases hj : σB.lookup v with
    | none => rfl
    | some j => exact congrArg some (hε j (h.images v j hj)).symm
  done i hi := by
    show stA.done[ε' i]? = (stB.done[i]?).map ε'
    rcases Nat.lt_or_ge i.raw stB.pool.size with hold | hnew
    · rw [hε i hold, h.done i hold]
      cases ho : stB.done[i]? with
      | none => rfl
      | some o => exact congrArg some (hε o (h.valid i o ho).2).symm
    · -- a handle new to `B` is remembered in neither pass
      have hB : stB.done[i]? = none := by
        cases ho : stB.done[i]? with
        | none => rfl
        | some o => exact absurd (h.valid i o ho).1 (Nat.not_lt.2 hnew)
      rw [hB]
      cases ho : stA.done[ε' i]? with
      | none => rfl
      | some o =>
        obtain ⟨j, hj, hx⟩ := h.keys _ o ho
        rw [← hε j hj] at hx
        have := he.inj i j hi (Nat.lt_of_lt_of_le hj hs) hx
        subst this
        exact absurd hj (Nat.not_lt.2 hnew)
  keys x o hx := by
    obtain ⟨j, hj, rfl⟩ := h.keys x o hx
    exact ⟨j, Nat.lt_of_lt_of_le hj hs, (hε j hj).symm⟩
  valid i o hi := by
    obtain ⟨h₁, h₂⟩ := h.valid i o hi
    exact ⟨Nat.lt_of_lt_of_le h₁ hs, Nat.lt_of_lt_of_le h₂ hs⟩

/-- Remembering a rewrite of a handle of `B`, and its image for the image. -/
theorem Embeds.remember (h : Embeds n k ε σB σA stB stA) {i out : Idx}
    (hi : i.raw < stB.pool.size) (hout : out.raw < stB.pool.size) :
    Embeds n k ε σB σA { stB with done := stB.done.insert i out }
      { stA with done := stA.done.insert (ε i) (ε out) } where
  wfB := h.wfB
  wfA := h.wfA
  pool := h.pool
  images := h.images
  lookup := h.lookup
  done j hj := by
    simp only [Std.HashMap.getElem?_insert, beq_iff_eq]
    by_cases hij : i = j
    · subst hij
      simp
    · rw [if_neg hij, if_neg fun h' => hij (h.pool.inj i j hi hj h')]
      exact h.done j hj
  keys x o hx := by
    rw [Std.HashMap.getElem?_insert] at hx
    split at hx
    · next hix => exact ⟨i, hi, (eq_of_beq hix).symm⟩
    · exact h.keys x o hx
  valid j o hj := by
    rw [Std.HashMap.getElem?_insert] at hj
    split at hj
    · next hij =>
      cases hj
      exact ⟨eq_of_beq hij ▸ hi, hout⟩
    · exact h.valid j o hj

/-- Building a compound from handles of `B`, and its renamed copy in `A`. -/
theorem Embeds.build (h : Embeds n k ε σB σA stB stA) {it : Item} (hc : it.isCompound = true)
    (hparts : ∀ j ∈ it.parts, j.raw < stB.pool.size) :
    Reaches n k σB σA ε stB ((build it).run stB) ((build (it.map ε (shiftFrom n k))).run stA) := by
  obtain ⟨ε', hε, he', hx⟩ := h.pool.intern h.wfB h.wfA hc hparts
  have hpartsA : ∀ j ∈ (it.map ε (shiftFrom n k)).parts, j.raw < stA.pool.size := fun j hj => by
    rw [Item.parts_map] at hj
    obtain ⟨a, ha, rfl⟩ := List.mem_map.1 hj
    exact h.pool.lt a (hparts a ha)
  have hg := Pool.grows_intern h.wfB it
  rw [build_run, build_run]
  exact ⟨ε', hε, h.grow (h.wfB.intern hc hparts)
    (h.wfA.intern (by rw [Item.isCompound_map, hc]) hpartsA) he' hε hg.size_le, hg,
    (h.wfB.intern_fst it).1, hx⟩

/-- Returning a handle of `B`, and its image. -/
theorem reaches_pure (h : Embeds n k ε σB σA stB stA) {x : Idx} (hx : x.raw < stB.pool.size) :
    Reaches n k σB σA ε stB ((pure x : RewriteM Idx).run stB) ((pure (ε x) : RewriteM Idx).run stA) :=
  ⟨ε, SameBelow.refl _ _, h, .refl _, hx, rfl⟩

/-- A step followed by steps that correspond from whatever it reaches. -/
theorem reaches_bind {xB xA : RewriteM Idx} {fB fA : Idx → RewriteM Idx}
    (hx : Reaches n k σB σA ε stB (xB.run stB) (xA.run stA))
    (hf : ∀ (ε₁ : Idx → Idx) (rB rA : Idx × Rewrite), SameBelow stB.pool.size ε ε₁ →
      Embeds n k ε₁ σB σA rB.2 rA.2 → stB.pool.Grows rB.2.pool → rB.1.raw < rB.2.pool.size →
      rA.1 = ε₁ rB.1 → Reaches n k σB σA ε₁ rB.2 ((fB rB.1).run rB.2) ((fA rA.1).run rA.2)) :
    Reaches n k σB σA ε stB ((xB >>= fB).run stB) ((xA >>= fA).run stA) := by
  obtain ⟨ε₁, hε₁, h₁, hg₁, hv₁, hx₁⟩ := hx
  obtain ⟨ε₂, hε₂, h₂, hg₂, hv₂, hx₂⟩ := hf ε₁ _ _ hε₁ h₁ hg₁ hv₁ hx₁
  exact ⟨ε₂, hε₁.trans hε₂ hg₁.size_le, h₂, hg₁.trans hg₂, hv₂, hx₂⟩

/-- A step over a list followed by steps that correspond from whatever it reaches. -/
theorem reaches_bind_all {xB xA : RewriteM (List Idx)} {fB fA : List Idx → RewriteM Idx}
    (hx : ReachesAll n k σB σA ε stB (xB.run stB) (xA.run stA))
    (hf : ∀ (ε₁ : Idx → Idx) (rB : List Idx × Rewrite) (rA : List Idx × Rewrite),
      SameBelow stB.pool.size ε ε₁ → Embeds n k ε₁ σB σA rB.2 rA.2 →
      stB.pool.Grows rB.2.pool → (∀ o ∈ rB.1, o.raw < rB.2.pool.size) → rA.1 = rB.1.map ε₁ →
      Reaches n k σB σA ε₁ rB.2 ((fB rB.1).run rB.2) ((fA rA.1).run rA.2)) :
    Reaches n k σB σA ε stB ((xB >>= fB).run stB) ((xA >>= fA).run stA) := by
  obtain ⟨ε₁, hε₁, h₁, hg₁, hv₁, hx₁⟩ := hx
  obtain ⟨ε₂, hε₂, h₂, hg₂, hv₂, hx₂⟩ := hf ε₁ _ _ hε₁ h₁ hg₁ hv₁ hx₁
  exact ⟨ε₂, hε₁.trans hε₂ hg₁.size_le, h₂, hg₁.trans hg₂, hv₂, hx₂⟩

/-- Remembering a step's result for a resolved handle of `B`, and for its image, then returning
it. -/
theorem reaches_remember (h : Embeds n k ε σB σA stB stA) {ri out : Idx}
    (hri : ri.raw < stB.pool.size) (hout : out.raw < stB.pool.size) :
    Reaches n k σB σA ε stB ((do remember ri out; pure out : RewriteM Idx).run stB)
      ((do remember (ε ri) (ε out); pure (ε out) : RewriteM Idx).run stA) :=
  ⟨ε, SameBelow.refl _ _, h.remember hri hout, .refl _, hout, rfl⟩

/-- Corresponding steps over a list of handles of `B` and over their images, each step from the
state the previous one left. -/
theorem mapM_embeds {B₀ : Pool} {P : Idx → Prop} {fB fA : Idx → RewriteM Idx}
    (hf : ∀ i ε stB stA, Embeds n k ε σB σA stB stA → B₀.Grows stB.pool → P i →
      Reaches n k σB σA ε stB ((fB i).run stB) ((fA (ε i)).run stA)) :
    ∀ (is : List Idx) (ε : Idx → Idx) (stB stA : Rewrite), Embeds n k ε σB σA stB stA →
      B₀.Grows stB.pool → (∀ i ∈ is, P i) → (∀ i ∈ is, i.raw < stB.pool.size) →
      ReachesAll n k σB σA ε stB ((is.mapM fB).run stB) (((is.map ε).mapM fA).run stA)
  | [], ε, _, _, h, _, _, _ =>
    ⟨ε, SameBelow.refl _ _, h, .refl _, fun _ ho => absurd ho List.not_mem_nil, rfl⟩
  | i :: is, ε, stB, stA, h, hg, hP, hv => by
    rw [List.map_cons, List.mapM_cons, List.mapM_cons]
    simp only [run_bind, run_pure]
    obtain ⟨ε₁, hε₁, h₁, hg₁, hv₁, hx₁⟩ := hf i ε stB stA h hg (hP i List.mem_cons_self)
    -- the rest are images of handles of `stB`, where `ε₁` agrees with `ε`
    have hmap : is.map ε = is.map ε₁ := List.map_congr_left fun j hj =>
      (hε₁ j (hv j (List.mem_cons_of_mem i hj))).symm
    rw [hmap]
    generalize (fB i).run stB = r₁ at h₁ hg₁ hv₁ hx₁ ⊢
    generalize (fA (ε i)).run stA = q₁ at h₁ hx₁ ⊢
    obtain ⟨ε₂, hε₂, h₂, hg₂, hv₂, hx₂⟩ := mapM_embeds hf is ε₁ r₁.2 q₁.2 h₁ (hg.trans hg₁)
      (fun j hj => hP j (List.mem_cons_of_mem i hj))
      (fun j hj => Nat.lt_of_lt_of_le (hv j (List.mem_cons_of_mem i hj)) hg₁.size_le)
    generalize (is.mapM fB).run r₁.2 = r₂ at hε₂ h₂ hg₂ hv₂ hx₂ ⊢
    generalize ((is.map ε₁).mapM fA).run q₁.2 = q₂ at h₂ hx₂ ⊢
    refine ⟨ε₂, hε₁.trans hε₂ hg₁.size_le, h₂, hg₁.trans hg₂, fun o ho => ?_, ?_⟩
    · rcases List.mem_cons.1 ho with rfl | ho
      · exact Nat.lt_of_lt_of_le hv₁ hg₂.size_le
      · exact hv₂ o ho
    · show q₁.1 :: q₂.1 = (r₁.1 :: r₂.1).map ε₂
      rw [List.map_cons, hx₁, hx₂, hε₂ r₁.1 hv₁]

/-- A walk in `B` from a handle of the pool `B₀` the walk started on, and the walk in `A` from its
image, correspond whenever both budgets exceed the handle's rank in `B₀`. -/
theorem substWithin_embeds {B₀ : Pool} (hB₀ : B₀.WF) :
    ∀ (mB mA : Nat) (i : Idx) (ε : Idx → Idx) (stB stA : Rewrite),
      Embeds n k ε σB σA stB stA → B₀.Grows stB.pool → i.raw < B₀.size →
      B₀.rank i < mB → B₀.rank i < mA →
      Reaches n k σB σA ε stB ((substWithin σB mB i).run stB) ((substWithin σA mA (ε i)).run stA)
  | 0, _, _, _, _, _, _, _, _, hB, _ => absurd hB (Nat.not_lt_zero _)
  | _ + 1, 0, _, _, _, _, _, _, _, _, hA => absurd hA (Nat.not_lt_zero _)
  | mB + 1, mA + 1, i, ε, stB, stA, h, hg, hi, hrB, hrA => by
    have hP := h.wfB
    have hPA := h.wfA
    have he := h.pool
    have hiP : i.raw < stB.pool.size := Nat.lt_of_lt_of_le hi hg.size_le
    have hri : (stB.pool.resolve i).raw < B₀.size := by
      rw [hg.resolve_eq hB₀ hP hi]
      exact Pool.resolve_lt_size hB₀ hi
    have hriP := Nat.lt_of_lt_of_le hri hg.size_le
    rw [substWithin, substWithin]
    simp only [StateT.run_bind, StateT.run_get, pure_bind]
    rw [he.hasVars hP hPA hiP, he.resolve hP hPA hiP, he.hasVars hP hPA hriP, h.done _ hriP,
      he.item _ hriP]
    -- what the walk has found for the resolved handle is kept by both pools from here on
    have hkeep : ∀ {ε₁ : Idx → Idx} {stB' : Rewrite}, SameBelow stB.pool.size ε ε₁ →
        stB.pool.Grows stB'.pool → ε₁ (stB.pool.resolve i) = ε (stB.pool.resolve i) ∧
          (stB.pool.resolve i).raw < stB'.pool.size := fun hε hg' =>
      ⟨hε _ hriP, Nat.lt_of_lt_of_le hriP hg'.size_le⟩
    -- the parts of the resolved item lie below it in `B₀`, at lower rank
    have below : ∀ {j}, j ∈ (stB.pool.item (stB.pool.resolve i)).parts →
        j.raw < B₀.size ∧ B₀.rank j < mB ∧ B₀.rank j < mA := fun {j} hj => by
      rw [hg.item_eq _ hri, hg.resolve_eq hB₀ hP hi] at hj
      have hs : B₀.Succ (B₀.resolve i) j := Or.inl hj
      have := hB₀.rank_lt_of_succ hs
      have := Pool.rank_resolve_le hB₀ i
      exact ⟨hB₀.closed _ _ hs, by omega, by omega⟩
    cases hvi : stB.pool.hasVars i
    · simp only [Bool.not_false, ↓reduceIte]
      exact reaches_pure h hiP
    simp only [Bool.not_true, Bool.false_eq_true, ↓reduceIte]
    cases hvr : stB.pool.hasVars (stB.pool.resolve i)
    · simp only [Bool.not_false, ↓reduceIte]
      exact reaches_pure h hriP
    simp only [Bool.not_true, Bool.false_eq_true, ↓reduceIte]
    cases hd : stB.done[stB.pool.resolve i]? with
    | some out =>
      simp only [Option.map_some]
      exact reaches_pure h (h.valid _ out hd).2
    | none =>
      simp only [Option.map_none]
      cases hit : stB.pool.item (stB.pool.resolve i) with
      | var v =>
        simp only [Item.map]
        rw [h.lookup v, Option.getD_map]
        refine reaches_remember h hriP ?_
        cases hl : σB.lookup v with
        | none => exact hriP
        | some j => exact h.images v j hl
      | prim q =>
        exact reaches_remember h hriP hriP
      | fn a r =>
        simp only [Item.map]
        rw [hit] at below
        have ha := below (List.mem_cons_self)
        have hr := below (List.mem_cons_of_mem _ List.mem_cons_self)
        refine reaches_bind (substWithin_embeds hB₀ mB mA a ε stB stA h hg ha.1 ha.2.1 ha.2.2)
          fun ε₁ rB rA hε₁ h₁ hg₁ hv₁ hx₁ => ?_
        rw [← hε₁ r (Nat.lt_of_lt_of_le hr.1 hg.size_le)]
        refine reaches_bind (substWithin_embeds hB₀ mB mA r ε₁ rB.2 rA.2 h₁ (hg.trans hg₁) hr.1
          hr.2.1 hr.2.2) fun ε₂ rB' rA' hε₂ h₂ hg₂ hv₂ hx₂ => ?_
        rw [hx₁, ← hε₂ rB.1 hv₁, hx₂]
        have hb := h₂.build (rfl : (Item.fn rB.1 rB'.1).isCompound = true) (by
          simp only [Item.parts, List.mem_cons, List.not_mem_nil, or_false]
          rintro j (rfl | rfl)
          exacts [Nat.lt_of_lt_of_le hv₁ hg₂.size_le, hv₂])
        refine reaches_bind hb fun ε₃ rB'' rA'' hε₃ h₃ hg₃ hv₃ hx₃ => ?_
        have hgall := hg₁.trans (hg₂.trans hg₃)
        rw [hx₃, ← (hkeep (hε₁.trans (hε₂.trans hε₃ hg₂.size_le) hg₁.size_le) hgall).1]
        exact reaches_remember h₃ (hkeep (SameBelow.refl _ _) hgall).2 hv₃
      | user name args =>
        simp only [Item.map]
        rw [hit] at below
        refine reaches_bind_all (mapM_embeds
          (P := fun j => j.raw < B₀.size ∧ B₀.rank j < mB ∧ B₀.rank j < mA)
          (fun j ε stB stA h hg hj => substWithin_embeds hB₀ mB mA j ε stB stA h hg hj.1 hj.2.1
            hj.2.2) args ε stB stA h hg (fun j hj => below hj)
          (fun j hj => Nat.lt_of_lt_of_le (below hj).1 hg.size_le))
          fun ε₁ rB rA hε₁ h₁ hg₁ hv₁ hx₁ => ?_
        rw [hx₁]
        refine reaches_bind (h₁.build (rfl : (Item.user name rB.1).isCompound = true) hv₁)
          fun ε₂ rB' rA' hε₂ h₂ hg₂ hv₂ hx₂ => ?_
        have hgall := hg₁.trans hg₂
        rw [hx₂, ← (hkeep (hε₁.trans hε₂ hg₁.size_le) hgall).1]
        exact reaches_remember h₂ (hkeep (SameBelow.refl _ _) hgall).2 hv₂

/-- A call of `substitute` on a handle of `B` and on its image: each walk runs within its own
pool's size, and both exceed the rank of the handle. -/
theorem substitute_embeds (h : Embeds n k ε σB σA stB stA) {i : Idx} (hi : i.raw < stB.pool.size) :
    Reaches n k σB σA ε stB ((substitute σB i).run stB) ((substitute σA (ε i)).run stA) :=
  substWithin_embeds h.wfB _ _ i ε stB stA h (.refl _) hi (h.wfB.rank_lt i)
    (Nat.lt_of_lt_of_le (h.wfB.rank_lt i) h.pool.size_le)

/-- Deep resolution of a table's entries, one after another in a pass, keeps the node ids and
rewrites each handle and its image correspondingly. -/
theorem deep_embeds (h : Embeds n k ε [] [] stB stA) {xs : List (Nat × Idx)}
    (hxs : ∀ x ∈ xs, x.2.raw < stB.pool.size) :
    ReachesPairs n k [] [] ε stB
      ((xs.mapM fun (x : Nat × Idx) => do return (x.1, ← substitute [] x.2)).run stB)
      (((xs.map (Prod.map id ε)).mapM fun (x : Nat × Idx) => do
        return (x.1, ← substitute [] x.2)).run stA) := by
  induction xs generalizing ε stB stA with
  | nil => exact ⟨ε, SameBelow.refl _ _, h, .refl _, fun _ hy => absurd hy List.not_mem_nil, rfl⟩
  | cons x xs ih =>
    rw [List.map_cons, List.mapM_cons, List.mapM_cons]
    simp only [run_bind, run_pure]
    obtain ⟨ε₁, hε₁, h₁, hg₁, hv₁, hx₁⟩ := substitute_embeds h (hxs x List.mem_cons_self)
    have hmap : xs.map (Prod.map id ε) = xs.map (Prod.map id ε₁) := List.map_congr_left
      fun y hy => by simp [Prod.map, hε₁ y.2 (hxs y (List.mem_cons_of_mem x hy))]
    rw [Prod.map_snd, Prod.map_fst, hmap]
    generalize (substitute [] x.2).run stB = r₁ at h₁ hg₁ hv₁ hx₁ ⊢
    generalize (substitute [] (ε x.2)).run stA = q₁ at h₁ hx₁ ⊢
    obtain ⟨ε₂, hε₂, h₂, hg₂, hv₂, hx₂⟩ := ih h₁
      (fun y hy => Nat.lt_of_lt_of_le (hxs y (List.mem_cons_of_mem x hy)) hg₁.size_le)
    refine ⟨ε₂, hε₁.trans hε₂ hg₁.size_le, h₂, hg₁.trans hg₂, fun y hy => ?_, ?_⟩
    · rcases List.mem_cons.1 hy with rfl | hy
      · exact Nat.lt_of_lt_of_le hv₁ hg₂.size_le
      · exact hv₂ y hy
    · simp only [id_eq, List.map_cons, Prod.map, hx₂, hx₁, hε₂ r₁.1 hv₁]

end Rewrite

end TagML
