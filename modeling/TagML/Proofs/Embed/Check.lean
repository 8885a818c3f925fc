import TagML.Proofs.Embed.Infer

/-!
Checking a program form by form reads the same from a checker and from one it embeds in.

`Checker.Embeds` relates two checkers: the pools embed through `ε`, and the context of the second
is the context of the first sent through `ε` and the renaming.  A type definition builds the same
catalogue in both, up to the embedding (`Catalogue.build_reaches`): its parameters and `_`
arguments get fresh variables whose ids the renaming sends to one another, since both pools count
their variables from corresponding places.  An evaluated expression or a binding is inferred
alike (`infer_embeds`) and settled alike (`Engine.Embeds.settle`).  So checking a form from
embedded checkers ends in embedded checkers, `ε` extended past what the first allocated, and in
results that correspond (`Checker.Embeds.checkForm`), and so does checking a list of forms one
after another, whatever fails on the way (`Checker.Embeds.checkEach`).
-/
namespace TagML

open Pool (SameBelow)

/-! ## Catalogues -/

/-- A catalogue with its signatures sent through `ε` and `ψ`. -/
def Catalogue.map (ε : Idx → Idx) (ψ : Nat → Nat) (cat : Catalogue) : Catalogue :=
  { cat with tags := cat.tags.map (TagSig.map ε ψ) }

theorem Env.ofList_map {α β : Type} (f : α → β) (l : List (String × α)) :
    Env.ofList (l.map (Prod.map id f)) = (Env.ofList l).map f := by
  have h : (Env.ofList (l.map (Prod.map id f))).bindings = ((Env.ofList l).map f).bindings := by
    simp only [Env.bindings_ofList, Env.bindings_map, List.map_reverse]
    rfl
  exact Env.ext h (by simp [Env.map])

/-- Ids counted up from a first id at or above `n` are renamed by shifting the first. -/
theorem range_map_shift {n k first : Nat} (hf : n ≤ first) (m : Nat) :
    (List.range m).map (first + k + ·) = ((List.range m).map (first + ·)).map (shiftFrom n k) := by
  rw [List.map_map]
  refine List.map_congr_left fun j _ => ?_
  rw [Function.comp_apply, shiftFrom_of_le (Nat.le_trans hf (Nat.le_add_right first j))]
  omega

namespace Pool

/-- Every signature of `sigs` has its types in `p`. -/
def ValidSigs (p : Pool) (sigs : List TagSig) : Prop :=
  ∀ s ∈ sigs, (∀ a ∈ s.args, a.raw < p.size) ∧ s.result.raw < p.size

/-- What corresponding pool operations reach from embedded pools, with results related by `R`:
well-formed pools embedded through `ε` extended past the handles of `B`, and a pool of `B` that
only grew. -/
def ReachesBy {α β : Type} (R : (Idx → Idx) → Pool → α → β → Prop) (n k : Nat) (ε : Idx → Idx)
    (B : Pool) (rB : α × Pool) (rA : β × Pool) : Prop :=
  ∃ ε', SameBelow B.size ε ε' ∧ rB.2.WF ∧ rA.2.WF ∧ rB.2.Embeds n k ε' rA.2 ∧ B.Grows rB.2 ∧
    R ε' rB.2 rB.1 rA.1

variable {n k : Nat} {ε ε₁ : Idx → Idx} {B B₁ A : Pool}

theorem ReachesBy.after {α β : Type} {R : (Idx → Idx) → Pool → α → β → Prop}
    (hε : SameBelow B.size ε ε₁) (hg : B.Grows B₁) {rB : α × Pool} {rA : β × Pool}
    (h : ReachesBy R n k ε₁ B₁ rB rA) : ReachesBy R n k ε B rB rA := by
  obtain ⟨ε₂, hε₂, hB₂, hA₂, he₂, hg₂, hR⟩ := h
  exact ⟨ε₂, hε.trans hε₂ hg.size_le, hB₂, hA₂, he₂, hg.trans hg₂, hR⟩

namespace Embeds

/-- Fresh variables allocated one after another in `B` and in `A`. -/
theorem freshMany_reaches : ∀ {ε : Idx → Idx} {B A : Pool}, B.WF → A.WF → B.Embeds n k ε A →
    ∀ m : Nat, ReachesAll n k ε B (B.freshMany m) (A.freshMany m)
  | ε, _, _, hB, hA, he, 0 =>
    ⟨ε, SameBelow.refl _ _, hB, hA, he, .refl _, fun _ h => absurd h List.not_mem_nil, rfl⟩
  | _, B, A, hB, hA, he, m + 1 => by
    simp only [Pool.freshMany]
    obtain ⟨ε₁, hε₁, hB₁, hA₁, he₁, hg₁, hv₁, hx₁⟩ := he.fresh_reaches hB hA
    generalize B.fresh = rB at hB₁ he₁ hg₁ hv₁ hx₁ ⊢
    generalize A.fresh = rA at hA₁ he₁ hx₁ ⊢
    obtain ⟨tB, B₁⟩ := rB
    obtain ⟨tA, A₁⟩ := rA
    dsimp only at hB₁ hA₁ he₁ hg₁ hv₁ hx₁ ⊢
    subst hx₁
    exact ReachesAll.cons hε₁ hg₁ hv₁ (freshMany_reaches hB₁ hA₁ he₁ m)

/-- The signatures of an item's tags, built in `B` and in `A` from the images of the
parameters, the renamed quantified ids and the image of the result type. -/
theorem tagSigs_reaches {params : Env Idx} {bounded : List Nat} {result : Idx} :
    ∀ {ε : Idx → Idx} {B A : Pool}, B.WF → A.WF → B.Embeds n k ε A →
      (∀ b ∈ params.bindings, b.2.raw < B.size) → result.raw < B.size →
      ∀ (index : Nat) (ds : List TagDecl),
      ReachesBy (fun ε' p sB sA => p.ValidSigs sB ∧ sA = sB.map (TagSig.map ε' (shiftFrom n k)))
        n k ε B (TypeItem.tagSigs params bounded result B index ds)
        (TypeItem.tagSigs (params.map ε) (bounded.map (shiftFrom n k)) (ε result) A index ds)
  | ε, _, _, hB, hA, he, _, _, _, [] =>
    ⟨ε, SameBelow.refl _ _, hB, hA, he, .refl _, fun _ h => absurd h List.not_mem_nil, rfl⟩
  | ε, B, A, hB, hA, he, hp, hr, index, d :: ds => by
    simp only [TypeItem.tagSigs]
    obtain ⟨ε₁, hε₁, hB₁, hA₁, he₁, hg₁, hv₁, hx₁⟩ := resolveList_reaches hB hA he hp d.args
    generalize TypeExpr.resolveList params B d.args = rB at hB₁ he₁ hg₁ hv₁ hx₁ ⊢
    generalize TypeExpr.resolveList (params.map ε) A d.args = rA at hA₁ he₁ hx₁ ⊢
    obtain ⟨argsB, B₁⟩ := rB
    obtain ⟨argsA, A₁⟩ := rA
    dsimp only at hB₁ hA₁ he₁ hg₁ hv₁ hx₁ ⊢
    subst hx₁
    -- the tag's own variables are those its arguments allocated, counted alike in both pools
    have hown : (List.range (A₁.varCount - A.varCount)).map (A.varCount + ·) =
        ((List.range (B₁.varCount - B.varCount)).map (B.varCount + ·)).map (shiftFrom n k) := by
      rw [he₁.varCount, he.varCount, Nat.add_sub_add_right]
      exact range_map_shift he.le _
    have hr₁ := Nat.lt_of_lt_of_le hr hg₁.size_le
    rw [hown, ← hε₁ result hr, ← Env.map_congr fun b hb => hε₁ b.2 (hp b hb)]
    obtain ⟨ε₂, hε₂, hB₂, hA₂, he₂, hg₂, hv₂, hx₂⟩ := tagSigs_reaches hB₁ hA₁ he₁
      (fun b hb => Nat.lt_of_lt_of_le (hp b hb) hg₁.size_le) hr₁ (index + 1) ds
    generalize TypeItem.tagSigs params bounded result B₁ (index + 1) ds = rB
      at hB₂ he₂ hg₂ hv₂ hx₂ ⊢
    generalize TypeItem.tagSigs (params.map ε₁) (bounded.map (shiftFrom n k)) (ε₁ result) A₁
      (index + 1) ds = rA at hA₂ he₂ hx₂ ⊢
    obtain ⟨sigsB, B₂⟩ := rB
    obtain ⟨sigsA, A₂⟩ := rA
    dsimp only at hB₂ hA₂ he₂ hg₂ hv₂ hx₂ ⊢
    subst hx₂
    refine ⟨ε₂, hε₁.trans hε₂ hg₁.size_le, hB₂, hA₂, he₂, hg₁.trans hg₂, ⟨fun s hs => ?_, ?_⟩⟩
    · rcases List.mem_cons.1 hs with rfl | hs
      · exact ⟨fun a ha => Nat.lt_of_lt_of_le (hv₁ a ha) hg₂.size_le,
          Nat.lt_of_lt_of_le hr₁ hg₂.size_le⟩
      · exact hv₂ s hs
    · rw [List.map_cons, TagSig.map_congr hv₁ hr₁ hε₂]
      simp only [TagSig.map, List.map_append]

/-- The tags of one type, built in `B` and in `A`. -/
theorem build_reaches (hB : B.WF) (hA : A.WF) (he : B.Embeds n k ε A) (item : TypeItem) :
    ReachesBy (fun ε' p sB sA => p.ValidSigs sB ∧ sA = sB.map (TagSig.map ε' (shiftFrom n k)))
      n k ε B (item.build B) (item.build A) := by
  simp only [TypeItem.build]
  obtain ⟨ε₁, hε₁, hB₁, hA₁, he₁, hg₁, hv₁, hx₁⟩ :=
    freshMany_reaches hB hA he item.params.length
  generalize B.freshMany item.params.length = rB at hB₁ he₁ hg₁ hv₁ hx₁ ⊢
  generalize A.freshMany item.params.length = rA at hA₁ he₁ hx₁ ⊢
  obtain ⟨varsB, B₁⟩ := rB
  obtain ⟨varsA, A₁⟩ := rA
  dsimp only at hB₁ hA₁ he₁ hg₁ hv₁ hx₁ ⊢
  subst hx₁
  -- the parameters are the images of `B`'s fresh variables, and quantified under renamed ids
  rw [List.zip_map_right, Env.ofList_map, he.varCount, range_map_shift he.le]
  obtain ⟨ε₂, hε₂, hB₂, hA₂, he₂, hg₂, hv₂, hx₂⟩ := he₁.user_reaches hB₁ hA₁ item.name hv₁
  generalize B₁.user item.name varsB = rB at hB₂ he₂ hg₂ hv₂ hx₂ ⊢
  generalize A₁.user item.name (varsB.map ε₁) = rA at hA₂ he₂ hx₂ ⊢
  obtain ⟨resB, B₂⟩ := rB
  obtain ⟨resA, A₂⟩ := rA
  dsimp only at hB₂ hA₂ he₂ hg₂ hv₂ hx₂ ⊢
  subst hx₂
  have hparams : ∀ b ∈ (Env.ofList (item.params.zip varsB)).bindings, b.2.raw < B₁.size := by
    intro b hb
    rw [Env.bindings_ofList, List.mem_reverse] at hb
    exact hv₁ b.2 (List.of_mem_zip hb).2
  rw [← Env.map_congr fun b hb => hε₂ b.2 (hparams b hb)]
  exact ((tagSigs_reaches hB₂ hA₂ he₂ (fun b hb => Nat.lt_of_lt_of_le (hparams b hb) hg₂.size_le)
    hv₂ 0 item.tags).after hε₂ hg₂).after hε₁ hg₁

end Embeds

end Pool

/-- One item of a type definition: its signatures put behind those gathered so far, in the pool
its build leaves. -/
def Catalogue.addItem (acc : Env TagSig × Pool) (item : TypeItem) : Env TagSig × Pool :=
  (acc.1.append (Env.ofList ((item.build acc.2).1.map fun t => (t.name, t))), (item.build acc.2).2)

/-- A catalogue gathers the signatures of its items one item after another. -/
theorem Catalogue.build_eq (items : List TypeItem) (s : Pool) :
    Catalogue.build items s =
      ({ arities := Env.ofList (items.map fun item => (item.name, item.params.length))
         tags := (items.foldl Catalogue.addItem ({}, s)).1
         declared := items.flatMap fun item => item.tags.map (·.name) },
        (items.foldl Catalogue.addItem ({}, s)).2) := rfl

namespace Pool.Embeds

variable {n k : Nat} {ε : Idx → Idx} {B A : Pool}

/-- Signatures gathered in `B`, in a pool embedded in `A`, and their images gathered in `A`. -/
abbrev TagsReach (n k : Nat) (ε : Idx → Idx) (B : Pool) : Env TagSig × Pool → Env TagSig × Pool → Prop :=
  ReachesBy (fun ε' p tB tA => p.ValidTags tB ∧ tA = tB.map (TagSig.map ε' (shiftFrom n k))) n k ε B

theorem addItem_reaches {accB accA : Env TagSig × Pool} (h : TagsReach n k ε B accB accA)
    (item : TypeItem) : TagsReach n k ε B (Catalogue.addItem accB item) (Catalogue.addItem accA item) := by
  obtain ⟨ε₁, hε₁, hB₁, hA₁, he₁, hg₁, hv₁, hx₁⟩ := h
  obtain ⟨ε₂, hε₂, hB₂, hA₂, he₂, hg₂, hsv, hsx⟩ := build_reaches hB₁ hA₁ he₁ item
  refine ⟨ε₂, hε₁.trans hε₂ hg₁.size_le, hB₂, hA₂, he₂, hg₁.trans hg₂, fun b hb => ?_, ?_⟩
  · simp only [Catalogue.addItem, Env.bindings_append, Env.bindings_ofList, List.mem_append,
      List.mem_reverse, List.mem_map] at hb
    rcases hb with hb | ⟨s, hs, rfl⟩
    · exact ⟨fun a ha => Nat.lt_of_lt_of_le ((hv₁ b hb).1 a ha) hg₂.size_le,
        Nat.lt_of_lt_of_le (hv₁ b hb).2 hg₂.size_le⟩
    · exact hsv s hs
  · simp only [Catalogue.addItem]
    rw [hsx, hx₁, (hv₁.map_congr hε₂).symm, Env.map_append, List.map_map, ← Env.ofList_map,
      List.map_map]
    rfl

/-- A type definition's catalogue, built in `B` and in `A`. -/
theorem catalogue_reaches (hB : B.WF) (hA : A.WF) (he : B.Embeds n k ε A) (items : List TypeItem) :
    ReachesBy (fun ε' p cB cA => p.ValidTags cB.tags ∧ cA = cB.map ε' (shiftFrom n k)) n k ε B
      (Catalogue.build items B) (Catalogue.build items A) := by
  rw [Catalogue.build_eq, Catalogue.build_eq]
  -- the signatures gathered so far correspond from one item to the next
  have hfold : TagsReach n k ε B (items.foldl Catalogue.addItem ({}, B))
      (items.foldl Catalogue.addItem ({}, A)) := by
    refine List.rel_foldl (R := Eq) ?_ ?_ (List.forall₂_same.2 fun _ _ => rfl)
    · intro accB accA hacc item item' hitem
      subst hitem
      exact addItem_reaches hacc item
    · exact ⟨ε, SameBelow.refl _ _, hB, hA, he, .refl _, fun _ hb => absurd hb List.not_mem_nil, rfl⟩
  obtain ⟨ε', hε', hB', hA', he', hg', hv', hx'⟩ := hfold
  exact ⟨ε', hε', hB', hA', he', hg', hv', by rw [hx']; rfl⟩

end Pool.Embeds

/-! ## Settling -/

namespace Engine.Embeds

variable {n k : Nat} {ε : Idx → Idx} {eB eA : Engine}

/-- Sorting entries by node id commutes with sending their handles through `ε`. -/
theorem mergeSort_map (ε : Idx → Idx) (xs : List (Nat × Idx)) :
    (xs.map (Prod.map id ε)).mergeSort (fun a b => a.1 ≤ b.1) =
      (xs.mergeSort (fun a b => a.1 ≤ b.1)).map (Prod.map id ε) := by
  rw [List.map_mergeSort]
  intro _ _ _ _
  rfl

/-- Finishing related engines resolves and sorts their tables alike. -/
theorem finish (h : Engine.Embeds n k ε eB eA) :
    Pool.ReachesBy (fun ε' p tB tA => tB.Valid p ∧ tA = tB.map ε') n k ε eB.pool eB.finish
      eA.finish := by
  obtain ⟨B, t⟩ := eB
  obtain ⟨A, tA⟩ := eA
  obtain ⟨hB, hA, he, hv, htab⟩ := h
  dsimp only at hB hA he hv htab
  subst htab
  obtain ⟨hve, hvs, hvp⟩ := hv
  simp only [Engine.finish, Pool.rewrite, Rewrite.run_bind, Rewrite.run_pure, Tables.map]
  -- the pass resolves the three lists one after the other, in both pools alike
  obtain ⟨ε₁, hε₁, h₁, hg₁, hv₁, hx₁⟩ := Rewrite.deep_embeds
    (Rewrite.Embeds.start hB hA he (fun _ _ h => by cases h) (fun _ => rfl)) hve
  generalize (t.exprs.mapM fun (x : Nat × Idx) => do
    return (x.1, ← Rewrite.substitute [] x.2)).run { pool := B } = r₁ at hε₁ h₁ hg₁ hv₁ hx₁ ⊢
  generalize ((t.exprs.map (Prod.map id ε)).mapM fun (x : Nat × Idx) => do
    return (x.1, ← Rewrite.substitute [] x.2)).run { pool := A } = q₁ at h₁ hx₁ ⊢
  have hslots₁ : t.slots.map (Prod.map id ε) = t.slots.map (Prod.map id ε₁) :=
    List.map_congr_left fun x hx => by simp only [Prod.map, hε₁ x.2 (hvs x hx)]
  rw [hslots₁]
  obtain ⟨ε₂, hε₂, h₂, hg₂, hv₂, hx₂⟩ := Rewrite.deep_embeds h₁
    fun x hx => Nat.lt_of_lt_of_le (hvs x hx) hg₁.size_le
  generalize (t.slots.mapM fun (x : Nat × Idx) => do
    return (x.1, ← Rewrite.substitute [] x.2)).run r₁.2 = r₂ at hε₂ h₂ hg₂ hv₂ hx₂ ⊢
  generalize ((t.slots.map (Prod.map id ε₁)).mapM fun (x : Nat × Idx) => do
    return (x.1, ← Rewrite.substitute [] x.2)).run q₁.2 = q₂ at h₂ hx₂ ⊢
  have hε₀₂ := hε₁.trans hε₂ hg₁.size_le
  have hpats₂ : t.pats.map (Prod.map id ε) = t.pats.map (Prod.map id ε₂) :=
    List.map_congr_left fun x hx => by simp only [Prod.map, hε₀₂ x.2 (hvp x hx)]
  rw [hpats₂]
  obtain ⟨ε₃, hε₃, h₃, hg₃, hv₃, hx₃⟩ := Rewrite.deep_embeds h₂
    fun x hx => Nat.lt_of_lt_of_le (hvp x hx) (hg₁.trans hg₂).size_le
  generalize (t.pats.mapM fun (x : Nat × Idx) => do
    return (x.1, ← Rewrite.substitute [] x.2)).run r₂.2 = r₃ at hε₃ h₃ hg₃ hv₃ hx₃ ⊢
  generalize ((t.pats.map (Prod.map id ε₂)).mapM fun (x : Nat × Idx) => do
    return (x.1, ← Rewrite.substitute [] x.2)).run q₂.2 = q₃ at h₃ hx₃ ⊢
  -- every list read in the last pool, where `ε₃` agrees with the earlier embeddings
  have hexprs : q₁.1 = r₁.1.map (Prod.map id ε₃) := by
    rw [hx₁]
    exact List.map_congr_left fun x hx => by
      simp only [Prod.map, (hε₂.trans hε₃ hg₂.size_le) x.2 (hv₁ x hx)]
  have hslots : q₂.1 = r₂.1.map (Prod.map id ε₃) := by
    rw [hx₂]
    exact List.map_congr_left fun x hx => by simp only [Prod.map, hε₃ x.2 (hv₂ x hx)]
  refine ⟨ε₃, hε₀₂.trans hε₃ (hg₁.trans hg₂).size_le, h₃.wfB, h₃.wfA, h₃.pool,
    hg₁.trans (hg₂.trans hg₃), ⟨?_, ?_, ?_⟩, ?_⟩
  · intro x hx
    rw [List.mem_mergeSort] at hx
    exact Nat.lt_of_lt_of_le (hv₁ x hx) (hg₂.trans hg₃).size_le
  · intro x hx
    rw [List.mem_mergeSort] at hx
    exact Nat.lt_of_lt_of_le (hv₂ x hx) hg₃.size_le
  · intro x hx
    rw [List.mem_mergeSort] at hx
    exact hv₃ x hx
  · simp only [hexprs, hslots, hx₃, mergeSort_map]

/-- Settling related engines at a handle and at its image resolves the type and the tables
alike. -/
theorem settle (h : Engine.Embeds n k ε eB eA) {i : Idx} (hi : i.raw < eB.pool.size) :
    ∃ ε', SameBelow eB.pool.size ε ε' ∧ (eB.settle i).2.2.WF ∧ (eA.settle (ε i)).2.2.WF ∧
      (eB.settle i).2.2.Embeds n k ε' (eA.settle (ε i)).2.2 ∧ eB.pool.Grows (eB.settle i).2.2 ∧
      (eB.settle i).1.raw < (eB.settle i).2.2.size ∧ (eA.settle (ε i)).1 = ε' (eB.settle i).1 ∧
      (eB.settle i).2.1.Valid (eB.settle i).2.2 ∧
      (eA.settle (ε i)).2.1 = (eB.settle i).2.1.map ε' := by
  have hpool := h.pool
  obtain ⟨B, t⟩ := eB
  obtain ⟨A, tA⟩ := eA
  dsimp only at hi hpool ⊢
  simp only [Engine.settle]
  obtain ⟨ε₁, hε₁, hB₁, hA₁, he₁, hg₁, hty, hx₁⟩ := hpool.resolveDeep_reaches h.wfB h.wfA hi
  have h₁ := h.repool hB₁ hA₁ he₁ hε₁ hg₁.size_le
  generalize B.resolveDeep i = rB at hB₁ he₁ hg₁ hty hx₁ h₁ ⊢
  generalize A.resolveDeep (ε i) = rA at hA₁ he₁ hx₁ h₁ ⊢
  obtain ⟨tyB, B₁⟩ := rB
  obtain ⟨tyA, A₁⟩ := rA
  dsimp only at hB₁ hA₁ he₁ hg₁ hty hx₁ h₁ ⊢
  subst hx₁
  obtain ⟨ε₂, hε₂, hB₂, hA₂, he₂, hg₂, hv₂, hx₂⟩ := h₁.finish
  generalize Engine.finish { pool := B₁, tables := t } = fB at hB₂ he₂ hg₂ hv₂ hx₂ ⊢
  generalize Engine.finish { pool := A₁, tables := tA } = fA at hA₂ he₂ hx₂ ⊢
  obtain ⟨tabB, B₂⟩ := fB
  obtain ⟨tabA, A₂⟩ := fA
  dsimp only at hB₂ hA₂ he₂ hg₂ hv₂ hx₂ ⊢
  exact ⟨ε₂, hε₁.trans hε₂ hg₁.size_le, hB₂, hA₂, he₂, hg₁.trans hg₂,
    Nat.lt_of_lt_of_le hty hg₂.size_le, (hε₂ tyB hty).symm, hv₂, hx₂⟩

end Engine.Embeds

/-! ## Checking a form -/

/-- An outcome with its handles sent through `ε` and its quantified ids renamed by `ψ`. -/
def Outcome.map (ε : Idx → Idx) (ψ : Nat → Nat) : Outcome → Outcome
  | typeDefined types tags => typeDefined types tags
  | evaluated expr ty => evaluated expr (ε ty)
  | bound name σ => bound name (σ.map ε ψ)

/-- The handles an outcome names. -/
def Outcome.handles : Outcome → List Idx
  | typeDefined _ _ => []
  | evaluated _ ty => [ty]
  | bound _ σ => [σ.body]

/-- A checked form sent through `ε` and `ψ`. -/
def Checked.map (ε : Idx → Idx) (ψ : Nat → Nat) (done : Checked) : Checked :=
  { outcome := done.outcome.map ε ψ, tables := done.tables.map ε }

/-- The result of checking a form, a checked form or a failure, sent through `ε` and `ψ`. -/
def Checked.mapResult (ε : Idx → Idx) (ψ : Nat → Nat) (r : Except CheckError Checked) :
    Except CheckError Checked :=
  (r.map (Checked.map ε ψ)).mapError (CheckError.map ε ψ)

/-- The handles a result names are handles of `p`. -/
def Checked.ResultIn (p : Pool) : Except CheckError Checked → Prop
  | .ok done => (∀ h ∈ done.outcome.handles, h.raw < p.size) ∧ done.tables.Valid p
  | .error err => ∀ h ∈ err.cause.handles, h.raw < p.size

theorem Tables.valid_empty (p : Pool) : ({} : Tables).Valid p :=
  ⟨fun _ h => absurd h List.not_mem_nil, fun _ h => absurd h List.not_mem_nil,
    fun _ h => absurd h List.not_mem_nil⟩

theorem Outcome.map_congr {p : Pool} {ε ε' : Idx → Idx} {ψ : Nat → Nat} {o : Outcome}
    (hv : ∀ h ∈ o.handles, h.raw < p.size) (hε : SameBelow p.size ε ε') :
    o.map ε' ψ = o.map ε ψ := by
  cases o with
  | typeDefined types tags => rfl
  | evaluated expr ty => simp only [Outcome.map, hε ty (hv ty List.mem_cons_self)]
  | bound name σ => simp only [Outcome.map, Scheme.map_congr (hv σ.body List.mem_cons_self) hε]

theorem Checked.mapResult_congr {p : Pool} {ε ε' : Idx → Idx} {ψ : Nat → Nat}
    {r : Except CheckError Checked} (hr : Checked.ResultIn p r) (hε : SameBelow p.size ε ε') :
    Checked.mapResult ε' ψ r = Checked.mapResult ε ψ r := by
  cases r with
  | error err =>
    simp only [Checked.mapResult, Except.map, Except.mapError, CheckError.map_congr hr hε]
  | ok done =>
    simp only [Checked.mapResult, Except.map, Except.mapError, Checked.map,
      Outcome.map_congr hr.1 hε, hr.2.map_congr hε]

/-- Two checkers correspond through `ε`: well-formed pools that embed, a context of the first
whose types are handles of its pool, and the context of the second its image. -/
structure Checker.Embeds (n k : Nat) (ε : Idx → Idx) (cB cA : Checker) : Prop where
  wfB : cB.pool.WF
  wfA : cA.pool.WF
  pool : cB.pool.Embeds n k ε cA.pool
  tags : cB.pool.ValidTags cB.ctx.tags
  vars : cB.pool.ValidEnv cB.ctx.vars
  ctx : cA.ctx = cB.ctx.map ε (shiftFrom n k)

/-- Checking `f` from checkers related through `ε` ends in checkers related through `ε`
extended past what the first allocated; the first result names handles of the first pool, and
the second result is its image. -/
def Checker.StepEmbeds (n k : Nat) (ε : Idx → Idx) (cB cA : Checker) (f : Form) : Prop :=
  ∃ ε', SameBelow cB.pool.size ε ε' ∧ Checker.Embeds n k ε' (cB.checkForm f).1 (cA.checkForm f).1 ∧
    cB.pool.size ≤ (cB.checkForm f).1.pool.size ∧
    Checked.ResultIn (cB.checkForm f).1.pool (cB.checkForm f).2 ∧
    (cA.checkForm f).2 = Checked.mapResult ε' (shiftFrom n k) (cB.checkForm f).2

namespace Checker.Embeds

variable {n k : Nat} {ε ε' : Idx → Idx} {cB cA : Checker}

/-- The contexts stay related when the pools are replaced by later embedded ones. -/
theorem repool (h : Checker.Embeds n k ε cB cA) {B A : Pool} (hB : B.WF) (hA : A.WF)
    (he : B.Embeds n k ε' A) (hε : SameBelow cB.pool.size ε ε') (hs : cB.pool.size ≤ B.size) :
    Checker.Embeds n k ε' { cB with pool := B } { cA with pool := A } where
  wfB := hB
  wfA := hA
  pool := he
  tags := h.tags.mono hs
  vars := h.vars.mono hs
  ctx := by rw [h.ctx]; exact (Context.map_congr h.tags h.vars hε).symm

/-- Inference of an expression from related checkers, each against a fresh variable. -/
theorem infer_fresh (h : Checker.Embeds n k ε cB cA) (e : Expr) :
    ∃ ε₁, SameBelow cB.pool.size ε ε₁ ∧ cB.pool.Grows cB.pool.fresh.2 ∧
      cB.pool.fresh.1.raw < cB.pool.fresh.2.size ∧ cA.pool.fresh.1 = ε₁ cB.pool.fresh.1 ∧
      InferM.Related n k ε₁ (fun _ _ _ _ => True) { pool := cB.pool.fresh.2 }
        ((infer cB.ctx cB.ctx.vars e cB.pool.fresh.1).run { pool := cB.pool.fresh.2 })
        ((infer cA.ctx cA.ctx.vars e cA.pool.fresh.1).run { pool := cA.pool.fresh.2 }) := by
  obtain ⟨ε₁, hε₁, hB₁, hA₁, he₁, hg₁, hv₁, hx₁⟩ := h.pool.fresh_reaches h.wfB h.wfA
  -- inference starts from empty tables in both engines
  have heng : Engine.Embeds n k ε₁ { pool := cB.pool.fresh.2 } { pool := cA.pool.fresh.2 } :=
    ⟨hB₁, hA₁, he₁, Tables.valid_empty _, rfl⟩
  have hsim := infer_embeds n k cB.ctx e cB.ctx.vars cB.pool.fresh.1 ε₁ _ _ heng
    (h.tags.mono hg₁.size_le) (h.vars.mono hg₁.size_le) (h.vars.mono hg₁.size_le) hv₁
  rw [Context.map_congr h.tags h.vars hε₁, h.vars.map_congr hε₁] at hsim
  refine ⟨ε₁, hε₁, hg₁, hv₁, hx₁, ?_⟩
  rw [hx₁, h.ctx]
  exact hsim


/-- A failed inference leaves related checkers behind, with the second error the image of the
first. -/
theorem failed {α β : Type} (h : Checker.Embeds n k ε cB cA) {ε₁ : Idx → Idx} {B₁ : Pool}
    (hε₁ : SameBelow cB.pool.size ε ε₁) (hg₁ : cB.pool.Grows B₁) {errB errA : CheckError}
    {engB engA : Engine}
    (hrel : InferM.Related n k ε₁ (fun _ _ _ _ => True) { pool := B₁ }
      (.error errB engB : EStateM.Result CheckError Engine α)
      (.error errA engA : EStateM.Result CheckError Engine β)) :
    ∃ ε', SameBelow cB.pool.size ε ε' ∧
      Checker.Embeds n k ε' { cB with pool := engB.pool } { cA with pool := engA.pool } ∧
      cB.pool.size ≤ engB.pool.size ∧ Checked.ResultIn engB.pool (.error errB) ∧
      (.error errA : Except CheckError Checked) =
        Checked.mapResult ε' (shiftFrom n k) (.error errB) := by
  obtain ⟨ε₂, hε₂, heng, hs₂, hv₂, hx₂⟩ := hrel
  have hs : cB.pool.size ≤ engB.pool.size := hg₁.size_le.trans hs₂
  have hε := hε₁.trans hε₂ hg₁.size_le
  refine ⟨ε₂, hε, h.repool heng.wfB heng.wfA heng.pool hε hs, hs, hv₂, ?_⟩
  rw [hx₂]
  rfl

/-- A successful inference against a result variable allocated before it settles, in both
checkers, to corresponding types and tables. -/
theorem settled {α β : Type} {ε₁ : Idx → Idx} {B₁ : Pool} {res : Idx}
    (hε₁ : SameBelow cB.pool.size ε ε₁) (hg₁ : cB.pool.Grows B₁)
    (hv₁ : res.raw < B₁.size) {u : α} {u' : β} {engB engA : Engine}
    (hrel : InferM.Related n k ε₁ (fun _ _ _ _ => True) { pool := B₁ }
      (.ok u engB : EStateM.Result CheckError Engine α)
      (.ok u' engA : EStateM.Result CheckError Engine β)) :
    ∃ ε', SameBelow cB.pool.size ε ε' ∧ (engB.settle res).2.2.WF ∧
      (engA.settle (ε₁ res)).2.2.WF ∧
      (engB.settle res).2.2.Embeds n k ε' (engA.settle (ε₁ res)).2.2 ∧
      cB.pool.size ≤ (engB.settle res).2.2.size ∧
      (engB.settle res).1.raw < (engB.settle res).2.2.size ∧
      (engA.settle (ε₁ res)).1 = ε' (engB.settle res).1 ∧
      (engB.settle res).2.1.Valid (engB.settle res).2.2 ∧
      (engA.settle (ε₁ res)).2.1 = (engB.settle res).2.1.map ε' := by
  obtain ⟨ε₂, hε₂, heng, hs₂, -⟩ := hrel
  -- the result variable is older than the inference, so its image was fixed before it
  rw [← hε₂ res hv₁]
  obtain ⟨ε₃, hε₃, hB₃, hA₃, he₃, hg₃, hrest⟩ := heng.settle (Nat.lt_of_lt_of_le hv₁ hs₂)
  exact ⟨ε₃, (hε₁.trans hε₂ hg₁.size_le).trans hε₃ (hg₁.size_le.trans hs₂), hB₃, hA₃, he₃,
    hg₁.size_le.trans (hs₂.trans hg₃.size_le), hrest⟩

/-- Defining types builds corresponding catalogues, and the contexts take their tags alike. -/
theorem typeDef_step (h : Checker.Embeds n k ε cB cA) (items : List TypeItem) :
    Checker.StepEmbeds n k ε cB cA (.typeDef items) := by
  unfold Checker.StepEmbeds
  simp only [Checker.checkForm, Checker.defineTypes]
  obtain ⟨ε₁, hε₁, hB₁, hA₁, he₁, hg₁, hv₁, hx₁⟩ :=
    h.pool.catalogue_reaches h.wfB h.wfA items
  generalize Catalogue.build items cB.pool = rB at hB₁ he₁ hg₁ hv₁ hx₁ ⊢
  generalize Catalogue.build items cA.pool = rA at hA₁ he₁ hx₁ ⊢
  obtain ⟨catB, B₁⟩ := rB
  obtain ⟨catA, A₁⟩ := rA
  dsimp only at hB₁ hA₁ he₁ hg₁ hv₁ hx₁ ⊢
  subst hx₁
  have htags : B₁.ValidTags (cB.ctx.withCatalogue catB).tags := by
    intro b hb
    rw [Context.withCatalogue, Env.bindings_append, List.mem_append] at hb
    rcases hb with hb | hb
    · exact h.tags.mono hg₁.size_le b hb
    · exact hv₁ b hb
  have hctx : cA.ctx.withCatalogue (catB.map ε₁ (shiftFrom n k)) =
      (cB.ctx.withCatalogue catB).map ε₁ (shiftFrom n k) := by
    rw [h.ctx, ← Context.map_congr h.tags h.vars hε₁]
    simp only [Context.withCatalogue, Context.map, Catalogue.map, Env.map_append]
  refine ⟨ε₁, hε₁, ⟨hB₁, hA₁, he₁, htags, h.vars.mono hg₁.size_le, hctx⟩, hg₁.size_le,
    ⟨fun _ h => absurd h List.not_mem_nil, Tables.valid_empty _⟩, rfl⟩

/-- Evaluating an expression: inference fails alike or succeeds alike, and settling the result
type gives corresponding types and tables. -/
theorem eval_step (h : Checker.Embeds n k ε cB cA) (e : Expr) :
    Checker.StepEmbeds n k ε cB cA (.eval e) := by
  unfold Checker.StepEmbeds
  simp only [Checker.checkForm]
  obtain ⟨ε₁, hε₁, hg₁, hv₁, hx₁, hrel⟩ := h.infer_fresh e
  generalize cB.pool.fresh = rB at hg₁ hv₁ hx₁ hrel ⊢
  generalize cA.pool.fresh = rA at hx₁ hrel ⊢
  obtain ⟨resB, B₁⟩ := rB
  obtain ⟨resA, A₁⟩ := rA
  dsimp only at hg₁ hv₁ hx₁ hrel ⊢
  subst hx₁
  generalize (infer cB.ctx cB.ctx.vars e resB).run { pool := B₁ } = runB at hrel ⊢
  generalize (infer cA.ctx cA.ctx.vars e (ε₁ resB)).run { pool := A₁ } = runA at hrel ⊢
  cases runB with
  | ok u engB =>
    cases runA with
    | error => exact False.elim hrel
    | ok u' engA =>
      obtain ⟨ε₃, hε, hB₃, hA₃, he₃, hs, hty, htyx, htv, htx⟩ := settled hε₁ hg₁ hv₁ hrel
      dsimp only
      generalize engB.settle resB = sB at hB₃ he₃ hs hty htyx htv htx ⊢
      generalize engA.settle (ε₁ resB) = sA at hA₃ he₃ htyx htx ⊢
      obtain ⟨tyB, tabB, B₃⟩ := sB
      obtain ⟨tyA, tabA, A₃⟩ := sA
      dsimp only at hB₃ hA₃ he₃ hs hty htyx htv htx ⊢
      refine ⟨ε₃, hε, h.repool hB₃ hA₃ he₃ hε hs, hs, ⟨?_, htv⟩, ?_⟩
      · simp only [Outcome.handles, List.mem_singleton, forall_eq]
        exact hty
      · rw [htyx, htx]
        rfl
  | error errB engB =>
    cases runA with
    | ok => exact False.elim hrel
    | error errA engA =>
      dsimp only
      exact h.failed hε₁ hg₁ hrel

/-- Binding a name: as evaluating, and the settled type generalizes in both checkers to
corresponding schemes, which the contexts bind alike. -/
theorem bind_step (h : Checker.Embeds n k ε cB cA) (x : String) (v : Expr) :
    Checker.StepEmbeds n k ε cB cA (.bind x v) := by
  unfold Checker.StepEmbeds
  simp only [Checker.checkForm]
  obtain ⟨ε₁, hε₁, hg₁, hv₁, hx₁, hrel⟩ := h.infer_fresh v
  generalize cB.pool.fresh = rB at hg₁ hv₁ hx₁ hrel ⊢
  generalize cA.pool.fresh = rA at hx₁ hrel ⊢
  obtain ⟨resB, B₁⟩ := rB
  obtain ⟨resA, A₁⟩ := rA
  dsimp only at hg₁ hv₁ hx₁ hrel ⊢
  subst hx₁
  generalize (infer cB.ctx cB.ctx.vars v resB).run { pool := B₁ } = runB at hrel ⊢
  generalize (infer cA.ctx cA.ctx.vars v (ε₁ resB)).run { pool := A₁ } = runA at hrel ⊢
  cases runB with
  | ok u engB =>
    cases runA with
    | error => exact False.elim hrel
    | ok u' engA =>
      obtain ⟨ε₃, hε, hB₃, hA₃, he₃, hs, hty, htyx, htv, htx⟩ := settled hε₁ hg₁ hv₁ hrel
      dsimp only
      generalize engB.settle resB = sB at hB₃ he₃ hs hty htyx htv htx ⊢
      generalize engA.settle (ε₁ resB) = sA at hA₃ he₃ htyx htx ⊢
      obtain ⟨tyB, tabB, B₃⟩ := sB
      obtain ⟨tyA, tabA, A₃⟩ := sA
      dsimp only at hB₃ hA₃ he₃ hs hty htyx htv htx ⊢
      -- the second context's variables are the image of the first's under the final renaming
      have hvarsA : cA.ctx.vars = cB.ctx.vars.map (Scheme.map ε₃ (shiftFrom n k)) := by
        rw [h.ctx]
        exact (h.vars.map_congr hε).symm
      rw [hvarsA, htyx, he₃.generalize hB₃ hA₃ (h.vars.mono hs) hty, htx]
      have hctx : cA.ctx.withBinding x ((B₃.generalize cB.ctx.vars tyB).map ε₃ (shiftFrom n k)) =
          (cB.ctx.withBinding x (B₃.generalize cB.ctx.vars tyB)).map ε₃ (shiftFrom n k) := by
        rw [h.ctx, ← Context.map_congr h.tags h.vars hε]
        simp only [Context.withBinding, Context.map, Env.map_prepend]
      refine ⟨ε₃, hε, ⟨hB₃, hA₃, he₃, h.tags.mono hs, (h.vars.mono hs).prepend x hty, hctx⟩, hs,
        ⟨?_, htv⟩, rfl⟩
      simp only [Outcome.handles, List.mem_singleton, forall_eq]
      exact hty
  | error errB engB =>
    cases runA with
    | ok => exact False.elim hrel
    | error errA engA =>
      dsimp only
      exact h.failed hε₁ hg₁ hrel

/-- The step lemma: checking any form from related checkers keeps them related. -/
theorem checkForm (h : Checker.Embeds n k ε cB cA) (f : Form) : Checker.StepEmbeds n k ε cB cA f := by
  cases f with
  | typeDef items => exact h.typeDef_step items
  | eval e => exact h.eval_step e
  | bind x v => exact h.bind_step x v

end Checker.Embeds

end TagML
