import TagML.Proofs.Embed.Rewrite

/-!
Schemes, signatures and contexts read through an embedding.

A scheme, a tag signature or a whole context of `B` stands in `A` with its handles sent through
`ε` and its quantified ids renamed by `shiftFrom n k` (`Scheme.map`, `TagSig.map`,
`Context.map`).  The operations the checker runs on them correspond: a fresh variable, a
function or user type, a substitution, deep resolution and an instance of a scheme each return in
`A` the image of what they return in `B` (`Pool.Reaches`), with `ε` extended to what `B` built;
and generalizing in `A` the image of a type against the image of an environment quantifies the
renamed variables (`Embeds.generalize`), since free variables and the ascending lists that hold
them are renamed in order.
-/
namespace TagML

namespace Env

variable {α β : Type}

/-- An environment with every value sent through `f`. -/
def map (f : α → β) (e : Env α) : Env β := ⟨e.bindings.map fun b => (b.1, f b.2), e.len⟩

@[simp] theorem bindings_map (f : α → β) (e : Env α) :
    (e.map f).bindings = e.bindings.map fun b => (b.1, f b.2) := rfl

theorem lookup_map (f : α → β) (e : Env α) (name : String) :
    (e.map f).lookup name = (e.lookup name).map f := by
  simp only [lookup, bindings_map, List.find?_map, Option.map_map]
  rfl

theorem map_prepend (f : α → β) (e : Env α) (name : String) (a : α) :
    (e.prepend name a).map f = (e.map f).prepend name (f a) := rfl

theorem map_append (f : α → β) (front back : Env α) :
    (front.append back).map f = (front.map f).append (back.map f) := by
  apply Env.ext <;> simp [map]

/-- Only the values bound matter. -/
theorem map_congr {f g : α → β} {e : Env α} (h : ∀ b ∈ e.bindings, f b.2 = g b.2) :
    e.map f = e.map g := by
  refine Env.ext ?_ rfl
  exact List.map_congr_left fun b hb => by rw [h b hb]

end Env

/-- A scheme with its body sent through `ε` and its quantified ids renamed by `ψ`. -/
def Scheme.map (ε : Idx → Idx) (ψ : Nat → Nat) (σ : Scheme) : Scheme :=
  ⟨σ.bounded.map ψ, ε σ.body⟩

/-- A tag signature with its types sent through `ε` and its quantified ids renamed by `ψ`. -/
def TagSig.map (ε : Idx → Idx) (ψ : Nat → Nat) (sig : TagSig) : TagSig :=
  { sig with bounded := sig.bounded.map ψ, args := sig.args.map ε, result := ε sig.result }

/-- A context with its schemes and signatures sent through `ε` and `ψ`. -/
def Context.map (ε : Idx → Idx) (ψ : Nat → Nat) (ctx : Context) : Context :=
  { ctx with vars := ctx.vars.map (Scheme.map ε ψ), tags := ctx.tags.map (TagSig.map ε ψ) }

@[simp] theorem Scheme.isMono_map (ε : Idx → Idx) (ψ : Nat → Nat) (σ : Scheme) :
    (σ.map ε ψ).isMono = σ.isMono := by
  simp [Scheme.map, Scheme.isMono]

@[simp] theorem TagSig.arity_map (ε : Idx → Idx) (ψ : Nat → Nat) (sig : TagSig) :
    (sig.map ε ψ).arity = sig.arity := by
  simp [TagSig.map, TagSig.arity]

theorem Context.lookupTag_map (ε : Idx → Idx) (ψ : Nat → Nat) (ctx : Context) (name : String) :
    (ctx.map ε ψ).lookupTag name = (ctx.lookupTag name).map (TagSig.map ε ψ) :=
  Env.lookup_map _ _ _

/-- A list of ids paired with handles, renamed and sent through `ε`, looks the renamed ids up to
the images. -/
theorem lookup_map_prod {ψ : Nat → Nat} (hψ : ψ.Injective) (ε : Idx → Idx) :
    ∀ (m : List (Nat × Idx)) (v : Nat), (m.map (Prod.map ψ ε)).lookup (ψ v) = (m.lookup v).map ε
  | [], _ => rfl
  | (u, j) :: m, v => by
    rw [List.map_cons, Prod.map_apply, List.lookup_cons, List.lookup_cons]
    by_cases hvu : v = u
    · subst hvu
      simp
    · simp only [beq_false_of_ne hvu, beq_false_of_ne (hψ.ne hvu)]
      exact lookup_map_prod hψ ε m v

/-- A list renamed injectively holds the renamed ids of the list and no others. -/
theorem contains_map_injective {ψ : Nat → Nat} (hψ : ψ.Injective) (l : List Nat) (v : Nat) :
    (l.map ψ).contains (ψ v) = l.contains v := by
  rw [Bool.eq_iff_iff, List.contains_iff_mem, List.contains_iff_mem, List.mem_map_of_injective hψ]

/-- Renaming commutes with the union of ascending lists. -/
theorem VarSet.union_map {ψ : Nat → Nat} (hψ : StrictMono ψ) :
    ∀ xs ys : List Nat, VarSet.union (xs.map ψ) (ys.map ψ) = (VarSet.union xs ys).map ψ
  | [], _ => rfl
  | x :: xs, ys => by
    simp only [VarSet.union, List.map_cons, List.foldl_cons]
    rw [VarSet.insert_map hψ]
    exact VarSet.union_map hψ xs _

namespace Pool

/-- What corresponding pool operations reach from embedded pools: well-formed pools embedded
through `ε` extended past the handles of `B`, a pool of `B` that only grew, and a returned
handle of `B` whose image `A` returns. -/
def Reaches (n k : Nat) (ε : Idx → Idx) (B : Pool) (rB rA : Idx × Pool) : Prop :=
  ∃ ε', SameBelow B.size ε ε' ∧ rB.2.WF ∧ rA.2.WF ∧ rB.2.Embeds n k ε' rA.2 ∧ B.Grows rB.2 ∧
    rB.1.raw < rB.2.size ∧ rA.1 = ε' rB.1

namespace Embeds

variable {n k : Nat} {ε : Idx → Idx} {B A : Pool}

section Ops

variable (hB : B.WF) (hA : A.WF) (he : B.Embeds n k ε A)
include hB hA he

theorem fresh_reaches : Reaches n k ε B B.fresh A.fresh := by
  obtain ⟨h₁, hg, ht, -⟩ := fresh_spec hB
  exact ⟨_, agrees_update _ _ _, h₁, hA.fresh, he.fresh hB hA, hg, ht,
    (Function.update_self (⟨B.size⟩ : Idx) (⟨A.size⟩ : Idx) ε).symm⟩

theorem intern_reaches {it : Item} (hc : it.isCompound = true)
    (hparts : ∀ j ∈ it.parts, j.raw < B.size) :
    Reaches n k ε B (B.intern it) (A.intern (it.map ε (shiftFrom n k))) := by
  obtain ⟨ε', hε, he', hx⟩ := he.intern hB hA hc hparts
  obtain ⟨h₁, hg, ht⟩ := intern_spec hB hc hparts
  refine ⟨ε', hε, h₁, hA.intern (by rw [Item.isCompound_map, hc]) fun j hj => ?_, he', hg, ht, hx⟩
  rw [Item.parts_map] at hj
  obtain ⟨a, ha, rfl⟩ := List.mem_map.1 hj
  exact he.lt a (hparts a ha)

theorem fn_reaches {a r : Idx} (ha : a.raw < B.size) (hr : r.raw < B.size) :
    Reaches n k ε B (B.fn a r) (A.fn (ε a) (ε r)) :=
  he.intern_reaches hB hA (rfl : (Item.fn a r).isCompound = true) (by simp [Item.parts, ha, hr])

theorem user_reaches (name : String) {args : List Idx} (hargs : ∀ a ∈ args, a.raw < B.size) :
    Reaches n k ε B (B.user name args) (A.user name (args.map ε)) :=
  he.intern_reaches hB hA (rfl : (Item.user name args).isCompound = true) hargs

/-- A substitution of handles of `B`, and the one renaming its ids and sending its handles
through `ε`. -/
theorem substitute_reaches {σ : List (Nat × Idx)} (hσ : ∀ v j, σ.lookup v = some j → j.raw < B.size)
    {i : Idx} (hi : i.raw < B.size) :
    Reaches n k ε B (B.substitute σ i) (A.substitute (σ.map (Prod.map (shiftFrom n k) ε)) (ε i)) := by
  obtain ⟨ε', hε, h', hg, hv, hx⟩ := Rewrite.substitute_embeds
    (Rewrite.Embeds.start hB hA he hσ (lookup_map_prod (strictMono_shiftFrom n k).injective ε σ)) hi
  exact ⟨ε', hε, h'.wfB, h'.wfA, h'.pool, hg, hv, hx⟩

theorem resolveDeep_reaches {i : Idx} (hi : i.raw < B.size) :
    Reaches n k ε B (B.resolveDeep i) (A.resolveDeep (ε i)) :=
  he.substitute_reaches hB hA (σ := []) (fun _ _ h => by cases h) hi

/-- Fresh variables for a list of ids, and for the renamed ids: the renaming each makes pairs
the renamed ids with the images of the fresh handles. -/
theorem freshFor_reaches (vs : List Nat) :
    ∃ ε', SameBelow B.size ε ε' ∧ (B.freshFor vs).2.WF ∧ (A.freshFor (vs.map (shiftFrom n k))).2.WF ∧
      (B.freshFor vs).2.Embeds n k ε' (A.freshFor (vs.map (shiftFrom n k))).2 ∧
      B.Grows (B.freshFor vs).2 ∧
      (∀ v j, (B.freshFor vs).1.lookup v = some j → j.raw < (B.freshFor vs).2.size) ∧
      (A.freshFor (vs.map (shiftFrom n k))).1 = (B.freshFor vs).1.map (Prod.map (shiftFrom n k) ε') := by
  induction vs generalizing B A ε with
  | nil =>
    exact ⟨ε, SameBelow.refl _ _, hB, hA, he, .refl _, fun _ _ h => by simp [Pool.freshFor] at h,
      rfl⟩
  | cons v vs ih =>
    obtain ⟨ε₁, hε₁, hB₁, hA₁, he₁, hg₁, ht₁, hx₁⟩ := he.fresh_reaches hB hA
    obtain ⟨ε₂, hε₂, hB₂, hA₂, he₂, hg₂, hl₂, hx₂⟩ := ih hB₁ hA₁ he₁
    rw [List.map_cons, freshFor_cons, freshFor_cons]
    refine ⟨ε₂, hε₁.trans hε₂ hg₁.size_le, hB₂, hA₂, he₂, hg₁.trans hg₂, fun w j hl => ?_, ?_⟩
    · rw [List.lookup_cons] at hl
      split at hl
      · cases hl
        exact Nat.lt_of_lt_of_le ht₁ hg₂.size_le
      · exact hl₂ w j hl
    · rw [hx₂, hx₁, List.map_cons, Prod.map_apply, hε₂ _ ht₁]

/-- An instance of a scheme of `B`, and of its image. -/
theorem instantiate_reaches {σ : Scheme} (hb : σ.body.raw < B.size) :
    Reaches n k ε B (B.instantiate σ) (A.instantiate (σ.map ε (shiftFrom n k))) := by
  unfold Pool.instantiate
  rw [Scheme.isMono_map]
  split
  · exact ⟨ε, SameBelow.refl _ _, hB, hA, he, .refl _, hb, rfl⟩
  · obtain ⟨ε₁, hε₁, hB₁, hA₁, he₁, hg₁, hl₁, hx₁⟩ := he.freshFor_reaches hB hA σ.bounded
    dsimp only [Scheme.map]
    rw [hx₁, ← hε₁ σ.body hb]
    obtain ⟨ε₂, hε₂, h₂⟩ := he₁.substitute_reaches hB₁ hA₁ hl₁ (Nat.lt_of_lt_of_le hb hg₁.size_le)
    obtain ⟨hB₂, hA₂, he₂, hg₂, hv₂, hx₂⟩ := h₂
    exact ⟨ε₂, hε₁.trans hε₂ hg₁.size_le, hB₂, hA₂, he₂, hg₁.trans hg₂, hv₂, hx₂⟩

end Ops

/-! ## Generalization -/

section Generalize

variable (hB : B.WF) (hA : A.WF) (he : B.Embeds n k ε A)
include hB hA he

theorem freeVarsScheme {σ : Scheme} (hb : σ.body.raw < B.size) :
    A.freeVarsScheme (σ.map ε (shiftFrom n k)) = (B.freeVarsScheme σ).map (shiftFrom n k) := by
  simp only [Pool.freeVarsScheme, Scheme.map, Scheme.quantifies, he.freeVars hB hA hb,
    List.filter_map]
  congr 1
  exact List.filter_congr fun v _ => by
    rw [Function.comp_apply, contains_map_injective (strictMono_shiftFrom n k).injective]

theorem freeVarsEnv {env : Env Scheme} (hv : ∀ b ∈ env.bindings, b.2.body.raw < B.size) :
    A.freeVarsEnv (env.map (Scheme.map ε (shiftFrom n k))) =
      (B.freeVarsEnv env).map (shiftFrom n k) := by
  unfold Pool.freeVarsEnv
  rw [Env.bindings_map, List.foldl_map]
  -- the union is carried along the bindings, each scheme's free variables renamed
  suffices h : ∀ (bs : List (String × Scheme)) (acc : List Nat),
      (∀ b ∈ bs, b.2.body.raw < B.size) →
      bs.foldl (fun acc b => VarSet.union (A.freeVarsScheme (b.2.map ε (shiftFrom n k))) acc)
          (acc.map (shiftFrom n k)) =
        (bs.foldl (fun acc b => VarSet.union (B.freeVarsScheme b.2) acc) acc).map
          (shiftFrom n k) from
    h env.bindings [] hv
  intro bs
  induction bs with
  | nil => exact fun _ _ => rfl
  | cons b bs ih =>
    intro acc hbs
    simp only [List.foldl_cons]
    rw [he.freeVarsScheme hB hA (hbs b List.mem_cons_self),
      VarSet.union_map (strictMono_shiftFrom n k)]
    exact ih _ fun b' hb' => hbs b' (List.mem_cons_of_mem b hb')

/-- Generalizing the image of a type against the image of an environment quantifies the renamed
variables of the type that generalizing in `B` quantifies. -/
theorem generalize {env : Env Scheme} (hv : ∀ b ∈ env.bindings, b.2.body.raw < B.size)
    {t : Idx} (ht : t.raw < B.size) :
    A.generalize (env.map (Scheme.map ε (shiftFrom n k))) (ε t) =
      (B.generalize env t).map ε (shiftFrom n k) := by
  simp only [Pool.generalize, Scheme.map, he.freeVars hB hA ht, he.freeVarsEnv hB hA hv,
    List.filter_map]
  congr 2
  exact List.filter_congr fun v _ => by
    rw [Function.comp_apply, contains_map_injective (strictMono_shiftFrom n k).injective]

end Generalize

end Embeds

end Pool

end TagML
