import Mathlib.Data.Finset.Card
import TagML.Proofs.Pool.Stable
import TagML.Proofs.Catalogue

/-!
The representation invariant of a pool, in every pool the library builds.

A pool built from the empty one by its own operations, and by everything built on them, keeps
a representation that the walks and the unifier rely on (`Pool.Built.representation`).  The six
primitives hold the first six handles.  Function and user types are hash-consed: one handle per
structure, and the interning map knows exactly the compound items.  Parts are older than the
item they belong to, and an item's flag says whether a variable item lies at or below it
through parts.  Each allocated variable has one item, and variables are numbered in the order
their items were pushed, so the `k`-th variable item has id `k`.  For types with nothing linked
below them, such as the results of deep resolution, handle equality is equality of the types
the handles stand for.

Most of this is the well-formedness invariant `WF` read back; the order of the variables is not
part of it, and holds because every operation is made of the three primitive changes
(`Pool.Stable`), each of which numbers a new variable after every older one.
-/
namespace TagML

namespace Pool

variable {p : Pool}

/-! ## Variables are numbered in the order their items are pushed -/

/-- Every variable item's id is allocated, and an older variable item has a smaller id. -/
def VarsInOrder (p : Pool) : Prop :=
  ∀ (i : Idx) v, p.item i = .var v → v < p.varCount ∧
    ∀ (j : Idx) w, j.raw < i.raw → p.item j = .var w → w < v

theorem varsInOrder_empty : ({} : Pool).VarsInOrder := by
  intro i v hi
  obtain ⟨q, hq⟩ := item_empty i
  rw [hq] at hi
  cases hi

/-- A fresh variable is numbered after every variable before it; interning and linking push no
variable. -/
theorem varsInOrder_stable : Stable VarsInOrder where
  fresh p hp := by
    intro i v hi
    rw [item_fresh] at hi
    rw [varCount_fresh]
    split at hi
    · next hsize =>
      cases hi
      refine ⟨Nat.lt_succ_self _, fun j w hj hjw => ?_⟩
      rw [item_fresh, if_neg (by omega)] at hjw
      exact (hp j w hjw).1
    · refine ⟨Nat.lt_succ_of_lt (hp i v hi).1, fun j w hj hjw => ?_⟩
      have hlt : i.raw < p.size := p.lt_size_of_item hi (by simp)
      rw [item_fresh, if_neg (by omega)] at hjw
      exact (hp i v hi).2 j w hj hjw
  intern p it hc hp := by
    cases hmem : p.interned[it]? with
    | some i =>
      rw [intern_of_mem p hmem]
      exact hp
    | none =>
      rw [intern_of_not_mem p hmem]
      -- the pushed item is a compound, so the variable items are those of `p`
      have hitem : ∀ j : Idx, ({ (p.push it (it.parts.any p.hasVars)).2 with
          interned := p.interned.insert it ⟨p.size⟩ } : Pool).item j =
          if j.raw = p.size then it else p.item j := item_push p it (it.parts.any p.hasVars)
      have hold : ∀ (j : Idx) w, ({ (p.push it (it.parts.any p.hasVars)).2 with
          interned := p.interned.insert it ⟨p.size⟩ } : Pool).item j = .var w → p.item j = .var w := by
        intro j w hj
        rw [hitem] at hj
        split at hj
        · subst hj
          cases hc
        · exact hj
      intro i v hi
      refine ⟨(hp i v (hold i v hi)).1, fun j w hj hjw => ?_⟩
      exact (hp i v (hold i v hi)).2 j w hj (hold j w hjw)
  link p v t hp := by
    intro i w hi
    rw [item_link] at hi
    rw [varCount_link]
    refine ⟨(hp i w hi).1, fun j u hj hju => ?_⟩
    rw [item_link] at hju
    exact (hp i w hi).2 j u hj hju

/-! ## The pools the library builds -/

/-- The pools built from the empty one by the pool's operations and those built on them, each
applied to handles the pool has: fresh variables, function, user and curried types,
unification, instances of schemes and of tag signatures, deep resolution, resolution of written
types, catalogues of type definitions, and runs of inference.  No variable is linked directly. -/
inductive Built : Pool → Prop
  | empty : Built {}
  | fresh {p : Pool} : Built p → Built p.fresh.2
  | fn {p : Pool} {a r : Idx} : Built p → a.raw < p.size → r.raw < p.size → Built (p.fn a r).2
  | user {p : Pool} {name : String} {args : List Idx} : Built p →
      (∀ a ∈ args, a.raw < p.size) → Built (p.user name args).2
  | curried {p : Pool} {args : List Idx} {ret : Idx} : Built p →
      (∀ a ∈ args, a.raw < p.size) → ret.raw < p.size → Built (p.curried args ret).2
  | unify {p : Pool} {a b : Idx} : Built p → a.raw < p.size → b.raw < p.size →
      Built (p.unify a b).1
  | instantiate {p : Pool} {σ : Scheme} : Built p → σ.body.raw < p.size →
      Built (p.instantiate σ).2
  | instantiateTag {p : Pool} {sig : TagSig} : Built p → (∀ a ∈ sig.args, a.raw < p.size) →
      sig.result.raw < p.size → Built ((InferM.instantiateTag sig).poolAfter p)
  | resolveDeep {p : Pool} {i : Idx} : Built p → i.raw < p.size → Built (p.resolveDeep i).2
  | resolveDeepAll {p : Pool} {is : List Idx} : Built p → (∀ i ∈ is, i.raw < p.size) →
      Built (p.resolveDeepAll is).2
  | resolveType {p : Pool} {params : Env Idx} (t : TypeExpr) : Built p →
      (∀ b ∈ params.bindings, b.2.raw < p.size) → Built (t.resolve params p).2
  | catalogue {p : Pool} (items : List TypeItem) : Built p → Built (Catalogue.build items p).2
  | infer {p : Pool} (ctx : Context) (env : Env Scheme) (e : Expr) {t : Idx} : Built p →
      p.ValidTags ctx.tags → p.ValidEnv env → t.raw < p.size →
      Built ((TagML.infer ctx env e t).poolAfter p)

/-- Every built pool is well formed. -/
theorem Built.wf (hp : p.Built) : p.WF := by
  induction hp with
  | empty => exact WF.empty
  | fresh _ ih => exact ih.fresh
  | fn _ ha hr ih => exact (fn_spec ih ha hr).1
  | user _ hargs ih => exact (user_spec ih _ hargs).1
  | curried _ hargs hret ih => exact (curried_spec ih hret hargs).1
  | unify _ ha hb ih => exact (unify_wf ih ha hb).1
  | instantiate _ hb ih => exact (instantiate_spec ih hb).1
  | instantiateTag _ hargs hres ih =>
    exact (InferM.instantiateTag_keeps.poolAfter ih ⟨hargs, hres⟩).1
  | resolveDeep _ hi ih => exact (resolveDeep_spec ih hi).1
  | resolveDeepAll _ his ih => exact (substituteAll_spec ih (resolvedImages_nil _) his).1
  | resolveType t _ hparams ih => exact (TypeExpr.resolve_spec ih hparams t).1
  | catalogue items _ ih => exact (Catalogue.build_spec items ih).wf
  | infer ctx env e _ htags henv ht ih =>
    exact ((infer_keeps ctx env e _).poolAfter ih ⟨htags, henv, by simp [ht]⟩).1

/-- A stable property of the empty pool holds of every built pool. -/
theorem Built.stable {I : Pool → Prop} (hI : Stable I) (h0 : I {}) (hp : p.Built) : I p := by
  induction hp with
  | empty => exact h0
  | fresh _ ih => exact hI.fresh _ ih
  | fn _ _ _ ih => exact hI.intern _ _ rfl ih
  | user _ _ ih => exact hI.intern _ _ rfl ih
  | curried _ _ _ ih => exact hI.curried _ _ ih
  | unify _ _ _ ih => exact hI.unify _ _ ih
  | instantiate _ _ ih => exact hI.instantiate _ ih
  | instantiateTag _ _ _ ih => exact (InferM.instantiateTag_keepsPool hI _).poolAfter ih
  | resolveDeep _ _ ih => exact hI.resolveDeep _ ih
  | resolveDeepAll _ _ ih => exact hI.resolveDeepAll _ ih
  | resolveType t _ _ ih => exact TypeExpr.resolve_stable hI _ t _ ih
  | catalogue items _ ih => exact Catalogue.build_stable hI items ih
  | infer ctx env e _ _ _ _ ih => exact (infer_keepsPool hI ctx env e _).poolAfter ih

/-! ## What the representation guarantees -/

/-- No two handles hold the same variable. -/
def VarsDistinct (p : Pool) : Prop :=
  ∀ i j : Idx, ∀ v, p.item i = .var v → p.item j = .var v → i = j

/-- A well-formed pool has one item per variable; a handle it never issued reads as `Int`. -/
theorem WF.varsDistinct (h : p.WF) : p.VarsDistinct := by
  intro i j v hi hj
  have hlt : ∀ k : Idx, p.item k = .var v → k.raw < p.size := fun k hk =>
    p.lt_size_of_item hk (by simp)
  have hvi := h.var_unique i v (hlt i hi) hi
  rw [h.var_unique j v (hlt j hj) hj] at hvi
  exact (Option.some.inj hvi).symm


/-- `j` is one of the parts of `i`'s item: a step through a function or user type, links not
followed. -/
def PartOf (p : Pool) (i j : Idx) : Prop := j ∈ (p.item i).parts

/-- An item's flag is set exactly when a variable item lies at or below it through parts. -/
theorem WF.hasVars_iff (h : p.WF) (i : Idx) (hi : i.raw < p.size) :
    p.hasVars i = true ↔ ∃ j, Relation.ReflTransGen p.PartOf i j ∧ (p.item j).isVar = true := by
  -- induction along the steps of the pool, of which the steps through parts are some
  revert hi
  refine h.induction (motive := fun i => i.raw < p.size → (p.hasVars i = true ↔
    ∃ j, Relation.ReflTransGen p.PartOf i j ∧ (p.item j).isVar = true)) (fun i ih hi => ?_) i
  have below : ∀ a ∈ (p.item i).parts, a.raw < p.size ∧ (p.hasVars a = true ↔
      ∃ j, Relation.ReflTransGen p.PartOf a j ∧ (p.item j).isVar = true) := fun a ha =>
    have hlt := Nat.lt_trans (h.parts_lt i hi a ha) hi
    ⟨hlt, ih a (Or.inl ha) hlt⟩
  rw [h.hasVars_eq i hi, Bool.or_eq_true, List.any_eq_true]
  constructor
  · rintro (hv | ⟨a, ha, hav⟩)
    · exact ⟨i, .refl, hv⟩
    · obtain ⟨j, hj, hjv⟩ := (below a ha).2.1 hav
      exact ⟨j, .head ha hj, hjv⟩
  · rintro ⟨j, hj, hjv⟩
    rcases Relation.ReflTransGen.cases_head hj with rfl | ⟨a, ha, haj⟩
    · exact Or.inl hjv
    · exact Or.inr ⟨a, ha, (below a ha).2.2 ⟨j, haj, hjv⟩⟩

/-- In a well-formed pool whose variables are in order, the `k`-th variable item, counting
from the oldest, has id `k`. -/
theorem WF.var_index (h : p.WF) (ho : p.VarsInOrder) {i : Idx} {v : Nat}
    (hi : p.item i = .var v) :
    ((Finset.range i.raw).filter fun k => (p.item ⟨k⟩).isVar).card = v := by
  have hv := (ho i v hi).1
  -- the variable items below `i` are the items of the ids below `v`, one each
  have hmaps : ∀ w ∈ Finset.range v, ((p.varItem? w).getD ⟨0⟩).raw ∈
      (Finset.range i.raw).filter fun k => (p.item ⟨k⟩).isVar := by
    intro w hw
    rw [Finset.mem_range] at hw
    obtain ⟨x, hx, -, hxw⟩ := h.varItem w (by omega)
    rw [hx, Option.getD_some, Finset.mem_filter, Finset.mem_range]
    refine ⟨?_, by rw [hxw]; rfl⟩
    rcases Nat.lt_trichotomy x.raw i.raw with hlt | heq | hgt
    · exact hlt
    · have hxi : x = i := by cases x; cases i; simp_all
      rw [hxi, hi] at hxw
      cases hxw
      omega
    · exact absurd ((ho x w hxw).2 i v hgt hi) (by omega)
  refine (Finset.card_bij (fun w _ => ((p.varItem? w).getD ⟨0⟩).raw) hmaps ?_ ?_).symm.trans
    (Finset.card_range v)
  · intro w₁ hw₁ w₂ hw₂ he
    rw [Finset.mem_range] at hw₁ hw₂
    obtain ⟨x₁, hx₁, -, hxw₁⟩ := h.varItem w₁ (by omega)
    obtain ⟨x₂, hx₂, -, hxw₂⟩ := h.varItem w₂ (by omega)
    rw [hx₁, hx₂, Option.getD_some, Option.getD_some] at he
    have hx : x₁ = x₂ := by cases x₁; cases x₂; simp_all
    rw [hx, hxw₂] at hxw₁
    cases hxw₁
    rfl
  · intro k hk
    rw [Finset.mem_filter, Finset.mem_range] at hk
    cases hkv : p.item ⟨k⟩ with
    | var w =>
      have hks : k < p.size := Nat.lt_trans hk.1 (p.lt_size_of_item hi (by simp))
      refine ⟨w, Finset.mem_range.2 ((ho i v hi).2 ⟨k⟩ w hk.1 hkv), ?_⟩
      rw [h.var_unique ⟨k⟩ w hks hkv, Option.getD_some]
    | prim _ | fn _ _ | user _ _ =>
      rw [hkv] at hk
      cases hk.2

/-- The representation of a pool: primitives at their fixed handles, hash-consed compounds, parts
older than their items, exact variable flags, one item per variable numbered in order, and
handle equality as type equality for types with nothing linked below them. -/
structure Representation (p : Pool) : Prop where
  /-- The six primitives hold the first six handles, in their fixed order, and no other. -/
  prim : ∀ q : Prim, q.index < p.size ∧ p.item q.idx = .prim q
  prim_unique : ∀ (i : Idx) (q : Prim), i.raw < p.size → p.item i = .prim q → i = q.idx
  /-- Two function items with the same parts, or two user items with the same name and
  arguments, are one handle. -/
  fn_unique : ∀ i j a r : Idx, i.raw < p.size → j.raw < p.size →
    p.item i = .fn a r → p.item j = .fn a r → i = j
  user_unique : ∀ (i j : Idx) (name : String) (args : List Idx), i.raw < p.size →
    j.raw < p.size → p.item i = .user name args → p.item j = .user name args → i = j
  /-- The interning map sends the structure of each compound item to its handle, and sends
  nothing else anywhere. -/
  interned : ∀ (it : Item) (i : Idx),
    p.interned[it]? = some i ↔ i.raw < p.size ∧ p.item i = it ∧ it.isCompound = true
  parts_lt : ∀ i : Idx, i.raw < p.size → ∀ j ∈ (p.item i).parts, j.raw < i.raw
  hasVars_iff : ∀ i : Idx, i.raw < p.size →
    (p.hasVars i = true ↔ ∃ j, Relation.ReflTransGen p.PartOf i j ∧ (p.item j).isVar = true)
  /-- The allocated ids are exactly the ids of variable items, each held by one item. -/
  var_item : ∀ v, v < p.varCount ↔ ∃ i : Idx, i.raw < p.size ∧ p.item i = .var v
  var_unique : ∀ (i j : Idx) v, p.item i = .var v → p.item j = .var v → i = j
  /-- The `k`-th variable item has id `k`. -/
  var_index : ∀ (i : Idx) v, p.item i = .var v →
    ((Finset.range i.raw).filter fun k => (p.item ⟨k⟩).isVar).card = v
  /-- Two handles with nothing linked below them are equal exactly when they stand for the
  same type. -/
  eq_iff_term_eq : ∀ i j : Idx, i.raw < p.size → j.raw < p.size → p.Resolved i →
    p.Resolved j → (i = j ↔ p.term i = p.term j)

/-- Every pool the library builds keeps its representation invariant. -/
theorem Built.representation (hp : p.Built) : p.Representation := by
  have h := hp.wf
  have ho := hp.stable varsInOrder_stable varsInOrder_empty
  have compound : ∀ (i j : Idx) (it : Item), i.raw < p.size → j.raw < p.size →
      it.isCompound = true → p.item i = it → p.item j = it → i = j := by
    intro i j it hi hj hc hit hjt
    have h₁ := (h.interned it i).2 ⟨hi, hit, hc⟩
    rw [(h.interned it j).2 ⟨hj, hjt, hc⟩] at h₁
    exact (Option.some.inj h₁).symm
  refine ⟨h.prim, h.prim_unique, fun i j a r hi hj => compound i j _ hi hj rfl,
    fun i j name args hi hj => compound i j _ hi hj rfl, h.interned, h.parts_lt,
    h.hasVars_iff, fun v => ⟨fun hv => ?_, fun ⟨i, hi, hiv⟩ => h.varCount_of_item hi hiv⟩,
    h.varsDistinct, fun i v hi => h.var_index ho hi,
    fun i j hi hj ri rj => ⟨fun he => he ▸ rfl, eq_of_term_eq h hi hj ri rj⟩⟩
  obtain ⟨i, -, hi, hiv⟩ := h.varItem v hv
  exact ⟨i, hi, hiv⟩

/-- A function type over a fresh variable, built from the empty pool. -/
theorem built_fn_representation :
    (({} : Pool).fresh.2.fn ⟨6⟩ ⟨6⟩).2.Built ∧
      (({} : Pool).fresh.2.fn ⟨6⟩ ⟨6⟩).2.Representation :=
  have hb : (({} : Pool).fresh.2.fn ⟨6⟩ ⟨6⟩).2.Built := .fn (.fresh .empty) (by decide) (by decide)
  ⟨hb, Built.representation hb⟩

end Pool

end TagML
