import TagML.Context
import TagML.Proofs.Pool.Denote

/-!
Printing a handle writes out the type it stands for.

`Pool.render` walks the pool, seeing through links, and parenthesises a function's argument when
the argument resolves to a function.  `Term.render` prints a type written out in full by the same
rules.  In a well-formed pool the walk never runs out of budget, and a handle reached by resolving
is settled, so its item has the shape of the type it stands for.  Hence the text of a handle is
the text of its type (`Pool.render_eq`): two handles, in one pool or in two, that stand for the
same type print the same, whatever links and shared parts lie between.
-/
namespace TagML

namespace Term

/-- Whether a type is a function type. -/
def isFn : Term → Bool
  | fn _ _ => true
  | _ => false

mutual
/-- The text of a type: an arrow's argument is parenthesised when it is itself an arrow, and a
user type lists its arguments in angle brackets when it has any. -/
def render : Term → String
  | prim q => q.name
  | var w => varName w
  | fn a r => (if a.isFn then "(" ++ a.render ++ ")" else a.render) ++ " -> " ++ r.render
  | user name args =>
    if args.isEmpty then name else name ++ "<" ++ ", ".intercalate (renderList args) ++ ">"

/-- `render` on each type of a list. -/
def renderList : List Term → List String
  | [] => []
  | t :: ts => t.render :: renderList ts
end

theorem renderList_eq_map (ts : List Term) : renderList ts = ts.map render := by
  induction ts with
  | nil => rfl
  | cons t ts ih => simp [renderList, ih]

end Term

namespace Pool

variable {p : Pool}

/-- A settled handle is a function exactly when the type it stands for is one. -/
theorem isFn_term_of_settled (h : p.WF) {i : Idx} (hs : p.Settled i) :
    (p.term i).isFn = (p.item i).isFn := by
  cases hit : p.item i with
  | prim q => rw [term_of_prim h hit]; rfl
  | var w => rw [term_of_unbound h hit (hs w hit)]; rfl
  | fn a r => rw [term_of_fn h hit]; rfl
  | user n args => rw [term_of_user h hit]; rfl

theorem isFn_item_resolve (h : p.WF) (i : Idx) :
    (p.item (p.resolve i)).isFn = (p.term i).isFn := by
  rw [← term_resolve h i, isFn_term_of_settled h (resolve_spec h i).2]

/-- Within any budget above its rank, the walk prints the type a handle stands for. -/
theorem renderWithin_eq (h : p.WF) : ∀ {n : Nat} {i : Idx}, p.rank i < n →
    p.renderWithin n i = (p.term i).render
  | 0, _, hn => absurd hn (Nat.not_lt_zero _)
  | n + 1, i, hn => by
    have ih : ∀ {k : Idx}, p.Succ i k → p.renderWithin n k = (p.term k).render := fun hk =>
      renderWithin_eq h (Nat.lt_of_lt_of_le (h.rank_lt_of_succ hk) (Nat.le_of_lt_succ hn))
    unfold renderWithin
    cases hit : p.item i with
    | prim q => rw [term_of_prim h hit]; rfl
    | var w =>
      dsimp only
      cases ht : p.target? w with
      | none => rw [term_of_unbound h hit ht]; rfl
      | some t =>
        dsimp only
        rw [ih ((succ_of_var hit).2 ht), term_of_link h hit ht]
    | fn a r =>
      dsimp only
      -- the argument is parenthesised by the shape of what it resolves to
      rw [ih ((succ_of_fn hit).2 (Or.inl rfl)), ih ((succ_of_fn hit).2 (Or.inr rfl)),
        isFn_item_resolve h, term_of_fn h hit, Term.render]
    | user name args =>
      dsimp only
      rw [term_of_user h hit, Term.render, Term.renderList_eq_map, List.map_map, List.isEmpty_map,
        List.map_congr_left fun a ha => ih ((succ_of_user hit).2 ha)]
      rfl

/-- The text of a handle is the text of the type it stands for. -/
theorem render_eq (h : p.WF) (i : Idx) : p.render i = (p.term i).render :=
  renderWithin_eq h (h.rank_lt i)

/-- The text of a scheme is that of its quantified variables and of the type its body stands
for. -/
theorem renderScheme_eq (h : p.WF) (σ : Scheme) :
    p.renderScheme σ =
      if σ.isMono then (p.term σ.body).render
      else "forall" ++ String.join (σ.bounded.map fun v => " " ++ varName v) ++ ". " ++
        (p.term σ.body).render := by
  rw [renderScheme, render_eq h]

end Pool

/-- The listing of a context depends only on what its types stand for: two pools in which every
signature type and every scheme body stands for the same type list it the same. -/
theorem Context.render_congr {ctx : Context} {p q : Pool} (hp : p.WF) (hq : q.WF)
    (htags : ∀ b ∈ ctx.tags.bindings,
      (∀ a ∈ b.2.args, q.term a = p.term a) ∧ q.term b.2.result = p.term b.2.result)
    (hvars : ∀ b ∈ ctx.vars.bindings, q.term b.2.body = p.term b.2.body) :
    ctx.render q = ctx.render p := by
  have hargs : ∀ b ∈ ctx.tags.bindings, b.2.args.map q.render = b.2.args.map p.render :=
    fun b hb => List.map_congr_left fun a ha => by
      rw [Pool.render_eq hq, Pool.render_eq hp, (htags b hb).1 a ha]
  have hres : ∀ b ∈ ctx.tags.bindings, q.render b.2.result = p.render b.2.result := fun b hb => by
    rw [Pool.render_eq hq, Pool.render_eq hp, (htags b hb).2]
  have hvar : ∀ b ∈ ctx.vars.bindings, q.renderScheme b.2 = p.renderScheme b.2 := fun b hb => by
    rw [Pool.renderScheme_eq hq, Pool.renderScheme_eq hp, hvars b hb]
  unfold Context.render
  dsimp only
  congr 1
  · congr 2
    refine congrArg String.join (List.map_congr_left fun b hb => ?_)
    rw [hargs b hb, hres b hb]
  · refine congrArg String.join (List.map_congr_left fun b hb => ?_)
    rw [hvar b hb]

end TagML
