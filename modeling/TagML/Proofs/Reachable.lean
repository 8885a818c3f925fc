import TagML.Proofs.Infer.WellFormed

/-!
The pools a program can reach, and why every walk over them ends.

A program builds its pool from the empty one by the pool's own operations: fresh variables,
function and user types, curried functions, unification, instances of schemes and of tag
signatures, deep resolution, and whole runs of inference.  Generalizing reads the pool and
changes nothing.  Each operation is applied to handles the pool has (and inference to a
context whose signatures and schemes are in it); links are written only by unification.

Every such pool is well formed, so links never form a cycle through parts: no variable is
reachable from its own link target.  That is what makes the walks total: each walk follows
links and parts from a handle, meets each item at most once along a path, and so never uses
up the budget of steps it is given.
-/
namespace TagML

namespace InferM

/-- The pool a run of `x` from pool `p` leaves, whether it succeeds or fails. -/
def poolAfter {α : Type} (x : InferM α) (p : Pool) : Pool :=
  match x.run { pool := p } with
  | .ok _ e => e.pool
  | .error _ e => e.pool

theorem Keeps.poolAfter {α : Type} {x : InferM α} {P : Pool → Prop} {Q : α → Pool → Prop}
    (hx : Keeps x P Q) {p : Pool} (h : p.WF) (hP : P p) :
    (x.poolAfter p).WF ∧ p.Extends (x.poolAfter p) := by
  have := hx { pool := p } h hP
  unfold InferM.poolAfter
  revert this
  cases x.run { pool := p } with
  | ok _ e => exact fun ⟨h₁, h₂, _⟩ => ⟨h₁, h₂⟩
  | error _ e => exact id

end InferM

namespace Pool

/-- The pools reachable from the empty pool by the pool's operations, each applied to handles
the pool has.  No operation links a variable directly. -/
inductive Reachable : Pool → Prop
  | empty : Reachable {}
  | fresh {p : Pool} : Reachable p → Reachable p.fresh.2
  | fn {p : Pool} {a r : Idx} : Reachable p → a.raw < p.size → r.raw < p.size →
      Reachable (p.fn a r).2
  | user {p : Pool} {name : String} {args : List Idx} : Reachable p →
      (∀ a ∈ args, a.raw < p.size) → Reachable (p.user name args).2
  | curried {p : Pool} {args : List Idx} {ret : Idx} : Reachable p →
      (∀ a ∈ args, a.raw < p.size) → ret.raw < p.size → Reachable (p.curried args ret).2
  | unify {p : Pool} {a b : Idx} : Reachable p → a.raw < p.size → b.raw < p.size →
      Reachable (p.unify a b).1
  | instantiate {p : Pool} {σ : Scheme} : Reachable p → σ.body.raw < p.size →
      Reachable (p.instantiate σ).2
  | instantiateTag {p : Pool} {sig : TagSig} : Reachable p → (∀ a ∈ sig.args, a.raw < p.size) →
      sig.result.raw < p.size → Reachable ((InferM.instantiateTag sig).poolAfter p)
  | resolveDeep {p : Pool} {i : Idx} : Reachable p → i.raw < p.size →
      Reachable (p.resolveDeep i).2
  | resolveDeepAll {p : Pool} {is : List Idx} : Reachable p → (∀ i ∈ is, i.raw < p.size) →
      Reachable (p.resolveDeepAll is).2
  | infer {p : Pool} (ctx : Context) (env : Env Scheme) (e : Expr) {t : Idx} : Reachable p →
      p.ValidTags ctx.tags → p.ValidEnv env → t.raw < p.size →
      Reachable ((TagML.infer ctx env e t).poolAfter p)

/-- Every reachable pool is well formed. -/
theorem Reachable.wf {p : Pool} (hp : p.Reachable) : p.WF := by
  induction hp with
  | empty => exact WF.empty
  | fresh _ ih => exact ih.fresh
  | fn _ ha hr ih => exact (fn_spec ih ha hr).1
  | user _ hargs ih => exact (user_spec ih _ hargs).1
  | curried _ hargs hret ih => exact (curried_spec ih hret hargs).1
  | unify _ ha hb ih => exact (unify_wf ih ha hb).1
  | instantiate _ hb ih => exact (instantiate_spec ih hb).1
  | instantiateTag _ hargs hres ih =>
    exact (InferM.instantiateTag_keeps.poolAfter ih ⟨hargs, hres⟩).1
  | resolveDeep _ hi ih => exact (resolveDeep_spec ih hi).1
  | resolveDeepAll _ his ih => exact (substituteAll_spec ih (resolvedImages_nil _) his).1
  | infer ctx env e _ htags henv ht ih =>
    exact ((infer_keeps ctx env e _).poolAfter ih ⟨htags, henv, by simp [ht]⟩).1

/-- The discipline links keep in a pool: no variable reaches itself through its link, every
walk gives the same answer with any budget from the pool's size up, substitution rewrites every
handle completely, unification writes each link once to an unbound variable, and the occurs
check turns an infinite type into an error that links nothing. -/
structure LinkDiscipline (p : Pool) : Prop where
  no_cycle : ∀ v t x, p.target? v = some t → p.varItem? v = some x →
    ¬ Relation.ReflTransGen p.Succ t x
  resolve_total : ∀ (i : Idx) (n : Nat), p.size ≤ n → p.resolveWithin n i = p.resolve i
  occurs_total : ∀ (v : Nat) (i : Idx) (n : Nat), p.size ≤ n →
    p.occursWithin v n i = p.occurs v i
  freeVars_total : ∀ (acc : List Nat) (i : Idx) (n : Nat), p.size ≤ n →
    p.freeVarsWithin n acc i = p.freeVarsWithin p.size acc i
  render_total : ∀ (i : Idx) (n : Nat), p.size ≤ n → p.renderWithin n i = p.render i
  substitute_total : ∀ (σ : List (Nat × Idx)) (i : Idx), p.ResolvedImages σ → i.raw < p.size →
    p.Rewritten σ (p.substitute σ i).2 i (p.substitute σ i).1
  unify_writes_once : ∀ a b : Idx, a.raw < p.size → b.raw < p.size →
    p.AddsLinks (p.unify a b).1
  unify_infinite : ∀ (x t : Idx) (v : Nat), p.item x = .var v → p.target? v = none →
    (∀ w, p.item (p.resolve t) ≠ .var w) → v ∈ (p.term t).vars →
    p.unify x t = (p, some (.infinite v (p.resolve t)))

/-- Every reachable pool keeps the link discipline. -/
theorem Reachable.linkDiscipline {p : Pool} (hp : p.Reachable) : p.LinkDiscipline := by
  have h := hp.wf
  have hlt : ∀ (i : Idx) (n : Nat), p.size ≤ n → p.rank i < n := fun i _ hn =>
    Nat.lt_of_lt_of_le (h.rank_lt i) hn
  refine ⟨fun v t x ht hx hr => ?_, fun i n hn => resolveWithin_eq h (hlt i n hn),
    fun v i n hn => occursWithin_eq h v (hlt i n hn),
    fun acc i n hn => freeVarsWithin_congr h (hlt i n hn) (h.rank_lt i),
    fun i n hn => renderWithin_congr h (hlt i n hn) (h.rank_lt i),
    fun σ i hσ hi => (substitute_spec h hσ hi).2.2, fun a b ha hb => (unify_wf h ha hb).2,
    fun x t v hx hv ht hocc => unify_of_occurs h hx hv ht hocc⟩
  -- the variable's item steps to its target, so a path back would close a cycle
  have hsucc : p.Succ x t := (succ_of_var (h.varItem?_spec hx).2).2 ht
  exact h.acyclic x (Relation.TransGen.head' hsucc hr)

/-- The function type between the first two variables is the pool's first compound: interning
it appends it as handle 8.  Concrete pools are evaluated through this equation, since a lookup
in the interning map does not compute. -/
theorem fn_first_compound :
    ({} : Pool).fresh.2.fresh.2.fn ⟨6⟩ ⟨7⟩ =
      (⟨8⟩, { (({} : Pool).fresh.2.fresh.2.push (.fn ⟨6⟩ ⟨7⟩) true).2 with
        interned := (∅ : Std.HashMap Item Idx).insert (.fn ⟨6⟩ ⟨7⟩) ⟨8⟩ }) :=
  Pool.intern_of_not_mem _ Std.HashMap.getElem?_empty

/-- A link under a compound, built by the pool's own operations: variables `a` and `b` (handles
6 and 7), the function type `a -> b` (handle 8), then `b` unified with `Int`. -/
theorem reachable_fn_unify :
    ((({} : Pool).fresh.2.fresh.2.fn ⟨6⟩ ⟨7⟩).2.unify ⟨7⟩ Prim.int.idx).1.Reachable :=
  .unify (.fn (.fresh (.fresh .empty)) (by decide) (by decide)) (by rw [fn_first_compound]; decide)
    (by rw [fn_first_compound]; decide)

/-- The pool of `reachable_fn_unify` with a third variable `c` (handle 9) and the function type
`Bool -> c` (handle 10) beside `a -> b`. -/
theorem reachable_fn_pair :
    (((({} : Pool).fresh.2.fresh.2.fn ⟨6⟩ ⟨7⟩).2.unify ⟨7⟩ Prim.int.idx).1.fresh.2.fn
      Prim.bool.idx ⟨9⟩).2.Reachable :=
  .fn (.fresh reachable_fn_unify) (by rw [fn_first_compound]; decide)
    (by rw [fn_first_compound]; decide)

/-- `Bool -> c` is new to the pool of `reachable_fn_unify` with a third variable `c` added, so
interning it appends it as handle 10. -/
theorem fn_second_compound :
    ((({} : Pool).fresh.2.fresh.2.fn ⟨6⟩ ⟨7⟩).2.unify ⟨7⟩ Prim.int.idx).1.fresh.2.fn
        Prim.bool.idx ⟨9⟩ =
      (⟨10⟩, { (((({} : Pool).fresh.2.fresh.2.fn ⟨6⟩ ⟨7⟩).2.unify ⟨7⟩ Prim.int.idx).1.fresh.2.push
          (.fn Prim.bool.idx ⟨9⟩) true).2 with
        interned := Std.HashMap.insert
          ((({} : Pool).fresh.2.fresh.2.fn ⟨6⟩ ⟨7⟩).2.unify ⟨7⟩ Prim.int.idx).1.fresh.2.interned
          (.fn Prim.bool.idx ⟨9⟩) ⟨10⟩ }) := by
  obtain ⟨p, hp⟩ : ∃ p,
      p = ((({} : Pool).fresh.2.fresh.2.fn ⟨6⟩ ⟨7⟩).2.unify ⟨7⟩ Prim.int.idx).1.fresh.2 :=
    ⟨_, rfl⟩
  rw [← hp]
  have hval := hp
  rw [fn_first_compound] at hval
  -- the pool holds ten items, `c` among them, and no function type from `Bool`
  have hnew : p.interned[Item.fn Prim.bool.idx ⟨9⟩]? = none :=
    (hp ▸ reachable_fn_unify.fresh.wf : p.WF).interned_eq_none (by rw [hval]; decide)
  have hsize : p.size = 10 := by rw [hval]; rfl
  have hvars : (Item.fn Prim.bool.idx ⟨9⟩).parts.any p.hasVars = true := by rw [hval]; rfl
  exact (p.intern_of_not_mem hnew).trans (by rw [hsize, hvars])

/-- The discipline at the pool of `reachable_fn_unify`: the link of `b` closes no cycle,
and unifying `a` with `a -> b` reports the infinite type and links nothing. -/
theorem linkDiscipline_fn_unify :
    ∃ p : Pool, p = ((({} : Pool).fresh.2.fresh.2.fn ⟨6⟩ ⟨7⟩).2.unify ⟨7⟩ Prim.int.idx).1 ∧
      p.Reachable ∧ p.LinkDiscipline ∧ p.target? 1 = some Prim.int.idx ∧
      ¬ Relation.ReflTransGen p.Succ Prim.int.idx ⟨7⟩ ∧
      p.unify ⟨6⟩ ⟨8⟩ = (p, some (.infinite 0 ⟨8⟩)) := by
  obtain ⟨p, hp⟩ : ∃ p, p = ((({} : Pool).fresh.2.fresh.2.fn ⟨6⟩ ⟨7⟩).2.unify ⟨7⟩ Prim.int.idx).1 :=
    ⟨_, rfl⟩
  have hr : p.Reachable := hp ▸ reachable_fn_unify
  -- the pool itself, `a -> b` interned at its end
  have hval := hp
  rw [fn_first_compound] at hval
  have hd := Reachable.linkDiscipline hr
  have hlink : p.target? 1 = some Prim.int.idx := by rw [hval]; decide
  have hres : p.resolve ⟨8⟩ = ⟨8⟩ := by rw [hval]; decide
  have hitem : p.item ⟨8⟩ = .fn ⟨6⟩ ⟨7⟩ := by rw [hval]; decide
  refine ⟨p, hp, hr, hd, hlink, hd.no_cycle 1 _ _ hlink (by rw [hval]; decide), ?_⟩
  have hinf := hd.unify_infinite ⟨6⟩ ⟨8⟩ 0 (by rw [hval]; decide) (by rw [hval]; decide)
    (fun w hw => by rw [hres, hitem] at hw; cases hw) (by rw [hval]; decide)
  rwa [hres] at hinf

end Pool

end TagML
