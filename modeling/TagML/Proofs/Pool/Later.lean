import TagML.Proofs.Ty.Deep

/-!
Resolution is stable under later operations.

Every operation of the library on a pool, failing unifications and inferences included,
extends it (`Step.extends`): items, flags and variables keep their places, and links, once
written, keep their targets.  Along a run of operations what a handle stands for changes only
by the new links, so an equation between the types two handles stand for survives every later
operation.  Deep resolution is a function of the type a handle stands for, so in a later pool a
type and its earlier deep resolution resolve alike, and two types that resolved alike still do;
and the free variables of a type in a later pool are those of what its earlier free variables
have come to stand for (`resolveDeep_stable`).
-/
namespace TagML

namespace Pool

/-- One operation of the library on a pool, applied to handles the pool has: the operations a
reachable pool is built by, with the pool a failing unification or inference leaves. -/
inductive Step : Pool → Pool → Prop
  | fresh {p : Pool} : Step p p.fresh.2
  | fn {p : Pool} {a r : Idx} : a.raw < p.size → r.raw < p.size → Step p (p.fn a r).2
  | user {p : Pool} {name : String} {args : List Idx} : (∀ a ∈ args, a.raw < p.size) →
      Step p (p.user name args).2
  | curried {p : Pool} {args : List Idx} {ret : Idx} : (∀ a ∈ args, a.raw < p.size) →
      ret.raw < p.size → Step p (p.curried args ret).2
  | unify {p : Pool} {a b : Idx} : a.raw < p.size → b.raw < p.size → Step p (p.unify a b).1
  | instantiate {p : Pool} {σ : Scheme} : σ.body.raw < p.size → Step p (p.instantiate σ).2
  | instantiateTag {p : Pool} {sig : TagSig} : (∀ a ∈ sig.args, a.raw < p.size) →
      sig.result.raw < p.size → Step p ((InferM.instantiateTag sig).poolAfter p)
  | resolveDeep {p : Pool} {i : Idx} : i.raw < p.size → Step p (p.resolveDeep i).2
  | resolveDeepAll {p : Pool} {is : List Idx} : (∀ i ∈ is, i.raw < p.size) →
      Step p (p.resolveDeepAll is).2
  | infer {p : Pool} (ctx : Context) (env : Env Scheme) (e : Expr) {t : Idx} :
      p.ValidTags ctx.tags → p.ValidEnv env → t.raw < p.size →
      Step p ((TagML.infer ctx env e t).poolAfter p)

variable {p q : Pool}

/-- Every operation keeps a pool well formed and extends it. -/
theorem Step.extends (h : p.WF) (hs : p.Step q) : q.WF ∧ p.Extends q := by
  cases hs with
  | fresh => exact ⟨h.fresh, .of_grows (grows_fresh h)⟩
  | fn ha hr => exact ⟨(fn_spec h ha hr).1, .of_grows (fn_spec h ha hr).2.1⟩
  | user hargs => exact ⟨(user_spec h _ hargs).1, .of_grows (user_spec h _ hargs).2.1⟩
  | curried hargs hret =>
    exact ⟨(curried_spec h hret hargs).1, .of_grows (curried_spec h hret hargs).2.1⟩
  | unify ha hb => exact ⟨(unify_wf h ha hb).1, .of_addsLinks (unify_wf h ha hb).2⟩
  | instantiate hb => exact ⟨(instantiate_spec h hb).1, .of_grows (instantiate_spec h hb).2.1⟩
  | instantiateTag hargs hres => exact InferM.instantiateTag_keeps.poolAfter h ⟨hargs, hres⟩
  | resolveDeep hi => exact ⟨(resolveDeep_spec h hi).1, .of_grows (resolveDeep_spec h hi).2.1⟩
  | resolveDeepAll his =>
    have hs := substituteAll_spec h (resolvedImages_nil _) his
    exact ⟨hs.1, .of_grows hs.2.1⟩
  | infer ctx env e htags henv ht =>
    exact (infer_keeps ctx env e _).poolAfter h ⟨htags, henv, by simp [ht]⟩

/-- Every run of operations keeps a pool well formed and extends it. -/
theorem Step.run_extends (h : p.WF) (hr : Relation.ReflTransGen Step p q) :
    q.WF ∧ p.Extends q := by
  induction hr with
  | refl => exact ⟨h, .refl p⟩
  | tail _ hs ih =>
    obtain ⟨hq, he⟩ := ih
    obtain ⟨hr, he'⟩ := hs.extends hq
    exact ⟨hr, he.trans he'⟩

/-- Two types that deep resolution, run on one and then the other, sends to one handle stand
for the same type. -/
theorem term_eq_of_resolveDeep_eq (h : p.WF) {a b : Idx} (ha : a.raw < p.size)
    (hb : b.raw < p.size) (heq : ((p.resolveDeep a).2.resolveDeep b).1 = (p.resolveDeep a).1) :
    p.term a = p.term b := by
  obtain ⟨h₁, hg₁, hout₁, -, hterm₁⟩ := resolveDeep_spec h ha
  have hb₁ : b.raw < (p.resolveDeep a).2.size := Nat.lt_of_lt_of_le hb hg₁.size_le
  obtain ⟨h₂, hg₂, -, -, hterm₂⟩ := resolveDeep_spec h₁ hb₁
  rw [heq, hg₂.term_eq h₁ h₂ hout₁, hterm₁, hg₁.term_eq h h₁ hb] at hterm₂
  exact hterm₂

/-- After deep resolution of a type, deep resolution of another type standing for the same
type returns the same handle and builds nothing. -/
theorem resolveDeep_after_of_term_eq (h : p.WF) {a b : Idx} (ha : a.raw < p.size)
    (hb : b.raw < p.size) (he : p.term a = p.term b) :
    (p.resolveDeep a).2.resolveDeep b = p.resolveDeep a := by
  obtain ⟨h₁, hg₁, hout₁, hres₁, hterm₁⟩ := resolveDeep_spec h ha
  have hb₁ : b.raw < (p.resolveDeep a).2.size := Nat.lt_of_lt_of_le hb hg₁.size_le
  rw [resolveDeep_of_resolved h₁ hb₁ hout₁ hres₁ (by rw [hterm₁, he, hg₁.term_eq h h₁ hb])]

/-- The free variables of a type in a later pool are the free variables of what its free
variables in the earlier pool have come to stand for. -/
theorem Extends.mem_freeVars_later (hp : p.WF) (hq : q.WF) (he : p.Extends q) {t : Idx}
    (ht : t.raw < p.size) (w : Nat) :
    w ∈ q.freeVars t ↔ ∃ v ∈ p.freeVars t, ∃ x, p.varItem? v = some x ∧ w ∈ q.freeVars x := by
  -- what a free variable stands for in `q` is the type of its item there, which is its old item
  have item : ∀ v ∈ (p.term t).vars, ∃ x, p.varItem? v = some x ∧ q.binding v = q.term x :=
    fun v hv => by
      have hvc := lt_varCount_of_mem_vars_term hp ht hv
      obtain ⟨x, hx, -, -⟩ := hp.varItem v hvc
      exact ⟨x, hx, by simp only [binding, he.varItem?_eq v hvc, hx]⟩
  rw [mem_freeVars hq, he.term_eq_subst hp hq ht, Term.mem_vars_subst]
  constructor
  · rintro ⟨v, hv, hw⟩
    obtain ⟨x, hx, hbx⟩ := item v hv
    rw [hbx, ← mem_freeVars hq] at hw
    exact ⟨v, (mem_freeVars hp t).2 hv, x, hx, hw⟩
  · rintro ⟨v, hv, x, hx, hw⟩
    rw [mem_freeVars hp] at hv
    obtain ⟨x', hx', hbx⟩ := item v hv
    rw [hx] at hx'
    cases hx'
    rw [mem_freeVars hq, ← hbx] at hw
    exact ⟨v, hv, hw⟩

/-- Resolution is stable under later operations.  Take a reachable pool and any run of
operations after it, failing ones included.  In the pool the run leaves, a type resolves deeply
as its earlier deep resolution does (the run starting after that resolution); two types that
deep resolution sent to one handle still resolve to one handle, with the same pool, and
resolving the second after the first builds nothing; and the free variables of a type are those
of what its earlier free variables have come to stand for. -/
theorem resolveDeep_stable (hp : p.Reachable) :
    (∀ t : Idx, t.raw < p.size → ∀ q, Relation.ReflTransGen Step (p.resolveDeep t).2 q →
      q.resolveDeep t = q.resolveDeep (p.resolveDeep t).1) ∧
    (∀ a b : Idx, a.raw < p.size → b.raw < p.size →
      ((p.resolveDeep a).2.resolveDeep b).1 = (p.resolveDeep a).1 →
      ∀ q, Relation.ReflTransGen Step p q →
        q.resolveDeep a = q.resolveDeep b ∧ (q.resolveDeep a).2.resolveDeep b = q.resolveDeep a) ∧
    ∀ t : Idx, t.raw < p.size → ∀ q, Relation.ReflTransGen Step p q → ∀ w : Nat,
      w ∈ q.freeVars t ↔ ∃ v ∈ p.freeVars t, ∃ x, p.varItem? v = some x ∧ w ∈ q.freeVars x := by
  have h := hp.wf
  refine ⟨fun t ht q hr => ?_, fun a b ha hb heq q hr => ?_, fun t ht q hr w => ?_⟩
  · -- the earlier resolution stands for the type, and keeps standing for what it does
    obtain ⟨h₁, hg₁, hout₁, -, hterm₁⟩ := resolveDeep_spec h ht
    obtain ⟨hq, he⟩ := Step.run_extends h₁ hr
    have ht₁ : t.raw < (p.resolveDeep t).2.size := Nat.lt_of_lt_of_le ht hg₁.size_le
    have hterm : q.term t = q.term (p.resolveDeep t).1 :=
      he.term_congr h₁ hq ht₁ hout₁ (by rw [hterm₁, hg₁.term_eq h h₁ ht])
    exact resolveDeep_eq_of_term_eq hq (Nat.lt_of_lt_of_le ht₁ he.size_le)
      (Nat.lt_of_lt_of_le hout₁ he.size_le) hterm
  · obtain ⟨hq, he⟩ := Step.run_extends h hr
    have hterm := he.term_congr h hq ha hb (term_eq_of_resolveDeep_eq h ha hb heq)
    have ha' := Nat.lt_of_lt_of_le ha he.size_le
    have hb' := Nat.lt_of_lt_of_le hb he.size_le
    exact ⟨resolveDeep_eq_of_term_eq hq ha' hb' hterm,
      resolveDeep_after_of_term_eq hq ha' hb' hterm⟩
  · obtain ⟨hq, he⟩ := Step.run_extends h hr
    exact he.mem_freeVars_later h hq ht w

/-- Stability at the pool of `reachable_fn_unify`, where `b` (handle 7) is linked to `Int`: deep
resolution rebuilds `a -> b` (handle 8) as `a -> Int`, and once `a` is then unified with `Bool`
the function type still resolves as the rebuilt one does; `b` resolves to `Int` itself, and after
any run the two still resolve alike. -/
theorem resolveDeep_stable_fn_unify :
    ∃ p : Pool, p = ((({} : Pool).fresh.2.fresh.2.fn ⟨6⟩ ⟨7⟩).2.unify ⟨7⟩ Prim.int.idx).1 ∧
      p.Reachable ∧ (p.resolveDeep ⟨8⟩).2.term (p.resolveDeep ⟨8⟩).1 = .fn (.var 0) (.prim .int) ∧
      ((p.resolveDeep ⟨8⟩).2.unify ⟨6⟩ Prim.bool.idx).1.resolveDeep ⟨8⟩ =
        ((p.resolveDeep ⟨8⟩).2.unify ⟨6⟩ Prim.bool.idx).1.resolveDeep (p.resolveDeep ⟨8⟩).1 ∧
      (p.resolveDeep ⟨7⟩).1 = Prim.int.idx ∧
      ∀ q, Relation.ReflTransGen Step p q →
        q.resolveDeep ⟨7⟩ = q.resolveDeep Prim.int.idx ∧
          (q.resolveDeep ⟨7⟩).2.resolveDeep Prim.int.idx = q.resolveDeep ⟨7⟩ := by
  obtain ⟨p, hp⟩ : ∃ p, p = ((({} : Pool).fresh.2.fresh.2.fn ⟨6⟩ ⟨7⟩).2.unify ⟨7⟩ Prim.int.idx).1 :=
    ⟨_, rfl⟩
  have hr : p.Reachable := hp ▸ reachable_fn_unify
  -- the pool itself, `a -> b` interned at its end
  have hval := hp
  rw [fn_first_compound] at hval
  have h8 : (⟨8⟩ : Idx).raw < p.size := by rw [hval]; decide
  have H := resolveDeep_stable hr
  obtain ⟨-, hg, -, -, hterm⟩ := resolveDeep_spec hr.wf h8
  -- `b` resolves to `Int` without building anything
  have hb : (p.resolveDeep ⟨7⟩).1 = Prim.int.idx := by rw [hval]; rfl
  have hrun : Relation.ReflTransGen Step (p.resolveDeep ⟨8⟩).2
      ((p.resolveDeep ⟨8⟩).2.unify ⟨6⟩ Prim.bool.idx).1 :=
    .single (.unify (Nat.lt_of_lt_of_le (by rw [hval]; decide) hg.size_le)
      (Nat.lt_of_lt_of_le (by rw [hval]; decide) hg.size_le))
  refine ⟨p, hp, hr, by rw [hterm, hval]; rfl, H.1 ⟨8⟩ h8 _ hrun, hb,
    H.2.1 ⟨7⟩ Prim.int.idx (by rw [hval]; decide) (by rw [hval]; decide) ?_⟩
  rw [hb, hval]
  rfl

end Pool

end TagML
