import TagML.Proofs.Reachable

/-!
Properties of pools that every operation keeps.

A pool changes in three ways only: a fresh variable is pushed, a compound structure is
interned, or a variable is linked.  Every operation of the library, from building a function
type to a whole run of inference, is made of these three changes, so a property that each of
them keeps, with no condition on the handles involved, is kept by every operation
(`Pool.Stable`).  This is the shape of facts about allocation, such as the order in which
variables are numbered, that need nothing of the handles an operation is given.

The lemmas below go through the operations in the order they are built on one another: the
builders, unification, rewriting passes, resolution of written types, catalogues, and the steps
of inference.
-/
namespace TagML

namespace Pool

/-- A property of pools that pushing a fresh variable, interning a function or user type and
writing a link each keep. -/
structure Stable (I : Pool → Prop) : Prop where
  fresh : ∀ p, I p → I p.fresh.2
  intern : ∀ p it, it.isCompound = true → I p → I (p.intern it).2
  link : ∀ p v t, I p → I (p.link v t)

namespace Stable

variable {I : Pool → Prop} {p : Pool}

theorem curried (hI : Stable I) (ret : Idx) :
    ∀ args : List Idx, I p → I (p.curried args ret).2
  | [], hp => hp
  | _ :: args, hp => hI.intern _ _ rfl (hI.curried ret args hp)

theorem bind (hI : Stable I) (v : Nat) (t : Idx) (hp : I p) : I (p.bind v t).1 := by
  rw [bind_eq]
  split
  · exact hp
  · exact hI.link p v t hp

theorem unifyPairs {f : Pool → Idx → Idx → Pool × Option UnifyError}
    (hf : ∀ p x y, I p → I (f p x y).1) :
    ∀ (pairs : List (Idx × Idx)) (acc : Pool × Option UnifyError), I acc.1 →
      I (Pool.unifyPairs f acc pairs).1
  | [], _, h => h
  | _ :: pairs, (q, none), h => by
    rw [unifyPairs_cons]
    exact unifyPairs hf pairs _ (hf q _ _ h)
  | _ :: pairs, (q, some e), h => by
    rw [unifyPairs_error]
    exact h

theorem unifyWithin (hI : Stable I) (n : Nat) :
    ∀ (p : Pool) (a b : Idx), I p → I (p.unifyWithin n a b).1 := by
  induction n with
  | zero => exact fun _ _ _ h => h
  | succ n ih =>
    intro p a b hp
    rw [unifyWithin_succ]
    split
    · exact hp
    split
    · exact hp
    split
    · split <;> exact hI.bind _ _ hp
    · exact hI.bind _ _ hp
    · exact hI.bind _ _ hp
    · next x r y q _ _ =>
      -- the second pair is unified in the pool the first left
      cases h₁ : p.unifyWithin n x y with
      | mk p₁ r₁ =>
        have hp₁ : I p₁ := by
          have := ih p x y hp
          rwa [h₁] at this
        cases r₁ with
        | none => exact ih p₁ r q hp₁
        | some e => exact hp₁
    · split
      · exact unifyPairs (fun q x y hq => ih q x y hq) _ (p, none) hp
      · exact hp
    · exact hp

theorem unify (hI : Stable I) (a b : Idx) (hp : I p) : I (p.unify a b).1 :=
  hI.unifyWithin _ p a b hp

theorem freshFor (hI : Stable I) : ∀ (vs : List Nat) (p : Pool), I p → I (p.freshFor vs).2
  | [], _, hp => hp
  | _ :: vs, p, hp => freshFor hI vs p.fresh.2 (hI.fresh p hp)

theorem freshMany (hI : Stable I) : ∀ (n : Nat) (p : Pool), I p → I (p.freshMany n).2
  | 0, _, hp => hp
  | n + 1, p, hp => freshMany hI n p.fresh.2 (hI.fresh p hp)

end Stable

end Pool

/-! ## Rewriting passes -/

namespace Rewrite

variable {I : Pool → Prop} {α β : Type}

/-- Running `x` keeps `I` of the pass's pool. -/
def KeepsPool (I : Pool → Prop) (x : RewriteM α) : Prop :=
  ∀ st : Rewrite, I st.pool → I (x.run st).2.pool

namespace KeepsPool

protected theorem pure (a : α) : KeepsPool I (pure a : RewriteM α) := fun _ h => h

protected theorem bind {x : RewriteM α} {f : α → RewriteM β} (hx : KeepsPool I x)
    (hf : ∀ a, KeepsPool I (f a)) : KeepsPool I (x >>= f) :=
  fun st h => hf _ _ (hx st h)

theorem get : KeepsPool I (get : RewriteM Rewrite) := fun _ h => h

theorem build (hI : ∀ p it, it.isCompound = true → I p → I (p.intern it).2) {it : Item}
    (hc : it.isCompound = true) : KeepsPool I (build it) :=
  fun st h => by
    rw [build_run]
    exact hI _ _ hc h

theorem remember (i out : Idx) : KeepsPool I (remember i out) := fun st h => by
  rw [remember_run]
  exact h

theorem mapM {f : Idx → RewriteM Idx} (hf : ∀ i, KeepsPool I (f i)) :
    ∀ is : List Idx, KeepsPool I (is.mapM f)
  | [] => KeepsPool.pure _
  | i :: is => by
    rw [List.mapM_cons]
    exact (hf i).bind fun _ => (mapM hf is).bind fun _ => KeepsPool.pure _

end KeepsPool

/-- A pass only interns compounds, so it keeps every property that interning keeps. -/
theorem substWithin_keepsPool (hI : ∀ p it, it.isCompound = true → I p → I (p.intern it).2)
    (σ : List (Nat × Idx)) :
    ∀ (n : Nat) (i : Idx), KeepsPool I (substWithin σ n i)
  | 0, _ => KeepsPool.pure _
  | n + 1, i => by
    rw [substWithin]
    refine KeepsPool.get.bind fun st => ?_
    split
    · exact KeepsPool.pure _
    dsimp only
    split
    · exact KeepsPool.pure _
    split
    · exact KeepsPool.pure _
    -- every rewrite of a part is itself a pass that keeps `I`, and so is building from them
    have hdone : ∀ x : RewriteM Idx, KeepsPool I x → ∀ j : Idx,
        KeepsPool I (do let out ← x; Rewrite.remember j out; pure out) := fun x hx j =>
      hx.bind fun out => (KeepsPool.remember j out).bind fun _ => KeepsPool.pure _
    split
    · exact hdone _ (KeepsPool.pure _) _
    · exact hdone _ ((substWithin_keepsPool hI σ n _).bind fun _ =>
        (substWithin_keepsPool hI σ n _).bind fun _ => KeepsPool.build hI rfl) _
    · exact hdone _ ((KeepsPool.mapM (fun a => substWithin_keepsPool hI σ n a) _).bind fun _ =>
        KeepsPool.build hI rfl) _
    · exact hdone _ (KeepsPool.pure _) _

theorem substitute_keepsPool (hI : ∀ p it, it.isCompound = true → I p → I (p.intern it).2)
    (σ : List (Nat × Idx)) (i : Idx) :
    KeepsPool I (substitute σ i) :=
  KeepsPool.get.bind fun _ => substWithin_keepsPool hI σ _ i

end Rewrite

namespace Pool

namespace Stable

variable {I : Pool → Prop} {p : Pool}

/-- A pass that keeps `I` leaves a pool with `I`. -/
theorem rewrite {α : Type} {pass : RewriteM α} (hpass : Rewrite.KeepsPool I pass) (hp : I p) :
    I (p.rewrite pass).2 :=
  hpass { pool := p } hp

theorem substitute (hI : Stable I) (σ : List (Nat × Idx)) (i : Idx) (hp : I p) :
    I (p.substitute σ i).2 :=
  rewrite (Rewrite.substitute_keepsPool hI.intern σ i) hp

theorem substituteAll (hI : Stable I) (σ : List (Nat × Idx)) (is : List Idx) (hp : I p) :
    I (p.substituteAll σ is).2 :=
  rewrite (Rewrite.KeepsPool.mapM (Rewrite.substitute_keepsPool hI.intern σ) is) hp

theorem resolveDeep (hI : Stable I) (i : Idx) (hp : I p) : I (p.resolveDeep i).2 :=
  hI.substitute [] i hp

theorem resolveDeepAll (hI : Stable I) (is : List Idx) (hp : I p) : I (p.resolveDeepAll is).2 :=
  hI.substituteAll [] is hp

theorem instantiate (hI : Stable I) (σ : Scheme) (hp : I p) : I (p.instantiate σ).2 := by
  unfold Pool.instantiate
  split
  · exact hp
  · exact hI.substitute _ σ.body (hI.freshFor σ.bounded p hp)

end Stable

end Pool

/-! ## Written types and catalogues -/

section Catalogue

variable {I : Pool → Prop}

mutual
theorem TypeExpr.resolve_stable (hI : Pool.Stable I) (params : Env Idx) :
    ∀ (t : TypeExpr) (p : Pool), I p → I (t.resolve params p).2
  | .prim _, _, hp => hp
  | .infer, p, hp => hI.fresh p hp
  | .fn a r, p, hp => by
    simp only [TypeExpr.resolve]
    exact hI.intern _ _ rfl (TypeExpr.resolve_stable hI params r _
      (TypeExpr.resolve_stable hI params a p hp))
  | .named n args, p, hp => by
    simp only [TypeExpr.resolve]
    split
    · exact hp
    · exact hI.intern _ _ rfl (TypeExpr.resolveList_stable hI params _ p hp)

theorem TypeExpr.resolveList_stable (hI : Pool.Stable I) (params : Env Idx) :
    ∀ (ts : List TypeExpr) (p : Pool), I p → I (TypeExpr.resolveList params p ts).2
  | [], _, hp => hp
  | t :: ts, p, hp => by
    simp only [TypeExpr.resolveList]
    exact TypeExpr.resolveList_stable hI params ts _ (TypeExpr.resolve_stable hI params t p hp)
end

theorem TypeItem.tagSigs_stable (hI : Pool.Stable I) (params : Env Idx) (bounded : List Nat)
    (result : Idx) : ∀ (index : Nat) (ds : List TagDecl) (s : Pool), I s →
      I (TypeItem.tagSigs params bounded result s index ds).2
  | _, [], _, hs => hs
  | index, d :: ds, s, hs => by
    simp only [TypeItem.tagSigs]
    exact TypeItem.tagSigs_stable hI params bounded result (index + 1) ds _
      (TypeExpr.resolveList_stable hI params d.args s hs)

theorem TypeItem.build_stable (hI : Pool.Stable I) (item : TypeItem) {s : Pool} (hs : I s) :
    I (item.build s).2 := by
  simp only [TypeItem.build]
  exact TypeItem.tagSigs_stable hI _ _ _ 0 item.tags _
    (hI.intern _ _ rfl (hI.freshMany item.params.length s hs))

theorem Catalogue.build_stable (hI : Pool.Stable I) (items : List TypeItem) {s : Pool}
    (hs : I s) : I (Catalogue.build items s).2 := by
  simp only [Catalogue.build]
  -- each item's signatures are built in the pool the items before it left
  refine List.foldlRecOn (motive := fun (acc : Env TagSig × Pool) => I acc.2) items _ hs
    fun acc hacc item _ => ?_
  exact TypeItem.build_stable hI item hacc

/-- No pool operation frees a variable: having at least `n` of them allocated is stable. -/
theorem Pool.stable_le_varCount (n : Nat) : Pool.Stable fun q => n ≤ q.varCount where
  fresh p h := by
    rw [Pool.varCount_fresh]
    omega
  intern p it _ h := by rwa [Pool.varCount_intern]
  link p v t h := by rwa [Pool.varCount_link]

end Catalogue

/-! ## Inference -/

namespace InferM

variable {I : Pool → Prop} {α β : Type}

/-- Running `x` keeps `I` of the engine's pool, whether it succeeds or fails. -/
def KeepsPool (I : Pool → Prop) (x : InferM α) : Prop :=
  ∀ e : Engine, I e.pool →
    match x.run e with
    | .ok _ e' => I e'.pool
    | .error _ e' => I e'.pool

namespace KeepsPool

protected theorem pure (a : α) : KeepsPool I (pure a : InferM α) := fun _ h => h

protected theorem throw (err : CheckError) : KeepsPool I (throw err : InferM α) := fun _ h => h

protected theorem bind {x : InferM α} {f : α → InferM β} (hx : KeepsPool I x)
    (hf : ∀ a, KeepsPool I (f a)) : KeepsPool I (x >>= f) := by
  intro e h
  have h₁ := hx e h
  rw [run_bind]
  revert h₁
  cases x.run e with
  | ok a e₁ => exact hf a e₁
  | error _ e₁ => exact id

theorem withPool {f : Pool → α × Pool} (hf : ∀ p, I p → I (f p).2) :
    KeepsPool I (InferM.withPool f) := fun e h => by
  show I ((InferM.withPool f).run e |>.casesOn (fun _ e' => e'.pool) (fun _ e' => e'.pool))
  rw [withPool_run]
  exact hf _ h

theorem modify {g : Engine → Engine} (hg : ∀ e, (g e).pool = e.pool) :
    KeepsPool I (modify g : InferM PUnit) := fun e h => by
  show I (g e).pool
  rw [hg]
  exact h

theorem get : KeepsPool I (get : InferM Engine) := fun _ h => h

theorem recordExpr (id : Nat) (t : Idx) : KeepsPool I (recordExpr id t) := modify fun _ => rfl

theorem recordSlot (id : Nat) (t : Idx) : KeepsPool I (recordSlot id t) := modify fun _ => rfl

theorem recordTagIndex (id k : Nat) : KeepsPool I (recordTagIndex id k) := modify fun _ => rfl

theorem recordPat (id : Nat) (t : Idx) : KeepsPool I (recordPat id t) := modify fun _ => rfl

/-- A run from pool `p` leaves a pool with `I` when `p` has it. -/
theorem poolAfter {x : InferM α} (hx : KeepsPool I x) {p : Pool} (hp : I p) :
    I (x.poolAfter p) := by
  have h := hx { pool := p } hp
  unfold InferM.poolAfter
  revert h
  cases x.run { pool := p } <;> exact id

end KeepsPool

theorem unifyAt_keepsPool (hI : Pool.Stable I) (a b : Idx) (id : Nat) :
    KeepsPool I (unifyAt a b id) := by
  unfold unifyAt
  refine (KeepsPool.withPool fun p hp => hI.unify a b hp).bind fun r => ?_
  split
  · exact KeepsPool.pure _
  · exact KeepsPool.throw _

theorem instantiateTag_keepsPool (hI : Pool.Stable I) (sig : TagSig) :
    KeepsPool I (instantiateTag sig) := by
  unfold instantiateTag
  refine KeepsPool.withPool fun p hp => ?_
  -- the renaming, then one pass over the argument types and the result type
  refine Pool.Stable.rewrite ?_ (hI.freshFor sig.bounded p hp)
  exact (Rewrite.KeepsPool.mapM (Rewrite.substitute_keepsPool hI.intern _) _).bind fun _ =>
    (Rewrite.substitute_keepsPool hI.intern _ _).bind fun _ => Rewrite.KeepsPool.pure _

end InferM

section Rules

open InferM

variable {I : Pool → Prop}

mutual
/-- Inference keeps every stable property of the pool, whether it succeeds or fails. -/
theorem infer_keepsPool (hI : Pool.Stable I) (ctx : Context) :
    ∀ (env : Env Scheme) (e : Expr) (t : Idx), KeepsPool I (infer ctx env e t)
  | env, .lit id l, t => by
    rw [infer]
    exact (KeepsPool.recordExpr id t).bind fun _ => unifyAt_keepsPool hI _ _ _
  | env, .tag id name args, t => by
    rw [infer]
    refine (KeepsPool.recordExpr id t).bind fun _ => ?_
    split
    · exact KeepsPool.throw _
    · refine (instantiateTag_keepsPool hI _).bind fun r => ?_
      obtain ⟨argTys, result⟩ := r
      refine (KeepsPool.recordTagIndex _ _).bind fun _ => ?_
      dsimp only
      -- the arity check throws before any argument is inferred
      split
      · exact (KeepsPool.throw _).bind fun _ =>
          (inferArgs_keepsPool hI ctx env args _).bind fun _ => unifyAt_keepsPool hI _ _ _
      · exact (inferArgs_keepsPool hI ctx env args _).bind fun _ => unifyAt_keepsPool hI _ _ _
  | env, .var id name, t => by
    rw [infer]
    refine (KeepsPool.recordExpr id t).bind fun _ => ?_
    split
    · exact KeepsPool.throw _
    · refine (KeepsPool.withPool fun p hp => hI.instantiate _ hp).bind fun _ => ?_
      refine (KeepsPool.withPool fun p hp => hI.fresh p hp).bind fun _ => ?_
      exact (KeepsPool.recordSlot _ _).bind fun _ =>
        (unifyAt_keepsPool hI _ _ _).bind fun _ => unifyAt_keepsPool hI _ _ _
  | env, .lam id x ann body, t => by
    rw [infer]
    refine (KeepsPool.recordExpr id t).bind fun _ => ?_
    refine (KeepsPool.withPool fun p hp =>
      TypeExpr.resolve_stable hI {} ann p hp).bind fun _ => ?_
    refine (KeepsPool.withPool fun p hp => hI.fresh p hp).bind fun _ => ?_
    refine (infer_keepsPool hI ctx _ body _).bind fun _ => ?_
    exact (KeepsPool.withPool fun p hp => hI.intern p _ rfl hp).bind fun _ =>
      unifyAt_keepsPool hI _ _ _
  | env, .app id f a, t => by
    rw [infer]
    refine (KeepsPool.recordExpr id t).bind fun _ => ?_
    refine (KeepsPool.withPool fun p hp => hI.fresh p hp).bind fun _ => ?_
    refine (KeepsPool.withPool fun p hp => hI.intern p _ rfl hp).bind fun _ => ?_
    exact (infer_keepsPool hI ctx env f _).bind fun _ => infer_keepsPool hI ctx env a _
  | env, .ite id c a b, t => by
    rw [infer]
    exact (KeepsPool.recordExpr id t).bind fun _ =>
      (infer_keepsPool hI ctx env c _).bind fun _ =>
        (infer_keepsPool hI ctx env a _).bind fun _ => infer_keepsPool hI ctx env b _
  | env, .matchAs id scrut pat a b, t => by
    rw [infer]
    refine (KeepsPool.recordExpr id t).bind fun _ => ?_
    refine (KeepsPool.withPool fun p hp => hI.fresh p hp).bind fun _ => ?_
    refine (KeepsPool.withPool fun p hp => hI.fresh p hp).bind fun _ => ?_
    refine (KeepsPool.recordPat _ _).bind fun _ => ?_
    refine (unifyAt_keepsPool hI _ _ _).bind fun _ => ?_
    exact (infer_keepsPool hI ctx env scrut _).bind fun _ =>
      (infer_keepsPool hI ctx _ a _).bind fun _ => infer_keepsPool hI ctx env b _
  | env, .letIn id x v b, t => by
    rw [infer]
    refine (KeepsPool.recordExpr id t).bind fun _ => ?_
    refine (KeepsPool.withPool fun p hp => hI.fresh p hp).bind fun _ => ?_
    refine (infer_keepsPool hI ctx env v _).bind fun _ => ?_
    exact (KeepsPool.get.bind fun _ => KeepsPool.pure _).bind fun _ =>
      infer_keepsPool hI ctx _ b _

theorem inferArgs_keepsPool (hI : Pool.Stable I) (ctx : Context) (env : Env Scheme) :
    ∀ (es : List Expr) (ts : List Idx), KeepsPool I (inferArgs ctx env es ts)
  | e :: es, t :: ts => by
    rw [inferArgs]
    exact (infer_keepsPool hI ctx env e t).bind fun _ => inferArgs_keepsPool hI ctx env es ts
  | [], _ => KeepsPool.pure _
  | _ :: _, [] => KeepsPool.pure _
end

end Rules

end TagML
