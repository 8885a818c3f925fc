import TagML.Infer
import TagML.Proofs.Ty.Extend

/-!
Inference keeps the pool well formed.

Every step of inference works on handles the pool already has and leaves a pool that is well
formed and extends the old one, whether the step succeeds or fails; what a step returns is a
handle of the new pool.  `InferM.Keeps` states this for one step, and the steps compose
(`Keeps.bind`); facts that only say which handles exist carry over any extension (`Keeps.frame`).
The rules of inference are checked one by one, by induction over the expression
(`infer_keeps`).
-/
namespace TagML

namespace Env

variable {α : Type}

theorem mem_of_lookup {e : Env α} {name : String} {a : α} (h : e.lookup name = some a) :
    (name, a) ∈ e.bindings := by
  unfold lookup at h
  obtain ⟨b, hb, rfl⟩ := Option.map_eq_some_iff.1 h
  have hmem := List.mem_of_find?_eq_some hb
  have hname := List.find?_some hb
  rw [beq_iff_eq] at hname
  rw [← hname]
  exact hmem

end Env

namespace Pool

/-- Every scheme of `env` has its body in `p`. -/
def ValidEnv (p : Pool) (env : Env Scheme) : Prop :=
  ∀ b ∈ env.bindings, b.2.body.raw < p.size

/-- Every tag signature of `tags` has its types in `p`. -/
def ValidTags (p : Pool) (tags : Env TagSig) : Prop :=
  ∀ b ∈ tags.bindings, (∀ a ∈ b.2.args, a.raw < p.size) ∧ b.2.result.raw < p.size

variable {p q : Pool}

theorem ValidEnv.mono {env : Env Scheme} (h : p.ValidEnv env) (hs : p.size ≤ q.size) :
    q.ValidEnv env := fun b hb => Nat.lt_of_lt_of_le (h b hb) hs

theorem ValidTags.mono {tags : Env TagSig} (h : p.ValidTags tags) (hs : p.size ≤ q.size) :
    q.ValidTags tags := fun b hb =>
  ⟨fun a ha => Nat.lt_of_lt_of_le ((h b hb).1 a ha) hs, Nat.lt_of_lt_of_le (h b hb).2 hs⟩

theorem ValidEnv.prepend {env : Env Scheme} (h : p.ValidEnv env) (name : String) {σ : Scheme}
    (hσ : σ.body.raw < p.size) : p.ValidEnv (env.prepend name σ) := by
  intro b hb
  rw [Env.bindings_prepend, List.mem_cons] at hb
  rcases hb with rfl | hb
  · exact hσ
  · exact h b hb

theorem ValidEnv.append {front back : Env Scheme} (hf : p.ValidEnv front)
    (hb : p.ValidEnv back) : p.ValidEnv (front.append back) := by
  intro b hmem
  rw [Env.bindings_append, List.mem_append] at hmem
  rcases hmem with hmem | hmem
  · exact hf b hmem
  · exact hb b hmem

end Pool

mutual
/-- Resolving a written type builds a handle of the new pool, when every parameter names a
handle of the old one. -/
theorem TypeExpr.resolve_spec {params : Env Idx} :
    ∀ {p : Pool}, p.WF → (∀ b ∈ params.bindings, b.2.raw < p.size) → ∀ t : TypeExpr,
      (t.resolve params p).2.WF ∧ p.Grows (t.resolve params p).2 ∧
        (t.resolve params p).1.raw < (t.resolve params p).2.size
  | p, h, _, .prim q => ⟨h, Pool.Grows.refl p, (h.prim q).1⟩
  | p, h, _, .infer => by
    obtain ⟨h₁, hg₁, ht, -⟩ := Pool.fresh_spec h
    exact ⟨h₁, hg₁, ht⟩
  | p, h, hparams, .fn a r => by
    simp only [TypeExpr.resolve]
    obtain ⟨h₁, hg₁, ha⟩ := TypeExpr.resolve_spec h hparams a
    obtain ⟨h₂, hg₂, hr⟩ := TypeExpr.resolve_spec h₁
      (fun b hb => Nat.lt_of_lt_of_le (hparams b hb) hg₁.size_le) r
    obtain ⟨h₃, hg₃, hf⟩ := Pool.fn_spec h₂ (Nat.lt_of_lt_of_le ha hg₂.size_le) hr
    exact ⟨h₃, hg₁.trans (hg₂.trans hg₃), hf⟩
  | p, h, hparams, .named n args => by
    simp only [TypeExpr.resolve]
    split
    · next v hv => exact ⟨h, Pool.Grows.refl p, hparams _ (Env.mem_of_lookup hv)⟩
    · rename_i args _ _ _
      obtain ⟨h₁, hg₁, hargs⟩ := TypeExpr.resolveList_spec h hparams args
      obtain ⟨h₂, hg₂, hu⟩ := Pool.user_spec h₁ n hargs
      exact ⟨h₂, hg₁.trans hg₂, hu⟩

/-- Resolving written types left to right builds handles of the new pool. -/
theorem TypeExpr.resolveList_spec {params : Env Idx} :
    ∀ {p : Pool}, p.WF → (∀ b ∈ params.bindings, b.2.raw < p.size) → ∀ ts : List TypeExpr,
      (TypeExpr.resolveList params p ts).2.WF ∧ p.Grows (TypeExpr.resolveList params p ts).2 ∧
        ∀ a ∈ (TypeExpr.resolveList params p ts).1, a.raw < (TypeExpr.resolveList params p ts).2.size
  | p, h, _, [] => ⟨h, Pool.Grows.refl p, fun _ ha => absurd ha List.not_mem_nil⟩
  | p, h, hparams, t :: ts => by
    simp only [TypeExpr.resolveList]
    obtain ⟨h₁, hg₁, ht⟩ := TypeExpr.resolve_spec h hparams t
    obtain ⟨h₂, hg₂, hts⟩ := TypeExpr.resolveList_spec h₁
      (fun b hb => Nat.lt_of_lt_of_le (hparams b hb) hg₁.size_le) ts
    refine ⟨h₂, hg₁.trans hg₂, fun a ha => ?_⟩
    rcases List.mem_cons.1 ha with rfl | ha
    · exact Nat.lt_of_lt_of_le ht hg₂.size_le
    · exact hts a ha
end

namespace InferM

/-- Running `x` from an engine whose pool is well formed and satisfies `P` ends, on success and
on failure alike, in an engine whose pool is well formed and extends the old one; a success
returns a value satisfying `Q` in the final pool. -/
def Keeps {α : Type} (x : InferM α) (P : Pool → Prop) (Q : α → Pool → Prop) : Prop :=
  ∀ e : Engine, e.pool.WF → P e.pool →
    match x.run e with
    | .ok a e' => e'.pool.WF ∧ e.pool.Extends e'.pool ∧ Q a e'.pool
    | .error _ e' => e'.pool.WF ∧ e.pool.Extends e'.pool

/-- What inference knows about the pool between steps: the tag signatures and the schemes of the
environment are in it, and so are the handles of `hs`. -/
def Known (tags : Env TagSig) (env : Env Scheme) (hs : List Idx) (q : Pool) : Prop :=
  q.ValidTags tags ∧ q.ValidEnv env ∧ ∀ i ∈ hs, i.raw < q.size

theorem Known.mono {tags : Env TagSig} {env : Env Scheme} {hs : List Idx} {p q : Pool}
    (h : Known tags env hs p) (he : p.Extends q) : Known tags env hs q :=
  ⟨h.1.mono he.size_le, h.2.1.mono he.size_le,
    fun i hi => Nat.lt_of_lt_of_le (h.2.2 i hi) he.size_le⟩

theorem run_bind {α β : Type} (x : InferM α) (f : α → InferM β) (e : Engine) :
    (x >>= f).run e = match x.run e with
      | .ok a e' => (f a).run e'
      | .error err e' => .error err e' := by
  show EStateM.bind x f e = _
  unfold EStateM.bind EStateM.run
  cases x e <;> rfl

theorem withPool_run {α : Type} (f : Pool → α × Pool) (e : Engine) :
    (withPool f).run e = .ok (f e.pool).1 { pool := (f e.pool).2, tables := e.tables } := by
  obtain ⟨pool, tables⟩ := e
  rfl

namespace Keeps

variable {α β : Type} {P P' : Pool → Prop} {Q Q' : α → Pool → Prop}

protected theorem pure {a : α} (h : ∀ q, q.WF → P q → Q a q) : Keeps (pure a) P Q :=
  fun _ hwf hP => ⟨hwf, Pool.Extends.refl _, h _ hwf hP⟩

protected theorem throw {err : CheckError} : Keeps (throw err : InferM α) P Q :=
  fun _ hwf _ => ⟨hwf, Pool.Extends.refl _⟩

theorem mono {x : InferM α} (hx : Keeps x P Q) (hP : ∀ q, q.WF → P' q → P q)
    (hQ : ∀ a q, Q a q → Q' a q) : Keeps x P' Q' := by
  intro e hwf hP'
  have h := hx e hwf (hP _ hwf hP')
  revert h
  cases x.run e with
  | ok a e' => exact fun ⟨h₁, h₂, h₃⟩ => ⟨h₁, h₂, hQ a _ h₃⟩
  | error _ e' => exact id

protected theorem bind {x : InferM α} {f : α → InferM β} {R : β → Pool → Prop}
    (hx : Keeps x P Q) (hf : ∀ a, Keeps (f a) (Q a) R) : Keeps (x >>= f) P R := by
  intro e hwf hP
  have h₁ := hx e hwf hP
  rw [run_bind]
  revert h₁
  cases x.run e with
  | error _ e₁ => exact id
  | ok a e₁ =>
    rintro ⟨hwf₁, hext₁, hQ⟩
    have h₂ := hf a e₁ hwf₁ hQ
    dsimp only
    revert h₂
    cases (f a).run e₁ with
    | ok b e₂ => exact fun ⟨hwf₂, hext₂, hR⟩ => ⟨hwf₂, hext₁.trans hext₂, hR⟩
    | error _ e₂ => exact fun ⟨hwf₂, hext₂⟩ => ⟨hwf₂, hext₁.trans hext₂⟩

/-- Knowledge about which handles exist survives a step. -/
theorem frame {x : InferM α} {tags : Env TagSig} {env : Env Scheme} {hs : List Idx}
    (hx : Keeps x P Q) :
    Keeps x (fun q => P q ∧ Known tags env hs q) (fun a q => Q a q ∧ Known tags env hs q) := by
  intro e hwf hP
  have h := hx e hwf hP.1
  revert h
  cases x.run e with
  | ok a e' => exact fun ⟨h₁, h₂, h₃⟩ => ⟨h₁, h₂, h₃, hP.2.mono h₂⟩
  | error _ e' => exact id

/-- Sequencing from knowledge `Known tags env hs`: the first step may use it, and the rest may
use it together with what the first step returned. -/
theorem seq {tags : Env TagSig} {env : Env Scheme} {hs : List Idx} {x : InferM α}
    {f : α → InferM β} {R : β → Pool → Prop} (hx : Keeps x P Q)
    (hP : ∀ q, q.WF → Known tags env hs q → P q)
    (hf : ∀ a, Keeps (f a) (fun q => Q a q ∧ Known tags env hs q) R) :
    Keeps (x >>= f) (Known tags env hs) R :=
  (hx.frame.mono (fun q hwf hK => ⟨hP q hwf hK, hK⟩) fun _ _ h => h).bind hf

/-- `seq` for a step that returns nothing the rest needs. -/
theorem seq_ {tags : Env TagSig} {env : Env Scheme} {hs : List Idx} {x : InferM α}
    {f : α → InferM β} {R : β → Pool → Prop} (hx : Keeps x P (fun _ _ => True))
    (hP : ∀ q, q.WF → Known tags env hs q → P q) (hf : ∀ a, Keeps (f a) (Known tags env hs) R) :
    Keeps (x >>= f) (Known tags env hs) R :=
  hx.seq hP fun a => (hf a).mono (fun _ _ h => h.2) fun _ _ h => h

/-- `seq` for a step that returns a handle: the rest knows it exists. -/
theorem seqIdx {tags : Env TagSig} {env : Env Scheme} {hs : List Idx} {x : InferM Idx}
    {f : Idx → InferM β} {R : β → Pool → Prop} (hx : Keeps x P (fun a q => a.raw < q.size))
    (hP : ∀ q, q.WF → Known tags env hs q → P q)
    (hf : ∀ a, Keeps (f a) (Known tags env (a :: hs)) R) :
    Keeps (x >>= f) (Known tags env hs) R :=
  hx.seq hP fun a => (hf a).mono (fun _ _ h => ⟨h.2.1, h.2.2.1, fun i hi => by
    rcases List.mem_cons.1 hi with rfl | hi
    exacts [h.1, h.2.2.2 i hi]⟩) fun _ _ h => h

theorem withPool {f : Pool → α × Pool}
    (hf : ∀ p, p.WF → P p → (f p).2.WF ∧ p.Extends (f p).2 ∧ Q (f p).1 (f p).2) :
    Keeps (InferM.withPool f) P Q := by
  rintro ⟨pool, tables⟩ hwf hP
  exact hf pool hwf hP

/-- A step that only records in the tables leaves the pool as it was. -/
theorem modify {g : Engine → Engine} (hg : ∀ e, (g e).pool = e.pool) :
    Keeps (modify g : InferM PUnit) P (fun _ q => P q) := by
  intro e hwf hP
  show (g e).pool.WF ∧ e.pool.Extends (g e).pool ∧ P (g e).pool
  rw [hg]
  exact ⟨hwf, Pool.Extends.refl _, hP⟩

end Keeps

theorem fresh_keeps : Keeps fresh (fun _ => True) (fun t q => t.raw < q.size) :=
  Keeps.withPool fun _ h _ => by
    obtain ⟨h₁, hg, ht, -⟩ := Pool.fresh_spec h
    exact ⟨h₁, .of_grows hg, ht⟩

theorem fnType_keeps {a r : Idx} :
    Keeps (fnType a r) (fun q => a.raw < q.size ∧ r.raw < q.size) (fun t q => t.raw < q.size) :=
  Keeps.withPool fun _ h hv => by
    obtain ⟨h₁, hg, ht⟩ := Pool.fn_spec h hv.1 hv.2
    exact ⟨h₁, .of_grows hg, ht⟩

theorem unifyAt_keeps {a b : Idx} {id : Nat} :
    Keeps (unifyAt a b id) (fun q => a.raw < q.size ∧ b.raw < q.size) (fun _ _ => True) := by
  unfold unifyAt
  refine Keeps.bind (Q := fun r q => q.WF) (Keeps.withPool fun p h hv => ?_) fun r => ?_
  · obtain ⟨h₁, hl⟩ := Pool.unify_wf h hv.1 hv.2
    exact ⟨h₁, .of_addsLinks hl, h₁⟩
  · cases r with
    | none => exact Keeps.pure fun _ _ _ => trivial
    | some err => exact Keeps.throw

theorem instantiateTag_keeps {sig : TagSig} :
    Keeps (instantiateTag sig)
      (fun q => (∀ a ∈ sig.args, a.raw < q.size) ∧ sig.result.raw < q.size)
      (fun r q => (∀ a ∈ r.1, a.raw < q.size) ∧ r.2.raw < q.size) := by
  unfold instantiateTag
  refine Keeps.withPool fun p h hv => ?_
  obtain ⟨h₁, hg₁, him⟩ := Pool.freshFor_spec h sig.bounded
  generalize p.freshFor sig.bounded = fm at h₁ hg₁ him ⊢
  obtain ⟨m, p₁⟩ := fm
  simp only [Pool.rewrite, Rewrite.run_bind, Rewrite.run_pure]
  have hv₁ := fun a ha => Nat.lt_of_lt_of_le (hv.1 a ha) hg₁.size_le
  obtain ⟨hinv₂, hg₂, hall⟩ := Rewrite.mapM_spec (P := fun i => i.raw < p₁.size)
    (fun i st hinv hi => Rewrite.substitute_spec h₁ him hinv hi) sig.args _
    (Rewrite.Inv.start h₁) hv₁
  generalize (List.mapM (Rewrite.substitute m) sig.args).run { pool := p₁ } = r₁ at hinv₂ hg₂ hall ⊢
  obtain ⟨hinv₃, hg₃, hr⟩ :=
    Rewrite.substitute_spec h₁ him hinv₂ (Nat.lt_of_lt_of_le hv.2 hg₁.size_le)
  generalize (Rewrite.substitute m sig.result).run r₁.2 = r₂ at hinv₃ hg₃ hr ⊢
  refine ⟨hinv₃.wf, .of_grows (hg₁.trans hinv₃.grows), fun a ha => ?_, hr.1⟩
  exact Nat.lt_of_lt_of_le (Rewrite.forall₂_rewritten_mem hall a ha).1 hg₃.size_le

theorem record_keeps {g : Engine → Engine} (hg : ∀ e, (g e).pool = e.pool) :
    Keeps (modify g : InferM PUnit) (fun _ => True) (fun _ _ => True) :=
  Keeps.modify hg

theorem instantiate_keeps {σ : Scheme} :
    Keeps (InferM.instantiate σ) (fun q => σ.body.raw < q.size) (fun t q => t.raw < q.size) :=
  Keeps.withPool fun _ h hb => by
    obtain ⟨h₁, hg, ht⟩ := Pool.instantiate_spec h hb
    exact ⟨h₁, .of_grows hg, ht⟩

theorem generalize_keeps {env : Env Scheme} {t : Idx} :
    Keeps (InferM.generalize env t) (fun _ => True) (fun σ _ => σ.body = t) :=
  fun _ hwf _ => ⟨hwf, Pool.Extends.refl _, rfl⟩

theorem resolveType_keeps {ann : TypeExpr} :
    Keeps (resolveType ann) (fun _ => True) (fun t q => t.raw < q.size) :=
  Keeps.withPool fun _ h _ => by
    obtain ⟨h₁, hg, ht⟩ := @TypeExpr.resolve_spec {} _ h (fun _ hb => absurd hb List.not_mem_nil) ann
    exact ⟨h₁, .of_grows hg, ht⟩

end InferM

section Rules

open InferM

mutual
/-- Inference keeps the pool well formed and extending, whether it succeeds or fails, when the
tag signatures, the environment and the expected type are in the pool. -/
theorem infer_keeps (ctx : Context) : ∀ (env : Env Scheme) (e : Expr) (t : Idx),
    Keeps (infer ctx env e t) (Known ctx.tags env [t]) (fun _ _ => True)
  | env, .lit id l, t => by
    rw [infer]
    refine Keeps.seq_ (record_keeps fun _ => rfl) (fun _ _ _ => trivial) fun _ => ?_
    exact unifyAt_keeps.mono (fun q hwf hK => ⟨hK.2.2 t (by simp), (hwf.prim _).1⟩)
      fun _ _ h => h
  | env, .tag id name args, t => by
    rw [infer]
    refine Keeps.seq_ (record_keeps fun _ => rfl) (fun _ _ _ => trivial) fun _ => ?_
    cases hl : ctx.lookupTag name with
    | none => exact Keeps.throw
    | some sig =>
      refine Keeps.seq instantiateTag_keeps (fun q _ hK => hK.1 _ (Env.mem_of_lookup hl))
        fun r => ?_
      obtain ⟨argTys, result⟩ := r
      -- from here on the instantiated argument and result types are known handles
      refine (?_ : Keeps _ (Known ctx.tags env (result :: t :: argTys)) _).mono
        (fun q _ h => ⟨h.2.1, h.2.2.1, fun i hi => ?_⟩) fun _ _ h => h
      · refine Keeps.seq_ (record_keeps fun _ => rfl) (fun _ _ _ => trivial) fun _ => ?_
        split
        · exact Keeps.throw
        · refine Keeps.seq_ (inferArgs_keeps ctx env args argTys)
            (fun q _ hK => ⟨hK.1, hK.2.1, fun i hi => hK.2.2 i (by simp [hi])⟩) fun _ => ?_
          exact unifyAt_keeps.mono
            (fun q _ hK => ⟨hK.2.2 t (by simp), hK.2.2 result (by simp)⟩) fun _ _ h => h
      · simp only [List.mem_cons] at hi
        rcases hi with rfl | rfl | hi
        exacts [h.1.2, h.2.2.2 _ (by simp), h.1.1 i hi]
  | env, .var id name, t => by
    rw [infer]
    refine Keeps.seq_ (record_keeps fun _ => rfl) (fun _ _ _ => trivial) fun _ => ?_
    cases hl : env.lookup name with
    | none => exact Keeps.throw
    | some σ =>
      refine Keeps.seqIdx instantiate_keeps (fun q _ hK => hK.2.1 _ (Env.mem_of_lookup hl))
        fun inst => ?_
      refine Keeps.seqIdx fresh_keeps (fun _ _ _ => trivial) fun slot => ?_
      refine Keeps.seq_ (record_keeps fun _ => rfl) (fun _ _ _ => trivial) fun _ => ?_
      refine Keeps.seq_ unifyAt_keeps
        (fun q _ hK => ⟨hK.2.2 slot (by simp), hK.2.2 inst (by simp)⟩) fun _ => ?_
      exact unifyAt_keeps.mono (fun q _ hK => ⟨hK.2.2 t (by simp), hK.2.2 inst (by simp)⟩)
        fun _ _ h => h
  | env, .lam id x ann body, t => by
    rw [infer]
    refine Keeps.seq_ (record_keeps fun _ => rfl) (fun _ _ _ => trivial) fun _ => ?_
    refine Keeps.seqIdx resolveType_keeps (fun _ _ _ => trivial) fun param => ?_
    refine Keeps.seqIdx fresh_keeps (fun _ _ _ => trivial) fun ret => ?_
    refine Keeps.seq_ (infer_keeps ctx _ body ret) (fun q _ hK => ⟨hK.1,
      hK.2.1.prepend x (hK.2.2 param (by simp)), by simp [hK.2.2 ret (by simp)]⟩) fun _ => ?_
    refine Keeps.seqIdx fnType_keeps
      (fun q _ hK => ⟨hK.2.2 param (by simp), hK.2.2 ret (by simp)⟩) fun ft => ?_
    exact unifyAt_keeps.mono (fun q _ hK => ⟨hK.2.2 t (by simp), hK.2.2 ft (by simp)⟩)
      fun _ _ h => h
  | env, .app id f a, t => by
    rw [infer]
    refine Keeps.seq_ (record_keeps fun _ => rfl) (fun _ _ _ => trivial) fun _ => ?_
    refine Keeps.seqIdx fresh_keeps (fun _ _ _ => trivial) fun argTy => ?_
    refine Keeps.seqIdx fnType_keeps
      (fun q _ hK => ⟨hK.2.2 argTy (by simp), hK.2.2 t (by simp)⟩) fun ft => ?_
    refine Keeps.seq_ (infer_keeps ctx env f ft)
      (fun q _ hK => ⟨hK.1, hK.2.1, by simp [hK.2.2 ft (by simp)]⟩) fun _ => ?_
    exact (infer_keeps ctx env a argTy).mono
      (fun q _ hK => ⟨hK.1, hK.2.1, by simp [hK.2.2 argTy (by simp)]⟩) fun _ _ h => h
  | env, .ite id c a b, t => by
    rw [infer]
    refine Keeps.seq_ (record_keeps fun _ => rfl) (fun _ _ _ => trivial) fun _ => ?_
    refine Keeps.seq_ (infer_keeps ctx env c Prim.bool.idx)
      (fun q hwf hK => ⟨hK.1, hK.2.1, fun i hi => by
        rw [List.mem_singleton] at hi
        subst hi
        exact (hwf.prim .bool).1⟩) fun _ => ?_
    refine Keeps.seq_ (infer_keeps ctx env a t) (fun _ _ hK => hK) fun _ => ?_
    exact (infer_keeps ctx env b t).mono (fun _ _ hK => hK) fun _ _ h => h
  | env, .matchAs id scrut pat a b, t => by
    rw [infer]
    refine Keeps.seq_ (record_keeps fun _ => rfl) (fun _ _ _ => trivial) fun _ => ?_
    refine Keeps.seqIdx fresh_keeps (fun _ _ _ => trivial) fun scrutTy => ?_
    refine Keeps.seqIdx fresh_keeps (fun _ _ _ => trivial) fun slot => ?_
    refine Keeps.seq_ (record_keeps fun _ => rfl) (fun _ _ _ => trivial) fun _ => ?_
    refine Keeps.seq_ unifyAt_keeps
      (fun q _ hK => ⟨hK.2.2 slot (by simp), hK.2.2 scrutTy (by simp)⟩) fun _ => ?_
    refine Keeps.seq_ (infer_keeps ctx env scrut scrutTy)
      (fun q _ hK => ⟨hK.1, hK.2.1, by simp [hK.2.2 scrutTy (by simp)]⟩) fun _ => ?_
    -- the pattern's binding, if any, is to the scrutinee's variable
    have hbind : ∀ q : Pool, scrutTy.raw < q.size → q.ValidEnv (match pat.binder with
        | none => {}
        | some x => Env.empty.prepend x (Scheme.mono scrutTy)) := by
      intro q hs
      cases pat.binder with
      | none => exact fun _ hb => absurd hb List.not_mem_nil
      | some x =>
        show q.ValidEnv (Env.empty.prepend x (Scheme.mono scrutTy))
        exact Pool.ValidEnv.prepend (fun _ hb => absurd hb List.not_mem_nil) x hs
    refine Keeps.seq_ (infer_keeps ctx _ a t) (fun q _ hK => ⟨hK.1,
      (hbind q (hK.2.2 scrutTy (by simp))).append hK.2.1, by simp [hK.2.2 t (by simp)]⟩)
      fun _ => ?_
    exact (infer_keeps ctx env b t).mono
      (fun q _ hK => ⟨hK.1, hK.2.1, by simp [hK.2.2 t (by simp)]⟩) fun _ _ h => h
  | env, .letIn id x v b, t => by
    rw [infer]
    refine Keeps.seq_ (record_keeps fun _ => rfl) (fun _ _ _ => trivial) fun _ => ?_
    refine Keeps.seqIdx fresh_keeps (fun _ _ _ => trivial) fun valueTy => ?_
    refine Keeps.seq_ (infer_keeps ctx env v valueTy)
      (fun q _ hK => ⟨hK.1, hK.2.1, by simp [hK.2.2 valueTy (by simp)]⟩) fun _ => ?_
    refine Keeps.seq generalize_keeps (fun _ _ _ => trivial) fun σ => ?_
    exact (infer_keeps ctx _ b t).mono (fun q _ h => ⟨h.2.1,
      h.2.2.1.prepend x (h.1 ▸ h.2.2.2 valueTy (by simp)), by simp [h.2.2.2 t (by simp)]⟩)
      fun _ _ h => h

/-- The arguments of a construction, checked left to right. -/
theorem inferArgs_keeps (ctx : Context) (env : Env Scheme) :
    ∀ (es : List Expr) (ts : List Idx),
      Keeps (inferArgs ctx env es ts) (Known ctx.tags env ts) (fun _ _ => True)
  | e :: es, t :: ts => by
    rw [inferArgs]
    refine Keeps.seq_ (infer_keeps ctx env e t)
      (fun q _ hK => ⟨hK.1, hK.2.1, by simp [hK.2.2 t (by simp)]⟩) fun _ => ?_
    exact (inferArgs_keeps ctx env es ts).mono
      (fun q _ hK => ⟨hK.1, hK.2.1, fun i hi => hK.2.2 i (List.mem_cons_of_mem t hi)⟩)
      fun _ _ h => h
  | [], _ => Keeps.pure fun _ _ _ => trivial
  | _ :: _, [] => Keeps.pure fun _ _ _ => trivial
end

end Rules

end TagML
