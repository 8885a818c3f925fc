import TagML.Proofs.Infer.Typing

/-!
The steps of inference, read as types.

`InferM.Run Z x e Q` is what running `x` from engine `e` achieves: whether the run succeeds or
fails, the pool stays well formed, extends the old one and keeps the variables of `Z` frozen;
a success ends in a value and an engine satisfying `Q`.  Runs compose like a weakest
precondition (`Run.bind`).  Each primitive step has one lemma saying what it builds, read as
terms: a fresh variable stands for a new variable, a successful unification makes its two
sides stand for one type, an instance stands for the scheme's body with its quantified
variables renamed apart, and a resolved annotation stands for a type the annotation admits.
-/
namespace TagML

open Pool

namespace Pool

/-- The variables of `Z` are allocated and unbound in `p`. -/
def Unbound (p : Pool) (Z : Set Nat) : Prop := ∀ z ∈ Z, z < p.varCount ∧ p.target? z = none

theorem Unbound.target? {p : Pool} {Z : Set Nat} (h : p.Unbound Z) : ∀ z ∈ Z, p.target? z = none :=
  fun z hz => (h z hz).2

theorem Unbound.later {p q : Pool} {Z : Set Nat} (h : p.Unbound Z) (he : p.Extends q)
    (hf : Frozen Z p q) : q.Unbound Z :=
  fun z hz => ⟨Nat.lt_of_lt_of_le (h z hz).1 he.varCount_le, hf.unbound z hz⟩

end Pool

mutual
/-- An annotation resolved with no parameters in scope stands for a type the annotation admits,
whose variables were all allocated by the resolution. -/
theorem TypeExpr.resolve_admits {p : Pool} (h : p.WF) : ∀ t : TypeExpr,
    t.Admits ((t.resolve {} p).2.term (t.resolve {} p).1) ∧
      ∀ w ∈ ((t.resolve {} p).2.term (t.resolve {} p).1).vars, p.varCount ≤ w
  | .prim q => by
    simp only [TypeExpr.resolve]
    rw [h.term_prim q]
    exact ⟨rfl, by simp [Term.vars]⟩
  | .infer => by
    simp only [TypeExpr.resolve]
    rw [term_of_unbound h.fresh (by rw [item_fresh, fresh_fst, if_pos rfl])
      (by rw [target?_fresh, target?_of_le _ (Nat.le_refl _)])]
    exact ⟨trivial, by simp [Term.vars]⟩
  | .fn a r => by
    have hnil : ∀ b ∈ ({} : Env Idx).bindings, b.2.raw < p.size := fun _ hb => absurd hb List.not_mem_nil
    simp only [TypeExpr.resolve]
    obtain ⟨h₁, hg₁, ha⟩ := TypeExpr.resolve_spec h hnil a
    obtain ⟨haa, hav⟩ := TypeExpr.resolve_admits h a
    generalize a.resolve {} p = ra at h₁ hg₁ ha haa hav ⊢
    obtain ⟨a', p₁⟩ := ra
    obtain ⟨h₂, hg₂, hr⟩ := @TypeExpr.resolve_spec {} _ h₁ (fun _ hb => absurd hb List.not_mem_nil) r
    obtain ⟨hra, hrv⟩ := TypeExpr.resolve_admits h₁ r
    generalize r.resolve {} p₁ = rr at h₂ hg₂ hr hra hrv ⊢
    obtain ⟨r', p₂⟩ := rr
    dsimp only at *
    have ha₂ := Nat.lt_of_lt_of_le ha hg₂.size_le
    obtain ⟨h₃, hg₃, -⟩ := fn_spec h₂ ha₂ hr
    -- the function type stands for the two resolved parts, read where they were built
    have hterm : (p₂.fn a' r').2.term (p₂.fn a' r').1 = .fn (p₁.term a') (p₂.term r') := by
      rw [term_of_fn h₃ (fn_item h₂ a' r'), hg₃.term_eq h₂ h₃ ha₂, hg₃.term_eq h₂ h₃ hr,
        hg₂.term_eq h₁ h₂ ha]
    rw [hterm]
    refine ⟨⟨_, _, rfl, haa, hra⟩, fun w hw => ?_⟩
    simp only [Term.vars, List.mem_append] at hw
    rcases hw with hw | hw
    · exact hav w hw
    · exact Nat.le_trans hg₁.varCount_le (hrv w hw)
  | .named n args => by
    simp only [TypeExpr.resolve]
    have hlk : ({} : Env Idx).lookup n = none := rfl
    rw [hlk]
    have hnil : ∀ b ∈ ({} : Env Idx).bindings, b.2.raw < p.size := fun _ hb => absurd hb List.not_mem_nil
    obtain ⟨h₁, hg₁, hargs⟩ := TypeExpr.resolveList_spec h hnil args
    obtain ⟨hadm, hav⟩ := TypeExpr.resolveList_admits h args
    generalize TypeExpr.resolveList {} p args = rl at h₁ hg₁ hargs hadm hav ⊢
    obtain ⟨args', p₁⟩ := rl
    dsimp only at *
    obtain ⟨h₂, hg₂, -⟩ := user_spec h₁ n hargs
    have hit : (p₁.user n args').2.item (p₁.user n args').1 = .user n args' := (h₁.intern_fst _).2
    have hterm : (p₁.user n args').2.term (p₁.user n args').1 = .user n (args'.map p₁.term) := by
      rw [term_of_user h₂ hit]
      exact congrArg _ (List.map_congr_left fun a ha => hg₂.term_eq h₁ h₂ (hargs a ha))
    split
    · next hlv => cases hlv
    rw [hterm]
    refine ⟨⟨_, rfl, hadm⟩, fun w hw => ?_⟩
    rw [Term.vars_user, Term.mem_varsList] at hw
    obtain ⟨_, hm, hw⟩ := hw
    obtain ⟨a, ha, rfl⟩ := List.mem_map.1 hm
    exact hav a ha w hw

theorem TypeExpr.resolveList_admits {p : Pool} (h : p.WF) : ∀ ts : List TypeExpr,
    TypeExpr.AdmitsList ts ((TypeExpr.resolveList {} p ts).1.map (TypeExpr.resolveList {} p ts).2.term) ∧
      ∀ a ∈ (TypeExpr.resolveList {} p ts).1, ∀ w ∈ ((TypeExpr.resolveList {} p ts).2.term a).vars,
        p.varCount ≤ w
  | [] => ⟨trivial, fun _ ha => absurd ha List.not_mem_nil⟩
  | t :: ts => by
    simp only [TypeExpr.resolveList]
    obtain ⟨h₁, hg₁, ht⟩ := @TypeExpr.resolve_spec {} _ h (fun _ hb => absurd hb List.not_mem_nil) t
    obtain ⟨hta, htv⟩ := TypeExpr.resolve_admits h t
    generalize t.resolve {} p = rt at h₁ hg₁ ht hta htv ⊢
    obtain ⟨t', p₁⟩ := rt
    obtain ⟨h₂, hg₂, -⟩ := @TypeExpr.resolveList_spec {} _ h₁ (fun _ hb => absurd hb List.not_mem_nil) ts
    obtain ⟨hsa, hsv⟩ := TypeExpr.resolveList_admits h₁ ts
    generalize TypeExpr.resolveList {} p₁ ts = rs at h₂ hg₂ hsa hsv ⊢
    obtain ⟨ts', p₂⟩ := rs
    dsimp only at *
    have hterm : p₂.term t' = p₁.term t' := hg₂.term_eq h₁ h₂ ht
    refine ⟨⟨by rw [hterm]; exact hta, hsa⟩, fun a ha w hw => ?_⟩
    rcases List.mem_cons.1 ha with rfl | ha
    · rw [hterm] at hw
      exact htv w hw
    · exact Nat.le_trans hg₁.varCount_le (hsv a ha w hw)
end

namespace InferM

variable {α β : Type} {Z : Set Nat}

/-- Running `x` from `e` keeps the pool well formed, extends it and keeps `Z` frozen, on
success and failure alike; a success satisfies `Q`. -/
def Run (Z : Set Nat) (x : InferM α) (e : Engine) (Q : α → Engine → Prop) : Prop :=
  match x.run e with
  | .ok a e' => e'.pool.WF ∧ e.pool.Extends e'.pool ∧ Frozen Z e.pool e'.pool ∧ Q a e'
  | .error _ e' => e'.pool.WF ∧ e.pool.Extends e'.pool ∧ Frozen Z e.pool e'.pool

namespace Run

variable {x : InferM α} {e : Engine} {Q Q' : α → Engine → Prop}

theorem mono (h : Run Z x e Q) (hQ : ∀ a e', Q a e' → Q' a e') : Run Z x e Q' := by
  unfold Run at h ⊢
  revert h
  cases x.run e with
  | ok a e' => exact fun ⟨h₁, h₂, h₃, h₄⟩ => ⟨h₁, h₂, h₃, hQ a e' h₄⟩
  | error _ e' => exact id

/-- A success condition may be weakened using what every run guarantees. -/
theorem imp (h : Run Z x e Q) (hQ : ∀ a e', e'.pool.WF → e.pool.Extends e'.pool →
    Frozen Z e.pool e'.pool → Q a e' → Q' a e') : Run Z x e Q' := by
  unfold Run at h ⊢
  revert h
  cases x.run e with
  | ok a e' => exact fun ⟨h₁, h₂, h₃, h₄⟩ => ⟨h₁, h₂, h₃, hQ a e' h₁ h₂ h₃ h₄⟩
  | error _ e' => exact id

/-- A run that keeps a set frozen keeps every part of it frozen. -/
theorem frozen_mono {Z' : Set Nat} (h : Run Z' x e Q) (hZ : Z ⊆ Z') : Run Z x e Q := by
  unfold Run at h ⊢
  revert h
  cases x.run e with
  | ok a e' => exact fun ⟨h₁, h₂, h₃, h₄⟩ => ⟨h₁, h₂, h₃.mono h₁ hZ, h₄⟩
  | error _ e' => exact fun ⟨h₁, h₂, h₃⟩ => ⟨h₁, h₂, h₃.mono h₁ hZ⟩

/-- What a run guarantees of a success. -/
theorem of_ok {a : α} {e' : Engine} (h : Run Z x e Q) (hx : x.run e = .ok a e') :
    e'.pool.WF ∧ e.pool.Extends e'.pool ∧ Frozen Z e.pool e'.pool ∧ Q a e' := by
  unfold Run at h
  rw [hx] at h
  exact h

/-- What a run guarantees of a failure. -/
theorem of_error {err : CheckError} {e' : Engine} (h : Run Z x e Q)
    (hx : x.run e = .error err e') :
    e'.pool.WF ∧ e.pool.Extends e'.pool ∧ Frozen Z e.pool e'.pool := by
  unfold Run at h
  rw [hx] at h
  exact h

protected theorem bind {f : α → InferM β} {Q₁ : α → Engine → Prop} {R : β → Engine → Prop}
    (hx : Run Z x e Q₁)
    (hf : ∀ a e₁, e₁.pool.WF → e.pool.Extends e₁.pool → Frozen Z e.pool e₁.pool → Q₁ a e₁ →
      Run Z (f a) e₁ R) :
    Run Z (x >>= f) e R := by
  unfold Run at hx ⊢
  rw [run_bind]
  revert hx
  cases x.run e with
  | error _ e₁ => exact id
  | ok a e₁ =>
    rintro ⟨hwf₁, he₁, hz₁, hQ₁⟩
    have h₂ := hf a e₁ hwf₁ he₁ hz₁ hQ₁
    unfold Run at h₂
    dsimp only
    revert h₂
    cases (f a).run e₁ with
    | ok b e₂ =>
      exact fun ⟨hwf₂, he₂, hz₂, hR⟩ =>
        ⟨hwf₂, he₁.trans he₂, hz₁.trans hwf₁ hwf₂ he₁ he₂ hz₂, hR⟩
    | error _ e₂ =>
      exact fun ⟨hwf₂, he₂, hz₂⟩ => ⟨hwf₂, he₁.trans he₂, hz₁.trans hwf₁ hwf₂ he₁ he₂ hz₂⟩

protected theorem pure {a : α} (hwf : e.pool.WF) (hZ : e.pool.Unbound Z) (hQ : Q a e) :
    Run Z (pure a) e Q :=
  ⟨hwf, Extends.refl _, Frozen.refl hwf hZ.target?, hQ⟩

protected theorem throw {err : CheckError} (hwf : e.pool.WF) (hZ : e.pool.Unbound Z) :
    Run Z (throw err : InferM α) e Q :=
  ⟨hwf, Extends.refl _, Frozen.refl hwf hZ.target?⟩

theorem withPool {f : Pool → α × Pool} (hwf : (f e.pool).2.WF) (he : e.pool.Extends (f e.pool).2)
    (hz : Frozen Z e.pool (f e.pool).2) (hQ : Q (f e.pool).1 ⟨(f e.pool).2, e.tables⟩) :
    Run Z (InferM.withPool f) e Q := by
  unfold Run
  rw [withPool_run]
  exact ⟨hwf, he, hz, hQ⟩

/-- A step that only records in the tables. -/
theorem modify {g : Engine → Engine} {Q : PUnit → Engine → Prop} (hg : (g e).pool = e.pool)
    (hwf : e.pool.WF) (hZ : e.pool.Unbound Z) (hQ : Q () (g e)) :
    Run Z (modify g : InferM PUnit) e Q := by
  show (g e).pool.WF ∧ e.pool.Extends (g e).pool ∧ Frozen Z e.pool (g e).pool ∧ Q () (g e)
  rw [hg]
  exact ⟨hwf, Extends.refl _, Frozen.refl hwf hZ.target?, hQ⟩

/-- A step that only builds types keeps every set of unbound variables frozen. -/
theorem withPool_grows {f : Pool → α × Pool} (hwf : e.pool.WF) (hZ : e.pool.Unbound Z)
    (hwf' : (f e.pool).2.WF) (hg : e.pool.Grows (f e.pool).2)
    (hQ : Q (f e.pool).1 ⟨(f e.pool).2, e.tables⟩) : Run Z (InferM.withPool f) e Q :=
  withPool hwf' (.of_grows hg) (Frozen.of_grows hwf hwf' hg hZ) hQ

end Run

section Steps

variable {e : Engine}

theorem recordExpr_run (hwf : e.pool.WF) (hZ : e.pool.Unbound Z) {id : Nat} {t : Idx} :
    Run Z (recordExpr id t) e (fun _ e' => e'.pool = e.pool ∧
      e'.tables = Tables.prepend ⟨[(id, t)], [], [], []⟩ e.tables) :=
  Run.modify rfl hwf hZ ⟨rfl, rfl⟩

theorem recordSlot_run (hwf : e.pool.WF) (hZ : e.pool.Unbound Z) {id : Nat} {t : Idx} :
    Run Z (recordSlot id t) e (fun _ e' => e'.pool = e.pool ∧
      e'.tables = Tables.prepend ⟨[], [(id, t)], [], []⟩ e.tables) :=
  Run.modify rfl hwf hZ ⟨rfl, rfl⟩

theorem recordTagIndex_run (hwf : e.pool.WF) (hZ : e.pool.Unbound Z) {id k : Nat} :
    Run Z (recordTagIndex id k) e (fun _ e' => e'.pool = e.pool ∧
      e'.tables = Tables.prepend ⟨[], [], [(id, k)], []⟩ e.tables) :=
  Run.modify rfl hwf hZ ⟨rfl, rfl⟩

theorem recordPat_run (hwf : e.pool.WF) (hZ : e.pool.Unbound Z) {id : Nat} {t : Idx} :
    Run Z (recordPat id t) e (fun _ e' => e'.pool = e.pool ∧
      e'.tables = Tables.prepend ⟨[], [], [], [(id, t)]⟩ e.tables) :=
  Run.modify rfl hwf hZ ⟨rfl, rfl⟩

/-- A fresh variable stands for the variable with the next id. -/
theorem fresh_run (hwf : e.pool.WF) (hZ : e.pool.Unbound Z) :
    Run Z fresh e (fun t e' => e'.tables = e.tables ∧ e.pool.Grows e'.pool ∧ t.raw < e'.pool.size ∧
      e'.pool.term t = .var e.pool.varCount ∧ e'.pool.varCount = e.pool.varCount + 1) := by
  obtain ⟨h₁, hg, ht, -⟩ := fresh_spec hwf
  refine Run.withPool_grows hwf hZ h₁ hg ⟨rfl, hg, ht, ?_, varCount_fresh _⟩
  exact term_of_unbound h₁ (by rw [item_fresh, fresh_fst, if_pos rfl])
    (by rw [target?_fresh, target?_of_le _ (Nat.le_refl _)])

theorem fnType_run (hwf : e.pool.WF) (hZ : e.pool.Unbound Z) {a r : Idx}
    (ha : a.raw < e.pool.size) (hr : r.raw < e.pool.size) :
    Run Z (fnType a r) e (fun ft e' => e'.tables = e.tables ∧ e.pool.Grows e'.pool ∧
      ft.raw < e'.pool.size ∧ e'.pool.item ft = .fn a r) := by
  obtain ⟨h₁, hg, hf⟩ := fn_spec hwf ha hr
  exact Run.withPool_grows hwf hZ h₁ hg ⟨rfl, hg, hf, fn_item hwf a r⟩

/-- A function type the pool has not interned yet becomes a new item at the pool's end. -/
theorem fnType_run_of_new {a r : Idx} (h : e.pool.interned[Item.fn a r]? = none) :
    (fnType a r).run e = .ok ⟨e.pool.size⟩ { e with pool :=
      { (e.pool.push (.fn a r) ((Item.fn a r).parts.any e.pool.hasVars)).2 with
        interned := e.pool.interned.insert (.fn a r) ⟨e.pool.size⟩ } } := by
  show EStateM.Result.ok (e.pool.intern (.fn a r)).1 { e with pool := (e.pool.intern (.fn a r)).2 } =
    _
  rw [e.pool.intern_of_not_mem h]

/-- A unification of two types mentioning no frozen variable keeps them frozen, and when it
succeeds the two sides stand for one type and only their variables were bound. -/
theorem unifyAt_run (hwf : e.pool.WF) (hZ : e.pool.Unbound Z) {a b : Idx} {id : Nat}
    (ha : a.raw < e.pool.size) (hb : b.raw < e.pool.size)
    (hza : ∀ w ∈ (e.pool.term a).vars, w ∉ Z) (hzb : ∀ w ∈ (e.pool.term b).vars, w ∉ Z) :
    Run Z (unifyAt a b id) e (fun _ e' => e'.tables = e.tables ∧
      e'.pool.term a = e'.pool.term b ∧ Confined e.pool e'.pool (e.pool.varsOf a b)) := by
  obtain ⟨h₁, hl⟩ := unify_wf hwf ha hb
  have hz := unify_frozen hwf ha hb hZ hza hzb
  have heq := term_eq_of_unify hwf ha hb
  have hc := unify_confined hwf ha hb
  unfold Run unifyAt
  rw [run_bind, withPool_run]
  generalize e.pool.unify a b = res at h₁ hl hz heq hc ⊢
  obtain ⟨q, r⟩ := res
  cases r with
  | none => exact ⟨h₁, .of_addsLinks hl, hz, rfl, heq rfl, hc⟩
  | some err => exact ⟨h₁, .of_addsLinks hl, hz⟩

/-- An instance of a scheme stands for its body with the quantified variables renamed to
variables allocated by the step. -/
theorem instantiate_run (hwf : e.pool.WF) (hZ : e.pool.Unbound Z) {σ : Scheme}
    (hb : σ.body.raw < e.pool.size) :
    Run Z (InferM.instantiate σ) e (fun inst e' => e'.tables = e.tables ∧ e.pool.Grows e'.pool ∧
      inst.raw < e'.pool.size ∧ ∃ ι : Nat → Term, Term.Renames ι σ.bounded e.pool.varCount ∧
        e'.pool.term inst = (e.pool.term σ.body).subst ι) := by
  obtain ⟨h₁, hg, hi⟩ := instantiate_spec hwf hb
  exact Run.withPool_grows hwf hZ h₁ hg ⟨rfl, hg, hi, instantiate_term hwf hb⟩

theorem generalize_run (hwf : e.pool.WF) (hZ : e.pool.Unbound Z) {env : Env Scheme} {t : Idx} :
    Run Z (InferM.generalize env t) e (fun σ e' => e' = e ∧ σ = e.pool.generalize env t) :=
  ⟨hwf, Extends.refl _, Frozen.refl hwf hZ.target?, rfl, rfl⟩

/-- The rewriting pass that instantiates a tag, from the pool holding its renaming. -/
theorem tagPass_spec {p : Pool} (h : p.WF) {m : List (Nat × Idx)} (him : p.ResolvedImages m)
    {sig : TagSig} (hargs : ∀ a ∈ sig.args, a.raw < p.size) (hres : sig.result.raw < p.size) :
    let r := p.rewrite do
      let args ← sig.args.mapM (Rewrite.substitute m)
      return (args, ← Rewrite.substitute m sig.result)
    r.2.WF ∧ p.Grows r.2 ∧
      List.Forall₂ (fun a' a => a'.raw < r.2.size ∧ r.2.term a' = (p.term a).subst (p.image m))
        r.1.1 sig.args ∧
      r.1.2.raw < r.2.size ∧ r.2.term r.1.2 = (p.term sig.result).subst (p.image m) := by
  simp only [Pool.rewrite, Rewrite.run_bind, Rewrite.run_pure]
  obtain ⟨hinv₂, hg₂, hall⟩ := Rewrite.mapM_spec (P := fun i => i.raw < p.size)
    (fun i st hinv hi => Rewrite.substitute_spec h him hinv hi) sig.args _
    (Rewrite.Inv.start h) hargs
  generalize (List.mapM (Rewrite.substitute m) sig.args).run { pool := p } = r₁ at hinv₂ hg₂ hall ⊢
  obtain ⟨hinv₃, hg₃, hr⟩ := Rewrite.substitute_spec h him hinv₂ hres
  generalize (Rewrite.substitute m sig.result).run r₁.2 = r₂ at hinv₃ hg₃ hr ⊢
  refine ⟨hinv₃.wf, hinv₃.grows, ?_, hr.1, hr.2.2⟩
  -- each argument was rewritten in the pass, and the pool only grew while the result was
  exact (List.Forall₂.imp (S := fun a a' => a'.raw < r₂.2.pool.size ∧
      r₂.2.pool.term a' = (p.term a).subst (p.image m)) (fun _ _ hra =>
    let hra' := hra.grows hinv₂.wf hinv₃.wf hg₃
    ⟨hra'.1, hra'.2.2⟩) hall).flip

/-- An instance of a tag renames its quantified variables apart once, for the argument types
and the result type alike. -/
theorem instantiateTag_run (hwf : e.pool.WF) (hZ : e.pool.Unbound Z) {sig : TagSig}
    (hargs : ∀ a ∈ sig.args, a.raw < e.pool.size) (hres : sig.result.raw < e.pool.size) :
    Run Z (instantiateTag sig) e (fun r e' => e'.tables = e.tables ∧ e.pool.Grows e'.pool ∧
      ∃ ι : Nat → Term, Term.Renames ι sig.bounded e.pool.varCount ∧
      List.Forall₂ (fun a' a => a'.raw < e'.pool.size ∧
        e'.pool.term a' = (e.pool.term a).subst ι) r.1 sig.args ∧
      r.2.raw < e'.pool.size ∧ e'.pool.term r.2 = (e.pool.term sig.result).subst ι) := by
  unfold instantiateTag
  obtain ⟨h₁, hg₁, him⟩ := freshFor_spec hwf sig.bounded
  have himage := freshFor_renames hwf sig.bounded
  have hterm : ∀ i : Idx, i.raw < e.pool.size →
      (e.pool.freshFor sig.bounded).2.term i = e.pool.term i := fun i hi => hg₁.term_eq hwf h₁ hi
  refine Run.withPool_grows hwf hZ ?_ ?_ ?_
  all_goals
    generalize e.pool.freshFor sig.bounded = fm at h₁ hg₁ him himage hterm ⊢
    obtain ⟨m, p₁⟩ := fm
    obtain ⟨h₂, hg₂, hall, hr, hrt⟩ := tagPass_spec h₁ him
      (fun a ha => Nat.lt_of_lt_of_le (hargs a ha) hg₁.size_le)
      (Nat.lt_of_lt_of_le hres hg₁.size_le)
  · exact h₂
  · exact hg₁.trans hg₂
  · refine ⟨rfl, hg₁.trans hg₂, p₁.image m, himage, ?_, hr, by rw [hrt, hterm _ hres]⟩
    -- the argument types were read in the renamed pool, where they stand for what they did
    refine (List.Forall₂.imp (fun a a' ha => ⟨ha.2.1, ?_⟩)
      ((List.forall₂_and_left _ _).2 ⟨hargs, hall.flip⟩)).flip
    rw [ha.2.2, hterm a ha.1]

/-- A resolved annotation stands for a type the annotation admits, all of whose variables
are new. -/
theorem resolveType_run (hwf : e.pool.WF) (hZ : e.pool.Unbound Z) (ann : TypeExpr) :
    Run Z (resolveType ann) e (fun t e' => e'.tables = e.tables ∧ e.pool.Grows e'.pool ∧
      t.raw < e'.pool.size ∧ ann.Admits (e'.pool.term t) ∧
      ∀ w ∈ (e'.pool.term t).vars, e.pool.varCount ≤ w) := by
  obtain ⟨h₁, hg, ht⟩ := @TypeExpr.resolve_spec {} _ hwf (fun _ hb => absurd hb List.not_mem_nil) ann
  exact Run.withPool_grows hwf hZ h₁ hg ⟨rfl, hg, ht, TypeExpr.resolve_admits hwf ann⟩

end Steps

end InferM

end TagML
