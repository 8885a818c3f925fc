import TagML.Proofs.Checker
import TagML.Proofs.Infer.Complete

/-!
Checking a form finds principal types.

A reachable checker binds its variables only to closed schemes: the prelude allocates no
variable, and a top-level `let` generalizes in a closed environment, which quantifies every
variable of the value's type.  So the context's environment reads the same in every pool the
checker reaches.  Inference from the checker is then complete for the declarative system
(`infer_complete`): a derivation of the expression makes it succeed, and the derivation's root
type is an instance of the type it leaves.  With soundness, checking an expression fails exactly
when the expression has no derivation; otherwise it reports the principal type, and for a bound
value the principal scheme.
-/

namespace TagML

open Pool InferM

namespace Pool

variable {p q : Pool} {F : Set Nat} {env : Env Scheme}

/-- No scheme of `env`, read in `p`, leaves a variable free. -/
def ClosedEnv (p : Pool) (env : Env Scheme) : Prop := ∀ w, w ∉ (p.envType env).free

/-- A pool without variables closes every environment whose types it holds. -/
theorem closedEnv_of_varCount (hp : p.WF) (hv : p.ValidEnv env) (h0 : p.varCount = 0) :
    p.ClosedEnv env := by
  intro w hw
  obtain ⟨b, hb, hwv, -⟩ := mem_envType_free.1 hw
  have hlt := lt_varCount_of_mem_vars_term hp (hv b hb) hwv
  omega

namespace ClosedEnv

theorem later (hp : p.WF) (hq : q.WF) (he : p.Extends q) (hF : Frozen F p q)
    (hr : p.Respects F env) (hv : p.ValidEnv env) (h : p.ClosedEnv env) : q.ClosedEnv env := by
  intro w hw
  obtain ⟨u, hu, -⟩ := (hr.mem_free hp hq he hF hv).1 hw
  exact h u hu

/-- A closed environment reads the same in every later pool that keeps what it quantifies
frozen. -/
theorem envType_later (hp : p.WF) (hq : q.WF) (he : p.Extends q) (hF : Frozen F p q)
    (hr : p.Respects F env) (hv : p.ValidEnv env) (h : p.ClosedEnv env) :
    q.envType env = p.envType env := by
  unfold envType schemeType
  congr 1
  refine List.map_congr_left fun b hb => ?_
  -- every variable of the scheme is quantified, hence frozen
  have hbody : ∀ w ∈ (p.term b.2.body).vars, w ∈ F := by
    intro w hw
    refine (hr b hb).1 w ?_
    by_contra hwb
    exact h w (mem_envType_free.2 ⟨b, hb, hw, hwb⟩)
  rw [hF.term_eq hp hq he (hv b hb) hbody]

/-- Binding a type generalized in a closed environment keeps it closed. -/
theorem prepend_generalize (hp : p.WF) (h : p.ClosedEnv env) (x : String) (t : Idx) :
    p.ClosedEnv (env.prepend x (p.generalize env t)) := by
  intro w hw
  obtain ⟨b, hb, hwv, hwb⟩ := mem_envType_free.1 hw
  rw [Env.bindings_prepend, List.mem_cons] at hb
  rcases hb with rfl | hb
  · exact hwb ((mem_generalize hp env t).2 ⟨hwv, h w⟩)
  · exact h w (mem_envType_free.2 ⟨b, hb, hwv, hwb⟩)

/-- Generalizing in a closed environment quantifies every variable of the type, so each of its
substitution instances is an instance of the scheme. -/
theorem instance_generalize (hp : p.WF) (h : p.ClosedEnv env) (t : Idx) (θ : Nat → Term) :
    (p.schemeType (p.generalize env t)).Instance ((p.term t).subst θ) := by
  refine ⟨fun v => if v ∈ (p.generalize env t).bounded then θ v else .var v,
    fun v hv => if_neg hv, Term.subst_congr _ fun v hv => ?_⟩
  exact (if_pos ((mem_generalize hp env t).2 ⟨hv, h v⟩)).symm

end ClosedEnv

end Pool

/-- Every derivation gives its root a type. -/
theorem Derivation.root_typed {tags : String → Option TagType} {ty : Typing}
    {Γ : Env TermScheme} {e : Expr} (h : Derivation tags ty Γ e) : ∃ T, ty.expr e.id = some T := by
  cases h with
  | lit h => exact ⟨_, h⟩
  | tag _ _ _ h _ _ => exact ⟨_, h⟩
  | var _ _ h _ => exact ⟨_, h⟩
  | lam _ h _ _ => exact ⟨_, h⟩
  | app _ _ h _ _ => exact ⟨_, h⟩
  | ite _ _ _ h _ _ _ => exact ⟨_, h⟩
  | matchAs _ _ _ _ h _ _ _ => exact ⟨_, h⟩
  | letIn _ _ h _ _ _ => exact ⟨_, h⟩

namespace Checker

/-- Every variable of the context is bound to a closed scheme. -/
def Closed (c : Checker) : Prop := c.pool.ClosedEnv c.ctx.vars

theorem closed_new : ({} : Checker).Closed := fun _ hw => by
  obtain ⟨b, hb, -⟩ := mem_envType_free.1 hw
  exact absurd hb List.not_mem_nil

/-- The prelude allocates no variable. -/
theorem closed_withPrelude : withPrelude.Closed :=
  closedEnv_of_varCount inv_withPrelude.wf inv_withPrelude.env_valid (by
    show (({} : Pool).curried [Prim.int.idx, Prim.int.idx] Prim.int.idx).2.varCount = 0
    rw [varCount_curried]
    rfl)

theorem Closed.later {c : Checker} (hcl : c.Closed) (h : c.Inv) {q : Pool}
    (hl : Later c.ctx.quantified c.pool q) : q.ClosedEnv c.ctx.vars :=
  ClosedEnv.later h.wf hl.wf hl.ext hl.frozen h.respects h.env_valid hcl

namespace Inv

variable {c : Checker} {e : Expr}

/-- The pool the expected type's variable is allocated in comes after the checker's. -/
theorem fresh_later (h : c.Inv) : Later c.ctx.quantified c.pool c.pool.fresh.2 := by
  obtain ⟨hq, hg, -⟩ := fresh_spec h.wf
  exact ⟨hq, Extends.of_grows hg, Frozen.of_grows h.wf hq hg h.unbound⟩

/-- A failed inference from the checker leaves a later pool. -/
theorem run_error_later (h : c.Inv) {err : CheckError} {eng : Engine}
    (hrun : (infer c.ctx c.ctx.vars e c.pool.fresh.1).run ⟨c.pool.fresh.2, {}⟩ = .error err eng) :
    Later c.ctx.quantified c.pool eng.pool := by
  obtain ⟨hwf, hext, hfz⟩ := (infer_sound c.ctx e c.ctx.quantified c.ctx.vars c.pool.fresh.1
    ⟨c.pool.fresh.2, {}⟩ h.fresh).of_error hrun
  have hl := h.fresh_later
  exact Later.back ⟨hwf, hext, hfz⟩ hl.wf hl.ext hl.frozen fun _ hz => hz

/-- A successful inference from the checker, settled, leaves a later pool, in which the settled
type stands for what the expected type stood for after inference. -/
theorem settle_later (h : c.Inv) {u : Unit} {eng : Engine}
    (hrun : (infer c.ctx c.ctx.vars e c.pool.fresh.1).run ⟨c.pool.fresh.2, {}⟩ = .ok u eng) :
    Later c.ctx.quantified c.pool (eng.settle c.pool.fresh.1).2.2 ∧
      (eng.settle c.pool.fresh.1).2.2.term (eng.settle c.pool.fresh.1).1 =
        eng.pool.term c.pool.fresh.1 := by
  obtain ⟨hwf, hext, hfz, new, Q, hd, -⟩ := (infer_sound c.ctx e c.ctx.quantified c.ctx.vars
    c.pool.fresh.1 ⟨c.pool.fresh.2, {}⟩ h.fresh).of_ok hrun
  have hl := h.fresh_later
  have hrl : Later c.ctx.quantified c.pool eng.pool :=
    Later.back ⟨hwf, hext, hfz⟩ hl.wf hl.ext hl.frozen fun _ hz => hz
  obtain ⟨hready, hres, -⟩ := h.run_ok hrun
  obtain ⟨hq, hg, -, hty, -⟩ :=
    Engine.settle_spec hwf ((hd.tables.trans Tables.prepend_empty) ▸ hd.valid) hres
  refine ⟨Later.back ⟨hq, Extends.of_grows hg, Frozen.of_grows hwf hq hg hready.unbound⟩ hwf
    hrl.ext hrl.frozen fun _ hz => hz, ?_⟩
  rw [hty, hg.term_eq hwf hq hres]

/-- Checking any form from a checker with a closed context keeps it closed. -/
theorem checkForm_closed (h : c.Inv) (hcl : c.Closed) : ∀ form : Form, (c.checkForm form).1.Closed
  | .typeDef items => by
    simp only [Checker.checkForm, Checker.defineTypes]
    have hb := Catalogue.build_spec items h.wf
    generalize Catalogue.build items c.pool = r at hb ⊢
    obtain ⟨cat, q⟩ := r
    exact hcl.later h ⟨hb.wf, Extends.of_grows hb.grows, Frozen.of_grows h.wf hb.wf hb.grows h.unbound⟩
  | .eval e => by
    simp only [Checker.checkForm]
    split
    · next hrun => exact hcl.later h (h.settle_later hrun).1
    · next hrun => exact hcl.later h (h.run_error_later hrun)
  | .bind x v => by
    simp only [Checker.checkForm]
    split
    · next hrun =>
      have hl := (h.settle_later hrun).1
      exact (hcl.later h hl).prepend_generalize hl.wf x _
    · next hrun => exact hcl.later h (h.run_error_later hrun)

/-- Inference from the checker is complete: given a derivation of `e` in the context, it
succeeds, and the type the derivation gives the root is an instance of the one inference leaves
for the expected type. -/
theorem run_complete (h : c.Inv) {ty : Typing} {T : Term}
    (hd : Derivation (c.ctx.tagTypes c.pool) ty (c.pool.envType c.ctx.vars) e)
    (hroot : ty.expr e.id = some T) :
    RunOk c.ctx.quantified (infer c.ctx c.ctx.vars e c.pool.fresh.1) ⟨c.pool.fresh.2, {}⟩
      fun _ eng => ∃ θ, T = (eng.pool.term c.pool.fresh.1).subst θ := by
  have hl := h.fresh_later
  obtain ⟨-, hg, ht, -⟩ := fresh_spec h.wf
  -- the expected type's variable stands for `T`, every older variable for itself
  have hA : Agrees c.pool c.pool.fresh.2 Term.var
      (Term.spliceAt c.pool.varCount Term.var fun _ => T) :=
    Agrees.splice h.wf hl.wf hg _
  have hT : (c.pool.fresh.2.term c.pool.fresh.1).subst
      (Term.spliceAt c.pool.varCount Term.var fun _ => T) = T := by
    rw [fresh_term h.wf, Term.subst_var, Term.spliceAt_of_le (Nat.le_refl _)]
  have hself : EnvLe c.pool Term.var c.ctx.vars (c.pool.envType c.ctx.vars) :=
    EnvLe.self fun _ _ => rfl
  have henv := hself.later h.wf hl.wf hl.ext hl.frozen hA h.env_valid h.respects
  refine (infer_complete c.ctx e _ _ _ _ h.fresh _ _ ty henv
    (by rwa [h.tagTypes_later hl.wf hl.ext hl.frozen]) (by rw [hroot, hT])).imp
    fun _ eng hwf he _ ⟨σ', hA'⟩ => ⟨σ', ?_⟩
  rw [hA'.term hl.wf hwf he ht, hT]

/-- Inference from the checker succeeds exactly when the expression has a derivation in the
context. -/
theorem run_ok_iff (h : c.Inv) (hcl : c.Closed) (hids : e.ids.Nodup) (hpats : e.patIds.Nodup) :
    (∃ u eng, (infer c.ctx c.ctx.vars e c.pool.fresh.1).run ⟨c.pool.fresh.2, {}⟩ = .ok u eng) ↔
      ∃ ty, Derivation (c.ctx.tagTypes c.pool) ty (c.pool.envType c.ctx.vars) e := by
  constructor
  · rintro ⟨u, eng, hrun⟩
    -- soundness reads the derivation in the settled pool, where the context reads the same
    have hl := (h.settle_later hrun).1
    obtain ⟨-, hder, -⟩ := h.settle_sound hids hpats hrun
    rw [h.tagTypes_later hl.wf hl.ext hl.frozen,
      hcl.envType_later h.wf hl.wf hl.ext hl.frozen h.respects h.env_valid] at hder
    exact ⟨_, hder⟩
  · rintro ⟨ty, hd⟩
    obtain ⟨T, hroot⟩ := hd.root_typed
    obtain ⟨u, eng, hrun, -⟩ := (h.run_complete hd hroot).exists_ok
    exact ⟨u, eng, hrun⟩

/-- The settled type of a successful inference from the checker is principal: every type a
derivation gives the root is an instance of it. -/
theorem settle_principal (h : c.Inv) {u : Unit} {eng : Engine}
    (hrun : (infer c.ctx c.ctx.vars e c.pool.fresh.1).run ⟨c.pool.fresh.2, {}⟩ = .ok u eng)
    {ty : Typing} {T : Term}
    (hd : Derivation (c.ctx.tagTypes c.pool) ty (c.pool.envType c.ctx.vars) e)
    (hroot : ty.expr e.id = some T) :
    ∃ θ, T = ((eng.settle c.pool.fresh.1).2.2.term (eng.settle c.pool.fresh.1).1).subst θ := by
  obtain ⟨u', eng', hrun', θ, hθ⟩ := (h.run_complete hd hroot).exists_ok
  rw [hrun] at hrun'
  cases hrun'
  exact ⟨θ, by rw [(h.settle_later hrun).2]; exact hθ⟩

end Inv

/-- Every reachable checker binds its variables to closed schemes. -/
theorem Reachable.closed {c : Checker} (hc : c.Reachable) : c.Closed := by
  induction hc with
  | new => exact closed_new
  | withPrelude => exact closed_withPrelude
  | checkForm form hc ih => exact hc.inv.checkForm_closed ih form

end Checker

/-- Checking an expression from a reachable checker fails exactly when the expression has no
Hindley–Milner derivation in the context's environment.  When it succeeds the reported type is
principal: every type derivable for the expression is a substitution instance of it, and every
one is an instance of the scheme a bound value is generalized to. -/
theorem checkForm_principal {c : Checker} (hc : c.Reachable) {form : Form} {e : Expr}
    (he : form.expr? = some e) (hids : e.ids.Nodup) (hpats : e.patIds.Nodup) :
    ((∃ err, (c.checkForm form).2 = .error err) ↔
        ¬∃ ty, Derivation (c.ctx.tagTypes c.pool) ty (c.pool.envType c.ctx.vars) e) ∧
      ∀ done, (c.checkForm form).2 = .ok done → ∀ ty T,
        Derivation (c.ctx.tagTypes c.pool) ty (c.pool.envType c.ctx.vars) e →
        ty.expr e.id = some T →
        (∃ τ ∈ done.outcome.type?, ∃ θ, T = ((c.checkForm form).1.pool.term τ).subst θ) ∧
        ∀ x σ, done.outcome = .bound x σ →
          ((c.checkForm form).1.pool.schemeType σ).Instance T := by
  have h := hc.inv
  cases form with
  | typeDef items => cases he
  | eval e' =>
    cases he
    have hiff := h.run_ok_iff hc.closed hids hpats
    simp only [Checker.checkForm]
    rcases hrun : (infer c.ctx c.ctx.vars e c.pool.fresh.1).run ⟨c.pool.fresh.2, {}⟩ with
      ⟨u, eng⟩ | ⟨err, eng⟩
    · dsimp only
      refine ⟨⟨fun hex => (by obtain ⟨_, herr⟩ := hex; cases herr), fun hno => absurd (hiff.1 ⟨u, eng, hrun⟩) hno⟩, ?_⟩
      rintro done hdone ty T hd hroot
      cases hdone
      exact ⟨⟨_, rfl, h.settle_principal hrun hd hroot⟩, fun _ _ hb => by cases hb⟩
    · dsimp only
      refine ⟨⟨fun _ hd => ?_, fun _ => ⟨err, rfl⟩⟩, fun _ hdone => by cases hdone⟩
      obtain ⟨u, eng', hok⟩ := hiff.2 hd
      rw [hrun] at hok
      cases hok
  | bind x v =>
    cases he
    have hiff := h.run_ok_iff hc.closed hids hpats
    simp only [Checker.checkForm]
    rcases hrun : (infer c.ctx c.ctx.vars e c.pool.fresh.1).run ⟨c.pool.fresh.2, {}⟩ with
      ⟨u, eng⟩ | ⟨err, eng⟩
    · dsimp only
      refine ⟨⟨fun hex => (by obtain ⟨_, herr⟩ := hex; cases herr), fun hno => absurd (hiff.1 ⟨u, eng, hrun⟩) hno⟩, ?_⟩
      rintro done hdone ty T hd hroot
      cases hdone
      obtain ⟨θ, hθ⟩ := h.settle_principal hrun hd hroot
      refine ⟨⟨_, rfl, θ, hθ⟩, fun x' σ hb => ?_⟩
      cases hb
      -- the context is closed, so the scheme quantifies every variable of the type
      have hl := (h.settle_later hrun).1
      rw [hθ]
      exact (hc.closed.later h hl).instance_generalize hl.wf _ θ
    · dsimp only
      refine ⟨⟨fun _ hd => ?_, fun _ => ⟨err, rfl⟩⟩, fun _ hdone => by cases hdone⟩
      obtain ⟨u, eng', hok⟩ := hiff.2 hd
      rw [hrun] at hok
      cases hok

/-- `if true then 1 else 2` has a derivation from the empty checker, and every type a derivation
gives its root is `Int`, the type checking reports. -/
theorem checkForm_principal_ite :
    (∃ ty, Derivation (({} : Checker).ctx.tagTypes ({} : Checker).pool) ty
      (({} : Checker).pool.envType ({} : Checker).ctx.vars)
      (.ite 0 (.lit 1 (.bool true)) (.lit 2 (.int 1)) (.lit 3 (.int 2)))) ∧
    ∀ ty T, Derivation (({} : Checker).ctx.tagTypes ({} : Checker).pool) ty
        (({} : Checker).pool.envType ({} : Checker).ctx.vars)
        (.ite 0 (.lit 1 (.bool true)) (.lit 2 (.int 1)) (.lit 3 (.int 2))) →
      ty.expr 0 = some T → T = .prim .int := by
  have h := checkForm_principal .new
    (show Form.expr? (.eval (.ite 0 (.lit 1 (.bool true)) (.lit 2 (.int 1)) (.lit 3 (.int 2)))) =
      some (.ite 0 (.lit 1 (.bool true)) (.lit 2 (.int 1)) (.lit 3 (.int 2))) from rfl)
    (by decide) (by decide)
  -- the check succeeds and reports `Int`
  obtain ⟨done, hdone, hint⟩ : ∃ done, (({} : Checker).checkForm
        (.eval (.ite 0 (.lit 1 (.bool true)) (.lit 2 (.int 1)) (.lit 3 (.int 2))))).2 = .ok done ∧
      done.outcome.type?.map (({} : Checker).checkForm
        (.eval (.ite 0 (.lit 1 (.bool true)) (.lit 2 (.int 1)) (.lit 3 (.int 2))))).1.pool.term =
        some (.prim .int) := ⟨_, rfl, rfl⟩
  refine ⟨?_, fun ty T hd hT => ?_⟩
  · by_contra hno
    obtain ⟨_, herr⟩ := h.1.2 hno
    rw [hdone] at herr
    cases herr
  · obtain ⟨⟨τ, hτ, θ, rfl⟩, -⟩ := h.2 done hdone ty T hd hT
    rw [Option.mem_def.1 hτ] at hint
    rw [Option.some.inj hint, Term.subst_prim]

end TagML
