import TagML.Proofs.Infer.Generality

/-!
Inference is complete for the Hindley–Milner system of `Derivation`.

Whenever the pool's types, under some substitution `σ` of its variables, are the types a
derivation gives, inference succeeds, and `σ` carries over to the pool it ends in
(`InferComplete`).  The induction over expressions follows the rules of `infer`: each rule
extends `σ` to the variables it allocates, choosing for them the types the derivation has
(`Term.spliceAt`, `Term.Renames.extend`, `TypeExpr.resolve_covers`), so that every
unification it makes has a common instance and succeeds (`unifyAt_ok`), and every child starts
from a pool and substitution of the same kind.
-/
namespace TagML

open Pool InferM

section Completeness

variable (ctx : Context)

/-- Inference of `e` from a ready pool succeeds whenever, under some substitution `σ`, the
expected type is the root's type in a derivation of `e` in an environment the pool's is at
least as general as; and `σ` carries over to the pool it ends in. -/
def InferComplete (e : Expr) : Prop :=
  ∀ (Z : Set Nat) (env : Env Scheme) (t : Idx) (E : Engine), Ready ctx Z env [t] E.pool →
    ∀ (σ : Nat → Term) (Γ : Env TermScheme) (ty : Typing), EnvLe E.pool σ env Γ →
      Derivation (ctx.tagTypes E.pool) ty Γ e → ty.expr e.id = some ((E.pool.term t).subst σ) →
      RunOk Z (infer ctx env e t) E fun _ E' => ∃ σ', Agrees E.pool E'.pool σ σ'

/-- `InferComplete` for the arguments of a construction, each against its own type. -/
def ArgsComplete (args : List Expr) : Prop :=
  ∀ (Z : Set Nat) (env : Env Scheme) (ts : List Idx) (E : Engine), Ready ctx Z env ts E.pool →
    ∀ (σ : Nat → Term) (Γ : Env TermScheme) (ty : Typing), EnvLe E.pool σ env Γ →
      (∀ a ∈ args, Derivation (ctx.tagTypes E.pool) ty Γ a) →
      List.Forall₂ (fun a t => ty.expr a.id = some ((E.pool.term t).subst σ)) args ts →
      RunOk Z (inferArgs ctx env args ts) E fun _ E' => ∃ σ', Agrees E.pool E'.pool σ σ'

variable {ctx}

/-- Completeness of `e` used from a later engine, against a handle of an earlier ready pool
whose type under `σ` is the root's. -/
theorem InferComplete.later {e : Expr} (h : InferComplete ctx e) {Z : Set Nat} {env : Env Scheme}
    {hs : List Idx} {t : Idx} {p : Pool} {E : Engine} (hr : Ready ctx Z env hs p) (ht : t ∈ hs)
    (hwf : E.pool.WF) (he : p.Extends E.pool) (hz : Frozen Z p E.pool) {σ σ' : Nat → Term}
    (hA : Agrees p E.pool σ σ') {Γ : Env TermScheme} {ty : Typing} (henv : EnvLe p σ env Γ)
    (hd : Derivation (ctx.tagTypes p) ty Γ e) (hroot : ty.expr e.id = some ((p.term t).subst σ)) :
    RunOk Z (infer ctx env e t) E fun _ E' => ∃ σ'', Agrees E.pool E'.pool σ' σ'' := by
  have hr' := hr.later hwf he hz
  exact h Z env t E (hr'.sub (List.cons_subset.2 ⟨ht, List.nil_subset _⟩)) σ' Γ ty
    (henv.later hr.wf hwf he hz hA hr.env_valid hr.respects)
    (by rwa [hr.tagTypes_later hwf he hz]) (by rw [hroot, hA.term hr.wf hwf he (hr.valid t ht)])

theorem lit_complete (id : Nat) (l : Literal) : InferComplete ctx (.lit id l) := by
  intro Z env t E₀ hr σ Γ ty _ hder hroot
  rw [infer]
  refine RunOk.modify_bind rfl fun E₁ hp₁ => ?_
  rw [← hp₁] at hr hder hroot ⊢
  cases hder with
  | lit hty =>
  have hprim := hr.wf.prim l.prim
  have hterm : E₁.pool.term l.prim.idx = .prim l.prim := hr.wf.term_prim l.prim
  -- under `σ` the expected type is the literal's primitive, which has no variables
  refine unifyAt_ok hr.wf hr.unbound (hr.valid t (by simp)) hprim.1 (hr.avoids t (by simp))
    (fun w hw => absurd hw (hr.wf.not_mem_vars_prim l.prim w)) ?_
  show (E₁.pool.term t).subst σ = (E₁.pool.term l.prim.idx).subst σ
  rw [hterm, Term.subst_prim]
  exact Option.some.inj (hroot.symm.trans hty)

theorem ite_complete {id : Nat} {c a b : Expr} (hc : InferComplete ctx c)
    (ha : InferComplete ctx a) (hb : InferComplete ctx b) : InferComplete ctx (.ite id c a b) := by
  intro Z env t E₀ hr σ Γ ty henv hder hroot
  rw [infer]
  refine RunOk.modify_bind rfl fun E₁ hp₁ => ?_
  rw [← hp₁] at hr henv hder hroot ⊢
  cases hder with
  | ite hcty haty hbty hidty hdc hda hdb =>
  have ht := List.mem_singleton_self t
  -- the condition is checked against `Bool`, which has no variables
  have hterm : E₁.pool.term Prim.bool.idx = .prim .bool := hr.wf.term_prim .bool
  have hrc : Ready ctx Z env [Prim.bool.idx] E₁.pool := hr.bool
  refine RunOk.seq (hc Z env _ E₁ hrc σ Γ ty henv hdc (by rw [hcty, hterm, Term.subst_prim]))
    fun _ E₂ σ₂ hwf₂ he₂ hz₂ hA₂ => ?_
  -- both branches are checked against the expected type, which stands for the node's type
  have hT : ty.expr id = some ((E₁.pool.term t).subst σ) := hroot
  refine RunOk.seq (ha.later hr ht hwf₂ he₂ hz₂ hA₂ henv hda (haty.trans (hidty.symm.trans hT)))
    fun _ E₃ σ₃ hwf₃ he₃ hz₃ hA₃ => ?_
  exact hb.later hr ht hwf₃ (he₂.trans he₃) (hz₂.trans hwf₂ hwf₃ he₂ he₃ hz₃)
    (hA₂.trans hwf₂ hwf₃ he₂ he₃ hA₃) henv hdb (hbty.trans (hidty.symm.trans hT))

theorem app_complete {id : Nat} {f a : Expr} (hf : InferComplete ctx f)
    (ha : InferComplete ctx a) : InferComplete ctx (.app id f a) := by
  intro Z env t E₀ hr σ Γ ty henv hder hroot
  rw [infer]
  refine RunOk.modify_bind rfl fun E₁ hp₁ => ?_
  rw [← hp₁] at hr henv hder hroot ⊢
  cases hder with
  | @app _ _ _ _ ta tn hfty haty hidty hdf hda =>
  have ht := List.mem_singleton_self t
  refine RunOk.bind ((fresh_run hr.wf hr.unbound).ok (withPool_run _ _))
    fun argTy E₂ hwf₂ he₂ hz₂ ⟨_, hg₂, hav, hat₂, _⟩ => ?_
  have hr₂ := hr.later hwf₂ he₂ hz₂
  refine RunOk.bind ((fnType_run hwf₂ hr₂.unbound hav (hr₂.valid t ht)).ok (withPool_run _ _))
    fun ft E₃ hwf₃ he₃ hz₃ ⟨_, hg₃, hfv, hfi⟩ => ?_
  have hr₃ := hr₂.later hwf₃ he₃ hz₃
  have he₁₃ : E₁.pool.Extends E₃.pool := he₂.trans he₃
  have hz₁₃ := hz₂.trans hwf₂ hwf₃ he₂ he₃ hz₃
  -- the argument's type is the new variable, which `σ` extended sends to the argument's type
  have hA₃ := Agrees.splice (σ := σ) hr.wf hwf₃ (hg₂.trans hg₃) fun _ => ta
  have hat₃ : E₃.pool.term argTy = .var E₁.pool.varCount :=
    (hg₃.term_eq hwf₂ hwf₃ hav).trans hat₂
  have hft : E₃.pool.term ft = .fn (.var E₁.pool.varCount) (E₃.pool.term t) := by
    rw [term_of_fn hwf₃ hfi, hat₃]
  have hnew := hr.unbound.avoids_var (Nat.le_refl _)
  have hrf : Ready ctx Z env [ft] E₃.pool := hr₃.single hfv fun w hw => by
    rw [hft] at hw
    exact (List.mem_append.1 hw).elim (hnew w) (hr₃.avoids t ht w)
  have hra : Ready ctx Z env [argTy] E₃.pool :=
    hr₃.single (Nat.lt_of_lt_of_le hav hg₃.size_le) (by rw [hat₃]; exact hnew)
  have henv₃ := henv.later hr.wf hwf₃ he₁₃ hz₁₃ hA₃ hr.env_valid hr.respects
  have hda₃ : Derivation (ctx.tagTypes E₃.pool) ty Γ a := by rwa [hr.tagTypes_later hwf₃ he₁₃ hz₁₃]
  have hargT : (E₃.pool.term argTy).subst (Term.spliceAt E₁.pool.varCount σ fun _ => ta) = ta := by
    rw [hat₃, Term.subst_var, Term.spliceAt_of_le (Nat.le_refl _)]
  have hT : (E₃.pool.term t).subst (Term.spliceAt E₁.pool.varCount σ fun _ => ta) = tn := by
    rw [hA₃.term hr.wf hwf₃ he₁₃ (hr.valid t ht)]
    exact Option.some.inj (hroot.symm.trans hidty)
  refine RunOk.carry hwf₃ he₁₃ hA₃ ?_
  -- the function is checked against `argument -> expected`, the argument against its variable
  refine RunOk.seq (hf Z env ft E₃ hrf _ Γ ty henv₃ (by rwa [hr.tagTypes_later hwf₃ he₁₃ hz₁₃]) ?_)
    fun _ E₄ σ₄ hwf₄ he₄ hz₄ hA₄ => ?_
  · rw [hfty, hft, Term.subst_fn, hT, Term.subst_var, Term.spliceAt_of_le (Nat.le_refl _)]
  · exact ha.later hra (List.mem_singleton_self _) hwf₄ he₄ hz₄ hA₄ henv₃ hda₃
      (by rw [haty, hargT])

theorem lam_complete {id : Nat} {x : String} {ann : TypeExpr} {body : Expr}
    (hb : InferComplete ctx body) : InferComplete ctx (.lam id x ann body) := by
  intro Z env t E₀ hr σ Γ ty henv hder hroot
  rw [infer]
  refine RunOk.modify_bind rfl fun E₁ hp₁ => ?_
  rw [← hp₁] at hr henv hder hroot ⊢
  cases hder with
  | @lam _ _ _ _ _ P tb hadm hidty hbty hdb =>
  have ht := List.mem_singleton_self t
  refine RunOk.bind (resolveType_ok hr.wf hr.unbound ann)
    fun param E₂ hwf₂ he₂ hz₂ hE₂ => ?_
  obtain ⟨hg₂, hpv, hpnew, hcov⟩ := hE₂
  have hr₂ := hr.later hwf₂ he₂ hz₂
  refine RunOk.bind ((fresh_run hwf₂ hr₂.unbound).ok (withPool_run _ _))
    fun ret E₃ hwf₃ he₃ hz₃ hE₃ => ?_
  obtain ⟨_, hg₃, hrv, hrt, _⟩ := hE₃
  have hr₃ := hr₂.later hwf₃ he₃ hz₃
  have he₁₃ : E₁.pool.Extends E₃.pool := he₂.trans he₃
  have hz₁₃ := hz₂.trans hwf₂ hwf₃ he₂ he₃ hz₃
  have hpv₃ : param.raw < E₃.pool.size := Nat.lt_of_lt_of_le hpv hg₃.size_le
  -- `σ` extended: the parameter's variables so that it stands for the derivation's parameter
  -- type, the result's variable to the body's type
  obtain ⟨θ, hθ⟩ := hcov P hadm
  have hA₃ := Agrees.splice (σ := σ) hr.wf hwf₃ (hg₂.trans hg₃)
    (Term.spliceAt E₂.pool.varCount θ fun _ => tb)
  have hparam : (E₃.pool.term param).subst
      (Term.spliceAt E₁.pool.varCount σ (Term.spliceAt E₂.pool.varCount θ fun _ => tb)) = P := by
    rw [hg₃.term_eq hwf₂ hwf₃ hpv, Term.subst_spliceAt_of_le hpnew,
      Term.subst_spliceAt_of_lt fun w hw => lt_varCount_of_mem_vars_term hwf₂ hpv hw, hθ]
  have hret : (E₃.pool.term ret).subst
      (Term.spliceAt E₁.pool.varCount σ (Term.spliceAt E₂.pool.varCount θ fun _ => tb)) = tb := by
    rw [hrt, Term.subst_var, Term.spliceAt_of_le hg₂.varCount_le,
      Term.spliceAt_of_le (Nat.le_refl _)]
  generalize Term.spliceAt E₁.pool.varCount σ (Term.spliceAt E₂.pool.varCount θ fun _ => tb) = σ₃
    at hA₃ hparam hret
  -- the parameter's and the result's variables are all new, so none is frozen
  have hpnew₃ : ∀ w ∈ (E₃.pool.term param).vars, E₁.pool.varCount ≤ w := by
    rw [hg₃.term_eq hwf₂ hwf₃ hpv]
    exact hpnew
  have hrnew₃ : ∀ w ∈ (E₃.pool.term ret).vars, E₁.pool.varCount ≤ w := by
    rw [hrt]
    exact Term.forall_mem_vars_var.2 hg₂.varCount_le
  have hrb : Ready ctx Z (env.prepend x (Scheme.mono param)) [ret] E₃.pool :=
    (hr₃.bind x hpv₃ (fun v hv => absurd hv List.not_mem_nil)
      fun w hw _ => hr.unbound.not_mem (hpnew₃ w hw)).single_new hr.unbound hrv hrnew₃
  have hr₃' : Ready ctx Z env [t, param, ret] E₃.pool :=
    hr₃.append ((hr₃.single_new hr.unbound hpv₃ hpnew₃).append
      (hr₃.single_new hr.unbound hrv hrnew₃))
  have henvb : EnvLe E₃.pool σ₃ (env.prepend x (Scheme.mono param)) (Γ.prepend x ⟨[], P⟩) :=
    (henv.later hr.wf hwf₃ he₁₃ hz₁₃ hA₃ hr.env_valid hr.respects).prepend x (SchemeLe.mono hparam)
  refine RunOk.carry hwf₃ he₁₃ hA₃ ?_
  refine RunOk.seq (hb Z _ ret E₃ hrb σ₃ _ ty henvb (by rwa [hr.tagTypes_later hwf₃ he₁₃ hz₁₃])
    (by rw [hbty, hret])) fun _ E₄ σ₄ hwf₄ he₄ hz₄ hA₄ => ?_
  have hr₄ := hr₃'.later hwf₄ he₄ hz₄
  refine RunOk.bind ((fnType_run hwf₄ hr₄.unbound (hr₄.valid param (by simp))
    (hr₄.valid ret (by simp))).ok (withPool_run _ _)) fun ft E₅ hwf₅ he₅ hz₅ hE₅ => ?_
  obtain ⟨_, hg₅, hfv, hfi⟩ := hE₅
  have hr₅ := hr₄.later hwf₅ he₅ hz₅
  have hft : E₅.pool.term ft = .fn (E₅.pool.term param) (E₅.pool.term ret) := term_of_fn hwf₅ hfi
  refine RunOk.carry hwf₅ he₅ (Agrees.of_grows hwf₄ hwf₅ hg₅ fun _ _ => rfl) ?_
  -- under `σ₄` the expected type is `P -> tb`, and so is `parameter -> result`
  refine unifyAt_ok hwf₅ hr₅.unbound (hr₅.valid t (by simp)) hfv (hr₅.avoids t (by simp)) ?_ ?_
  · rw [hft]
    intro w hw
    simp only [Term.vars, List.mem_append] at hw
    exact hw.elim (hr₅.avoids param (by simp) w) (hr₅.avoids ret (by simp) w)
  · have hread : ∀ i : Idx, i.raw < E₃.pool.size →
        (E₅.pool.term i).subst σ₄ = (E₃.pool.term i).subst σ₃ := fun i hi => by
      rw [hg₅.term_eq hwf₄ hwf₅ (Nat.lt_of_lt_of_le hi he₄.size_le), hA₄.term hwf₃ hwf₄ he₄ hi]
    rw [hft, Term.subst_fn, hread param hpv₃, hread ret hrv, hread t (hr₃.valid t ht), hparam, hret,
      hA₃.term hr.wf hwf₃ he₁₃ (hr.valid t ht)]
    exact Option.some.inj (hroot.symm.trans hidty)

theorem var_complete (id : Nat) (name : String) : InferComplete ctx (.var id name) := by
  intro Z env t E₀ hr σ Γ ty henv hder hroot
  rw [infer]
  refine RunOk.modify_bind rfl fun E₁ hp₁ => ?_
  rw [← hp₁] at hr henv hder hroot ⊢
  cases hder with
  | @var _ _ _ s T hl hinst hidty _ =>
  have ht := List.mem_singleton_self t
  have hT : (E₁.pool.term t).subst σ = T := Option.some.inj (hroot.symm.trans hidty)
  -- the name is bound in `env` to a scheme of which `T` is an instance
  obtain ⟨a, hla, hle⟩ := henv.lookup hl
  obtain ⟨θ, hθ⟩ := hle.covers T hinst
  simp only [hla]
  have hmem := Env.mem_of_lookup hla
  have hab := hr.env_valid _ hmem
  refine RunOk.bind ((instantiate_run hr.wf hr.unbound hab).ok (withPool_run _ _))
    fun inst E₂ hwf₂ he₂ hz₂ ⟨_, hg₂, hiv, ι, hι, hinst₂⟩ => ?_
  have hr₂ := hr.later hwf₂ he₂ hz₂
  refine RunOk.bind ((fresh_run hwf₂ hr₂.unbound).ok (withPool_run _ _))
    fun slot E₃ hwf₃ he₃ hz₃ ⟨_, hg₃, hsv, hst, _⟩ => ?_
  refine RunOk.modify_bind rfl fun E₄ hp₄ => ?_
  rw [← hp₄] at hwf₃ he₃ hz₃ hg₃ hsv hst
  have hr₄ := hr₂.later hwf₃ he₃ hz₃
  have he₁₄ : E₁.pool.Extends E₄.pool := he₂.trans he₃
  -- one substitution sends the renamed variables where `θ` sends the quantified ones and the
  -- slot to `T`, and is `σ` on the old variables
  obtain ⟨σ₂, hσ₂, hσ₂ι⟩ := hι.extend σ θ
  have hA₄ : Agrees E₁.pool E₄.pool σ (Term.spliceAt E₂.pool.varCount σ₂ fun _ => T) :=
    Agrees.of_grows hr.wf hwf₃ (hg₂.trans hg₃) fun v hv =>
      (Term.spliceAt_of_lt (Nat.lt_of_lt_of_le hv hg₂.varCount_le)).trans (hσ₂ v hv)
  have hiv₄ : inst.raw < E₄.pool.size := Nat.lt_of_lt_of_le hiv hg₃.size_le
  have hinst₄ : E₄.pool.term inst = (E₁.pool.term a.body).subst ι :=
    (hg₃.term_eq hwf₂ hwf₃ hiv).trans hinst₂
  have hinstT : (E₄.pool.term inst).subst (Term.spliceAt E₂.pool.varCount σ₂ fun _ => T) = T := by
    rw [hg₃.term_eq hwf₂ hwf₃ hiv,
      Term.subst_spliceAt_of_lt fun w hw => lt_varCount_of_mem_vars_term hwf₂ hiv hw, hinst₂,
      Term.subst_subst, hθ]
    refine Term.subst_congr _ fun v hv => ?_
    by_cases hvb : v ∈ a.bounded
    · rw [if_pos hvb, hσ₂ι v hvb]
    · rw [if_neg hvb, hι.fixes v hvb, Term.subst_var,
        hσ₂ v (lt_varCount_of_mem_vars_term hr.wf hab hv)]
  have hslotT : (E₄.pool.term slot).subst (Term.spliceAt E₂.pool.varCount σ₂ fun _ => T) = T := by
    rw [hst, Term.subst_var, Term.spliceAt_of_le (Nat.le_refl _)]
  generalize Term.spliceAt E₂.pool.varCount σ₂ (fun _ => T) = σ₄ at hA₄ hinstT hslotT
  -- the instance's variables are new, or free in the environment and not frozen
  have hinstZ : ∀ w ∈ (E₄.pool.term inst).vars, w ∉ Z := by
    rw [hinst₄]
    exact fun w hw => (hr.instance_vars hmem hι w hw).elim hr.unbound.not_mem (·.2)
  have hslotZ : ∀ w ∈ (E₄.pool.term slot).vars, w ∉ Z := by
    rw [hst]
    exact Term.forall_mem_vars_var.2 (hr.unbound.not_mem hg₂.varCount_le)
  have hr₄' : Ready ctx Z env [t, inst] E₄.pool := hr₄.append (hr₄.single hiv₄ hinstZ)
  refine RunOk.carry hwf₃ he₁₄ hA₄ ?_
  -- the slot is unified with the instance, then the expected type with the instance
  refine RunOk.seq (unifyAt_ok hwf₃ hr₄.unbound hsv hiv₄ hslotZ hinstZ (hslotT.trans hinstT.symm))
    fun _ E₅ σ₅ hwf₅ he₅ hz₅ hA₅ => ?_
  have hr₅ := hr₄'.later hwf₅ he₅ hz₅
  refine unifyAt_ok hwf₅ hr₅.unbound (hr₅.valid t (by simp)) (hr₅.valid inst (by simp))
    (hr₅.avoids t (by simp)) (hr₅.avoids inst (by simp)) ?_
  rw [hA₅.term hwf₃ hwf₅ he₅ (hr₄.valid t ht), hA₅.term hwf₃ hwf₅ he₅ hiv₄, hinstT,
    hA₄.term hr.wf hwf₃ he₁₄ (hr.valid t ht), hT]

theorem tag_complete {id : Nat} {name : String} {args : List Expr} (hargs : ArgsComplete ctx args) :
    InferComplete ctx (.tag id name args) := by
  intro Z env t E₀ hr σ Γ ty henv hder hroot
  rw [infer]
  refine RunOk.modify_bind rfl fun E₁ hp₁ => ?_
  rw [← hp₁] at hr henv hder hroot ⊢
  cases hder with
  | @tag _ _ _ _ s θ hs _ _ hresty hargty hders =>
  have ht := List.mem_singleton_self t
  -- the tag is declared, with the signature the derivation instantiates
  obtain ⟨sig, hl, rfl⟩ := Option.map_eq_some_iff.1 hs
  simp only [hl]
  have hmem : (name, sig) ∈ ctx.tags.bindings := Env.mem_of_lookup hl
  obtain ⟨hav, hresv⟩ := hr.tags_valid _ hmem
  obtain ⟨-, hargvars, hresvars⟩ := hr.tags_closed _ hmem
  refine RunOk.bind ((instantiateTag_run hr.wf hr.unbound hav hresv).ok (withPool_run _ _))
    fun r E₂ hwf₂ he₂ hz₂ ⟨_, hg₂, ι, hι, hall, hrv, hrt⟩ => ?_
  obtain ⟨argTys, result⟩ := r
  refine RunOk.modify_bind rfl fun E₃ hp₃ => ?_
  rw [← hp₃] at hwf₂ he₂ hz₂ hg₂ hall hrv hrt
  -- the derivation gives one type per argument, so the arity check passes
  have hlen : args.length = sig.arity := hargty.length_eq.trans (List.length_map _)
  split
  · next hne => exact absurd hlen hne
  -- one substitution sends the renamed variables where `θ` sends the quantified ones
  obtain ⟨σ₂, hσ₂, hσ₂ι⟩ := hι.extend σ θ
  have hA₂ : Agrees E₁.pool E₃.pool σ σ₂ := Agrees.of_grows hr.wf hwf₂ hg₂ hσ₂
  have hren : ∀ i : Idx, (∀ u ∈ (E₁.pool.term i).vars, u ∈ sig.bounded) →
      ((E₁.pool.term i).subst ι).subst σ₂ = (E₁.pool.term i).subst θ := fun i hiv => by
    rw [Term.subst_subst]
    exact Term.subst_congr _ fun u hu => hσ₂ι u (hiv u hu)
  have hr₃ := hr.later hwf₂ he₂ hz₂
  have hall₃ : List.Forall₂ (fun a' sa => (sa.raw < E₁.pool.size ∧
      ∀ u ∈ (E₁.pool.term sa).vars, u ∈ sig.bounded) ∧
      a'.raw < E₃.pool.size ∧ E₃.pool.term a' = (E₁.pool.term sa).subst ι) argTys sig.args :=
    ((List.forall₂_and_left _ _).2 ⟨fun a ha => ⟨hav a ha, hargvars a ha⟩, hall.flip⟩).flip
  -- the instantiated types mention only new variables
  have hargnew : ∀ a ∈ argTys, a.raw < E₃.pool.size ∧
      ∀ w ∈ (E₃.pool.term a).vars, E₁.pool.varCount ≤ w := by
    refine ((List.forall₂_and_left _ _).1 (hall₃.imp fun a sa h => ⟨?_, h⟩)).1
    refine ⟨h.2.1, ?_⟩
    rw [h.2.2]
    exact Term.vars_subst_fresh h.1.2 hι.fresh
  have hresnew : ∀ w ∈ (E₃.pool.term result).vars, E₁.pool.varCount ≤ w := by
    rw [hrt]
    exact Term.vars_subst_fresh hresvars hι.fresh
  have hra : Ready ctx Z env argTys E₃.pool := hr₃.retarget fun a ha =>
    ⟨(hargnew a ha).1, fun w hw => hr.unbound.not_mem ((hargnew a ha).2 w hw)⟩
  have hrall : Ready ctx Z env [t, result] E₃.pool :=
    hr₃.append (hr₃.single_new hr.unbound hrv hresnew)
  refine RunOk.carry hwf₂ he₂ hA₂ ?_
  -- the arguments, each against its instantiated type, which stands for the derivation's
  refine RunOk.seq (hargs Z env argTys E₃ hra σ₂ Γ ty
    (henv.later hr.wf hwf₂ he₂ hz₂ hA₂ hr.env_valid hr.respects)
    (fun a ha => by rw [hr.tagTypes_later hwf₂ he₂ hz₂]; exact hders a ha)
    (forall₂_compose (fun a sa a' hroot' hsa => ?_) (List.forall₂_map_right_iff.1 hargty)
      hall₃.flip)) fun _ E₄ σ₄ hwf₄ he₄ hz₄ hA₄ => ?_
  · rw [hroot', hsa.2.2, hren sa hsa.1.2]
  -- then the expected type with the instantiated result
  have hr₄ := hrall.later hwf₄ he₄ hz₄
  refine unifyAt_ok hwf₄ hr₄.unbound (hr₄.valid t (by simp)) (hr₄.valid result (by simp))
    (hr₄.avoids t (by simp)) (hr₄.avoids result (by simp)) ?_
  rw [hA₄.term hwf₂ hwf₄ he₄ (hr₃.valid t ht), hA₄.term hwf₂ hwf₄ he₄ hrv,
    hA₂.term hr.wf hwf₂ he₂ (hr.valid t ht), hrt, hren _ hresvars]
  exact Option.some.inj (hroot.symm.trans hresty)

theorem args_complete_nil : ArgsComplete ctx [] := by
  intro Z env ts E hr σ Γ ty _ _ hroots
  cases hroots
  exact RunOk.pure hr.wf hr.unbound ⟨σ, Agrees.refl hr.wf σ⟩

theorem args_complete_cons {e : Expr} {es : List Expr} (he : InferComplete ctx e)
    (hes : ArgsComplete ctx es) : ArgsComplete ctx (e :: es) := by
  intro Z env ts E₀ hr σ Γ ty henv hders hroots
  cases hroots with
  | @cons _ t _ ts hroot hroots =>
  rw [inferArgs]
  have ht : t ∈ t :: ts := List.mem_cons_self
  refine RunOk.seq (he Z env t E₀ (hr.sub (List.cons_subset.2 ⟨ht, List.nil_subset _⟩)) σ Γ ty
    henv (hders e List.mem_cons_self) hroot) fun _ E₁ σ₁ hwf₁ he₁ hz₁ hA₁ => ?_
  -- the later arguments start from the pool the first one left
  have hrs : Ready ctx Z env ts E₀.pool := hr.sub (List.subset_cons_self _ _)
  refine hes Z env ts E₁ (hrs.later hwf₁ he₁ hz₁) σ₁ Γ ty
    (henv.later hr.wf hwf₁ he₁ hz₁ hA₁ hr.env_valid hr.respects)
    (fun a ha => by rw [hr.tagTypes_later hwf₁ he₁ hz₁]; exact hders a (List.mem_cons_of_mem _ ha))
    (forall₂_imp_mem_right hroots fun t' ht' a
      (h : ty.expr a.id = some ((E₀.pool.term t').subst σ)) => ?_)
  rw [h, hA₁.term hr.wf hwf₁ he₁ (hrs.valid t' ht')]

theorem match_complete {id : Nat} {sc : Expr} {pat : Pattern} {a b : Expr}
    (hsc : InferComplete ctx sc) (ha : InferComplete ctx a) (hb : InferComplete ctx b) :
    InferComplete ctx (.matchAs id sc pat a b) := by
  intro Z env t E₀ hr σ Γ ty henv hder hroot
  rw [infer]
  refine RunOk.modify_bind rfl fun E₁ hp₁ => ?_
  rw [← hp₁] at hr henv hder hroot ⊢
  cases hder with
  | @matchAs _ _ _ _ _ _ ts tn hsty _ haty hbty hidty hds hda hdb =>
  have ht := List.mem_singleton_self t
  refine RunOk.bind ((fresh_run hr.wf hr.unbound).ok (withPool_run _ _))
    fun scTy E₂ hwf₂ he₂ hz₂ ⟨_, hg₂, hscv, hsct, _⟩ => ?_
  have hr₂ := hr.later hwf₂ he₂ hz₂
  refine RunOk.bind ((fresh_run hwf₂ hr₂.unbound).ok (withPool_run _ _))
    fun slot E₃ hwf₃ he₃ hz₃ ⟨_, hg₃, hslv, hslt, _⟩ => ?_
  refine RunOk.modify_bind rfl fun E₄ hp₄ => ?_
  rw [← hp₄] at hwf₃ he₃ hz₃ hg₃ hslv hslt
  have he₁₄ : E₁.pool.Extends E₄.pool := he₂.trans he₃
  have hz₁₄ := hz₂.trans hwf₂ hwf₃ he₂ he₃ hz₃
  -- the scrutinee's variable and the pattern's slot both go to the scrutinee's type
  have hA₄ := Agrees.splice (σ := σ) hr.wf hwf₃ (hg₂.trans hg₃) fun _ => ts
  have hscv₄ : scTy.raw < E₄.pool.size := Nat.lt_of_lt_of_le hscv hg₃.size_le
  have hsct₄ : E₄.pool.term scTy = .var E₁.pool.varCount := (hg₃.term_eq hwf₂ hwf₃ hscv).trans hsct
  have hscT : (E₄.pool.term scTy).subst (Term.spliceAt E₁.pool.varCount σ fun _ => ts) = ts := by
    rw [hsct₄, Term.subst_var, Term.spliceAt_of_le (Nat.le_refl _)]
  have hslT : (E₄.pool.term slot).subst (Term.spliceAt E₁.pool.varCount σ fun _ => ts) = ts := by
    rw [hslt, Term.subst_var, Term.spliceAt_of_le hg₂.varCount_le]
  have hT₄ : (E₄.pool.term t).subst (Term.spliceAt E₁.pool.varCount σ fun _ => ts) = tn := by
    rw [hA₄.term hr.wf hwf₃ he₁₄ (hr.valid t ht)]
    exact Option.some.inj (hroot.symm.trans hidty)
  generalize Term.spliceAt E₁.pool.varCount σ (fun _ => ts) = σ₄ at hA₄ hscT hslT hT₄
  have hr₄ := hr₂.later hwf₃ he₃ hz₃
  have hscZ : ∀ w ∈ (E₄.pool.term scTy).vars, w ∉ Z := by
    rw [hsct₄]
    exact hr.unbound.avoids_var (Nat.le_refl _)
  have hslZ : ∀ w ∈ (E₄.pool.term slot).vars, w ∉ Z := by
    rw [hslt]
    exact hr.unbound.avoids_var hg₂.varCount_le
  have hr₄' : Ready ctx Z env [t, scTy] E₄.pool := hr₄.append (hr₄.single hscv₄ hscZ)
  have henv₄ := henv.later hr.wf hwf₃ he₁₄ hz₁₄ hA₄ hr.env_valid hr.respects
  have htags₄ := hr.tagTypes_later hwf₃ he₁₄ hz₁₄
  refine RunOk.carry hwf₃ he₁₄ hA₄ ?_
  refine RunOk.seq (unifyAt_ok hwf₃ hr₄.unbound hslv hscv₄ hslZ hscZ (hslT.trans hscT.symm))
    fun _ E₅ σ₅ hwf₅ he₅ hz₅ hA₅ => ?_
  -- the scrutinee and the branches, for the bindings the pattern makes, all to the scrutinee's
  -- variable
  suffices h : ∀ front : Env Scheme, (∀ e ∈ front.bindings, e.2 = Scheme.mono scTy) →
      (∀ (q : Pool) (σ' : Nat → Term), (q.term scTy).subst σ' = ts →
        EnvLe q σ' front (pat.env ts)) →
      RunOk Z (do
        infer ctx env sc scTy
        infer ctx (front.append env) a t
        infer ctx env b t) E₅ fun _ E' => ∃ σ', Agrees E₅.pool E'.pool σ₅ σ' by
    dsimp only
    unfold Pattern.env at h
    split
    · next hx =>
      refine h {} (fun e he => absurd he List.not_mem_nil) fun q σ' _ => ?_
      rw [hx]
      exact .nil
    · next x hx =>
      refine h _ (fun e he => ?_) fun q σ' hq => ?_
      · rw [Env.bindings_prepend, List.mem_cons] at he
        rcases he with rfl | he
        exacts [rfl, absurd he List.not_mem_nil]
      · rw [hx]
        exact .cons ⟨rfl, SchemeLe.mono hq⟩ .nil
  intro front hfront hle
  have hr₅ := hr₄'.later hwf₅ he₅ hz₅
  have hscv₅ := hr₅.valid scTy (by simp)
  have hrs : Ready ctx Z env [scTy] E₅.pool := hr₅.sub (by simp)
  have henv₅ := henv₄.later hwf₃ hwf₅ he₅ hz₅ hA₅ hr₄.env_valid hr₄.respects
  have htags₅ := hr₄.tagTypes_later hwf₅ he₅ hz₅
  refine RunOk.seq (hsc Z env scTy E₅ hrs σ₅ Γ ty henv₅ (by rw [htags₅, htags₄]; exact hds)
    (by rw [hsty, hA₅.term hwf₃ hwf₅ he₅ hscv₄, hscT])) fun _ E₆ σ₆ hwf₆ he₆ hz₆ hA₆ => ?_
  have hr₆ := hr₅.later hwf₆ he₆ hz₆
  have hscT₆ : (E₆.pool.term scTy).subst σ₆ = ts := by
    rw [hA₆.term hwf₅ hwf₆ he₆ hscv₅, hA₅.term hwf₃ hwf₅ he₅ hscv₄, hscT]
  have hT₆ : (E₆.pool.term t).subst σ₆ = tn := by
    rw [hA₆.term hwf₅ hwf₆ he₆ (hr₅.valid t (by simp)), hA₅.term hwf₃ hwf₅ he₅ (hr₄.valid t ht), hT₄]
  have hra : Ready ctx Z (front.append env) [t] E₆.pool := by
    refine (hr₆.front (fun e he => ?_) fun e he => ?_).sub (by simp)
    · rw [hfront e he]
      exact hr₆.valid scTy (by simp)
    · rw [hfront e he]
      exact ⟨fun v hv => absurd hv List.not_mem_nil, fun w hw _ => hr₆.avoids scTy (by simp) w hw⟩
  have henv₆ := henv₅.later hwf₅ hwf₆ he₆ hz₆ hA₆ hr₅.env_valid hr₅.respects
  have htags₆ := hr₅.tagTypes_later hwf₆ he₆ hz₆
  refine RunOk.seq (ha Z _ t E₆ hra σ₆ _ ty ((hle _ _ hscT₆).append henv₆)
    (by rw [htags₆, htags₅, htags₄]; exact hda) (by rw [haty, hT₆]))
    fun _ E₇ σ₇ hwf₇ he₇ hz₇ hA₇ => ?_
  have hrt₆ : Ready ctx Z env [t] E₆.pool := hr₆.sub (by simp)
  exact hb.later hrt₆ ht hwf₇ he₇ hz₇ hA₇ henv₆ (by rw [htags₆, htags₅, htags₄]; exact hdb)
    (by rw [hbty, hT₆])

theorem let_complete {id : Nat} {x : String} {v b : Expr} (hv : InferComplete ctx v)
    (hb : InferComplete ctx b) : InferComplete ctx (.letIn id x v b) := by
  intro Z env t E₀ hr σ Γ ty henv hder hroot
  rw [infer]
  refine RunOk.modify_bind rfl fun E₁ hp₁ => ?_
  rw [← hp₁] at hr henv hder hroot ⊢
  cases hder with
  | @letIn _ _ _ _ _ tv tn Q hvty hbty hidty hQ hdv hdb =>
  have ht := List.mem_singleton_self t
  refine RunOk.bind ((fresh_run hr.wf hr.unbound).ok (withPool_run _ _))
    fun vTy E₂ hwf₂ he₂ hz₂ hE₂ => ?_
  obtain ⟨_, hg₂, hvv, hvt, hvc₂⟩ := hE₂
  have hr₂ := hr.later hwf₂ he₂ hz₂
  -- the value's variable goes to the value's type
  have hA₂ := Agrees.splice (σ := σ) hr.wf hwf₂ hg₂ fun _ => tv
  have hvT : (E₂.pool.term vTy).subst (Term.spliceAt E₁.pool.varCount σ fun _ => tv) = tv := by
    rw [hvt, Term.subst_var, Term.spliceAt_of_le (Nat.le_refl _)]
  have hT₂ : (E₂.pool.term t).subst (Term.spliceAt E₁.pool.varCount σ fun _ => tv) = tn := by
    rw [hA₂.term hr.wf hwf₂ he₂ (hr.valid t ht)]
    exact Option.some.inj (hroot.symm.trans hidty)
  generalize Term.spliceAt E₁.pool.varCount σ (fun _ => tv) = σ₂ at hA₂ hvT hT₂
  have hrv : Ready ctx Z env [vTy] E₂.pool :=
    hr₂.single hvv (by rw [hvt]; exact hr.unbound.avoids_var (Nat.le_refl _))
  have henv₂ := henv.later hr.wf hwf₂ he₂ hz₂ hA₂ hr.env_valid hr.respects
  refine RunOk.carry hwf₂ he₂ hA₂ ?_
  -- the value, with what soundness says of the run: it is confined, so what generalization
  -- quantifies is new
  refine RunOk.bind ((hv Z env vTy E₂ hrv σ₂ Γ ty henv₂ (by rwa [hr.tagTypes_later hwf₂ he₂ hz₂])
    (by rw [hvty, hvT])).and_run (infer_sound ctx v Z env vTy E₂ hrv))
    fun _ E₃ hwf₃ he₃ hz₃ hE₃ => ?_
  obtain ⟨⟨σ₃, hA₃⟩, newv, Qv, hdone, _, _⟩ := hE₃
  refine RunOk.bind ((generalize_run hwf₃ (hr₂.later hwf₃ he₃ hz₃).unbound).ok rfl)
    fun S E₃' _ _ _ hE₃' => ?_
  obtain ⟨hE, hS⟩ := hE₃'
  subst E₃' S
  obtain ⟨Qg, hQgm⟩ : ∃ Qg : Set Nat, ∀ w, w ∈ Qg ↔ w ∈ (E₃.pool.generalize env vTy).bounded :=
    ⟨{w | w ∈ (E₃.pool.generalize env vTy).bounded}, fun _ => Iff.rfl⟩
  obtain ⟨-, -, -, hrb⟩ := hr.letBody x hwf₂ hg₂ hvv hvt hvc₂ hwf₃ he₃ hz₃ hdone hQgm
  -- the generalized scheme is at least as general as the one the derivation binds
  have henv₃ := henv₂.later hwf₂ hwf₃ he₃ hz₃ hA₃ hr₂.env_valid hr₂.respects
  have hvT₃ : (E₃.pool.term vTy).subst σ₃ = tv := (hA₃.term hwf₂ hwf₃ he₃ hvv).trans hvT
  have hgen : SchemeLe E₃.pool σ₃ (E₃.pool.generalize env vTy) ⟨Q, tv⟩ := by
    have h := SchemeLe.generalize hwf₃ henv₃ vTy (Q := Q) (by rw [hvT₃]; exact hQ)
    rwa [hvT₃] at h
  have htags₃ := hr.tagTypes_later hwf₃ (he₂.trans he₃) (hz₂.trans hwf₂ hwf₃ he₂ he₃ hz₃)
  refine RunOk.carry hwf₃ he₃ hA₃ ?_
  exact (hb _ _ t E₃ hrb σ₃ _ ty (henv₃.prepend x hgen) (by rw [htags₃]; exact hdb)
    (by rw [hbty, hA₃.term hwf₂ hwf₃ he₃ (hr₂.valid t ht), hT₂])).frozen_mono
    fun z hz => Or.inl (Or.inl hz)

end Completeness

mutual
/-- Inference is complete for every expression: from a ready pool whose types are, under some
substitution, those of a derivation, it succeeds, and the substitution carries over. -/
theorem infer_complete (ctx : Context) : ∀ e : Expr, InferComplete ctx e
  | .lit id l => lit_complete id l
  | .tag _ _ args => tag_complete (inferArgs_complete ctx args)
  | .var id name => var_complete id name
  | .lam _ _ _ body => lam_complete (infer_complete ctx body)
  | .app _ f a => app_complete (infer_complete ctx f) (infer_complete ctx a)
  | .ite _ c a b => ite_complete (infer_complete ctx c) (infer_complete ctx a) (infer_complete ctx b)
  | .matchAs _ sc _ a b =>
    match_complete (infer_complete ctx sc) (infer_complete ctx a) (infer_complete ctx b)
  | .letIn _ _ v b => let_complete (infer_complete ctx v) (infer_complete ctx b)

/-- Inference of the arguments of a construction is complete. -/
theorem inferArgs_complete (ctx : Context) : ∀ args : List Expr, ArgsComplete ctx args
  | [] => args_complete_nil
  | e :: es => args_complete_cons (infer_complete ctx e) (inferArgs_complete ctx es)
end

end TagML
