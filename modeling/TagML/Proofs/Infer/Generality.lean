import TagML.Proofs.Infer.Sound
import TagML.Proofs.MostGeneral

/-!
Inference measured against a declarative typing.

A derivation fixes a type for every node, while inference builds handles whose meaning every
later unification refines.  The two meet through a substitution `σ` of the pool's unbound
variables: the derivation's types are what the pool's types become under `σ`.  A run refines
the pool, and the substitution can be refined along with it (`Agrees`): every variable of the
old pool, read in the new pool and then under the new substitution, is what the old
substitution made it.  The environment inference works in is at least as general as the
derivation's (`EnvLe`): every instance of a declarative scheme is an instance of the pool's
scheme, and what `σ` makes of a free variable of the pool's schemes is free in the declarative
environment, which is what lets generalization quantify all that the `let` rule quantifies.

`RunOk` is `Run` with failure ruled out; a unification of two types with a common instance is
one (`unifyAt_ok`).
-/
namespace TagML

open Pool InferM

/-- The substitution that is `σ` below `n` and `τ` from `n` on: how a substitution of a pool's
variables is extended to the variables allocated after it. -/
def Term.spliceAt (n : Nat) (σ τ : Nat → Term) (v : Nat) : Term := if v < n then σ v else τ v

namespace Term

variable {n v : Nat} {σ τ : Nat → Term}

theorem spliceAt_of_lt (h : v < n) : spliceAt n σ τ v = σ v := if_pos h

theorem spliceAt_of_le (h : n ≤ v) : spliceAt n σ τ v = τ v := if_neg (Nat.not_lt_of_le h)

theorem subst_spliceAt_of_lt {t : Term} (h : ∀ w ∈ t.vars, w < n) :
    t.subst (spliceAt n σ τ) = t.subst σ :=
  subst_congr _ fun w hw => spliceAt_of_lt (h w hw)

theorem subst_spliceAt_of_le {t : Term} (h : ∀ w ∈ t.vars, n ≤ w) :
    t.subst (spliceAt n σ τ) = t.subst τ :=
  subst_congr _ fun w hw => spliceAt_of_le (h w hw)

end Term

namespace Pool

variable {p q r : Pool} {σ σ' σ'' : Nat → Term} {Z : Set Nat}

/-- Read in `q` and then under `σ'`, every variable unbound in `p` is what `σ` made it. -/
def Agrees (p q : Pool) (σ σ' : Nat → Term) : Prop :=
  ∀ v < p.varCount, p.target? v = none → (q.binding v).subst σ' = σ v

theorem Agrees.refl (hp : p.WF) (σ : Nat → Term) : Agrees p p σ σ := fun v _ hv => by
  rw [binding_of_unbound hp hv, Term.subst_var]

/-- Along a pool that only grew, a substitution that keeps `σ` on the old variables agrees. -/
theorem Agrees.of_grows (hp : p.WF) (hq : q.WF) (hg : p.Grows q)
    (hσ : ∀ v < p.varCount, σ' v = σ v) : Agrees p q σ σ' := fun v hv hun => by
  rw [hg.binding_eq hp hq hv, binding_of_unbound hp hun, Term.subst_var, hσ v hv]

/-- Along a pool that only grew, `σ` agrees with itself extended to the new variables. -/
theorem Agrees.splice (hp : p.WF) (hq : q.WF) (hg : p.Grows q) (τ : Nat → Term) :
    Agrees p q σ (Term.spliceAt p.varCount σ τ) :=
  of_grows hp hq hg fun _ hv => Term.spliceAt_of_lt hv

/-- What a handle stood for in `p` under `σ`, it stands for in `q` under `σ'`. -/
theorem Agrees.term (hp : p.WF) (hq : q.WF) (he : p.Extends q) (h : Agrees p q σ σ')
    {i : Idx} (hi : i.raw < p.size) : (q.term i).subst σ' = (p.term i).subst σ := by
  rw [he.term_eq_subst hp hq hi, Term.subst_subst]
  exact Term.subst_congr _ fun v hv =>
    h v (lt_varCount_of_mem_vars_term hp hi hv) (target?_of_mem_vars_term hp hv)

theorem Agrees.trans (hq : q.WF) (hr : r.WF) (he₁ : p.Extends q)
    (he₂ : q.Extends r) (h₁ : Agrees p q σ σ') (h₂ : Agrees q r σ' σ'') : Agrees p r σ σ'' := by
  intro v hv hun
  rw [he₂.binding_eq_subst hq hr v, Term.subst_subst, ← h₁ v hv hun]
  -- what `v` stands for in `q` mentions only variables unbound there
  refine Term.subst_congr _ fun w hw => h₂ w ?_ (target?_of_mem_vars_binding hq hw)
  exact lt_varCount_of_mem_vars_binding hq (Nat.lt_of_lt_of_le hv he₁.varCount_le) hw

/-- The pool's scheme `a`, read under `σ`, is at least as general as the declarative scheme
`s`: every instance of `s` is `a`'s body with its quantified variables instantiated and the
others read under `σ`, and what `σ` makes of a free variable of `a` is free in `s`. -/
structure SchemeLe (p : Pool) (σ : Nat → Term) (a : Scheme) (s : TermScheme) : Prop where
  covers : ∀ t, s.Instance t →
    ∃ θ : Nat → Term, t = (p.term a.body).subst fun v => if v ∈ a.bounded then θ v else σ v
  free : ∀ v ∈ (p.term a.body).vars, v ∉ a.bounded → ∀ w ∈ (σ v).vars, w ∈ s.free

/-- The bindings of `env` and `Γ` pair up, name for name, each pool scheme at least as general
as its declarative one. -/
def EnvLe (p : Pool) (σ : Nat → Term) (env : Env Scheme) (Γ : Env TermScheme) : Prop :=
  List.Forall₂ (fun a d => a.1 = d.1 ∧ SchemeLe p σ a.2 d.2) env.bindings Γ.bindings

variable {env : Env Scheme} {Γ : Env TermScheme}

/-- A name bound in `Γ` is bound in `env`, to a scheme at least as general. -/
theorem EnvLe.lookup (h : EnvLe p σ env Γ) {x : String} {s : TermScheme}
    (hs : Γ.lookup x = some s) : ∃ a, env.lookup x = some a ∧ SchemeLe p σ a s := by
  obtain ⟨bs⟩ := env
  obtain ⟨ds⟩ := Γ
  simp only [EnvLe, Env.lookup] at h hs ⊢
  induction h with
  | nil => simp at hs
  | @cons b d bs ds hbd _ ih =>
    -- the two heads carry the same name, so the searches stop at the same place
    by_cases hx : d.1 = x
    · simp only [List.find?_cons, hbd.1, hx, beq_self_eq_true, Option.map_some,
        Option.some.injEq] at hs ⊢
      exact ⟨b.2, rfl, hs ▸ hbd.2⟩
    · simp only [List.find?_cons, hbd.1, beq_false_of_ne hx] at hs ⊢
      exact ih hs

theorem forall₂_imp_mem {α β : Type} {R S : α → β → Prop} :
    ∀ {l₁ : List α} {l₂ : List β}, List.Forall₂ R l₁ l₂ → (∀ a ∈ l₁, ∀ b, R a b → S a b) →
      List.Forall₂ S l₁ l₂
  | _, _, .nil, _ => .nil
  | _, _, .cons hab h, hS => .cons (hS _ List.mem_cons_self _ hab)
    (forall₂_imp_mem h fun a ha => hS a (List.mem_cons_of_mem _ ha))

theorem forall₂_imp_mem_right {α β : Type} {R S : α → β → Prop} :
    ∀ {l₁ : List α} {l₂ : List β}, List.Forall₂ R l₁ l₂ → (∀ b ∈ l₂, ∀ a, R a b → S a b) →
      List.Forall₂ S l₁ l₂
  | _, _, .nil, _ => .nil
  | _, _, .cons hab h, hS => .cons (hS _ List.mem_cons_self _ hab)
    (forall₂_imp_mem_right h fun b hb => hS b (List.mem_cons_of_mem _ hb))

theorem forall₂_exists_right {α β : Type} {R : α → β → Prop} :
    ∀ {l₁ : List α} {l₂ : List β}, List.Forall₂ R l₁ l₂ → ∀ a ∈ l₁, ∃ b ∈ l₂, R a b
  | _, _, .nil, _, ha => absurd ha List.not_mem_nil
  | _, _, .cons hab h, a, ha => by
    rcases List.mem_cons.1 ha with rfl | ha
    · exact ⟨_, List.mem_cons_self, hab⟩
    · obtain ⟨b, hb, hab'⟩ := forall₂_exists_right h a ha
      exact ⟨b, List.mem_cons_of_mem _ hb, hab'⟩

/-- What `σ` makes of a free variable of the pool's environment is free in `Γ`. -/
theorem EnvLe.free (h : EnvLe p σ env Γ) {v : Nat} (hv : v ∈ (p.envType env).free) :
    ∀ w ∈ (σ v).vars, w ∈ Γ.free := by
  obtain ⟨b, hb, hvb, hvnb⟩ := mem_envType_free.1 hv
  obtain ⟨d, hd, -, hbd⟩ := forall₂_exists_right h b hb
  exact fun w hw => ⟨d, hd, hbd.free v hvb hvnb w hw⟩

theorem EnvLe.prepend (h : EnvLe p σ env Γ) (x : String) {a : Scheme} {s : TermScheme}
    (ha : SchemeLe p σ a s) : EnvLe p σ (env.prepend x a) (Γ.prepend x s) :=
  .cons ⟨rfl, ha⟩ h

theorem EnvLe.append {front : Env Scheme} {Γf : Env TermScheme} (hf : EnvLe p σ front Γf)
    (h : EnvLe p σ env Γ) : EnvLe p σ (front.append env) (Γf.append Γ) := by
  rw [EnvLe, Env.bindings_append, Env.bindings_append]
  exact List.rel_append hf h

/-- A scheme is at least as general as itself written out, under a substitution that fixes
its free variables. -/
theorem SchemeLe.self (a : Scheme) (hσ : ∀ v ∈ (p.schemeType a).free, σ v = .var v) :
    SchemeLe p σ a (p.schemeType a) where
  covers t := by
    rintro ⟨θ, hθ, rfl⟩
    refine ⟨θ, Term.subst_congr _ fun v hv => ?_⟩
    by_cases hvb : v ∈ a.bounded
    · exact (if_pos hvb).symm
    · rw [if_neg hvb, hθ v hvb, hσ v ⟨hv, hvb⟩]
  free v hv hvb w hw := by
    rw [hσ v ⟨hv, hvb⟩, Term.mem_vars_var] at hw
    exact hw ▸ ⟨hv, hvb⟩

/-- An environment is at least as general as itself written out, under a substitution that
fixes its free variables. -/
theorem EnvLe.self (hσ : ∀ v ∈ (p.envType env).free, σ v = .var v) :
    EnvLe p σ env (p.envType env) :=
  List.forall₂_map_right_iff.2 (List.forall₂_same.2 fun b hb =>
    ⟨rfl, SchemeLe.self b.2 fun v hv => hσ v (mem_envType_free.2 ⟨b, hb, hv.1, hv.2⟩)⟩)

/-- A handle standing under `σ` for `T`, unquantified, is at least as general as `T`
unquantified. -/
theorem SchemeLe.mono {t : Idx} {T : Term} (h : (p.term t).subst σ = T) :
    SchemeLe p σ (Scheme.mono t) ⟨[], T⟩ where
  covers u := by
    rintro ⟨θ, hθ, rfl⟩
    refine ⟨θ, ?_⟩
    -- nothing is quantified, so the only instance is `T` itself
    have hT : T.subst θ = T := by
      conv_rhs => rw [← Term.subst_var_self T]
      exact Term.subst_congr _ fun v _ => hθ v List.not_mem_nil
    rw [hT, ← h]
    exact Term.subst_congr _ fun v _ => (if_neg List.not_mem_nil).symm
  free v hv _ w hw := by
    refine ⟨?_, List.not_mem_nil⟩
    rw [← h, Term.mem_vars_subst]
    exact ⟨v, hv, hw⟩

/-- Read in a later pool that keeps the scheme's quantified variables frozen, and under an
agreeing substitution, a scheme stays at least as general. -/
theorem SchemeLe.later (hp : p.WF) (hq : q.WF) (he : p.Extends q) (hF : Frozen Z p q)
    (hA : Agrees p q σ σ') {a : Scheme} {s : TermScheme} (ha : a.body.raw < p.size)
    (hb : ∀ v ∈ a.bounded, v ∈ Z) (hf : ∀ w ∈ (p.term a.body).vars, w ∉ a.bounded → w ∉ Z)
    (h : SchemeLe p σ a s) : SchemeLe q σ' a s where
  covers t ht := by
    obtain ⟨θ, rfl⟩ := h.covers t ht
    refine ⟨θ, ?_⟩
    rw [he.term_eq_subst hp hq ha, Term.subst_subst]
    refine Term.subst_congr _ fun u hu => ?_
    have hu₁ := lt_varCount_of_mem_vars_term hp ha hu
    have hu₂ := target?_of_mem_vars_term hp hu
    by_cases hub : u ∈ a.bounded
    · -- a quantified variable is frozen, so it stands for itself
      rw [if_pos hub, binding_of_unbound hq (hF.unbound u (hb u hub)), Term.subst_var,
        if_pos hub]
    · -- any other one stands for a type that mentions no quantified variable
      rw [if_neg hub, ← hA u hu₁ hu₂]
      refine Term.subst_congr _ fun w hw => ?_
      have hwb : w ∉ a.bounded := fun hwb => hF.avoids u hu₁ hu₂ (hf u hu hub) w hw (hb w hwb)
      rw [if_neg hwb]
  free v hv hvb w hw := by
    rw [he.term_eq_subst hp hq ha, Term.mem_vars_subst] at hv
    obtain ⟨u, hu, hvu⟩ := hv
    have hub : u ∉ a.bounded := by
      intro hub
      rw [binding_of_unbound hq (hF.unbound u (hb u hub)), Term.mem_vars_var] at hvu
      exact hvb (hvu ▸ hub)
    refine h.free u hu hub w ?_
    rw [← hA u (lt_varCount_of_mem_vars_term hp ha hu) (target?_of_mem_vars_term hp hu),
      Term.mem_vars_subst]
    exact ⟨v, hvu, hw⟩

/-- Read in a later pool that keeps the environment's quantified variables frozen, and under
an agreeing substitution, an environment stays at least as general. -/
theorem EnvLe.later (hp : p.WF) (hq : q.WF) (he : p.Extends q) (hF : Frozen Z p q)
    (hA : Agrees p q σ σ') (hv : p.ValidEnv env) (hr : p.Respects Z env)
    (h : EnvLe p σ env Γ) : EnvLe q σ' env Γ :=
  forall₂_imp_mem h fun b hb _ hbd =>
    ⟨hbd.1, hbd.2.later hp hq he hF hA (hv b hb) (hr b hb).1 (hr b hb).2⟩

theorem mem_free_of_not_mem_generalize (hp : p.WF) {t : Idx} {v : Nat}
    (hv : v ∈ (p.term t).vars) (hvb : v ∉ (p.generalize env t).bounded) :
    v ∈ (p.envType env).free := by
  by_contra hn
  exact hvb ((mem_generalize hp env t).2 ⟨hv, hn⟩)

/-- Generalizing a handle that stands under `σ` for `T`, against an environment at least as
general as `Γ`, gives a scheme at least as general as `T` with the variables quantified that
are free nowhere in `Γ`. -/
theorem SchemeLe.generalize (hp : p.WF) (henv : EnvLe p σ env Γ) (t : Idx) {Q : List Nat}
    (hQ : ∀ w ∈ ((p.term t).subst σ).vars, w ∈ Q ↔ w ∉ Γ.free) :
    SchemeLe p σ (p.generalize env t) ⟨Q, (p.term t).subst σ⟩ := by
  -- a variable left free is free in the environment, so `σ` makes it a type free in `Γ`,
  -- whose variables the let does not quantify
  have hkeep : ∀ v ∈ (p.term t).vars, v ∉ (p.generalize env t).bounded →
      ∀ w ∈ (σ v).vars, w ∈ ((p.term t).subst σ).vars ∧ w ∉ Q := by
    intro v hv hvb w hw
    have hwT : w ∈ ((p.term t).subst σ).vars := (Term.mem_vars_subst σ _).2 ⟨v, hv, hw⟩
    exact ⟨hwT, fun hwQ => (hQ w hwT).1 hwQ
      (henv.free (mem_free_of_not_mem_generalize hp hv hvb) w hw)⟩
  refine ⟨?_, hkeep⟩
  rintro u ⟨θ, hθ, rfl⟩
  refine ⟨fun v => (σ v).subst θ, ?_⟩
  rw [Term.subst_subst]
  refine Term.subst_congr _ fun v hv => ?_
  split
  · rfl
  · next hvb =>
    conv_rhs => rw [← Term.subst_var_self (σ v)]
    exact Term.subst_congr _ fun w hw => hθ w (hkeep v hv hvb w hw).2

end Pool

/-- The tags read the same in every later pool that keeps frozen what they quantify. -/
theorem Ready.tagTypes_later {ctx : Context} {Z : Set Nat} {env : Env Scheme} {hs : List Idx}
    {p q : Pool} (hr : Ready ctx Z env hs p) (hq : q.WF) (he : p.Extends q) (hF : Frozen Z p q) :
    ctx.tagTypes q = ctx.tagTypes p := by
  funext name
  unfold Context.tagTypes
  cases hl : ctx.lookupTag name with
  | none => rfl
  | some sig =>
    have hmem := Env.mem_of_lookup hl
    obtain ⟨hav, hresv⟩ := hr.tags_valid _ hmem
    obtain ⟨hbZ, hargvars, hresvars⟩ := hr.tags_closed _ hmem
    -- the signature's types mention only quantified, hence frozen, variables
    have hsame : ∀ a : Idx, a.raw < p.size → (∀ w ∈ (p.term a).vars, w ∈ sig.bounded) →
        q.term a = p.term a :=
      fun a ha haw => hF.term_eq hr.wf hq he ha fun w hw => hbZ w (haw w hw)
    simp only [Option.map_some, Pool.tagType, hsame _ hresv hresvars,
      List.map_congr_left fun a ha => hsame a (hav a ha) (hargvars a ha)]

mutual
/-- Every type an annotation admits is an instance of the annotation as resolved. -/
theorem TypeExpr.resolve_covers {p : Pool} (h : p.WF) :
    ∀ (t : TypeExpr) {P : Term}, t.Admits P →
      ∃ θ : Nat → Term, ((t.resolve {} p).2.term (t.resolve {} p).1).subst θ = P
  | .prim q, _, hP => by
    simp only [TypeExpr.resolve]
    rw [h.term_prim q]
    exact ⟨Term.var, hP.symm⟩
  | .infer, P, _ => by
    simp only [TypeExpr.resolve]
    rw [fresh_term h]
    exact ⟨fun _ => P, rfl⟩
  | .fn a r, _, hP => by
    obtain ⟨Pa, Pr, rfl, ha, hr⟩ := hP
    have hnil : ∀ b ∈ ({} : Env Idx).bindings, b.2.raw < p.size :=
      fun _ hb => absurd hb List.not_mem_nil
    simp only [TypeExpr.resolve]
    obtain ⟨h₁, hg₁, ha'⟩ := TypeExpr.resolve_spec h hnil a
    obtain ⟨θa, hθa⟩ := TypeExpr.resolve_covers h a ha
    generalize a.resolve {} p = ra at h₁ hg₁ ha' hθa ⊢
    obtain ⟨a', p₁⟩ := ra
    obtain ⟨h₂, hg₂, hr'⟩ := @TypeExpr.resolve_spec {} _ h₁ (fun _ hb => absurd hb List.not_mem_nil) r
    obtain ⟨-, hrv⟩ := TypeExpr.resolve_admits h₁ r
    obtain ⟨θr, hθr⟩ := TypeExpr.resolve_covers h₁ r hr
    generalize r.resolve {} p₁ = rr at h₂ hg₂ hr' hrv hθr ⊢
    obtain ⟨r', p₂⟩ := rr
    dsimp only at *
    rw [fn_term h₂ (Nat.lt_of_lt_of_le ha' hg₂.size_le) hr', hg₂.term_eq h₁ h₂ ha']
    -- the parameter's variables are older than the result's, so one substitution does both
    refine ⟨Term.spliceAt p₁.varCount θa θr, ?_⟩
    rw [Term.subst_fn, Term.subst_spliceAt_of_lt fun w hw => lt_varCount_of_mem_vars_term h₁ ha' hw,
      Term.subst_spliceAt_of_le hrv, hθa, hθr]
  | .named n args, _, hP => by
    obtain ⟨ts, rfl, hts⟩ := hP
    simp only [TypeExpr.resolve]
    have hlk : ({} : Env Idx).lookup n = none := rfl
    rw [hlk]
    obtain ⟨h₁, -, hargs⟩ := @TypeExpr.resolveList_spec {} _ h (fun _ hb => absurd hb List.not_mem_nil) args
    obtain ⟨θ, hθ⟩ := TypeExpr.resolveList_covers h args hts
    generalize TypeExpr.resolveList {} p args = rl at h₁ hargs hθ ⊢
    obtain ⟨args', p₁⟩ := rl
    dsimp only at *
    split
    · next hlv => cases hlv
    rw [user_term h₁ n hargs]
    exact ⟨θ, by rw [Term.subst_user, List.map_map, ← hθ, List.map_map]⟩

theorem TypeExpr.resolveList_covers {p : Pool} (h : p.WF) :
    ∀ (ts : List TypeExpr) {Ps : List Term}, TypeExpr.AdmitsList ts Ps →
      ∃ θ : Nat → Term, ((TypeExpr.resolveList {} p ts).1.map
        (TypeExpr.resolveList {} p ts).2.term).map (Term.subst θ) = Ps
  | [], [], _ => ⟨Term.var, rfl⟩
  | t :: ts, P :: Ps, ⟨ht, hts⟩ => by
    simp only [TypeExpr.resolveList]
    obtain ⟨h₁, hg₁, ht'⟩ := @TypeExpr.resolve_spec {} _ h (fun _ hb => absurd hb List.not_mem_nil) t
    obtain ⟨θt, hθt⟩ := TypeExpr.resolve_covers h t ht
    generalize t.resolve {} p = rt at h₁ hg₁ ht' hθt ⊢
    obtain ⟨t', p₁⟩ := rt
    obtain ⟨h₂, hg₂, -⟩ := @TypeExpr.resolveList_spec {} _ h₁ (fun _ hb => absurd hb List.not_mem_nil) ts
    obtain ⟨-, hsv⟩ := TypeExpr.resolveList_admits h₁ ts
    obtain ⟨θs, hθs⟩ := TypeExpr.resolveList_covers h₁ ts hts
    generalize TypeExpr.resolveList {} p₁ ts = rs at h₂ hg₂ hsv hθs ⊢
    obtain ⟨ts', p₂⟩ := rs
    dsimp only at *
    -- the first type's variables are older than those of the rest
    refine ⟨Term.spliceAt p₁.varCount θt θs, ?_⟩
    rw [List.map_cons, List.map_cons, hg₂.term_eq h₁ h₂ ht',
      Term.subst_spliceAt_of_lt fun w hw => lt_varCount_of_mem_vars_term h₁ ht' hw, hθt, ← hθs,
      List.map_map, List.map_map]
    exact congrArg _ (List.map_congr_left fun a ha => Term.subst_spliceAt_of_le (hsv a ha))
end

namespace InferM

variable {α β : Type} {Z : Set Nat}

/-- Running `x` from `e` succeeds, keeps the pool well formed, extends it and keeps `Z`
frozen, and ends in a value and an engine satisfying `Q`. -/
def RunOk (Z : Set Nat) (x : InferM α) (e : Engine) (Q : α → Engine → Prop) : Prop :=
  match x.run e with
  | .ok a e' => e'.pool.WF ∧ e.pool.Extends e'.pool ∧ Frozen Z e.pool e'.pool ∧ Q a e'
  | .error _ _ => False

namespace RunOk

variable {x : InferM α} {e : Engine} {Q Q' : α → Engine → Prop}

theorem exists_ok (h : RunOk Z x e Q) : ∃ a e', x.run e = .ok a e' ∧ Q a e' := by
  unfold RunOk at h
  revert h
  cases x.run e with
  | ok a e' => exact fun h => ⟨a, e', rfl, h.2.2.2⟩
  | error _ _ => exact False.elim

theorem imp (h : RunOk Z x e Q) (hQ : ∀ a e', e'.pool.WF → e.pool.Extends e'.pool →
    Frozen Z e.pool e'.pool → Q a e' → Q' a e') : RunOk Z x e Q' := by
  unfold RunOk at h ⊢
  revert h
  cases x.run e with
  | ok a e' => exact fun ⟨h₁, h₂, h₃, h₄⟩ => ⟨h₁, h₂, h₃, hQ a e' h₁ h₂ h₃ h₄⟩
  | error _ _ => exact id

theorem frozen_mono {Z' : Set Nat} (h : RunOk Z' x e Q) (hZ : Z ⊆ Z') : RunOk Z x e Q := by
  unfold RunOk at h ⊢
  revert h
  cases x.run e with
  | ok a e' => exact fun ⟨h₁, h₂, h₃, h₄⟩ => ⟨h₁, h₂, h₃.mono h₁ hZ, h₄⟩
  | error _ _ => exact id

/-- A success also has what every run of `x` guarantees. -/
theorem and_run {Z' : Set Nat} (h : RunOk Z x e Q) (h' : Run Z' x e Q') :
    RunOk Z x e fun a e' => Q a e' ∧ Q' a e' := by
  unfold RunOk at h ⊢
  unfold Run at h'
  revert h h'
  cases x.run e with
  | ok a e' => exact fun ⟨h₁, h₂, h₃, h₄⟩ ⟨_, _, _, h₄'⟩ => ⟨h₁, h₂, h₃, h₄, h₄'⟩
  | error _ _ => exact fun h => h.elim

protected theorem bind {f : α → InferM β} {Q₁ : α → Engine → Prop} {R : β → Engine → Prop}
    (hx : RunOk Z x e Q₁)
    (hf : ∀ a e₁, e₁.pool.WF → e.pool.Extends e₁.pool → Frozen Z e.pool e₁.pool → Q₁ a e₁ →
      RunOk Z (f a) e₁ R) :
    RunOk Z (x >>= f) e R := by
  unfold RunOk at hx ⊢
  rw [run_bind]
  revert hx
  cases x.run e with
  | error _ _ => exact False.elim
  | ok a e₁ =>
    rintro ⟨hwf₁, he₁, hz₁, hQ₁⟩
    have h₂ := hf a e₁ hwf₁ he₁ hz₁ hQ₁
    unfold RunOk at h₂
    dsimp only
    revert h₂
    cases (f a).run e₁ with
    | ok b e₂ =>
      exact fun ⟨hwf₂, he₂, hz₂, hR⟩ =>
        ⟨hwf₂, he₁.trans he₂, hz₁.trans hwf₁ hwf₂ he₁ he₂ hz₂, hR⟩
    | error _ _ => exact False.elim

protected theorem pure {a : α} (hwf : e.pool.WF) (hZ : e.pool.Unbound Z) (hQ : Q a e) :
    RunOk Z (pure a) e Q :=
  ⟨hwf, Extends.refl _, Frozen.refl hwf hZ.target?, hQ⟩

/-- A step that records in the tables leaves the pool as it was, so the rest runs from it. -/
theorem modify_bind {g : Engine → Engine} {f : PUnit → InferM β} {R : β → Engine → Prop}
    (hg : (g e).pool = e.pool) (h : ∀ e₁ : Engine, e₁.pool = e.pool → RunOk Z (f ()) e₁ R) :
    RunOk Z (modify g >>= f) e R := by
  have h₁ := h (g e) hg
  unfold RunOk at h₁ ⊢
  rw [run_bind]
  rw [hg] at h₁
  exact h₁

/-- A run that carries `σ₁` over from a pool agreeing with an earlier one under `σ` carries
`σ` over from the earlier pool. -/
theorem carry {p : Pool} {σ σ₁ : Nat → Term} (hq : e.pool.WF) (he : p.Extends e.pool)
    (hA : Agrees p e.pool σ σ₁) (h : RunOk Z x e fun _ e' => ∃ σ', Agrees e.pool e'.pool σ₁ σ') :
    RunOk Z x e fun _ e' => ∃ σ', Agrees p e'.pool σ σ' :=
  h.imp fun _ _ hwf' he' _ ⟨σ', hA'⟩ => ⟨σ', hA.trans hq hwf' he he' hA'⟩

/-- Two runs in sequence that each carry the substitution over carry it over. -/
theorem seq {f : α → InferM β} {σ : Nat → Term}
    (hx : RunOk Z x e fun _ e₁ => ∃ σ₁, Agrees e.pool e₁.pool σ σ₁)
    (hf : ∀ a e₁ σ₁, e₁.pool.WF → e.pool.Extends e₁.pool → Frozen Z e.pool e₁.pool →
      Agrees e.pool e₁.pool σ σ₁ → RunOk Z (f a) e₁ fun _ e₂ => ∃ σ₂, Agrees e₁.pool e₂.pool σ₁ σ₂) :
    RunOk Z (x >>= f) e fun _ e₂ => ∃ σ₂, Agrees e.pool e₂.pool σ σ₂ :=
  hx.bind fun a e₁ hwf₁ he₁ hz₁ ⟨σ₁, hA₁⟩ => (hf a e₁ σ₁ hwf₁ he₁ hz₁ hA₁).carry hwf₁ he₁ hA₁

end RunOk

/-- A run that cannot fail succeeds. -/
theorem Run.ok {x : InferM α} {e : Engine} {Q : α → Engine → Prop} {a : α} {e' : Engine}
    (h : Run Z x e Q) (hx : x.run e = .ok a e') : RunOk Z x e Q := by
  unfold Run at h
  unfold RunOk
  rw [hx] at h ⊢
  exact h

variable {e : Engine}

/-- A resolved annotation stands for a type of new variables of which every type the annotation
admits is an instance. -/
theorem resolveType_ok (hwf : e.pool.WF) (hZ : e.pool.Unbound Z) (ann : TypeExpr) :
    RunOk Z (resolveType ann) e fun t e' => e.pool.Grows e'.pool ∧ t.raw < e'.pool.size ∧
      (∀ w ∈ (e'.pool.term t).vars, e.pool.varCount ≤ w) ∧
      ∀ P, ann.Admits P → ∃ θ : Nat → Term, (e'.pool.term t).subst θ = P := by
  obtain ⟨h₁, hg, ht⟩ := @TypeExpr.resolve_spec {} _ hwf (fun _ hb => absurd hb List.not_mem_nil) ann
  exact (Run.withPool_grows hwf hZ h₁ hg ⟨hg, ht, (TypeExpr.resolve_admits hwf ann).2,
    fun _ hP => TypeExpr.resolve_covers hwf ann hP⟩).ok (withPool_run _ _)

/-- A unification of two types with a common instance under `σ` succeeds, and the
substitution carries over to the new pool. -/
theorem unifyAt_ok (hwf : e.pool.WF) (hZ : e.pool.Unbound Z) {a b : Idx} {id : Nat}
    (ha : a.raw < e.pool.size) (hb : b.raw < e.pool.size)
    (hza : ∀ w ∈ (e.pool.term a).vars, w ∉ Z) (hzb : ∀ w ∈ (e.pool.term b).vars, w ∉ Z)
    {σ : Nat → Term} (hσ : (e.pool.term a).subst σ = (e.pool.term b).subst σ) :
    RunOk Z (unifyAt a b id) e fun _ e' => ∃ σ', Agrees e.pool e'.pool σ σ' := by
  obtain ⟨hok, τ, hτ⟩ := unify_complete hwf ha hb hσ
  have hx : (unifyAt a b id).run e = .ok () ⟨(e.pool.unify a b).1, e.tables⟩ := by
    unfold unifyAt
    rw [run_bind, withPool_run]
    generalize e.pool.unify a b = res at hok ⊢
    obtain ⟨q, r⟩ := res
    cases hok
    rfl
  have hrun : Run Z (unifyAt a b id) e _ := unifyAt_run hwf hZ ha hb hza hzb
  unfold Run at hrun
  unfold RunOk
  rw [hx] at hrun ⊢
  exact ⟨hrun.1, hrun.2.1, hrun.2.2.1, τ, fun v _ hv => (hτ v hv).symm⟩

end InferM

end TagML
