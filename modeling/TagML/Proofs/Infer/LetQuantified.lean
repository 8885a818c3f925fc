import TagML.Proofs.Infer.Calls

/-!
Variables a `let` quantifies are never bound afterwards.

Once a `let` has inferred its value, generalization quantifies the variables of the value's type
that no scheme of the environment has free, and the body is checked with them frozen
(`Ready.letBody`).  Other types stay live around the `let` that are in no environment: an
enclosing lambda's result, an application's argument, the type the branches of a conditional
share.  The main statement, `let_quantified_stay_unbound`, says that none of them reaches a
quantified variable: those variables are unbound when the check that contains the `let` ends,
whether it succeeds or fails, and they stay unbound after every later form.

The argument runs over the tree of calls (`InferCall.Calls`).  A call is good for a pool `P`
(`InferCall.Good`) when its pool is ready for it, with some variables `Z` frozen, and whatever it
keeps frozen from its start to its end besides `Z`, among the variables it allocates, is unbound
in `P`.  The call a form starts with is good for the pool its run ends in.  A call that a good
call makes is good (`Good.calls`): the steps of the rule after it check types that were live
before it, which mention none of its new variables, so they keep those frozen too
(`Good.call`).  Every call of the tree is then good (`Good.of_reachable`), and at a `let` that
generalized, the quantified variables are new and kept frozen to the end of the `let`
(`Good.generalizes`).
-/
namespace TagML

open Pool InferM

variable {ctx : Context} {Z : Set Nat} {env : Env Scheme} {hs : List Idx}

/-! ## Runs from a ready pool -/

section Ready

variable {p : Pool} {E : Engine}

/-- A pool ready against the scrutinee's type is ready for the first branch of a match, with
the pattern's bindings in front of the environment. -/
theorem Ready.schemes (hr : Ready ctx Z env hs p) (pat : Pattern) {t : Idx} (ht : t ∈ hs) :
    Ready ctx Z ((pat.schemes t).append env) hs p := by
  have hmono : ∀ b ∈ (pat.schemes t).bindings, b.2 = Scheme.mono t := by
    intro b hb
    cases hx : pat.binder with
    | none =>
      simp only [Pattern.schemes, hx] at hb
      exact absurd hb List.not_mem_nil
    | some x =>
      simp only [Pattern.schemes, hx, Env.bindings_prepend, List.mem_cons] at hb
      rcases hb with rfl | hb
      exacts [rfl, absurd hb List.not_mem_nil]
  refine hr.front (fun b hb => ?_) fun b hb => ?_
  · rw [hmono b hb]
    exact hr.valid t ht
  · rw [hmono b hb]
    exact ⟨fun v hv => absurd hv List.not_mem_nil, fun w hw _ => hr.avoids t ht w hw⟩

theorem Ready.infer_run (hr : Ready ctx Z env hs E.pool) {t : Idx} (ht : t ∈ hs) (e : Expr) :
    Run Z (infer ctx env e t) E fun _ _ => True :=
  (infer_sound ctx e Z env t E (hr.sub (List.cons_subset.2 ⟨ht, List.nil_subset _⟩))).mono
    fun _ _ _ => trivial

theorem Ready.inferArgs_run (hr : Ready ctx Z env hs E.pool) {args : List Expr} {ts : List Idx}
    (hts : ts ⊆ hs) (hlen : args.length = ts.length) :
    Run Z (inferArgs ctx env args ts) E fun _ _ => True :=
  (inferArgs_sound ctx args Z env ts E hlen (hr.sub hts)).mono fun _ _ _ => trivial

theorem Ready.unifyAt_run (hr : Ready ctx Z env hs E.pool) {a b : Idx} (ha : a ∈ hs) (hb : b ∈ hs)
    (id : Nat) : Run Z (unifyAt a b id) E fun _ _ => True :=
  (hr.unifyAt_step ha hb id).mono fun _ _ _ => trivial

end Ready

/-! ## The steps of a rule before a call -/

/-- The steps of a rule before one of its calls took the engine from `E` to `E'` and kept `Z`
frozen, and the pool they left is ready against the types `hs` the rest of the rule needs. -/
structure Opened (ctx : Context) (Z : Set Nat) (env : Env Scheme) (hs : List Idx) (E E' : Engine) :
    Prop where
  ext : E.pool.Extends E'.pool
  frozen : Frozen Z E.pool E'.pool
  ready : Ready ctx Z env hs E'.pool

namespace Opened

variable {E E' E'' : Engine}

theorem refl (hr : Ready ctx Z env hs E.pool) : Opened ctx Z env hs E E :=
  ⟨Extends.refl _, Frozen.refl hr.wf hr.unbound.target?, hr⟩

/-- One more step that succeeded. -/
theorem step {α : Type} {x : InferM α} {Q : α → Engine → Prop} {a : α}
    (ho : Opened ctx Z env hs E E') (hx : Run Z x E' Q) (h : x.run E' = .ok a E'') :
    Opened ctx Z env hs E E'' ∧ Q a E'' := by
  obtain ⟨hwf, he, hz, hQ⟩ := hx.of_ok h
  exact ⟨⟨ho.ext.trans he, ho.frozen.trans ho.ready.wf hwf ho.ext he hz, ho.ready.later hwf he hz⟩,
    hQ⟩

variable {id : Nat} {t : Idx} {E₁ E₂ E₃ E₄ E₅ : Engine}

/-- A construction's opening steps: its argument and result types are instances of the tag's
types, renamed to variables the step allocates. -/
theorem tag {name : String} {sig : TagSig} {argTys : List Idx} {result : Idx}
    (hr : Ready ctx Z env [t] E.pool) (h₁ : (recordExpr id t).run E = .ok () E₁)
    (hsig : ctx.lookupTag name = some sig)
    (h₂ : (instantiateTag sig).run E₁ = .ok (argTys, result) E₂)
    (h₃ : (recordTagIndex id sig.index).run E₂ = .ok () E₃) :
    Opened ctx Z env (t :: result :: argTys) E E₃ ∧ argTys.length = sig.args.length := by
  obtain ⟨ho₁, hp₁, -⟩ := (refl hr).step (recordExpr_run hr.wf hr.unbound) h₁
  have hmem := Env.mem_of_lookup hsig
  obtain ⟨hav, hresv⟩ := ho₁.ready.tags_valid _ hmem
  obtain ⟨-, hargvars, hresvars⟩ := ho₁.ready.tags_closed _ hmem
  obtain ⟨ho₂, -, -, ι, hι, hall, hrv, hrt⟩ :=
    ho₁.step (instantiateTag_run ho₁.ready.wf ho₁.ready.unbound hav hresv) h₂
  obtain ⟨ho₃, hp₃, -⟩ := ho₂.step (recordTagIndex_run ho₂.ready.wf ho₂.ready.unbound) h₃
  -- renamed apart, the signature's types mention only new variables, none of them frozen
  have hnew : ∀ T : Term, (∀ u ∈ T.vars, u ∈ sig.bounded) → ∀ w ∈ (T.subst ι).vars, w ∉ Z :=
    fun T hT w hw => hr.unbound.not_mem (hp₁ ▸ Term.vars_subst_fresh hT hι.fresh w hw)
  have hall' : List.Forall₂ (fun sa a' => (∀ u ∈ (E₁.pool.term sa).vars, u ∈ sig.bounded) ∧
      a'.raw < E₂.pool.size ∧ E₂.pool.term a' = (E₁.pool.term sa).subst ι) sig.args argTys :=
    (List.forall₂_and_left _ _).2 ⟨hargvars, hall.flip⟩
  have hargs : ∀ a ∈ argTys, a.raw < E₂.pool.size ∧ ∀ w ∈ (E₂.pool.term a).vars, w ∉ Z :=
    ((List.forall₂_and_left (R := fun _ _ => True) _ _).1 (hall'.flip.imp fun _ _ h =>
      ⟨⟨h.2.1, by rw [h.2.2]; exact hnew _ h.1⟩, trivial⟩)).1
  refine ⟨{ ho₃ with ready := ho₃.ready.retarget fun h hh => ?_ }, hall.length_eq⟩
  rw [hp₃]
  rcases List.mem_cons.1 hh with rfl | hh
  · exact ⟨ho₂.ready.valid _ (List.mem_singleton_self _),
      ho₂.ready.avoids _ (List.mem_singleton_self _)⟩
  rcases List.mem_cons.1 hh with rfl | hh
  · exact ⟨hrv, by rw [hrt]; exact hnew _ hresvars⟩
  · exact hargs h hh

/-- A fresh variable: the pool stays ready against it too, since it is new. -/
theorem freshVar {a : Idx} (ho : Opened ctx Z env hs E E₁) (h : InferM.fresh.run E₁ = .ok a E₂) :
    Opened ctx Z env (hs ++ [a]) E E₂ ∧ E₁.pool.Grows E₂.pool ∧ a.raw < E₂.pool.size ∧
      E₂.pool.term a = .var E₁.pool.varCount ∧ E₂.pool.varCount = E₁.pool.varCount + 1 := by
  obtain ⟨ho₂, -, hg₂, hav, hat, hvc⟩ := ho.step (fresh_run ho.ready.wf ho.ready.unbound) h
  refine ⟨{ ho₂ with ready := ho₂.ready.append (ho₂.ready.single hav ?_) }, hg₂, hav, hat, hvc⟩
  rw [hat]
  exact ho.ready.unbound.avoids_var (Nat.le_refl _)

/-- A lambda's opening steps: the parameter's and the result's types are new. -/
theorem lam {x : String} {ann : TypeExpr} {param ret : Idx} (hr : Ready ctx Z env [t] E.pool)
    (h₁ : (recordExpr id t).run E = .ok () E₁) (h₂ : (resolveType ann).run E₁ = .ok param E₂)
    (h₃ : fresh.run E₂ = .ok ret E₃) :
    Opened ctx Z env [t, param, ret] E E₃ ∧
      Ready ctx Z (env.prepend x (Scheme.mono param)) [ret] E₃.pool := by
  obtain ⟨ho₁, hp₁, -⟩ := (refl hr).step (recordExpr_run hr.wf hr.unbound) h₁
  obtain ⟨ho₂, -, -, hpv, -, hpnew⟩ :=
    ho₁.step (resolveType_run ho₁.ready.wf ho₁.ready.unbound ann) h₂
  have ho₂' : Opened ctx Z env [t, param] E E₂ := { ho₂ with
    ready := ho₂.ready.append (ho₂.ready.single hpv fun w hw =>
      hr.unbound.not_mem (hp₁ ▸ hpnew w hw)) }
  obtain ⟨ho₃, -⟩ := ho₂'.freshVar h₃
  refine ⟨ho₃, ?_⟩
  -- the parameter is bound unquantified, its variables free and none of them frozen
  exact (ho₃.ready.bind x (ho₃.ready.valid param (by simp)) (fun v hv => absurd hv List.not_mem_nil)
    fun w hw _ => ho₃.ready.avoids param (by simp) w hw).sub (by simp)

/-- An application's opening steps: the function is checked against `argument -> expected`,
the argument's type a new variable. -/
theorem app {argTy ft : Idx} (hr : Ready ctx Z env [t] E.pool)
    (h₁ : (recordExpr id t).run E = .ok () E₁) (h₂ : fresh.run E₁ = .ok argTy E₂)
    (h₃ : (fnType argTy t).run E₂ = .ok ft E₃) : Opened ctx Z env [t, argTy, ft] E E₃ := by
  obtain ⟨ho₁, -, -⟩ := (refl hr).step (recordExpr_run hr.wf hr.unbound) h₁
  obtain ⟨ho₂, -, hav, -, -⟩ := ho₁.freshVar h₂
  obtain ⟨ho₃, -, -, hfv, hfi⟩ :=
    ho₂.step (fnType_run ho₂.ready.wf ho₂.ready.unbound hav (ho₂.ready.valid t (by simp))) h₃
  refine { ho₃ with ready := ho₃.ready.append (ho₃.ready.single hfv ?_) }
  rw [term_of_fn ho₃.ready.wf hfi]
  intro w hw
  rcases List.mem_append.1 hw with hw | hw
  exacts [ho₃.ready.avoids argTy (by simp) w hw, ho₃.ready.avoids t (by simp) w hw]

/-- A match's opening steps: the scrutinee's type and the pattern's slot are new variables,
unified. -/
theorem matchAs {pat : Pattern} {scTy slot : Idx} (hr : Ready ctx Z env [t] E.pool)
    (h₁ : (recordExpr id t).run E = .ok () E₁) (h₂ : fresh.run E₁ = .ok scTy E₂)
    (h₃ : fresh.run E₂ = .ok slot E₃) (h₄ : (recordPat pat.id slot).run E₃ = .ok () E₄)
    (h₅ : (unifyAt slot scTy id).run E₄ = .ok () E₅) : Opened ctx Z env [t, scTy, slot] E E₅ := by
  obtain ⟨ho₁, -, -⟩ := (refl hr).step (recordExpr_run hr.wf hr.unbound) h₁
  obtain ⟨ho₂, -⟩ := ho₁.freshVar h₂
  obtain ⟨ho₃, -⟩ := ho₂.freshVar h₃
  obtain ⟨ho₄, -, -⟩ := ho₃.step (recordPat_run ho₃.ready.wf ho₃.ready.unbound) h₄
  exact (ho₄.step (ho₄.ready.unifyAt_run (by simp) (by simp) id) h₅).1

/-- A `let`'s opening steps: the value's type is a new variable. -/
theorem letIn {vTy : Idx} (hr : Ready ctx Z env [t] E.pool)
    (h₁ : (recordExpr id t).run E = .ok () E₁) (h₂ : fresh.run E₁ = .ok vTy E₂) :
    Opened ctx Z env [t, vTy] E E₂ ∧ Ready ctx Z env [t] E₁.pool ∧ E₁.pool.Grows E₂.pool ∧
      vTy.raw < E₂.pool.size ∧ E₂.pool.term vTy = .var E₁.pool.varCount ∧
      E₂.pool.varCount = E₁.pool.varCount + 1 := by
  obtain ⟨ho₁, -, -⟩ := (refl hr).step (recordExpr_run hr.wf hr.unbound) h₁
  obtain ⟨ho₂, hfresh⟩ := ho₁.freshVar h₂
  exact ⟨ho₂, ho₁.ready, hfresh⟩

/-- A `let` whose value was inferred: what generalization quantifies is new to the `let` and
kept frozen since it started, and the body can be checked with it frozen, together with what
the value generalized and any new variables `Q` the value's run kept frozen. -/
theorem letBody {x : String} {v : Expr} {vTy : Idx} {Q : Set Nat}
    (hr : Ready ctx Z env [t] E.pool) (h₁ : (recordExpr id t).run E = .ok () E₁)
    (h₂ : fresh.run E₁ = .ok vTy E₂) (h₃ : (infer ctx env v vTy).run E₂ = .ok () E₃)
    (hQ : ∀ w ∈ Q, E₂.pool.varCount ≤ w ∧ w < E₃.pool.varCount) (hF : Frozen Q E₂.pool E₃.pool) :
    ∃ Qv : Set Nat, Opened ctx Z env [t, vTy] E E₃ ∧
      (∀ w ∈ {w | w ∈ (E₃.pool.generalize env vTy).bounded},
        E.pool.varCount ≤ w ∧ w < E₃.pool.varCount) ∧
      Frozen {w | w ∈ (E₃.pool.generalize env vTy).bounded} E.pool E₃.pool ∧
      Ready ctx (Z ∪ (Qv ∪ Q) ∪ {w | w ∈ (E₃.pool.generalize env vTy).bounded})
        (env.prepend x (E₃.pool.generalize env vTy)) [t] E₃.pool := by
  obtain ⟨ho, hr₁, hg₂, hvv, hvt, hvc₂⟩ := letIn hr h₁ h₂
  have hp₁ : E₁.pool = E.pool := ((recordExpr_run hr.wf hr.unbound).of_ok h₁).2.2.2.1
  have hrv : Ready ctx Z env [vTy] E₂.pool := ho.ready.sub (by simp)
  obtain ⟨hwf₃, he₃, hz₃, newv, Qv, hdv, -⟩ := (infer_sound ctx v Z env vTy E₂ hrv).of_ok h₃
  have hQg : ∀ w, w ∈ {w | w ∈ (E₃.pool.generalize env vTy).bounded} ↔
      w ∈ (E₃.pool.generalize env vTy).bounded := fun _ => Iff.rfl
  obtain ⟨hQgr, hQgf, -, hrb⟩ := hr₁.letBody x ho.ready.wf hg₂ hvv hvt hvc₂ hwf₃ he₃ hz₃
    (hdv.generalizes hQ hF) hQg
  rw [hp₁] at hQgr hQgf
  exact ⟨Qv, (ho.step (hrv.infer_run (List.mem_singleton_self _) v) h₃).1, hQgr, hQgf, hrb⟩

end Opened

/-! ## Good calls -/

namespace InferCall

/-- The call checks a `let` whose value was inferred, and generalization turned the value's type
into `σ`. -/
def Generalizes (ctx : Context) (c : InferCall) (σ : Scheme) : Prop :=
  ∃ (id : Nat) (x : String) (v b : Expr) (vTy : Idx) (E₁ E₂ E₃ E₄ : Engine),
    c.expr = .letIn id x v b ∧ (recordExpr id c.expected).run c.engine = .ok () E₁ ∧
    fresh.run E₁ = .ok vTy E₂ ∧ (infer ctx c.env v vTy).run E₂ = .ok () E₃ ∧
    (InferM.generalize c.env vTy).run E₃ = .ok σ E₄

/-- Whatever the call keeps frozen from its start to its end besides `Z`, among the variables it
allocates, is allocated and unbound in `P`. -/
def KeepsTo (ctx : Context) (Z : Set Nat) (c : InferCall) (P : Pool) : Prop :=
  ∀ Q : Set Nat, (∀ v ∈ Q, c.engine.pool.varCount ≤ v ∧ v < (c.final ctx).pool.varCount) →
    Frozen (Z ∪ Q) c.engine.pool (c.final ctx).pool → P.Unbound Q

/-- The call's pool is ready for it with some set `Z` frozen, and what it keeps frozen besides
`Z`, among its own variables, is unbound in `P`. -/
def Good (ctx : Context) (P : Pool) (c : InferCall) : Prop :=
  ∃ Z, Ready ctx Z c.env [c.expected] c.engine.pool ∧ KeepsTo ctx Z c P

variable {P : Pool}

/-- What a call keeps frozen to its end is unbound at its end. -/
theorem keepsTo_final (c : InferCall) (Z : Set Nat) : KeepsTo ctx Z c (c.final ctx).pool :=
  fun _ hQ hF w hw => ⟨(hQ w hw).2, hF.unbound w (Or.inr hw)⟩

/-- A call made from a good call after opening steps that kept `Z` frozen is good, with any
larger set frozen, as long as the rest of the rule after it keeps frozen, besides `Z`, whatever
new variables the call kept frozen. -/
theorem Good.call {c : InferCall} {Z' : Set Nat} {env' : Env Scheme} {e' : Expr} {t' : Idx}
    {E' : Engine} {k : Unit → InferM Unit} (hk : KeepsTo ctx Z c P)
    (ho : Opened ctx Z env hs c.engine E') (hZ : Z ⊆ Z') (hr' : Ready ctx Z' env' [t'] E'.pool)
    (hrun : c.run ctx = (infer ctx env' e' t' >>= k).run E')
    (hrest : ∀ (Q : Set Nat) (E'' : Engine), (infer ctx env' e' t').run E' = .ok () E'' →
      E''.pool.WF → E'.pool.Extends E''.pool →
      (∀ v ∈ Q, E'.pool.varCount ≤ v ∧ v < E''.pool.varCount) →
      Frozen (Z' ∪ Q) E'.pool E''.pool → Run (Z ∪ Q) (k ()) E'' fun _ _ => True) :
    Good ctx P ⟨env', e', t', E'⟩ := by
  refine ⟨Z', hr', fun Q hQ hF => ?_⟩
  change ∀ v ∈ Q, E'.pool.varCount ≤ v ∧ v < (after (infer ctx env' e' t') E').pool.varCount
    at hQ
  change Frozen (Z' ∪ Q) E'.pool (after (infer ctx env' e' t') E').pool at hF
  obtain ⟨hwf', he', -⟩ := (hr'.infer_run (List.mem_singleton_self t') e').after
  have hstart : Frozen (Z ∪ Q) c.engine.pool E'.pool :=
    ho.frozen.union (Frozen.of_new ho.ready.wf ho.ext fun v hv => (hQ v hv).1)
  have hcall : Frozen (Z ∪ Q) E'.pool (after (infer ctx env' e' t') E').pool :=
    hF.mono hwf' (Set.union_subset_union_left Q hZ)
  -- the rest of the rule, if the call succeeded, keeps `Z ∪ Q` frozen to the end
  obtain ⟨hwf₂, he₂, hz₂⟩ : (c.final ctx).pool.WF ∧
      (after (infer ctx env' e' t') E').pool.Extends (c.final ctx).pool ∧
      Frozen (Z ∪ Q) (after (infer ctx env' e' t') E').pool (c.final ctx).pool := by
    have hfinal : c.final ctx = after (infer ctx env' e' t' >>= k) E' := after_congr hrun
    cases hres : (infer ctx env' e' t').run E' with
    | ok u E'' =>
      cases u
      rw [after_of_ok hres] at hQ hF hcall hwf' he' ⊢
      rw [hfinal, after_bind_ok hres]
      exact (hrest Q E'' hres hwf' he' hQ hF).after
    | error err E'' =>
      rw [after_of_error hres] at hcall hwf' ⊢
      rw [hfinal, after_bind_error hres]
      exact ⟨hwf', Extends.refl _, Frozen.refl hwf' hcall.unbound⟩
  refine hk Q (fun v hv => ⟨Nat.le_trans ho.ext.varCount_le (hQ v hv).1,
    Nat.lt_of_lt_of_le (hQ v hv).2 he₂.varCount_le⟩) ?_
  exact (hstart.trans ho.ready.wf hwf' ho.ext he' hcall).trans hwf' hwf₂ (ho.ext.trans he') he₂ hz₂

/-- The last call of a rule, made from a good call, is good. -/
theorem Good.lastCall {c : InferCall} {Z' : Set Nat} {env' : Env Scheme} {e' : Expr} {t' : Idx}
    {E' : Engine} (hk : KeepsTo ctx Z c P) (ho : Opened ctx Z env hs c.engine E') (hZ : Z ⊆ Z')
    (hr' : Ready ctx Z' env' [t'] E'.pool) (hrun : c.run ctx = (infer ctx env' e' t').run E') :
    Good ctx P ⟨env', e', t', E'⟩ :=
  Good.call (k := pure) hk ho hZ hr' (by rw [hrun, bind_pure]) fun Q _ _ hwf'' _ _ hF =>
    ⟨hwf'', Extends.refl _,
      Frozen.refl hwf'' fun z hz => hF.unbound z (Set.union_subset_union_left Q hZ hz), trivial⟩

/-! ## Each call a good call makes is good -/

namespace Good

variable {env : Env Scheme} {id : Nat} {t : Idx} {E E₁ E₂ E₃ E₄ E₅ E₆ E₇ : Engine}

theorem tagArg {name : String} {pre post : List Expr} {a : Expr} {result ta : Idx}
    {preTs postTs : List Idx} {sig : TagSig}
    (hg : Good ctx P ⟨env, .tag id name (pre ++ a :: post), t, E⟩)
    (h₁ : (recordExpr id t).run E = .ok () E₁) (hsig : ctx.lookupTag name = some sig)
    (h₂ : (instantiateTag sig).run E₁ = .ok (preTs ++ ta :: postTs, result) E₂)
    (h₃ : (recordTagIndex id sig.index).run E₂ = .ok () E₃)
    (harity : (pre ++ a :: post).length = sig.arity) (hpre : pre.length = preTs.length)
    (h₄ : (inferArgs ctx env pre preTs).run E₃ = .ok () E₄) : Good ctx P ⟨env, a, ta, E₄⟩ := by
  obtain ⟨Z, hr, hk⟩ := hg
  obtain ⟨ho, hlen⟩ := Opened.tag hr h₁ hsig h₂ h₃
  have hpost : post.length = postTs.length := by
    have h := harity.trans hlen.symm
    simp only [List.length_append, List.length_cons] at h
    omega
  obtain ⟨ho₄, -⟩ := ho.step (ho.ready.inferArgs_run (fun u hu => by simp [hu]) hpre) h₄
  refine Good.call hk ho₄ subset_rfl (ho₄.ready.sub (by simp))
    (run_tagArg h₁ hsig h₂ h₃ harity hpre h₄) fun Q E'' _ hwf'' he'' hQ hF => ?_
  -- the later arguments and the closing unification check types allocated before the call
  have hr'' := ho₄.ready.extend hwf'' he'' hF hQ
  refine Run.bind (hr''.inferArgs_run (fun u hu => by simp [hu]) hpost)
    fun _ E₆ hwf₆ he₆ hz₆ _ => ?_
  exact (hr''.later hwf₆ he₆ hz₆).unifyAt_run (by simp) (by simp) id

theorem lamBody {x : String} {ann : TypeExpr} {body : Expr} {param ret : Idx}
    (hg : Good ctx P ⟨env, .lam id x ann body, t, E⟩)
    (h₁ : (recordExpr id t).run E = .ok () E₁) (h₂ : (resolveType ann).run E₁ = .ok param E₂)
    (h₃ : fresh.run E₂ = .ok ret E₃) :
    Good ctx P ⟨env.prepend x (Scheme.mono param), body, ret, E₃⟩ := by
  obtain ⟨Z, hr, hk⟩ := hg
  obtain ⟨ho, hrb⟩ := Opened.lam (x := x) hr h₁ h₂ h₃
  refine Good.call hk ho subset_rfl hrb (run_lamBody h₁ h₂ h₃) fun Q E'' _ hwf'' he'' hQ hF => ?_
  have hr'' := ho.ready.extend hwf'' he'' hF hQ
  refine Run.bind (fnType_run hwf'' hr''.unbound (hr''.valid param (by simp))
    (hr''.valid ret (by simp))) fun ft E₅ hwf₅ he₅ hz₅ hE₅ => ?_
  obtain ⟨-, -, hfv, hfi⟩ := hE₅
  have hr₅ := hr''.later hwf₅ he₅ hz₅
  -- `parameter -> result` mentions no variable kept frozen, as its two sides do not
  refine (InferM.unifyAt_run hwf₅ hr₅.unbound (hr₅.valid t (by simp)) hfv (hr₅.avoids t (by simp))
    ?_).mono fun _ _ _ => trivial
  rw [term_of_fn hwf₅ hfi]
  intro w hw
  rcases List.mem_append.1 hw with hw | hw
  exacts [hr₅.avoids param (by simp) w hw, hr₅.avoids ret (by simp) w hw]

theorem appFn {f a : Expr} {argTy ft : Idx} (hg : Good ctx P ⟨env, .app id f a, t, E⟩)
    (h₁ : (recordExpr id t).run E = .ok () E₁) (h₂ : fresh.run E₁ = .ok argTy E₂)
    (h₃ : (fnType argTy t).run E₂ = .ok ft E₃) : Good ctx P ⟨env, f, ft, E₃⟩ := by
  obtain ⟨Z, hr, hk⟩ := hg
  have ho := Opened.app hr h₁ h₂ h₃
  exact Good.call hk ho subset_rfl (ho.ready.sub (by simp)) (run_appFn h₁ h₂ h₃)
    fun Q E'' _ hwf'' he'' hQ hF => (ho.ready.extend hwf'' he'' hF hQ).infer_run (by simp) a

theorem appArg {f a : Expr} {argTy ft : Idx} (hg : Good ctx P ⟨env, .app id f a, t, E⟩)
    (h₁ : (recordExpr id t).run E = .ok () E₁) (h₂ : fresh.run E₁ = .ok argTy E₂)
    (h₃ : (fnType argTy t).run E₂ = .ok ft E₃) (h₄ : (infer ctx env f ft).run E₃ = .ok () E₄) :
    Good ctx P ⟨env, a, argTy, E₄⟩ := by
  obtain ⟨Z, hr, hk⟩ := hg
  have ho := Opened.app hr h₁ h₂ h₃
  obtain ⟨ho₄, -⟩ := ho.step (ho.ready.infer_run (by simp) f) h₄
  exact Good.lastCall hk ho₄ subset_rfl (ho₄.ready.sub (by simp)) (run_appArg h₁ h₂ h₃ h₄)

theorem iteCond {cond a b : Expr} (hg : Good ctx P ⟨env, .ite id cond a b, t, E⟩)
    (h₁ : (recordExpr id t).run E = .ok () E₁) : Good ctx P ⟨env, cond, Prim.bool.idx, E₁⟩ := by
  obtain ⟨Z, hr, hk⟩ := hg
  obtain ⟨ho, -, -⟩ := (Opened.refl hr).step (recordExpr_run hr.wf hr.unbound) h₁
  refine Good.call hk ho subset_rfl ho.ready.bool (run_iteCond h₁)
    fun Q E'' _ hwf'' he'' hQ hF => ?_
  have hr'' := ho.ready.extend hwf'' he'' hF hQ
  exact Run.bind (hr''.infer_run (by simp) a) fun _ E₃ hwf₃ he₃ hz₃ _ =>
    (hr''.later hwf₃ he₃ hz₃).infer_run (by simp) b

theorem iteThen {cond a b : Expr} (hg : Good ctx P ⟨env, .ite id cond a b, t, E⟩)
    (h₁ : (recordExpr id t).run E = .ok () E₁)
    (h₂ : (infer ctx env cond Prim.bool.idx).run E₁ = .ok () E₂) : Good ctx P ⟨env, a, t, E₂⟩ := by
  obtain ⟨Z, hr, hk⟩ := hg
  obtain ⟨ho₁, -, -⟩ := (Opened.refl hr).step (recordExpr_run hr.wf hr.unbound) h₁
  obtain ⟨ho, -⟩ := ho₁.step (ho₁.ready.bool.infer_run (List.mem_singleton_self _) cond) h₂
  exact Good.call hk ho subset_rfl ho.ready (run_iteThen h₁ h₂)
    fun Q E'' _ hwf'' he'' hQ hF => (ho.ready.extend hwf'' he'' hF hQ).infer_run (by simp) b

theorem iteElse {cond a b : Expr} (hg : Good ctx P ⟨env, .ite id cond a b, t, E⟩)
    (h₁ : (recordExpr id t).run E = .ok () E₁)
    (h₂ : (infer ctx env cond Prim.bool.idx).run E₁ = .ok () E₂)
    (h₃ : (infer ctx env a t).run E₂ = .ok () E₃) : Good ctx P ⟨env, b, t, E₃⟩ := by
  obtain ⟨Z, hr, hk⟩ := hg
  obtain ⟨ho₁, -, -⟩ := (Opened.refl hr).step (recordExpr_run hr.wf hr.unbound) h₁
  obtain ⟨ho₂, -⟩ := ho₁.step (ho₁.ready.bool.infer_run (List.mem_singleton_self _) cond) h₂
  obtain ⟨ho₃, -⟩ := ho₂.step (ho₂.ready.infer_run (by simp) a) h₃
  exact Good.lastCall hk ho₃ subset_rfl ho₃.ready (run_iteElse h₁ h₂ h₃)

theorem matchScrut {sc a b : Expr} {pat : Pattern} {scTy slot : Idx}
    (hg : Good ctx P ⟨env, .matchAs id sc pat a b, t, E⟩)
    (h₁ : (recordExpr id t).run E = .ok () E₁) (h₂ : fresh.run E₁ = .ok scTy E₂)
    (h₃ : fresh.run E₂ = .ok slot E₃) (h₄ : (recordPat pat.id slot).run E₃ = .ok () E₄)
    (h₅ : (unifyAt slot scTy id).run E₄ = .ok () E₅) : Good ctx P ⟨env, sc, scTy, E₅⟩ := by
  obtain ⟨Z, hr, hk⟩ := hg
  have ho := Opened.matchAs hr h₁ h₂ h₃ h₄ h₅
  refine Good.call hk ho subset_rfl (ho.ready.sub (by simp)) (run_matchScrut h₁ h₂ h₃ h₄ h₅)
    fun Q E'' _ hwf'' he'' hQ hF => ?_
  have hr'' := ho.ready.extend hwf'' he'' hF hQ
  exact Run.bind ((hr''.schemes pat (by simp)).infer_run (by simp) a) fun _ E₇ hwf₇ he₇ hz₇ _ =>
    (hr''.later hwf₇ he₇ hz₇).infer_run (by simp) b

theorem matchThen {sc a b : Expr} {pat : Pattern} {scTy slot : Idx}
    (hg : Good ctx P ⟨env, .matchAs id sc pat a b, t, E⟩)
    (h₁ : (recordExpr id t).run E = .ok () E₁) (h₂ : fresh.run E₁ = .ok scTy E₂)
    (h₃ : fresh.run E₂ = .ok slot E₃) (h₄ : (recordPat pat.id slot).run E₃ = .ok () E₄)
    (h₅ : (unifyAt slot scTy id).run E₄ = .ok () E₅)
    (h₆ : (infer ctx env sc scTy).run E₅ = .ok () E₆) :
    Good ctx P ⟨(pat.schemes scTy).append env, a, t, E₆⟩ := by
  obtain ⟨Z, hr, hk⟩ := hg
  have ho := Opened.matchAs hr h₁ h₂ h₃ h₄ h₅
  obtain ⟨ho₆, -⟩ := ho.step (ho.ready.infer_run (by simp) sc) h₆
  exact Good.call hk ho₆ subset_rfl ((ho₆.ready.schemes pat (by simp)).sub (by simp))
    (run_matchThen h₁ h₂ h₃ h₄ h₅ h₆)
    fun Q E'' _ hwf'' he'' hQ hF => (ho₆.ready.extend hwf'' he'' hF hQ).infer_run (by simp) b

theorem matchElse {sc a b : Expr} {pat : Pattern} {scTy slot : Idx}
    (hg : Good ctx P ⟨env, .matchAs id sc pat a b, t, E⟩)
    (h₁ : (recordExpr id t).run E = .ok () E₁) (h₂ : fresh.run E₁ = .ok scTy E₂)
    (h₃ : fresh.run E₂ = .ok slot E₃) (h₄ : (recordPat pat.id slot).run E₃ = .ok () E₄)
    (h₅ : (unifyAt slot scTy id).run E₄ = .ok () E₅)
    (h₆ : (infer ctx env sc scTy).run E₅ = .ok () E₆)
    (h₇ : (infer ctx ((pat.schemes scTy).append env) a t).run E₆ = .ok () E₇) :
    Good ctx P ⟨env, b, t, E₇⟩ := by
  obtain ⟨Z, hr, hk⟩ := hg
  have ho := Opened.matchAs hr h₁ h₂ h₃ h₄ h₅
  obtain ⟨ho₆, -⟩ := ho.step (ho.ready.infer_run (by simp) sc) h₆
  obtain ⟨ho₇, -⟩ := ho₆.step ((ho₆.ready.schemes pat (by simp)).infer_run (by simp) a) h₇
  exact Good.lastCall hk ho₇ subset_rfl (ho₇.ready.sub (by simp))
    (run_matchElse h₁ h₂ h₃ h₄ h₅ h₆ h₇)

theorem letValue {x : String} {v b : Expr} {vTy : Idx}
    (hg : Good ctx P ⟨env, .letIn id x v b, t, E⟩)
    (h₁ : (recordExpr id t).run E = .ok () E₁) (h₂ : fresh.run E₁ = .ok vTy E₂) :
    Good ctx P ⟨env, v, vTy, E₂⟩ := by
  obtain ⟨Z, hr, hk⟩ := hg
  obtain ⟨ho, -⟩ := Opened.letIn hr h₁ h₂
  refine Good.call hk ho subset_rfl (ho.ready.sub (by simp)) (run_letValue h₁ h₂)
    fun Q E₃ hres hwf₃ _ hQ hF => ?_
  -- the body is checked with what the value generalized, and `Q`, frozen as well
  obtain ⟨Qv, -, -, -, hrb⟩ :=
    Opened.letBody (x := x) hr h₁ h₂ hres hQ (hF.mono hwf₃ Set.subset_union_right)
  have hsub : Z ∪ Q ⊆ Z ∪ (Qv ∪ Q) ∪ {w | w ∈ (E₃.pool.generalize env vTy).bounded} :=
    fun w hw => hw.elim (fun h => Or.inl (Or.inl h)) fun h => Or.inl (Or.inr (Or.inr h))
  refine Run.bind (generalize_run hwf₃ fun z hz => hrb.unbound z (hsub hz))
    fun σ E₄ _ _ _ hE₄ => ?_
  obtain ⟨rfl, rfl⟩ := hE₄
  exact (hrb.infer_run (List.mem_singleton_self t) b).frozen_mono hsub

theorem letBody {x : String} {v b : Expr} {vTy : Idx} {σ : Scheme}
    (hg : Good ctx P ⟨env, .letIn id x v b, t, E⟩)
    (h₁ : (recordExpr id t).run E = .ok () E₁) (h₂ : fresh.run E₁ = .ok vTy E₂)
    (h₃ : (infer ctx env v vTy).run E₂ = .ok () E₃)
    (h₄ : (InferM.generalize env vTy).run E₃ = .ok σ E₄) :
    Good ctx P ⟨env.prepend x σ, b, t, E₄⟩ := by
  obtain ⟨Z, hr, hk⟩ := hg
  obtain ⟨Qv, ho₃, -, -, hrb⟩ :=
    Opened.letBody (x := x) (Q := ∅) hr h₁ h₂ h₃ (fun _ hw => False.elim hw) Frozen.empty
  obtain ⟨-, -, -, hE₄, rfl⟩ := (generalize_run ho₃.ready.wf ho₃.ready.unbound).of_ok h₄
  subst E₄
  exact Good.lastCall hk ho₃ (Set.subset_union_left.trans Set.subset_union_left) hrb
    (run_letBody h₁ h₂ h₃ h₄)

/-- Every call a good call makes is good. -/
theorem calls {c c' : InferCall} (hg : Good ctx P c) (h : Calls ctx c c') : Good ctx P c' := by
  cases h with
  | tagArg h₁ hsig h₂ h₃ harity hargs htys hpre h₄ =>
    subst hargs htys
    exact hg.tagArg h₁ hsig h₂ h₃ harity hpre h₄
  | lamBody h₁ h₂ h₃ => exact hg.lamBody h₁ h₂ h₃
  | appFn h₁ h₂ h₃ => exact hg.appFn h₁ h₂ h₃
  | appArg h₁ h₂ h₃ h₄ => exact hg.appArg h₁ h₂ h₃ h₄
  | iteCond h₁ => exact hg.iteCond h₁
  | iteThen h₁ h₂ => exact hg.iteThen h₁ h₂
  | iteElse h₁ h₂ h₃ => exact hg.iteElse h₁ h₂ h₃
  | matchScrut h₁ h₂ h₃ h₄ h₅ => exact hg.matchScrut h₁ h₂ h₃ h₄ h₅
  | matchThen h₁ h₂ h₃ h₄ h₅ h₆ => exact hg.matchThen h₁ h₂ h₃ h₄ h₅ h₆
  | matchElse h₁ h₂ h₃ h₄ h₅ h₆ h₇ => exact hg.matchElse h₁ h₂ h₃ h₄ h₅ h₆ h₇
  | letValue h₁ h₂ => exact hg.letValue h₁ h₂
  | letBody h₁ h₂ h₃ h₄ => exact hg.letBody h₁ h₂ h₃ h₄

/-- Every call in the tree of a good call is good. -/
theorem of_reachable {c c' : InferCall} (hg : Good ctx P c)
    (h : Relation.ReflTransGen (Calls ctx) c c') : Good ctx P c' := by
  induction h with
  | refl => exact hg
  | tail _ hstep ih => exact ih.calls hstep

/-- At a good call that generalized a `let`'s value, the quantified variables are unbound in
`P`: they are new, and the body keeps them frozen to the end of the `let`. -/
theorem generalizes {c : InferCall} {σ : Scheme} (hg : Good ctx P c)
    (hgen : c.Generalizes ctx σ) : P.Unbound {w | w ∈ σ.bounded} := by
  obtain ⟨env, e, t, E⟩ := c
  obtain ⟨id, x, v, b, vTy, E₁, E₂, E₃, E₄, he, h₁, h₂, h₃, h₄⟩ := hgen
  dsimp only at he h₁ h₃ h₄
  subst he
  obtain ⟨Z, hr, hk⟩ := hg
  obtain ⟨Qv, ho₃, hQg, hQgf, hrb⟩ :=
    Opened.letBody (x := x) (Q := ∅) hr h₁ h₂ h₃ (fun _ hw => False.elim hw) Frozen.empty
  obtain ⟨-, -, -, hE₄, rfl⟩ := (generalize_run ho₃.ready.wf ho₃.ready.unbound).of_ok h₄
  subst E₄
  -- from the end of the value to the end of the `let`, the body keeps them frozen
  obtain ⟨hwf₅, he₅, hz₅⟩ := (hrb.infer_run (List.mem_singleton_self t) b).after
  have hfinal : InferCall.final ctx ⟨env, .letIn id x v b, t, E⟩ =
      after (infer ctx (env.prepend x (E₃.pool.generalize env vTy)) b t) E₃ :=
    after_congr (run_letBody h₁ h₂ h₃ h₄)
  refine hk _ (fun w hw => ?_) ?_
  · rw [hfinal]
    exact ⟨(hQg w hw).1, Nat.lt_of_lt_of_le (hQg w hw).2 he₅.varCount_le⟩
  · rw [hfinal]
    refine (ho₃.frozen.union hQgf).trans ho₃.ready.wf hwf₅ ho₃.ext he₅ ?_
    exact hz₅.mono hwf₅ (Set.union_subset_union_left _ Set.subset_union_left)

end Good

end InferCall

/-! ## Checking a form -/

namespace Checker

/-- The call of inference that checking a form with expression `e` makes: against a fresh
variable, in the context's environment, with empty tables. -/
def inferCall (c : Checker) (e : Expr) : InferCall :=
  ⟨c.ctx.vars, e, c.pool.fresh.1, ⟨c.pool.fresh.2, {}⟩⟩

variable {c : Checker}

/-- The call checking a form makes is good for the pool it ends in. -/
theorem Inv.good (h : c.Inv) (e : Expr) :
    (c.inferCall e).Good c.ctx ((c.inferCall e).final c.ctx).pool :=
  ⟨c.ctx.quantified, h.fresh, InferCall.keepsTo_final _ _⟩

/-- After checking a form, the variables of the pool its inference ended in are linked as
there: settling a success only builds types. -/
theorem Inv.target?_checkForm (h : c.Inv) {form : Form} {e : Expr} (he : form.expr? = some e)
    {w : Nat} (hw : w < ((c.inferCall e).final c.ctx).pool.varCount) :
    (c.checkForm form).1.pool.target? w = ((c.inferCall e).final c.ctx).pool.target? w ∧
      w < (c.checkForm form).1.pool.varCount := by
  have hsettle : ∀ {u : Unit} {eng : Engine},
      (infer c.ctx c.ctx.vars e c.pool.fresh.1).run ⟨c.pool.fresh.2, {}⟩ = .ok u eng →
      w < eng.pool.varCount → (eng.settle c.pool.fresh.1).2.2.target? w = eng.pool.target? w ∧
        w < (eng.settle c.pool.fresh.1).2.2.varCount := by
    intro u eng hrun hw
    obtain ⟨hready, hres, new, Q, hd, -⟩ := h.run_ok hrun
    obtain ⟨-, hg, -⟩ :=
      Engine.settle_spec hready.wf ((hd.tables.trans Tables.prepend_empty) ▸ hd.valid) hres
    exact ⟨hg.target?_eq w hw, Nat.lt_of_lt_of_le hw hg.varCount_le⟩
  cases form with
  | typeDef items => cases he
  | eval e' | bind _ e' =>
    cases he
    simp only [Checker.checkForm]
    rcases hrun : (infer c.ctx c.ctx.vars e c.pool.fresh.1).run ⟨c.pool.fresh.2, {}⟩ with
      ⟨u, eng⟩ | ⟨err, eng⟩
    · rw [InferCall.final_of_ok (c := c.inferCall e) hrun] at hw ⊢
      exact hsettle hrun hw
    · rw [InferCall.final_of_error (c := c.inferCall e) hrun] at hw ⊢
      exact ⟨rfl, hw⟩

/-- Checking forms one after another links no variable that was allocated and unbound before. -/
theorem Reachable.target?_checkEach (hc : c.Reachable) {w : Nat} (hw : w < c.pool.varCount)
    (fs : List Form) : (c.checkEach fs).2.pool.target? w = c.pool.target? w := by
  induction fs generalizing c with
  | nil => rfl
  | cons f fs ih =>
    have hw' : w < (c.checkForm f).1.pool.varCount :=
      Nat.lt_of_lt_of_le hw (hc.inv.checkForm_later hc.closed f).ext.varCount_le
    exact (ih (hc.checkForm f) hw').trans (hc.target?_checkForm f hw)

end Checker

/-- Variables a `let` quantifies are never bound afterwards.  In the check of a form from any
reachable checker, at any `let` whose value was inferred, every variable generalization
quantified is allocated and unbound when the check ends, whether it succeeded or failed, and
stays unbound however many forms are checked after it. -/
theorem let_quantified_stay_unbound {c : Checker} (hc : c.Reachable) {form : Form} {e : Expr}
    (he : form.expr? = some e) {call : InferCall}
    (hcall : Relation.ReflTransGen (InferCall.Calls c.ctx) (c.inferCall e) call) {σ : Scheme}
    (hgen : call.Generalizes c.ctx σ) :
    ∀ w ∈ σ.bounded, w < ((c.inferCall e).final c.ctx).pool.varCount ∧
      ((c.inferCall e).final c.ctx).pool.target? w = none ∧
      ∀ fs : List Form, ((c.checkForm form).1.checkEach fs).2.pool.target? w = none := by
  intro w hw
  obtain ⟨hlt, hnone⟩ := ((hc.inv.good e).of_reachable hcall).generalizes hgen w hw
  obtain ⟨htarget, hlt'⟩ := hc.inv.target?_checkForm he hlt
  refine ⟨hlt, hnone, fun fs => ?_⟩
  rw [(hc.checkForm form).target?_checkEach hlt' fs, htarget, hnone]

/-- The identity function bound by a `let` and checked from the empty checker: its type
`a -> a` is generalized over the one variable `a`, which is allocated and unbound when the check
ends and stays unbound after every later form. -/
theorem let_quantified_stay_unbound_identity :
    ({} : Checker).Reachable ∧
      (Form.eval (.letIn 0 "f" (.lam 1 "x" .infer (.var 2 "x")) (.var 3 "f"))).expr? =
        some (.letIn 0 "f" (.lam 1 "x" .infer (.var 2 "x")) (.var 3 "f")) ∧
      Relation.ReflTransGen (InferCall.Calls ({} : Checker).ctx)
        (({} : Checker).inferCall (.letIn 0 "f" (.lam 1 "x" .infer (.var 2 "x")) (.var 3 "f")))
        (({} : Checker).inferCall (.letIn 0 "f" (.lam 1 "x" .infer (.var 2 "x")) (.var 3 "f"))) ∧
      (({} : Checker).inferCall (.letIn 0 "f" (.lam 1 "x" .infer (.var 2 "x")) (.var 3 "f"))).Generalizes
        ({} : Checker).ctx ⟨[2], ⟨7⟩⟩ ∧
      2 < ((({} : Checker).inferCall (.letIn 0 "f" (.lam 1 "x" .infer (.var 2 "x")) (.var 3 "f"))).final
          ({} : Checker).ctx).pool.varCount ∧
      ((({} : Checker).inferCall (.letIn 0 "f" (.lam 1 "x" .infer (.var 2 "x")) (.var 3 "f"))).final
          ({} : Checker).ctx).pool.target? 2 = none ∧
      ∀ fs : List Form, ((({} : Checker).checkForm
          (.eval (.letIn 0 "f" (.lam 1 "x" .infer (.var 2 "x")) (.var 3 "f")))).1.checkEach fs).2.pool.target? 2 =
        none := by
  -- the value's run: the parameter is variable 2 and the result variable 3 is linked to it; the
  -- function type is the first compound built, so nothing is interned before it
  have hgen : (({} : Checker).inferCall
      (.letIn 0 "f" (.lam 1 "x" .infer (.var 2 "x")) (.var 3 "f"))).Generalizes
      ({} : Checker).ctx ⟨[2], ⟨7⟩⟩ :=
    ⟨0, "f", _, _, _, _, _, _, _, rfl, rfl, rfl,
      InferCall.run_lam_of_steps rfl rfl rfl rfl (fnType_run_of_new Std.HashMap.getElem?_empty) rfl,
      rfl⟩
  exact ⟨.new, rfl, .refl, hgen, let_quantified_stay_unbound .new rfl .refl hgen 2 (by simp)⟩

end TagML
