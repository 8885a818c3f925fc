import TagML.Proofs.Embed.Skip

/-!
The calls inference makes.

One call of inference is an environment, an expression, the type the expression is checked
against and the engine the check starts from (`InferCall`).  `InferCall.Calls ctx c c'` says
that running `c` makes the call `c'` itself: `c'` checks an immediate part of `c`'s expression,
every step its rule takes before that part succeeded, and `c'` starts from the engine those
steps left.  Its reflexive–transitive closure from the call a form starts with is the tree of
calls of that check, failing calls included.

The run of a call is the run of each call it makes followed by the rest of its rule
(`run_tagArg` … `run_letBody`); this is how a fact about one call is carried up to the call
that made it.  `InferM.after` is the engine a run ends in, on success or on failure.
-/
namespace TagML

open Pool InferM

namespace InferM

variable {α β : Type} {Z : Set Nat} {x : InferM α} {e e' : Engine}

/-- The engine a run of `x` from `e` ends in, whether it succeeds or fails. -/
def after (x : InferM α) (e : Engine) : Engine :=
  match x.run e with
  | .ok _ e' => e'
  | .error _ e' => e'

theorem after_of_ok {a : α} (h : x.run e = .ok a e') : after x e = e' := by
  rw [after, h]

theorem after_of_error {err : CheckError} (h : x.run e = .error err e') : after x e = e' := by
  rw [after, h]

theorem after_congr {y : InferM α} {e₁ : Engine} (h : x.run e = y.run e₁) :
    after x e = after y e₁ := by
  rw [after, after, h]

theorem run_bind_of_ok {a : α} (h : x.run e = .ok a e') (f : α → InferM β) :
    (x >>= f).run e = (f a).run e' := by
  rw [run_bind, h]

theorem run_bind_of_error {err : CheckError} (h : x.run e = .error err e') (f : α → InferM β) :
    (x >>= f).run e = .error err e' := by
  rw [run_bind, h]

theorem after_bind_ok {a : α} (h : x.run e = .ok a e') (f : α → InferM β) :
    after (x >>= f) e = after (f a) e' :=
  after_congr (run_bind_of_ok h f)

theorem after_bind_error {err : CheckError} (h : x.run e = .error err e') (f : α → InferM β) :
    after (x >>= f) e = e' := by
  rw [after, run_bind_of_error h f]

/-- Whatever a run guarantees holds of the engine it ends in. -/
theorem Run.after {Q : α → Engine → Prop} (h : Run Z x e Q) :
    (after x e).pool.WF ∧ e.pool.Extends (after x e).pool ∧ Frozen Z e.pool (after x e).pool := by
  unfold Run at h
  unfold InferM.after
  revert h
  cases x.run e with
  | ok a e' => exact fun h => ⟨h.1, h.2.1, h.2.2.1⟩
  | error err e' => exact id

end InferM

/-- Checking the arguments of a construction in two parts. -/
theorem inferArgs_append (ctx : Context) (env : Env Scheme) (post : List Expr) (postTs : List Idx) :
    ∀ (pre : List Expr) (preTs : List Idx), pre.length = preTs.length →
      inferArgs ctx env (pre ++ post) (preTs ++ postTs) =
        (inferArgs ctx env pre preTs >>= fun _ => inferArgs ctx env post postTs)
  | [], [], _ => by
    show inferArgs ctx env post postTs = (pure () >>= fun _ => inferArgs ctx env post postTs)
    rw [pure_bind]
  | e :: pre, t :: preTs, h => by
    rw [List.cons_append, List.cons_append, inferArgs, inferArgs, bind_assoc,
      inferArgs_append ctx env post postTs pre preTs (Nat.succ.inj h)]
  | [], _ :: _, h => absurd h (by simp)
  | _ :: _, [], h => absurd h (by simp)

/-- The bindings the first branch of a match sees in front of the environment: the pattern's
name, if it has one, unquantified at the scrutinee's type. -/
def Pattern.schemes (pat : Pattern) (t : Idx) : Env Scheme :=
  match pat.binder with
  | none => {}
  | some x => Env.empty.prepend x (Scheme.mono t)

/-- One call of inference: check `expr` against `expected` in `env`, from `engine`. -/
structure InferCall where
  env : Env Scheme
  expr : Expr
  expected : Idx
  engine : Engine

namespace InferCall

variable (ctx : Context)

/-- The run of a call. -/
def run (c : InferCall) : EStateM.Result CheckError Engine Unit :=
  (infer ctx c.env c.expr c.expected).run c.engine

/-- The engine a call ends in, whether it succeeds or fails. -/
def final (c : InferCall) : Engine :=
  InferM.after (infer ctx c.env c.expr c.expected) c.engine

variable {ctx} in
theorem final_of_ok {c : InferCall} {u : Unit} {E' : Engine} (h : c.run ctx = .ok u E') :
    c.final ctx = E' :=
  after_of_ok h

variable {ctx} in
theorem final_of_error {c : InferCall} {err : CheckError} {E' : Engine}
    (h : c.run ctx = .error err E') : c.final ctx = E' :=
  after_of_error h

/-- `Calls ctx c c'`: running `c` makes the call `c'`, on an immediate part of `c`'s
expression, once every step of the rule before it has succeeded. -/
inductive Calls : InferCall → InferCall → Prop
  /-- A construction checks its arguments in order, each once those before it succeeded. -/
  | tagArg {env : Env Scheme} {id : Nat} {name : String} {args pre post : List Expr} {a : Expr}
      {t result ta : Idx} {argTys preTs postTs : List Idx} {sig : TagSig}
      {E E₁ E₂ E₃ E₄ : Engine}
      (h₁ : (recordExpr id t).run E = .ok () E₁) (hsig : ctx.lookupTag name = some sig)
      (h₂ : (instantiateTag sig).run E₁ = .ok (argTys, result) E₂)
      (h₃ : (recordTagIndex id sig.index).run E₂ = .ok () E₃) (harity : args.length = sig.arity)
      (hargs : args = pre ++ a :: post) (htys : argTys = preTs ++ ta :: postTs)
      (hpre : pre.length = preTs.length) (h₄ : (inferArgs ctx env pre preTs).run E₃ = .ok () E₄) :
      Calls ⟨env, .tag id name args, t, E⟩ ⟨env, a, ta, E₄⟩
  | lamBody {env : Env Scheme} {id : Nat} {x : String} {ann : TypeExpr} {body : Expr}
      {t param ret : Idx} {E E₁ E₂ E₃ : Engine}
      (h₁ : (recordExpr id t).run E = .ok () E₁) (h₂ : (resolveType ann).run E₁ = .ok param E₂)
      (h₃ : fresh.run E₂ = .ok ret E₃) :
      Calls ⟨env, .lam id x ann body, t, E⟩ ⟨env.prepend x (Scheme.mono param), body, ret, E₃⟩
  | appFn {env : Env Scheme} {id : Nat} {f a : Expr} {t argTy ft : Idx} {E E₁ E₂ E₃ : Engine}
      (h₁ : (recordExpr id t).run E = .ok () E₁) (h₂ : fresh.run E₁ = .ok argTy E₂)
      (h₃ : (fnType argTy t).run E₂ = .ok ft E₃) :
      Calls ⟨env, .app id f a, t, E⟩ ⟨env, f, ft, E₃⟩
  | appArg {env : Env Scheme} {id : Nat} {f a : Expr} {t argTy ft : Idx} {E E₁ E₂ E₃ E₄ : Engine}
      (h₁ : (recordExpr id t).run E = .ok () E₁) (h₂ : fresh.run E₁ = .ok argTy E₂)
      (h₃ : (fnType argTy t).run E₂ = .ok ft E₃) (h₄ : (infer ctx env f ft).run E₃ = .ok () E₄) :
      Calls ⟨env, .app id f a, t, E⟩ ⟨env, a, argTy, E₄⟩
  | iteCond {env : Env Scheme} {id : Nat} {cond a b : Expr} {t : Idx} {E E₁ : Engine}
      (h₁ : (recordExpr id t).run E = .ok () E₁) :
      Calls ⟨env, .ite id cond a b, t, E⟩ ⟨env, cond, Prim.bool.idx, E₁⟩
  | iteThen {env : Env Scheme} {id : Nat} {cond a b : Expr} {t : Idx} {E E₁ E₂ : Engine}
      (h₁ : (recordExpr id t).run E = .ok () E₁)
      (h₂ : (infer ctx env cond Prim.bool.idx).run E₁ = .ok () E₂) :
      Calls ⟨env, .ite id cond a b, t, E⟩ ⟨env, a, t, E₂⟩
  | iteElse {env : Env Scheme} {id : Nat} {cond a b : Expr} {t : Idx} {E E₁ E₂ E₃ : Engine}
      (h₁ : (recordExpr id t).run E = .ok () E₁)
      (h₂ : (infer ctx env cond Prim.bool.idx).run E₁ = .ok () E₂)
      (h₃ : (infer ctx env a t).run E₂ = .ok () E₃) :
      Calls ⟨env, .ite id cond a b, t, E⟩ ⟨env, b, t, E₃⟩
  | matchScrut {env : Env Scheme} {id : Nat} {sc a b : Expr} {pat : Pattern} {t scTy slot : Idx}
      {E E₁ E₂ E₃ E₄ E₅ : Engine}
      (h₁ : (recordExpr id t).run E = .ok () E₁) (h₂ : fresh.run E₁ = .ok scTy E₂)
      (h₃ : fresh.run E₂ = .ok slot E₃) (h₄ : (recordPat pat.id slot).run E₃ = .ok () E₄)
      (h₅ : (unifyAt slot scTy id).run E₄ = .ok () E₅) :
      Calls ⟨env, .matchAs id sc pat a b, t, E⟩ ⟨env, sc, scTy, E₅⟩
  | matchThen {env : Env Scheme} {id : Nat} {sc a b : Expr} {pat : Pattern} {t scTy slot : Idx}
      {E E₁ E₂ E₃ E₄ E₅ E₆ : Engine}
      (h₁ : (recordExpr id t).run E = .ok () E₁) (h₂ : fresh.run E₁ = .ok scTy E₂)
      (h₃ : fresh.run E₂ = .ok slot E₃) (h₄ : (recordPat pat.id slot).run E₃ = .ok () E₄)
      (h₅ : (unifyAt slot scTy id).run E₄ = .ok () E₅)
      (h₆ : (infer ctx env sc scTy).run E₅ = .ok () E₆) :
      Calls ⟨env, .matchAs id sc pat a b, t, E⟩ ⟨(pat.schemes scTy).append env, a, t, E₆⟩
  | matchElse {env : Env Scheme} {id : Nat} {sc a b : Expr} {pat : Pattern} {t scTy slot : Idx}
      {E E₁ E₂ E₃ E₄ E₅ E₆ E₇ : Engine}
      (h₁ : (recordExpr id t).run E = .ok () E₁) (h₂ : fresh.run E₁ = .ok scTy E₂)
      (h₃ : fresh.run E₂ = .ok slot E₃) (h₄ : (recordPat pat.id slot).run E₃ = .ok () E₄)
      (h₅ : (unifyAt slot scTy id).run E₄ = .ok () E₅)
      (h₆ : (infer ctx env sc scTy).run E₅ = .ok () E₆)
      (h₇ : (infer ctx ((pat.schemes scTy).append env) a t).run E₆ = .ok () E₇) :
      Calls ⟨env, .matchAs id sc pat a b, t, E⟩ ⟨env, b, t, E₇⟩
  | letValue {env : Env Scheme} {id : Nat} {x : String} {v b : Expr} {t vTy : Idx}
      {E E₁ E₂ : Engine}
      (h₁ : (recordExpr id t).run E = .ok () E₁) (h₂ : fresh.run E₁ = .ok vTy E₂) :
      Calls ⟨env, .letIn id x v b, t, E⟩ ⟨env, v, vTy, E₂⟩
  | letBody {env : Env Scheme} {id : Nat} {x : String} {v b : Expr} {t vTy : Idx} {σ : Scheme}
      {E E₁ E₂ E₃ E₄ : Engine}
      (h₁ : (recordExpr id t).run E = .ok () E₁) (h₂ : fresh.run E₁ = .ok vTy E₂)
      (h₃ : (infer ctx env v vTy).run E₂ = .ok () E₃)
      (h₄ : (InferM.generalize env vTy).run E₃ = .ok σ E₄) :
      Calls ⟨env, .letIn id x v b, t, E⟩ ⟨env.prepend x σ, b, t, E₄⟩

/-! ## The run of a call through the calls it makes -/

section Rules

variable {ctx} {env : Env Scheme} {id : Nat} {t : Idx} {E E₁ E₂ E₃ E₄ E₅ E₆ E₇ : Engine}

theorem run_tagArg {name : String} {pre post : List Expr} {a : Expr} {result ta : Idx}
    {preTs postTs : List Idx} {sig : TagSig}
    (h₁ : (recordExpr id t).run E = .ok () E₁) (hsig : ctx.lookupTag name = some sig)
    (h₂ : (instantiateTag sig).run E₁ = .ok (preTs ++ ta :: postTs, result) E₂)
    (h₃ : (recordTagIndex id sig.index).run E₂ = .ok () E₃)
    (harity : (pre ++ a :: post).length = sig.arity) (hpre : pre.length = preTs.length)
    (h₄ : (inferArgs ctx env pre preTs).run E₃ = .ok () E₄) :
    (infer ctx env (.tag id name (pre ++ a :: post)) t).run E =
      (infer ctx env a ta >>= fun _ =>
        inferArgs ctx env post postTs >>= fun _ => unifyAt t result id).run E₄ := by
  rw [infer]
  simp only [run_bind_of_ok h₁, hsig, run_bind_of_ok h₂, run_bind_of_ok h₃, harity, ne_eq,
    not_true_eq_false, if_false]
  rw [inferArgs_append ctx env _ _ pre preTs hpre, bind_assoc, run_bind_of_ok h₄, inferArgs,
    bind_assoc]

theorem run_lamBody {x : String} {ann : TypeExpr} {body : Expr} {param ret : Idx}
    (h₁ : (recordExpr id t).run E = .ok () E₁) (h₂ : (resolveType ann).run E₁ = .ok param E₂)
    (h₃ : fresh.run E₂ = .ok ret E₃) :
    (infer ctx env (.lam id x ann body) t).run E =
      (infer ctx (env.prepend x (Scheme.mono param)) body ret >>= fun _ =>
        fnType param ret >>= fun ft => unifyAt t ft id).run E₃ := by
  rw [infer]
  simp only [run_bind_of_ok h₁, run_bind_of_ok h₂, run_bind_of_ok h₃]

/-- A function's rule succeeds when each of its steps does: the node and the annotation, a
variable for the result, the body against it, and the function type against the expected one. -/
theorem run_lam_of_steps {x : String} {ann : TypeExpr} {body : Expr} {param ret ft : Idx}
    (h₁ : (recordExpr id t).run E = .ok () E₁) (h₂ : (resolveType ann).run E₁ = .ok param E₂)
    (h₃ : fresh.run E₂ = .ok ret E₃)
    (h₄ : (infer ctx (env.prepend x (Scheme.mono param)) body ret).run E₃ = .ok () E₄)
    (h₅ : (fnType param ret).run E₄ = .ok ft E₅) (h₆ : (unifyAt t ft id).run E₅ = .ok () E₆) :
    (infer ctx env (.lam id x ann body) t).run E = .ok () E₆ := by
  rw [run_lamBody h₁ h₂ h₃, run_bind_of_ok h₄, run_bind_of_ok h₅, h₆]

theorem run_appFn {f a : Expr} {argTy ft : Idx}
    (h₁ : (recordExpr id t).run E = .ok () E₁) (h₂ : fresh.run E₁ = .ok argTy E₂)
    (h₃ : (fnType argTy t).run E₂ = .ok ft E₃) :
    (infer ctx env (.app id f a) t).run E =
      (infer ctx env f ft >>= fun _ => infer ctx env a argTy).run E₃ := by
  rw [infer]
  simp only [run_bind_of_ok h₁, run_bind_of_ok h₂, run_bind_of_ok h₃]

theorem run_appArg {f a : Expr} {argTy ft : Idx}
    (h₁ : (recordExpr id t).run E = .ok () E₁) (h₂ : fresh.run E₁ = .ok argTy E₂)
    (h₃ : (fnType argTy t).run E₂ = .ok ft E₃) (h₄ : (infer ctx env f ft).run E₃ = .ok () E₄) :
    (infer ctx env (.app id f a) t).run E = (infer ctx env a argTy).run E₄ := by
  rw [run_appFn h₁ h₂ h₃, run_bind_of_ok h₄]

theorem run_iteCond {cond a b : Expr} (h₁ : (recordExpr id t).run E = .ok () E₁) :
    (infer ctx env (.ite id cond a b) t).run E =
      (infer ctx env cond Prim.bool.idx >>= fun _ =>
        infer ctx env a t >>= fun _ => infer ctx env b t).run E₁ := by
  rw [infer, run_bind_of_ok h₁]

theorem run_iteThen {cond a b : Expr} (h₁ : (recordExpr id t).run E = .ok () E₁)
    (h₂ : (infer ctx env cond Prim.bool.idx).run E₁ = .ok () E₂) :
    (infer ctx env (.ite id cond a b) t).run E =
      (infer ctx env a t >>= fun _ => infer ctx env b t).run E₂ := by
  rw [run_iteCond h₁, run_bind_of_ok h₂]

theorem run_iteElse {cond a b : Expr} (h₁ : (recordExpr id t).run E = .ok () E₁)
    (h₂ : (infer ctx env cond Prim.bool.idx).run E₁ = .ok () E₂)
    (h₃ : (infer ctx env a t).run E₂ = .ok () E₃) :
    (infer ctx env (.ite id cond a b) t).run E = (infer ctx env b t).run E₃ := by
  rw [run_iteThen h₁ h₂, run_bind_of_ok h₃]

theorem run_matchScrut {sc a b : Expr} {pat : Pattern} {scTy slot : Idx}
    (h₁ : (recordExpr id t).run E = .ok () E₁) (h₂ : fresh.run E₁ = .ok scTy E₂)
    (h₃ : fresh.run E₂ = .ok slot E₃) (h₄ : (recordPat pat.id slot).run E₃ = .ok () E₄)
    (h₅ : (unifyAt slot scTy id).run E₄ = .ok () E₅) :
    (infer ctx env (.matchAs id sc pat a b) t).run E =
      (infer ctx env sc scTy >>= fun _ =>
        infer ctx ((pat.schemes scTy).append env) a t >>= fun _ => infer ctx env b t).run E₅ := by
  rw [infer]
  simp only [run_bind_of_ok h₁, run_bind_of_ok h₂, run_bind_of_ok h₃, run_bind_of_ok h₄,
    run_bind_of_ok h₅]
  rfl

theorem run_matchThen {sc a b : Expr} {pat : Pattern} {scTy slot : Idx}
    (h₁ : (recordExpr id t).run E = .ok () E₁) (h₂ : fresh.run E₁ = .ok scTy E₂)
    (h₃ : fresh.run E₂ = .ok slot E₃) (h₄ : (recordPat pat.id slot).run E₃ = .ok () E₄)
    (h₅ : (unifyAt slot scTy id).run E₄ = .ok () E₅)
    (h₆ : (infer ctx env sc scTy).run E₅ = .ok () E₆) :
    (infer ctx env (.matchAs id sc pat a b) t).run E =
      (infer ctx ((pat.schemes scTy).append env) a t >>= fun _ => infer ctx env b t).run E₆ := by
  rw [run_matchScrut h₁ h₂ h₃ h₄ h₅, run_bind_of_ok h₆]

theorem run_matchElse {sc a b : Expr} {pat : Pattern} {scTy slot : Idx}
    (h₁ : (recordExpr id t).run E = .ok () E₁) (h₂ : fresh.run E₁ = .ok scTy E₂)
    (h₃ : fresh.run E₂ = .ok slot E₃) (h₄ : (recordPat pat.id slot).run E₃ = .ok () E₄)
    (h₅ : (unifyAt slot scTy id).run E₄ = .ok () E₅)
    (h₆ : (infer ctx env sc scTy).run E₅ = .ok () E₆)
    (h₇ : (infer ctx ((pat.schemes scTy).append env) a t).run E₆ = .ok () E₇) :
    (infer ctx env (.matchAs id sc pat a b) t).run E = (infer ctx env b t).run E₇ := by
  rw [run_matchThen h₁ h₂ h₃ h₄ h₅ h₆, run_bind_of_ok h₇]

theorem run_letValue {x : String} {v b : Expr} {vTy : Idx}
    (h₁ : (recordExpr id t).run E = .ok () E₁) (h₂ : fresh.run E₁ = .ok vTy E₂) :
    (infer ctx env (.letIn id x v b) t).run E =
      (infer ctx env v vTy >>= fun _ =>
        InferM.generalize env vTy >>= fun σ => infer ctx (env.prepend x σ) b t).run E₂ := by
  rw [infer]
  simp only [run_bind_of_ok h₁, run_bind_of_ok h₂]

theorem run_letBody {x : String} {v b : Expr} {vTy : Idx} {σ : Scheme}
    (h₁ : (recordExpr id t).run E = .ok () E₁) (h₂ : fresh.run E₁ = .ok vTy E₂)
    (h₃ : (infer ctx env v vTy).run E₂ = .ok () E₃)
    (h₄ : (InferM.generalize env vTy).run E₃ = .ok σ E₄) :
    (infer ctx env (.letIn id x v b) t).run E = (infer ctx (env.prepend x σ) b t).run E₄ := by
  rw [run_letValue h₁ h₂, run_bind_of_ok h₃, run_bind_of_ok h₄]

end Rules

end InferCall

end TagML
