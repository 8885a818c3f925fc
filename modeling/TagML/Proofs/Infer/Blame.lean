import TagML.Diagnostic
import TagML.Proofs.Checker

/-!
Every failure of a check names a node of the checked expression.

Inference fails in three ways: a unification at a node fails, a construction names a tag the
context lacks or gives it the wrong number of arguments, or a variable names nothing in scope.
Each rule attributes the failure it raises to its own node when it raises it, and nothing
between the rule and the checker drops or replaces the attribution.  `Expr.Blames` lists the
failures a node raises itself; `infer_raises` carries them from each rule up to the check of
the whole expression, and `checkForm_error_blames` to the checker, whose diagnostics therefore
always end with the note naming the node.  Two rules check before they do anything else: a
construction checks its number of arguments before inferring any of them, and a variable is
looked up before any unification.
-/
namespace TagML

open InferM

namespace Env

variable {α : Type}

/-- `inner` binds every name `outer` binds: the environment of a check nested in one whose
environment is `outer`, with the binders between them in front. -/
def Inside (inner outer : Env α) : Prop := ∀ x, inner.lookup x = none → outer.lookup x = none

theorem Inside.refl (e : Env α) : e.Inside e := fun _ h => h

theorem inside_prepend (e : Env α) (name : String) (v : α) : (e.prepend name v).Inside e := by
  intro x h
  by_cases hx : x = name
  · subst hx
    rw [lookup_prepend_self] at h
    cases h
  · rwa [lookup_prepend_of_ne _ _ hx] at h

theorem inside_append (front e : Env α) : (front.append e).Inside e := by
  intro x h
  rw [lookup_append, Option.or_eq_none_iff] at h
  exact h.2

end Env

/-! ## The failures a node raises itself -/

namespace Expr

/-- `n.Blames ctx vars err`: checking node `n` raises `err` itself and attributes it to `n`, in
a check whose outermost variable environment is `vars`.  Applications, conditionals and lets
raise nothing of their own. -/
inductive Blames (ctx : Context) (vars : Env Scheme) : Expr → CheckError → Prop
  /-- The literal's primitive does not unify with the expected type. -/
  | lit {id : Nat} {l : Literal} (u : UnifyError) :
      Blames ctx vars (.lit id l) ((Cause.unify u).atNode id)
  | undefinedTag {id : Nat} {name : String} {args : List Expr} (h : ctx.lookupTag name = none) :
      Blames ctx vars (.tag id name args) ((Cause.undefinedTag name).atNode id)
  | tagArity {id : Nat} {name : String} {args : List Expr} {sig : TagSig}
      (h : ctx.lookupTag name = some sig) (hn : args.length ≠ sig.arity) :
      Blames ctx vars (.tag id name args) ((Cause.tagArity name sig.arity args.length).atNode id)
  /-- The result type of a construction with the right number of arguments does not unify with
  the expected type. -/
  | tagResult {id : Nat} {name : String} {args : List Expr} {sig : TagSig}
      (h : ctx.lookupTag name = some sig) (hn : args.length = sig.arity) (u : UnifyError) :
      Blames ctx vars (.tag id name args) ((Cause.unify u).atNode id)
  /-- The name has no binding in `vars`. -/
  | undefinedVar {id : Nat} {name : String} (h : vars.lookup name = none) :
      Blames ctx vars (.var id name) ((Cause.undefinedVar name).atNode id)
  /-- The instance of the variable's scheme does not unify with its slot or the expected type. -/
  | varInstance {id : Nat} {name : String} (u : UnifyError) :
      Blames ctx vars (.var id name) ((Cause.unify u).atNode id)
  /-- The function type does not unify with the expected type. -/
  | lam {id : Nat} {x : String} {ann : TypeExpr} {body : Expr} (u : UnifyError) :
      Blames ctx vars (.lam id x ann body) ((Cause.unify u).atNode id)
  /-- The pattern's slot does not unify with the scrutinee's variable. -/
  | matchSlot {id : Nat} {scrut : Expr} {pat : Pattern} {t e : Expr} (u : UnifyError) :
      Blames ctx vars (.matchAs id scrut pat t e) ((Cause.unify u).atNode id)

variable {ctx : Context} {vars inner : Env Scheme} {n : Expr} {err : CheckError}

/-- A node's own failure is attributed to it. -/
theorem Blames.expr_eq (h : n.Blames ctx vars err) : err.expr = some n.id := by
  cases h <;> rfl

/-- A node's own failure in an environment with more bindings in front is one in the outer
environment as well. -/
theorem Blames.of_inner (h : n.Blames ctx inner err) (hv : inner.Inside vars) :
    n.Blames ctx vars err := by
  cases h with
  | undefinedVar h => exact .undefinedVar (hv _ h)
  | _ => constructor <;> assumption

end Expr

/-- Some node of `nodes` raises `err` itself. -/
def Blamed (ctx : Context) (vars : Env Scheme) (nodes : List Expr) (err : CheckError) : Prop :=
  ∃ n ∈ nodes, n.Blames ctx vars err

theorem Blamed.weaken {ctx : Context} {vars inner : Env Scheme} {ns ns' : List Expr}
    {err : CheckError} (h : Blamed ctx inner ns err) (hs : ∀ n ∈ ns, n ∈ ns')
    (hv : inner.Inside vars) : Blamed ctx vars ns' err := by
  obtain ⟨n, hn, hb⟩ := h
  exact ⟨n, hs n hn, hb.of_inner hv⟩

/-! ## The failures a run can raise -/

namespace InferM

variable {α β : Type} {P Q : CheckError → Prop}

/-- Every failure of a run of `x`, from any engine, satisfies `P`. -/
def Raises (P : CheckError → Prop) (x : InferM α) : Prop :=
  ∀ e err e', x.run e = .error err e' → P err

namespace Raises

protected theorem pure (a : α) : Raises P (pure a : InferM α) := by
  intro _ _ _ h
  cases h

protected theorem throw {err : CheckError} (h : P err) : Raises P (throw err : InferM α) := by
  intro _ _ _ hr
  cases hr
  exact h

protected theorem bind {x : InferM α} {f : α → InferM β} (hx : Raises P x)
    (hf : ∀ a, Raises P (f a)) : Raises P (x >>= f) := by
  intro e err e' h
  rw [run_bind] at h
  rcases hrun : x.run e with ⟨a, e₁⟩ | ⟨err₁, e₁⟩
  · rw [hrun] at h
    exact hf a e₁ err e' h
  · rw [hrun] at h
    cases h
    exact hx e err _ hrun

/-- A failure raised outright ends the run, whatever was to follow. -/
theorem throw_bind {err : CheckError} (h : P err) (f : α → InferM β) :
    Raises P (throw err >>= f) := by
  intro _ _ _ hr
  rw [run_bind] at hr
  cases hr
  exact h

theorem withPool (f : Pool → α × Pool) : Raises P (InferM.withPool f) := by
  intro e _ _ h
  rw [withPool_run] at h
  cases h

theorem modify (g : Engine → Engine) : Raises P (modify g : InferM PUnit) := by
  intro _ _ _ h
  cases h

theorem get : Raises P (get : InferM Engine) := by
  intro _ _ _ h
  cases h

theorem mono {x : InferM α} (hx : Raises P x) (h : ∀ err, P err → Q err) : Raises Q x :=
  fun e err e' hr => h err (hx e err e' hr)

end Raises

/-- A unification at node `id` fails only with a unification failure attributed to `id`. -/
theorem unifyAt_raises (a b : Idx) (id : Nat) :
    Raises (fun err => ∃ u, err = (Cause.unify u).atNode id) (unifyAt a b id) := by
  unfold unifyAt
  refine (Raises.withPool _).bind fun r => ?_
  split
  · exact Raises.pure _
  · exact Raises.throw ⟨_, rfl⟩

/-- A unification issued by the rule of a node that blames every unification failure at its
id on itself. -/
theorem unifyAt_blamed {ctx : Context} {vars : Env Scheme} {ns : List Expr} {n : Expr}
    (hn : n ∈ ns) (hb : ∀ u, n.Blames ctx vars ((Cause.unify u).atNode n.id)) (a b : Idx) :
    Raises (Blamed ctx vars ns) (unifyAt a b n.id) :=
  (unifyAt_raises a b n.id).mono fun _ hu => by
    obtain ⟨u, rfl⟩ := hu
    exact ⟨n, hn, hb u⟩

/-- The failures of checking a part, in an environment inside the node's own, are failures of
some node of the whole. -/
theorem Raises.part {α : Type} {ctx : Context} {inner vars : Env Scheme} {ns ns' : List Expr}
    {x : InferM α} (hx : Raises (Blamed ctx inner ns) x) (hs : ∀ n ∈ ns, n ∈ ns')
    (hv : inner.Inside vars) : Raises (Blamed ctx vars ns') x :=
  hx.mono fun _ h => h.weaken hs hv

end InferM

/-! ## Inference -/

mutual
/-- Every failure of inference is raised by a node of the checked expression itself. -/
theorem infer_raises (ctx : Context) :
    ∀ (env : Env Scheme) (e : Expr) (t : Idx), Raises (Blamed ctx env e.subexprs) (infer ctx env e t)
  | env, .lit id l, t => by
    rw [infer]
    exact (Raises.modify _).bind fun _ =>
      unifyAt_blamed (n := .lit id l) (by simp [Expr.subexprs]) .lit _ _
  | env, .tag id name args, t => by
    rw [infer]
    refine (Raises.modify _).bind fun _ => ?_
    cases hsig : ctx.lookupTag name with
    | none =>
      exact Raises.throw ⟨.tag id name args, by simp [Expr.subexprs], .undefinedTag hsig⟩
    | some sig =>
      refine (Raises.withPool _).bind fun r => ?_
      obtain ⟨argTys, result⟩ := r
      refine (Raises.modify _).bind fun _ => ?_
      dsimp only
      -- the number of arguments is checked before any of them is inferred
      split
      · next harity =>
        exact Raises.throw_bind ⟨.tag id name args, by simp [Expr.subexprs], .tagArity hsig harity⟩ _
      · next harity =>
        have hargs : Raises (Blamed ctx env (Expr.tag id name args).subexprs)
            (inferArgs ctx env args argTys) :=
          (inferArgs_raises ctx env args argTys).part (fun _ hn => by simp [Expr.subexprs, hn])
            (.refl _)
        exact hargs.bind fun _ => unifyAt_blamed (n := .tag id name args) (by simp [Expr.subexprs])
          (.tagResult hsig (not_not.mp harity)) _ _
  | env, .var id name, t => by
    rw [infer]
    refine (Raises.modify _).bind fun _ => ?_
    cases hlook : env.lookup name with
    | none => exact Raises.throw ⟨.var id name, by simp [Expr.subexprs], .undefinedVar hlook⟩
    | some σ =>
      -- both unifications are issued at the variable's own node
      have hu : ∀ a b, Raises (Blamed ctx env (Expr.var id name).subexprs) (unifyAt a b id) :=
        unifyAt_blamed (n := .var id name) (by simp [Expr.subexprs]) .varInstance
      exact (Raises.withPool _).bind fun _ => (Raises.withPool _).bind fun _ =>
        (Raises.modify _).bind fun _ => (hu _ _).bind fun _ => hu _ _
  | env, .lam id x ann body, t => by
    rw [infer]
    refine (Raises.modify _).bind fun _ => (Raises.withPool _).bind fun _ =>
      (Raises.withPool _).bind fun _ => ?_
    refine ((infer_raises ctx _ body _).part (fun _ hn => by simp [Expr.subexprs, hn])
      (Env.inside_prepend _ _ _)).bind fun _ => ?_
    exact (Raises.withPool _).bind fun _ =>
      unifyAt_blamed (n := .lam id x ann body) (by simp [Expr.subexprs]) .lam _ _
  | env, .app id f a, t => by
    rw [infer]
    refine (Raises.modify _).bind fun _ => (Raises.withPool _).bind fun _ =>
      (Raises.withPool _).bind fun _ => ?_
    exact ((infer_raises ctx env f _).part (fun _ hn => by simp [Expr.subexprs, hn]) (.refl _)).bind
      fun _ => (infer_raises ctx env a _).part (fun _ hn => by simp [Expr.subexprs, hn]) (.refl _)
  | env, .ite id c a b, t => by
    rw [infer]
    refine (Raises.modify _).bind fun _ => ?_
    refine ((infer_raises ctx env c _).part (fun _ hn => by simp [Expr.subexprs, hn]) (.refl _)).bind
      fun _ => ?_
    exact ((infer_raises ctx env a _).part (fun _ hn => by simp [Expr.subexprs, hn]) (.refl _)).bind
      fun _ => (infer_raises ctx env b _).part (fun _ hn => by simp [Expr.subexprs, hn]) (.refl _)
  | env, .matchAs id scrut pat a b, t => by
    rw [infer]
    refine (Raises.modify _).bind fun _ => (Raises.withPool _).bind fun _ =>
      (Raises.withPool _).bind fun _ => (Raises.modify _).bind fun _ => ?_
    -- the pattern's slot is unified at the match node itself
    refine (unifyAt_blamed (n := .matchAs id scrut pat a b) (by simp [Expr.subexprs])
      .matchSlot _ _).bind fun _ => ?_
    refine ((infer_raises ctx env scrut _).part (fun _ hn => by simp [Expr.subexprs, hn])
      (.refl _)).bind fun _ => ?_
    exact ((infer_raises ctx _ a _).part (fun _ hn => by simp [Expr.subexprs, hn])
      (Env.inside_append _ _)).bind fun _ =>
        (infer_raises ctx env b _).part (fun _ hn => by simp [Expr.subexprs, hn]) (.refl _)
  | env, .letIn id x v b, t => by
    rw [infer]
    refine (Raises.modify _).bind fun _ => (Raises.withPool _).bind fun _ => ?_
    refine ((infer_raises ctx env v _).part (fun _ hn => by simp [Expr.subexprs, hn])
      (.refl _)).bind fun _ => (Raises.get.bind fun _ => Raises.pure _).bind fun _ => ?_
    exact (infer_raises ctx _ b _).part (fun _ hn => by simp [Expr.subexprs, hn])
      (Env.inside_prepend _ _ _)

/-- Every failure of checking the arguments of a construction is raised by a node of one of
them. -/
theorem inferArgs_raises (ctx : Context) (env : Env Scheme) :
    ∀ (es : List Expr) (ts : List Idx),
      Raises (Blamed ctx env (Expr.subexprsList es)) (inferArgs ctx env es ts)
  | e :: es, t :: ts => by
    rw [inferArgs]
    exact ((infer_raises ctx env e t).part (fun _ hn => by simp [Expr.subexprsList, hn])
      (.refl _)).bind fun _ =>
        (inferArgs_raises ctx env es ts).part (fun _ hn => by simp [Expr.subexprsList, hn]) (.refl _)
  | [], _ => Raises.pure _
  | _ :: _, [] => Raises.pure _
end

/-! ## Checks made first -/

/-- A construction with the wrong number of arguments fails with the arity error before any
argument is inferred: the only expression it records is itself. -/
theorem infer_tag_arity (ctx : Context) (env : Env Scheme) {id : Nat} {name : String}
    {args : List Expr} {sig : TagSig} (t : Idx) (E : Engine) (hsig : ctx.lookupTag name = some sig)
    (harity : args.length ≠ sig.arity) :
    ∃ E', (infer ctx env (.tag id name args) t).run E =
        .error ((Cause.tagArity name sig.arity args.length).atNode id) E' ∧
      E'.tables.exprs = (id, t) :: E.tables.exprs := by
  rw [infer]
  simp only [hsig, ne_eq, harity, not_false_eq_true, if_true]
  exact ⟨_, rfl, rfl⟩

/-- A variable the environment does not bind fails before any unification: the pool is left as
the check found it. -/
theorem infer_var_undefined (ctx : Context) (env : Env Scheme) {id : Nat} {name : String} (t : Idx)
    (E : Engine) (hlook : env.lookup name = none) :
    ∃ E', (infer ctx env (.var id name) t).run E = .error ((Cause.undefinedVar name).atNode id) E' ∧
      E'.pool = E.pool := by
  rw [infer]
  simp only [hlook]
  exact ⟨_, rfl, rfl⟩

/-! ## The checker -/

/-- A form fails to check only when inference of its expression fails, with the same error. -/
theorem Checker.checkForm_error {c : Checker} {form : Form} {err : CheckError}
    (h : (c.checkForm form).2 = .error err) :
    ∃ e, form.expr? = some e ∧ ∃ eng,
      (infer c.ctx c.ctx.vars e c.pool.fresh.1).run ⟨c.pool.fresh.2, {}⟩ = .error err eng := by
  cases form with
  | typeDef items => cases h
  | eval e | bind _ e =>
    simp only [Checker.checkForm] at h
    rcases hrun : (infer c.ctx c.ctx.vars e c.pool.fresh.1).run ⟨c.pool.fresh.2, {}⟩ with
      ⟨u, eng⟩ | ⟨err', eng⟩
    · rw [hrun] at h
      cases h
    · rw [hrun] at h
      cases h
      exact ⟨e, rfl, eng, hrun⟩

/-- A diagnostic displays ending with the line of its last note. -/
theorem Diagnostic.display_of_notes {d : Diagnostic} {notes : List String} {note : String}
    (h : d.notes = notes ++ [note]) : ∃ pre, d.display = pre ++ "\n  = note: " ++ note := by
  refine ⟨"error [" ++ d.code.text ++ "]: " ++ d.message ++
    String.join (notes.map fun n => "\n  = note: " ++ n), ?_⟩
  simp [Diagnostic.display, h, String.append_assoc]

/-- The diagnostic of a failure attributed to a node ends with the note naming the node. -/
theorem CheckError.diagnostic_of_expr {err : CheckError} {id : Nat} (h : err.expr = some id)
    (s : Pool) :
    (err.diagnostic s).notes.getLast? = some ("while checking expression #" ++ toString id) ∧
      ∃ pre, (err.diagnostic s).display =
        pre ++ "\n  = note: while checking expression #" ++ toString id := by
  have hnotes : (err.diagnostic s).notes =
      (err.cause.explain s).2 ++ ["while checking expression #" ++ toString id] := by
    simp only [CheckError.diagnostic, h]
  obtain ⟨pre, hpre⟩ := Diagnostic.display_of_notes hnotes
  refine ⟨by rw [hnotes, List.getLast?_concat], pre, ?_⟩
  rw [hpre]
  simp only [String.append_assoc]
  -- the note's prefix and its text are one literal in the statement
  congr 1

/-- Every failure of the checker is attributed to a node of the failing form's expression, the
node whose own rule raised it: the construction for an unknown tag or a wrong number of
arguments, the variable for an unbound name (unbound in the context's variables as well), the
match for its pattern's slot, and otherwise the node whose rule issued the failing
unification.  Its diagnostic, printed against any pool, ends with the note naming that node.
A construction checks its number of arguments before inferring any of them, and a variable is
looked up before any unification. -/
theorem checkForm_error_blames :
    (∀ (c : Checker) (form : Form) (err : CheckError), (c.checkForm form).2 = .error err →
      ∃ e, form.expr? = some e ∧ ∃ n ∈ e.subexprs, n.Blames c.ctx c.ctx.vars err ∧
        err.expr = some n.id ∧ ∀ s : Pool,
          (err.diagnostic s).notes.getLast? = some ("while checking expression #" ++ toString n.id) ∧
          ∃ pre, (err.diagnostic s).display =
            pre ++ "\n  = note: while checking expression #" ++ toString n.id) ∧
    (∀ (ctx : Context) (env : Env Scheme) (id : Nat) (name : String) (args : List Expr)
      (sig : TagSig) (t : Idx) (E : Engine), ctx.lookupTag name = some sig →
      args.length ≠ sig.arity → ∃ E',
        (infer ctx env (.tag id name args) t).run E =
          .error ((Cause.tagArity name sig.arity args.length).atNode id) E' ∧
        E'.tables.exprs = (id, t) :: E.tables.exprs) ∧
    ∀ (ctx : Context) (env : Env Scheme) (id : Nat) (name : String) (t : Idx) (E : Engine),
      env.lookup name = none → ∃ E',
        (infer ctx env (.var id name) t).run E = .error ((Cause.undefinedVar name).atNode id) E' ∧
        E'.pool = E.pool := by
  refine ⟨fun c form err h => ?_, fun ctx env _ _ _ _ t E hsig harity =>
    infer_tag_arity ctx env t E hsig harity, fun ctx env _ _ t E hlook =>
    infer_var_undefined ctx env t E hlook⟩
  obtain ⟨e, he, eng, hrun⟩ := Checker.checkForm_error h
  obtain ⟨n, hn, hb⟩ := infer_raises c.ctx c.ctx.vars e _ _ err eng hrun
  have hid := hb.expr_eq
  exact ⟨e, he, n, hn, hb, hid, CheckError.diagnostic_of_expr hid⟩

/-- The context the checks below run in: one tag `Nil` of no arguments. -/
private def nilContext : Context :=
  { tags := Env.empty.prepend "Nil" ⟨"Nil", 0, [], [], Prim.unit.idx⟩ }

theorem checkForm_error_blames_unbound :
    (({} : Checker).checkForm (.eval (.var 0 "x"))).2 = .error ((Cause.undefinedVar "x").atNode 0) ∧
      (Expr.var 0 "x").Blames ({} : Checker).ctx ({} : Checker).ctx.vars
        ((Cause.undefinedVar "x").atNode 0) ∧
      (∃ E', (infer nilContext {} (.tag 1 "Nil" [.var 0 "x"]) Prim.unit.idx).run { pool := {} } =
        .error ((Cause.tagArity "Nil" 0 1).atNode 1) E' ∧
        E'.tables.exprs = [(1, Prim.unit.idx)]) ∧
      ∃ E', (infer nilContext {} (.var 0 "x") Prim.unit.idx).run { pool := {} } =
        .error ((Cause.undefinedVar "x").atNode 0) E' ∧ E'.pool = {} := by
  have hrun : (({} : Checker).checkForm (.eval (.var 0 "x"))).2 =
      .error ((Cause.undefinedVar "x").atNode 0) := rfl
  obtain ⟨e, he, n, hn, hb, -⟩ := checkForm_error_blames.1 {} _ _ hrun
  cases he
  simp only [Expr.subexprs, List.mem_singleton] at hn
  subst hn
  exact ⟨hrun, hb, checkForm_error_blames.2.1 nilContext {} 1 "Nil" [.var 0 "x"] _ _ _ rfl
    (by decide), checkForm_error_blames.2.2 nilContext {} 0 "x" _ _ rfl⟩

end TagML
