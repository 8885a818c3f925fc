import TagML.Proofs.Infer.WellFormed
import TagML.Proofs.Ty.Footprint

/-!
Hindley–Milner typings of expressions, written out on terms.

A `Typing` gives the nodes of an expression their types, the way the tables of a checked form
do: a type for every node, a slot type for every variable reference, a type for every pattern
and a tag index for every construction.  `Derivation tags ty Γ e` says that these types form a
Hindley–Milner derivation of `e` in the environment of schemes `Γ`, with the node rules of the
language: a literal has its primitive type, an application's function has type
`argument -> result`, a conditional's condition is `Bool` and its branches have its type, a
lambda's type is `P -> body` for a `P` its annotation admits (`_` admits every type) with the
parameter bound to `P` unquantified, a match binds its pattern to the scrutinee's type
unquantified, a variable has an instance of its scheme, a construction has its tag's result
and arguments under one instantiation of the tag's quantified variables, and a let binds its
name to the value's type with exactly the variables not free in the environment quantified.

The pool side is read through `Pool.envType` and `Pool.tagType`; generalization as the pool
computes it quantifies exactly the variables the rule asks for (`mem_generalize`).
-/
namespace TagML

/-- A type scheme written out: a body with some of its variables quantified. -/
structure TermScheme where
  bounded : List Nat
  body : Term

namespace TermScheme

/-- `t` is an instance of `s`: the body with its quantified variables replaced. -/
def Instance (s : TermScheme) (t : Term) : Prop :=
  ∃ θ : Nat → Term, (∀ v, v ∉ s.bounded → θ v = .var v) ∧ t = s.body.subst θ

/-- The variables of the body that the scheme leaves free. -/
def free (s : TermScheme) : Set Nat := {v | v ∈ s.body.vars ∧ v ∉ s.bounded}

end TermScheme

/-- The free variables of an environment, shadowed bindings included. -/
def Env.free (Γ : Env TermScheme) : Set Nat := {v | ∃ b ∈ Γ.bindings, v ∈ b.2.free}

/-- A tag's signature written out. -/
structure TagType where
  index : Nat
  bounded : List Nat
  args : List Term
  result : Term

mutual
/-- The types an annotation admits for a parameter: `_` admits every type, and a named type is
taken literally. -/
def TypeExpr.Admits : TypeExpr → Term → Prop
  | .prim q, t => t = .prim q
  | .infer, _ => True
  | .fn a r, t => ∃ ta tr, t = .fn ta tr ∧ a.Admits ta ∧ r.Admits tr
  | .named n args, t => ∃ ts, t = .user n ts ∧ TypeExpr.AdmitsList args ts

def TypeExpr.AdmitsList : List TypeExpr → List Term → Prop
  | [], [] => True
  | a :: as, t :: ts => a.Admits t ∧ TypeExpr.AdmitsList as ts
  | _, _ => False
end

mutual
theorem TypeExpr.Admits.subst (σ : Nat → Term) :
    ∀ (a : TypeExpr) {t : Term}, a.Admits t → a.Admits (t.subst σ)
  | .prim q, _, h => by
    rw [TypeExpr.Admits] at h ⊢
    rw [h, Term.subst_prim]
  | .infer, _, _ => trivial
  | .fn a r, _, h => by
    obtain ⟨ta, tr, rfl, ha, hr⟩ := h
    exact ⟨ta.subst σ, tr.subst σ, rfl, Admits.subst σ a ha, Admits.subst σ r hr⟩
  | .named n args, _, h => by
    obtain ⟨ts, rfl, hts⟩ := h
    exact ⟨ts.map (Term.subst σ), Term.subst_user σ n ts, AdmitsList.subst σ args hts⟩

theorem TypeExpr.AdmitsList.subst (σ : Nat → Term) :
    ∀ (as : List TypeExpr) {ts : List Term}, TypeExpr.AdmitsList as ts →
      TypeExpr.AdmitsList as (ts.map (Term.subst σ))
  | [], [], _ => trivial
  | a :: as, _ :: _, ⟨ha, hts⟩ => ⟨Admits.subst σ a ha, AdmitsList.subst σ as hts⟩
end

/-- The types given to the nodes of an expression. -/
structure Typing where
  expr : Nat → Option Term
  slot : Nat → Option Term
  pat : Nat → Option Term
  tagIndex : Nat → Option Nat

/-- The binding a pattern adds for the first branch of a match: its name, if any, bound
unquantified to the scrutinee's type. -/
def Pattern.env (pat : Pattern) (t : Term) : Env TermScheme :=
  match pat.binder with
  | none => {}
  | some x => Env.empty.prepend x ⟨[], t⟩

/-- The typing `ty` is a Hindley–Milner derivation of the expression in `Γ`, with the tag
signatures `tags`. -/
inductive Derivation (tags : String → Option TagType) (ty : Typing) :
    Env TermScheme → Expr → Prop
  | lit {Γ : Env TermScheme} {id : Nat} {l : Literal} :
      ty.expr id = some (.prim l.prim) → Derivation tags ty Γ (.lit id l)
  | tag {Γ : Env TermScheme} {id : Nat} {name : String} {args : List Expr} {s : TagType}
      {θ : Nat → Term} :
      tags name = some s → ty.tagIndex id = some s.index →
      (∀ v, v ∉ s.bounded → θ v = .var v) →
      ty.expr id = some (s.result.subst θ) →
      List.Forall₂ (fun a t => ty.expr a.id = some (t.subst θ)) args s.args →
      (∀ a ∈ args, Derivation tags ty Γ a) → Derivation tags ty Γ (.tag id name args)
  | var {Γ : Env TermScheme} {id : Nat} {x : String} {s : TermScheme} {t : Term} :
      Γ.lookup x = some s → s.Instance t → ty.expr id = some t → ty.slot id = some t →
      Derivation tags ty Γ (.var id x)
  | lam {Γ : Env TermScheme} {id : Nat} {x : String} {ann : TypeExpr} {body : Expr}
      {P tb : Term} :
      ann.Admits P → ty.expr id = some (.fn P tb) → ty.expr body.id = some tb →
      Derivation tags ty (Γ.prepend x ⟨[], P⟩) body →
      Derivation tags ty Γ (.lam id x ann body)
  | app {Γ : Env TermScheme} {id : Nat} {f a : Expr} {ta tn : Term} :
      ty.expr f.id = some (.fn ta tn) → ty.expr a.id = some ta → ty.expr id = some tn →
      Derivation tags ty Γ f → Derivation tags ty Γ a → Derivation tags ty Γ (.app id f a)
  | ite {Γ : Env TermScheme} {id : Nat} {c a b : Expr} {tn : Term} :
      ty.expr c.id = some (.prim .bool) → ty.expr a.id = some tn → ty.expr b.id = some tn →
      ty.expr id = some tn →
      Derivation tags ty Γ c → Derivation tags ty Γ a → Derivation tags ty Γ b →
      Derivation tags ty Γ (.ite id c a b)
  | matchAs {Γ : Env TermScheme} {id : Nat} {s : Expr} {pat : Pattern} {a b : Expr}
      {ts tn : Term} :
      ty.expr s.id = some ts → ty.pat pat.id = some ts → ty.expr a.id = some tn →
      ty.expr b.id = some tn → ty.expr id = some tn →
      Derivation tags ty Γ s → Derivation tags ty ((pat.env ts).append Γ) a →
      Derivation tags ty Γ b → Derivation tags ty Γ (.matchAs id s pat a b)
  | letIn {Γ : Env TermScheme} {id : Nat} {x : String} {v b : Expr} {tv tn : Term}
      {Q : List Nat} :
      ty.expr v.id = some tv → ty.expr b.id = some tn → ty.expr id = some tn →
      (∀ w ∈ tv.vars, w ∈ Q ↔ w ∉ Γ.free) →
      Derivation tags ty Γ v → Derivation tags ty (Γ.prepend x ⟨Q, tv⟩) b →
      Derivation tags ty Γ (.letIn id x v b)

/-! ## Reading schemes, environments and tags out of a pool -/

namespace Pool

/-- The scheme `σ` written out in `p`. -/
def schemeType (p : Pool) (σ : Scheme) : TermScheme := ⟨σ.bounded, p.term σ.body⟩

/-- The environment `env` written out in `p`. -/
def envType (p : Pool) (env : Env Scheme) : Env TermScheme :=
  ⟨env.bindings.map fun b => (b.1, p.schemeType b.2), env.len⟩

/-- The tag signature `s` written out in `p`. -/
def tagType (p : Pool) (s : TagSig) : TagType := ⟨s.index, s.bounded, s.args.map p.term, p.term s.result⟩

variable {p : Pool}

@[simp] theorem envType_prepend (env : Env Scheme) (x : String) (σ : Scheme) :
    p.envType (env.prepend x σ) = (p.envType env).prepend x (p.schemeType σ) := rfl

@[simp] theorem envType_append (front back : Env Scheme) :
    p.envType (front.append back) = (p.envType front).append (p.envType back) := by
  apply Env.ext <;> simp [envType]

theorem envType_lookup (env : Env Scheme) (x : String) :
    (p.envType env).lookup x = (env.lookup x).map p.schemeType := by
  simp only [envType, Env.lookup, List.find?_map, Option.map_map]
  rfl

theorem mem_freeVarsScheme (h : p.WF) {v : Nat} (σ : Scheme) :
    v ∈ p.freeVarsScheme σ ↔ v ∈ (p.schemeType σ).free := by
  simp [freeVarsScheme, Scheme.quantifies, mem_freeVars h, schemeType, TermScheme.free]

theorem mem_freeVarsEnv (h : p.WF) {v : Nat} (env : Env Scheme) :
    v ∈ p.freeVarsEnv env ↔ v ∈ (p.envType env).free := by
  unfold freeVarsEnv
  -- the fold collects the free variables of each binding into the accumulator
  have hfold : ∀ (bs : List (String × Scheme)) (acc : List Nat),
      v ∈ bs.foldl (fun acc b => VarSet.union (p.freeVarsScheme b.2) acc) acc ↔
        v ∈ acc ∨ ∃ b ∈ bs, v ∈ p.freeVarsScheme b.2 := by
    intro bs
    induction bs with
    | nil => simp
    | cons b bs ih =>
      intro acc
      rw [List.foldl_cons, ih, VarSet.mem_union]
      simp only [List.mem_cons, exists_eq_or_imp]
      tauto
  rw [hfold]
  simp [Env.free, envType, mem_freeVarsScheme h]

/-- Generalizing quantifies exactly the variables of the type that are free nowhere in the
environment. -/
theorem mem_generalize (h : p.WF) {v : Nat} (env : Env Scheme) (t : Idx) :
    v ∈ (p.generalize env t).bounded ↔ v ∈ (p.term t).vars ∧ v ∉ (p.envType env).free := by
  simp [generalize, mem_freeVars h, mem_freeVarsEnv h]

/-- Every scheme of `env` quantifies only variables of `F`, and its other variables are
outside `F`. -/
def Respects (p : Pool) (F : Set Nat) (env : Env Scheme) : Prop :=
  ∀ b ∈ env.bindings,
    (∀ v ∈ b.2.bounded, v ∈ F) ∧ ∀ w ∈ (p.term b.2.body).vars, w ∉ b.2.bounded → w ∉ F

variable {q : Pool} {F : Set Nat} {env : Env Scheme}

theorem mem_envType_free {w : Nat} :
    w ∈ (p.envType env).free ↔ ∃ b ∈ env.bindings, w ∈ (p.term b.2.body).vars ∧ w ∉ b.2.bounded := by
  simp [Env.free, envType, TermScheme.free, schemeType]

/-- Read in a later pool that keeps `F` frozen, the free variables of an environment are
those of what its old free variables came to stand for. -/
theorem Respects.mem_free (hp : p.WF) (hq : q.WF) (he : p.Extends q) (hF : Frozen F p q)
    (hr : p.Respects F env) (hv : p.ValidEnv env) {w : Nat} :
    w ∈ (q.envType env).free ↔ ∃ u ∈ (p.envType env).free, w ∈ (q.binding u).vars := by
  simp only [mem_envType_free]
  constructor
  · rintro ⟨b, hb, hw, hwb⟩
    rw [he.term_eq_subst hp hq (hv b hb), Term.mem_vars_subst] at hw
    obtain ⟨u, hu, hwu⟩ := hw
    have hub : u ∉ b.2.bounded := by
      intro hub
      rw [binding_of_unbound hq (hF.unbound u ((hr b hb).1 u hub)), Term.vars,
        List.mem_singleton] at hwu
      exact hwb (hwu ▸ hub)
    exact ⟨u, ⟨b, hb, hu, hub⟩, hwu⟩
  · rintro ⟨u, ⟨b, hb, hu, hub⟩, hwu⟩
    refine ⟨b, hb, ?_, fun hwb => ?_⟩
    · rw [he.term_eq_subst hp hq (hv b hb), Term.mem_vars_subst]
      exact ⟨u, hu, hwu⟩
    · -- `u` is not frozen, so what it stands for mentions no frozen variable
      exact hF.avoids u (lt_varCount_of_mem_vars_term hp (hv b hb) hu)
        (target?_of_mem_vars_term hp hu) ((hr b hb).2 u hu hub) w hwu ((hr b hb).1 w hwb)

/-- Read in a later pool that keeps frozen both the environment's quantified variables and
those generalization quantifies, generalization still quantifies exactly the variables of the
type that are free nowhere in the environment. -/
theorem mem_generalize_later (hp : p.WF) (hq : q.WF) (he : p.Extends q) (hF : Frozen F p q)
    (hr : p.Respects F env) (hv : p.ValidEnv env) {t : Idx} (ht : t.raw < p.size)
    (hgen : ∀ v ∈ (p.generalize env t).bounded, v ∈ F) :
    ∀ w ∈ (q.term t).vars, w ∈ (p.generalize env t).bounded ↔ w ∉ (q.envType env).free := by
  intro w hw
  rw [he.term_eq_subst hp hq ht, Term.mem_vars_subst] at hw
  obtain ⟨u, hu, hwu⟩ := hw
  rw [hr.mem_free hp hq he hF hv]
  constructor
  · rintro hwg ⟨u', hu', hwu'⟩
    -- a free variable of the environment is not frozen, so it cannot come to mention `w`
    obtain ⟨b, hb, hu'b, hu'nb⟩ := mem_envType_free.1 hu'
    exact hF.avoids u' (lt_varCount_of_mem_vars_term hp (hv b hb) hu'b)
      (target?_of_mem_vars_term hp hu'b) ((hr b hb).2 u' hu'b hu'nb) w hwu' (hgen w hwg)
  · intro hfree
    by_cases hug : u ∈ (p.generalize env t).bounded
    · rw [binding_of_unbound hq (hF.unbound u (hgen u hug)), Term.vars,
        List.mem_singleton] at hwu
      exact hwu ▸ hug
    · have huf : u ∈ (p.envType env).free := by
        by_contra hn
        exact hug ((mem_generalize hp env t).2 ⟨hu, hn⟩)
      exact absurd ⟨u, huf, hwu⟩ hfree

end Pool

/-- The tag signatures of a context, written out in `p`. -/
def Context.tagTypes (ctx : Context) (p : Pool) (name : String) : Option TagType :=
  (ctx.lookupTag name).map p.tagType

/-! ## Tables -/

namespace Tables

/-- The entries of `new` recorded in front of those of `old`. -/
def prepend (new old : Tables) : Tables :=
  ⟨new.exprs ++ old.exprs, new.slots ++ old.slots, new.tagIndices ++ old.tagIndices,
    new.pats ++ old.pats⟩

end Tables

mutual
/-- Every node of an expression, the root first. -/
def Expr.subexprs : Expr → List Expr
  | .lit i l => [.lit i l]
  | .tag i n args => .tag i n args :: Expr.subexprsList args
  | .var i x => [.var i x]
  | .lam i x ann b => .lam i x ann b :: b.subexprs
  | .app i f a => .app i f a :: (f.subexprs ++ a.subexprs)
  | .ite i c a b => .ite i c a b :: (c.subexprs ++ a.subexprs ++ b.subexprs)
  | .matchAs i s pat a b => .matchAs i s pat a b :: (s.subexprs ++ a.subexprs ++ b.subexprs)
  | .letIn i x v b => .letIn i x v b :: (v.subexprs ++ b.subexprs)

/-- Every node of a list of expressions. -/
def Expr.subexprsList : List Expr → List Expr
  | [] => []
  | e :: es => e.subexprs ++ Expr.subexprsList es
end

namespace Expr

def isVar : Expr → Bool
  | .var .. => true
  | _ => false

def isTag : Expr → Bool
  | .tag .. => true
  | _ => false

/-- The id of a match's pattern. -/
def patId? : Expr → Option Nat
  | .matchAs _ _ pat _ _ => some pat.id
  | _ => none

/-- The ids of every node of `e`. -/
def ids (e : Expr) : List Nat := e.subexprs.map Expr.id

/-- The ids of every pattern of `e`. -/
def patIds (e : Expr) : List Nat := e.subexprs.filterMap Expr.patId?

end Expr

/-- The tables hold one entry of each kind for each of the nodes: a type for every node, a
slot for every variable reference, an index for every construction and a type for every
pattern. -/
def Tables.Covers (t : Tables) (nodes : List Expr) : Prop :=
  (t.exprs.map Prod.fst).Perm (nodes.map Expr.id) ∧
  (t.slots.map Prod.fst).Perm ((nodes.filter Expr.isVar).map Expr.id) ∧
  (t.tagIndices.map Prod.fst).Perm ((nodes.filter Expr.isTag).map Expr.id) ∧
  (t.pats.map Prod.fst).Perm (nodes.filterMap Expr.patId?)

/-- `ty` gives every node recorded in `t` the type its handle stands for in `q`. -/
def Typing.Records (ty : Typing) (q : Pool) (t : Tables) : Prop :=
  (∀ n h, (n, h) ∈ t.exprs → ty.expr n = some (q.term h)) ∧
  (∀ n h, (n, h) ∈ t.slots → ty.slot n = some (q.term h)) ∧
  (∀ n h, (n, h) ∈ t.pats → ty.pat n = some (q.term h)) ∧
  (∀ n k, (n, k) ∈ t.tagIndices → ty.tagIndex n = some k)

end TagML
