import TagML.Proofs.Infer.Calls
import TagML.Proofs.Infer.Sound
import TagML.Proofs.Reachable

/-!
The footprint of inference.

A run of `infer` writes links only by unifying, and it unifies only types it built from the
expected type, from instances of the environment's schemes and of the tag signatures, and from
variables it allocated.  An instance renames the quantified variables of its scheme or signature
apart and keeps the others, so the run can reach only the variables of the expected type, those
a scheme or a signature leaves free, and new ones (`Pool.Reach`).

The induction over expressions carries a set `Z` of variables out of that reach (`Shielded`):
allocated and unbound, mentioned by no expected type, and left free by no scheme and no
signature.  Each rule keeps `Z` frozen, on success and on failure alike: instances, fresh
variables, resolved annotations and generalized `let` schemes all stay out of `Z`, so every
unification is between types that avoid it (`infer_keeps_shielded`).  Taking for `Z` every old
unbound variable out of reach gives the footprint (`infer_links_within_reach`): a run changes
no other link, and the links it writes mention none of those variables.
-/
namespace TagML

open Pool InferM

/-- The variables the types of a tag signature leave free. -/
def TagType.free (s : TagType) : Set Nat :=
  {v | ((∃ a ∈ s.args, v ∈ a.vars) ∨ v ∈ s.result.vars) ∧ v ∉ s.bounded}

namespace Pool

variable {p q : Pool} {Z : Set Nat} {B : List Nat}

/-- The variables an inference against `t` in `env`, with the tags of `ctx`, can reach from the
pool `p` it starts from: those of `t`, those a scheme of the environment or a tag signature
leaves free, and every variable allocated since. -/
def Reach (p : Pool) (ctx : Context) (env : Env Scheme) (t : Idx) : Set Nat :=
  {v | v ∈ (p.term t).vars ∨ v ∈ (p.envType env).free ∨
    (∃ b ∈ ctx.tags.bindings, v ∈ (p.tagType b.2).free) ∨ p.varCount ≤ v}

/-- The type `i` stands for mentions no variable of `Z` outside `B`. -/
def AvoidsExcept (p : Pool) (Z : Set Nat) (B : List Nat) (i : Idx) : Prop :=
  ∀ w ∈ (p.term i).vars, w ∉ B → w ∉ Z

/-- Read in a later pool keeping `Z` frozen, a type still mentions no variable of `Z` outside
`B`: a variable of `Z` it mentioned stands for itself, and every other one for a type avoiding
`Z`. -/
theorem AvoidsExcept.later (hp : p.WF) (hq : q.WF) (he : p.Extends q) (hF : Frozen Z p q)
    {i : Idx} (hi : i.raw < p.size) (h : p.AvoidsExcept Z B i) : q.AvoidsExcept Z B i := by
  intro w hw hwB hwZ
  rw [he.term_eq_subst hp hq hi, Term.mem_vars_subst] at hw
  obtain ⟨u, hu, hwu⟩ := hw
  by_cases huZ : u ∈ Z
  · rw [binding_of_unbound hq (hF.unbound u huZ), Term.mem_vars_var] at hwu
    subst hwu
    exact h w hu hwB huZ
  · exact hF.avoids u (lt_varCount_of_mem_vars_term hp hi hu) (target?_of_mem_vars_term hp hu)
      huZ w hwu hwZ

/-- Renaming the variables of `B` apart, to variables allocated from `p` on, leaves a type that
avoids `Z` outside `B` with no variable of `Z` at all. -/
theorem AvoidsExcept.subst_renames (hZ : p.Unbound Z) {i : Idx} (h : p.AvoidsExcept Z B i)
    {ι : Nat → Term} (hι : Term.Renames ι B p.varCount) :
    ∀ w ∈ ((p.term i).subst ι).vars, w ∉ Z := by
  intro w hw
  rw [Term.mem_vars_subst] at hw
  obtain ⟨u, hu, hwu⟩ := hw
  by_cases huB : u ∈ B
  · obtain ⟨w', hw', hιu⟩ := hι.fresh u huB
    rw [hιu, Term.mem_vars_var] at hwu
    exact hwu ▸ hZ.not_mem hw'
  · rw [hι.fixes u huB, Term.mem_vars_var] at hwu
    exact hwu ▸ h u hu huB

/-- A primitive type mentions no variable. -/
theorem WF.avoids_prim (h : p.WF) (r : Prim) : ∀ w ∈ (p.term r.idx).vars, w ∉ Z := by
  rw [h.term_prim r]
  simp [Term.vars]

end Pool

/-- What inference against the handles `hs` in `env` needs of the pool it starts from to leave
the variables of `Z` alone: they are allocated and unbound, no expected type mentions one, and
no scheme of the environment and no tag signature leaves one free. -/
structure Shielded (ctx : Context) (Z : Set Nat) (env : Env Scheme) (hs : List Idx) (p : Pool) :
    Prop where
  wf : p.WF
  unbound : p.Unbound Z
  tags_valid : p.ValidTags ctx.tags
  tags_avoid : ∀ b ∈ ctx.tags.bindings,
    (∀ a ∈ b.2.args, p.AvoidsExcept Z b.2.bounded a) ∧ p.AvoidsExcept Z b.2.bounded b.2.result
  env_valid : p.ValidEnv env
  env_avoid : ∀ b ∈ env.bindings, p.AvoidsExcept Z b.2.bounded b.2.body
  valid : ∀ h ∈ hs, h.raw < p.size
  avoids : ∀ h ∈ hs, ∀ w ∈ (p.term h).vars, w ∉ Z

namespace Shielded

variable {ctx : Context} {Z : Set Nat} {env : Env Scheme} {hs : List Idx} {p q : Pool}

/-- Shielding survives into every later pool that keeps `Z` frozen. -/
theorem later (hr : Shielded ctx Z env hs p) (hq : q.WF) (he : p.Extends q) (hF : Frozen Z p q) :
    Shielded ctx Z env hs q where
  wf := hq
  unbound := hr.unbound.later he hF
  tags_valid := hr.tags_valid.mono he.size_le
  tags_avoid b hb :=
    ⟨fun a ha => ((hr.tags_avoid b hb).1 a ha).later hr.wf hq he hF ((hr.tags_valid b hb).1 a ha),
      (hr.tags_avoid b hb).2.later hr.wf hq he hF (hr.tags_valid b hb).2⟩
  env_valid := hr.env_valid.mono he.size_le
  env_avoid b hb := (hr.env_avoid b hb).later hr.wf hq he hF (hr.env_valid b hb)
  valid h hh := Nat.lt_of_lt_of_le (hr.valid h hh) he.size_le
  avoids h hh := hF.avoids_term hr.wf hq he (hr.valid h hh) (hr.avoids h hh)

/-- The same pool is shielded against other expected types that mention no variable of `Z`. -/
theorem retarget (hr : Shielded ctx Z env hs p) {hs' : List Idx}
    (hv : ∀ h ∈ hs', h.raw < p.size ∧ ∀ w ∈ (p.term h).vars, w ∉ Z) : Shielded ctx Z env hs' p :=
  { hr with valid := fun h hh => (hv h hh).1, avoids := fun h hh => (hv h hh).2 }

theorem sub (hr : Shielded ctx Z env hs p) {hs' : List Idx} (hsub : hs' ⊆ hs) :
    Shielded ctx Z env hs' p :=
  hr.retarget fun h hh => ⟨hr.valid h (hsub hh), hr.avoids h (hsub hh)⟩

/-- One more expected type that mentions no variable of `Z`. -/
theorem push (hr : Shielded ctx Z env hs p) {h : Idx} (hv : h.raw < p.size)
    (ha : ∀ w ∈ (p.term h).vars, w ∉ Z) : Shielded ctx Z env (h :: hs) p :=
  hr.retarget fun i hi => by
    rcases List.mem_cons.1 hi with rfl | hi
    exacts [⟨hv, ha⟩, ⟨hr.valid i hi, hr.avoids i hi⟩]

/-- More expected types, none mentioning a variable of `Z`. -/
theorem push_all (hr : Shielded ctx Z env hs p) {hs' : List Idx}
    (hv : ∀ h ∈ hs', h.raw < p.size ∧ ∀ w ∈ (p.term h).vars, w ∉ Z) :
    Shielded ctx Z env (hs' ++ hs) p :=
  hr.retarget fun h hh =>
    (List.mem_append.1 hh).elim (hv h) fun hh => ⟨hr.valid h hh, hr.avoids h hh⟩

/-- A function type between two expected types is one more. -/
theorem push_fn (hr : Shielded ctx Z env hs p) {a r f : Idx} (ha : a ∈ hs) (hr' : r ∈ hs)
    (hf : f.raw < p.size) (hfi : p.item f = .fn a r) : Shielded ctx Z env (f :: hs) p := by
  refine hr.push hf fun w hw => ?_
  rw [term_of_fn hr.wf hfi] at hw
  simp only [Term.vars, List.mem_append] at hw
  exact hw.elim (hr.avoids a ha w) (hr.avoids r hr' w)

/-- A binding in front of the environment whose scheme avoids `Z` outside what it quantifies. -/
theorem bind (hr : Shielded ctx Z env hs p) (x : String) {σ : Scheme} (hσ : σ.body.raw < p.size)
    (hf : p.AvoidsExcept Z σ.bounded σ.body) : Shielded ctx Z (env.prepend x σ) hs p :=
  { hr with
    env_valid := hr.env_valid.prepend x hσ
    env_avoid := fun b hb => by
      rw [Env.bindings_prepend, List.mem_cons] at hb
      rcases hb with rfl | hb
      exacts [hf, hr.env_avoid b hb] }

/-- A binding in front of the environment to a scheme over an expected type, whatever the
scheme quantifies. -/
theorem bind_expected (hr : Shielded ctx Z env hs p) (x : String) {σ : Scheme} (hh : σ.body ∈ hs) :
    Shielded ctx Z (env.prepend x σ) hs p :=
  hr.bind x (hr.valid σ.body hh) fun w hw _ => hr.avoids σ.body hh w hw

/-- Bindings in front of the environment, all to one monomorphic expected type. -/
theorem front_mono (hr : Shielded ctx Z env hs p) {front : Env Scheme} {h : Idx} (hh : h ∈ hs)
    (hfront : ∀ b ∈ front.bindings, b.2 = Scheme.mono h) :
    Shielded ctx Z (front.append env) hs p :=
  { hr with
    env_valid := ValidEnv.append (fun b hb => by rw [hfront b hb]; exact hr.valid h hh) hr.env_valid
    env_avoid := fun b hb => by
      rw [Env.bindings_append, List.mem_append] at hb
      rcases hb with hb | hb
      · rw [hfront b hb]
        exact fun w hw _ => hr.avoids h hh w hw
      · exact hr.env_avoid b hb }

/-- Unifying two expected types keeps `Z` frozen. -/
theorem unify {E : Engine} (hr : Shielded ctx Z env hs E.pool) {a b : Idx} (ha : a ∈ hs)
    (hb : b ∈ hs) (id : Nat) : Run Z (unifyAt a b id) E fun _ _ => True :=
  (InferM.unifyAt_run hr.wf hr.unbound (hr.valid a ha) (hr.valid b hb) (hr.avoids a ha)
    (hr.avoids b hb)).mono fun _ _ _ => trivial

/-- After a step that keeps `Z` frozen the pool is still shielded, so the steps of a rule
chain. -/
theorem run_bind {E : Engine} (hr : Shielded ctx Z env hs E.pool) {α β : Type} {x : InferM α}
    {f : α → InferM β} {Q : α → Engine → Prop} {R : β → Engine → Prop} (hx : Run Z x E Q)
    (hf : ∀ a E₁, Shielded ctx Z env hs E₁.pool → Q a E₁ → Run Z (f a) E₁ R) :
    Run Z (x >>= f) E R :=
  Run.bind hx fun a E₁ hwf₁ he₁ hz₁ hQ => hf a E₁ (hr.later hwf₁ he₁ hz₁) hQ

/-- A fresh variable joins the expected types: it is new, so it is not shielded. -/
theorem fresh_bind {E : Engine} (hr : Shielded ctx Z env hs E.pool) {β : Type}
    {f : Idx → InferM β} {R : β → Engine → Prop}
    (hf : ∀ h E₁, Shielded ctx Z env (h :: hs) E₁.pool → Run Z (f h) E₁ R) :
    Run Z (fresh >>= f) E R :=
  hr.run_bind (fresh_run hr.wf hr.unbound) fun h E₁ hr₁ hE₁ =>
    hf h E₁ (hr₁.push hE₁.2.2.1 (by rw [hE₁.2.2.2.1]; exact hr.unbound.avoids_var (Nat.le_refl _)))

/-- An instance of a scheme of the environment mentions no variable of `Z`. -/
theorem avoids_instance (hr : Shielded ctx Z env hs p) {x : String} {σ : Scheme}
    (hmem : (x, σ) ∈ env.bindings) {ι : Nat → Term} (hι : Term.Renames ι σ.bounded p.varCount) :
    ∀ w ∈ ((p.term σ.body).subst ι).vars, w ∉ Z :=
  (hr.env_avoid _ hmem).subst_renames hr.unbound hι

end Shielded

/-! ## The rules -/

section Rules

variable {ctx : Context}

/-- Inference of `e`, against any expected type, keeps frozen every set of variables shielded
from it. -/
def KeepsShielded (ctx : Context) (e : Expr) : Prop :=
  ∀ (Z : Set Nat) (env : Env Scheme) (t : Idx) (E₀ : Engine), Shielded ctx Z env [t] E₀.pool →
    Run Z (infer ctx env e t) E₀ fun _ _ => True

/-- `KeepsShielded` for the arguments of a construction, each against its own type. -/
def ArgsKeepShielded (ctx : Context) (args : List Expr) : Prop :=
  ∀ (Z : Set Nat) (env : Env Scheme) (ts : List Idx) (E₀ : Engine),
    Shielded ctx Z env ts E₀.pool → Run Z (inferArgs ctx env args ts) E₀ fun _ _ => True

theorem lit_keeps (id : Nat) (l : Literal) : KeepsShielded ctx (.lit id l) := by
  intro Z env t E₀ hr
  rw [infer]
  refine hr.run_bind (recordExpr_run hr.wf hr.unbound) fun _ E₁ hr₁ _ => ?_
  exact (hr₁.push (hr₁.wf.prim l.prim).1 (hr₁.wf.avoids_prim l.prim)).unify
    (List.mem_cons_of_mem _ List.mem_cons_self) List.mem_cons_self id

theorem tag_keeps {id : Nat} {name : String} {args : List Expr}
    (hargs : ArgsKeepShielded ctx args) : KeepsShielded ctx (.tag id name args) := by
  intro Z env t E₀ hr
  rw [infer]
  refine hr.run_bind (recordExpr_run hr.wf hr.unbound) fun _ E₁ hr₁ _ => ?_
  cases hl : ctx.lookupTag name with
  | none => exact Run.throw hr₁.wf hr₁.unbound
  | some sig =>
  have hmem : (name, sig) ∈ ctx.tags.bindings := Env.mem_of_lookup hl
  obtain ⟨hav, hresv⟩ := hr₁.tags_valid _ hmem
  obtain ⟨hargZ, hresZ⟩ := hr₁.tags_avoid _ hmem
  refine hr₁.run_bind (instantiateTag_run hr₁.wf hr₁.unbound hav hresv) fun r E₂ hr₂ hE₂ => ?_
  obtain ⟨-, -, ι, hι, hall, hrv, hrt⟩ := hE₂
  obtain ⟨argTys, result⟩ := r
  -- the instances rename the signature's quantified variables apart and keep the others,
  -- none of which is shielded
  have hargs₂ : ∀ a' ∈ argTys, a'.raw < E₂.pool.size ∧ ∀ w ∈ (E₂.pool.term a').vars, w ∉ Z := by
    have hall' := ((List.forall₂_and_left _ _).2 ⟨hargZ, hall.flip⟩).flip
    refine ((List.forall₂_and_left _ _).1 (hall'.imp fun a' a h => ⟨?_, h⟩)).1
    rw [h.2.2]
    exact ⟨h.2.1, h.1.subst_renames hr₁.unbound hι⟩
  have hr₂' : Shielded ctx Z env (result :: (argTys ++ [t])) E₂.pool :=
    (hr₂.push_all hargs₂).push hrv (by rw [hrt]; exact hresZ.subst_renames hr₁.unbound hι)
  refine hr₂'.run_bind (recordTagIndex_run hr₂'.wf hr₂'.unbound) fun _ E₃ hr₃ _ => ?_
  split
  · exact Run.throw hr₃.wf hr₃.unbound
  refine hr₃.run_bind (hargs Z env argTys E₃ (hr₃.sub fun h hh =>
    List.mem_cons_of_mem _ (List.mem_append_left _ hh))) fun _ E₄ hr₄ _ => ?_
  exact hr₄.unify (by simp) (by simp) id

theorem var_keeps (id : Nat) (name : String) : KeepsShielded ctx (.var id name) := by
  intro Z env t E₀ hr
  rw [infer]
  refine hr.run_bind (recordExpr_run hr.wf hr.unbound) fun _ E₁ hr₁ _ => ?_
  cases hl : env.lookup name with
  | none => exact Run.throw hr₁.wf hr₁.unbound
  | some σ =>
  have hmem := Env.mem_of_lookup hl
  refine hr₁.run_bind (instantiate_run hr₁.wf hr₁.unbound (hr₁.env_valid _ hmem))
    fun inst E₂ hr₂ hE₂ => ?_
  obtain ⟨-, -, hiv, ι, hι, hinst⟩ := hE₂
  have hr₂' := hr₂.push hiv (by rw [hinst]; exact hr₁.avoids_instance hmem hι)
  refine hr₂'.fresh_bind fun slot E₃ hr₃ => ?_
  refine hr₃.run_bind (recordSlot_run hr₃.wf hr₃.unbound) fun _ E₄ hr₄ _ => ?_
  refine hr₄.run_bind (hr₄.unify (by simp) (by simp) id) fun _ E₅ hr₅ _ => ?_
  exact hr₅.unify (by simp) (by simp) id

theorem lam_keeps {id : Nat} {x : String} {ann : TypeExpr} {body : Expr}
    (hb : KeepsShielded ctx body) : KeepsShielded ctx (.lam id x ann body) := by
  intro Z env t E₀ hr
  rw [infer]
  refine hr.run_bind (recordExpr_run hr.wf hr.unbound) fun _ E₁ hr₁ _ => ?_
  refine hr₁.run_bind (resolveType_run hr₁.wf hr₁.unbound ann) fun param E₂ hr₂ hE₂ => ?_
  -- the annotation's variables are all new
  have hr₂' := hr₂.push hE₂.2.2.1 fun w hw => hr₁.unbound.not_mem (hE₂.2.2.2.2 w hw)
  refine hr₂'.fresh_bind fun ret E₃ hr₃ => ?_
  have hbody : Shielded ctx Z (env.prepend x (Scheme.mono param)) [ret] E₃.pool :=
    (hr₃.bind_expected x (by simp [Scheme.mono])).sub (by simp)
  refine hr₃.run_bind (hb Z _ ret E₃ hbody) fun _ E₄ hr₄ _ => ?_
  refine hr₄.run_bind (fnType_run hr₄.wf hr₄.unbound (hr₄.valid param (by simp))
    (hr₄.valid ret (by simp))) fun ft E₅ hr₅ hE₅ => ?_
  exact (hr₅.push_fn (by simp) (by simp) hE₅.2.2.1 hE₅.2.2.2).unify (by simp) (by simp) id

theorem app_keeps {id : Nat} {f a : Expr} (hf : KeepsShielded ctx f) (ha : KeepsShielded ctx a) :
    KeepsShielded ctx (.app id f a) := by
  intro Z env t E₀ hr
  rw [infer]
  refine hr.run_bind (recordExpr_run hr.wf hr.unbound) fun _ E₁ hr₁ _ => ?_
  refine hr₁.fresh_bind fun argTy E₂ hr₂ => ?_
  refine hr₂.run_bind (fnType_run hr₂.wf hr₂.unbound (hr₂.valid argTy (by simp))
    (hr₂.valid t (by simp))) fun ft E₃ hr₃ hE₃ => ?_
  -- the function is checked against `argument -> expected`, the argument against its variable
  have hr₃' := hr₃.push_fn (by simp) (by simp) hE₃.2.2.1 hE₃.2.2.2
  refine hr₃'.run_bind (hf Z env ft E₃ (hr₃'.sub (by simp))) fun _ E₄ hr₄ _ => ?_
  exact ha Z env argTy E₄ (hr₄.sub (by simp))

theorem ite_keeps {id : Nat} {c a b : Expr} (hc : KeepsShielded ctx c) (ha : KeepsShielded ctx a)
    (hb : KeepsShielded ctx b) : KeepsShielded ctx (.ite id c a b) := by
  intro Z env t E₀ hr
  rw [infer]
  refine hr.run_bind (recordExpr_run hr.wf hr.unbound) fun _ E₁ hr₁ _ => ?_
  -- the condition is checked against `Bool`, which has no variables
  have hrc : Shielded ctx Z env [Prim.bool.idx] E₁.pool :=
    (hr₁.push (hr₁.wf.prim .bool).1 (hr₁.wf.avoids_prim .bool)).sub fun h hh =>
      List.mem_singleton.1 hh ▸ List.mem_cons_self
  refine hr₁.run_bind (hc Z env _ E₁ hrc) fun _ E₂ hr₂ _ => ?_
  refine hr₂.run_bind (ha Z env t E₂ hr₂) fun _ E₃ hr₃ _ => ?_
  exact hb Z env t E₃ hr₃

theorem match_keeps {id : Nat} {sc : Expr} {pat : Pattern} {a b : Expr}
    (hsc : KeepsShielded ctx sc) (ha : KeepsShielded ctx a) (hb : KeepsShielded ctx b) :
    KeepsShielded ctx (.matchAs id sc pat a b) := by
  intro Z env t E₀ hr
  rw [infer]
  refine hr.run_bind (recordExpr_run hr.wf hr.unbound) fun _ E₁ hr₁ _ => ?_
  refine hr₁.fresh_bind fun scTy E₂ hr₂ => ?_
  refine hr₂.fresh_bind fun slot E₃ hr₃ => ?_
  refine hr₃.run_bind (recordPat_run hr₃.wf hr₃.unbound) fun _ E₄ hr₄ _ => ?_
  refine hr₄.run_bind (hr₄.unify (by simp) (by simp) id) fun _ E₅ hr₅ _ => ?_
  -- the branch that matched is checked with the pattern's bindings, all to the scrutinee's type
  suffices h : ∀ front : Env Scheme, (∀ e ∈ front.bindings, e.2 = Scheme.mono scTy) →
      Run Z (do
        infer ctx env sc scTy
        infer ctx (front.append env) a t
        infer ctx env b t) E₅ fun _ _ => True by
    dsimp only
    split
    · exact h {} fun e he => absurd he List.not_mem_nil
    · refine h _ fun e he => ?_
      rw [Env.bindings_prepend, List.mem_cons] at he
      rcases he with rfl | he
      exacts [rfl, absurd he List.not_mem_nil]
  intro front hfront
  refine hr₅.run_bind (hsc Z env scTy E₅ (hr₅.sub (by simp))) fun _ E₆ hr₆ _ => ?_
  refine hr₆.run_bind (ha Z _ t E₆ ((hr₆.front_mono (by simp) hfront).sub (by simp)))
    fun _ E₇ hr₇ _ => ?_
  exact hb Z env t E₇ (hr₇.sub (by simp))

theorem let_keeps {id : Nat} {x : String} {v b : Expr} (hv : KeepsShielded ctx v)
    (hb : KeepsShielded ctx b) : KeepsShielded ctx (.letIn id x v b) := by
  intro Z env t E₀ hr
  rw [infer]
  refine hr.run_bind (recordExpr_run hr.wf hr.unbound) fun _ E₁ hr₁ _ => ?_
  refine hr₁.fresh_bind fun vTy E₂ hr₂ => ?_
  refine hr₂.run_bind (hv Z env vTy E₂ (hr₂.sub (by simp))) fun _ E₃ hr₃ _ => ?_
  refine hr₃.run_bind (generalize_run hr₃.wf hr₃.unbound) fun σ E₃' _ hg => ?_
  rw [hg.1, hg.2]
  -- the scheme's body is the value's type, which mentions no shielded variable at all, so
  -- whatever generalization quantifies the binding avoids `Z`
  have hbody : (E₃.pool.generalize env vTy).body ∈ vTy :: [t] := List.mem_cons_self
  exact hb Z _ t E₃ ((hr₃.bind_expected x hbody).sub (by simp))

theorem args_keeps_nil : ArgsKeepShielded ctx [] := by
  intro Z env ts E₀ hr
  cases ts <;> exact Run.pure hr.wf hr.unbound trivial

theorem args_keeps_cons {e : Expr} {es : List Expr} (he : KeepsShielded ctx e)
    (hes : ArgsKeepShielded ctx es) : ArgsKeepShielded ctx (e :: es) := by
  intro Z env ts E₀ hr
  cases ts with
  | nil => exact Run.pure hr.wf hr.unbound trivial
  | cons t ts =>
    rw [inferArgs]
    refine Run.bind (he Z env t E₀ (hr.sub (by simp))) fun _ E₁ hwf₁ he₁ hz₁ _ => ?_
    exact hes Z env ts E₁ ((hr.later hwf₁ he₁ hz₁).sub (by simp))

end Rules

mutual
/-- Inference keeps frozen, whether it succeeds or fails, every set of variables shielded from
it: they stay unbound, and no variable it links comes to mention one of them. -/
theorem infer_keeps_shielded (ctx : Context) : ∀ e : Expr, KeepsShielded ctx e
  | .lit id l => lit_keeps id l
  | .tag _ _ args => tag_keeps (inferArgs_keeps_shielded ctx args)
  | .var id name => var_keeps id name
  | .lam _ _ _ body => lam_keeps (infer_keeps_shielded ctx body)
  | .app _ f a => app_keeps (infer_keeps_shielded ctx f) (infer_keeps_shielded ctx a)
  | .ite _ c a b =>
    ite_keeps (infer_keeps_shielded ctx c) (infer_keeps_shielded ctx a) (infer_keeps_shielded ctx b)
  | .matchAs _ sc _ a b =>
    match_keeps (infer_keeps_shielded ctx sc) (infer_keeps_shielded ctx a)
      (infer_keeps_shielded ctx b)
  | .letIn _ _ v b => let_keeps (infer_keeps_shielded ctx v) (infer_keeps_shielded ctx b)

theorem inferArgs_keeps_shielded (ctx : Context) : ∀ args : List Expr, ArgsKeepShielded ctx args
  | [] => args_keeps_nil
  | e :: es => args_keeps_cons (infer_keeps_shielded ctx e) (inferArgs_keeps_shielded ctx es)
end

/-- The unbound variables out of an inference's reach are shielded from it. -/
theorem Shielded.of_reach {ctx : Context} {env : Env Scheme} {p : Pool} {t : Idx} {Z : Set Nat}
    (hp : p.WF) (htags : p.ValidTags ctx.tags) (henv : p.ValidEnv env) (ht : t.raw < p.size)
    (hZ : p.Unbound Z) (hZR : ∀ z ∈ Z, z ∉ p.Reach ctx env t) : Shielded ctx Z env [t] p where
  wf := hp
  unbound := hZ
  tags_valid := htags
  tags_avoid b hb := by
    refine ⟨fun a ha w hw hwb hwZ => ?_, fun w hw hwb hwZ => ?_⟩
    · exact hZR w hwZ (Or.inr (Or.inr (Or.inl ⟨b, hb, Or.inl ⟨p.term a, List.mem_map_of_mem ha, hw⟩, hwb⟩)))
    · exact hZR w hwZ (Or.inr (Or.inr (Or.inl ⟨b, hb, Or.inr hw, hwb⟩)))
  env_valid := henv
  env_avoid b hb w hw hwb hwZ :=
    hZR w hwZ (Or.inr (Or.inl (mem_envType_free.2 ⟨b, hb, hw, hwb⟩)))
  valid h hh := List.mem_singleton.1 hh ▸ ht
  avoids h hh w hw hwZ := hZR w hwZ (Or.inl (List.mem_singleton.1 hh ▸ hw))

/-- The footprint of inference.  From a reachable pool, a run of `infer`, whether it succeeds
or fails, changes the link of a variable only if the variable was unbound when the run started
and the run could reach it: a variable of the expected type, one that a scheme of the
environment or a tag signature leaves free, or one the run allocated.  Moreover every set of
old unbound variables out of reach stays frozen: none is linked, and no variable the run links
comes to stand for a type mentioning one.  In particular a variable that a scheme or a signature
quantifies, and that is free nowhere else and absent from the expected type, is never linked.
The context and the environment are arguments of the run, which it cannot change. -/
theorem infer_links_within_reach {ctx : Context} {env : Env Scheme} {E : Engine} {t : Idx}
    (e : Expr) (hp : E.pool.Reachable) (htags : E.pool.ValidTags ctx.tags)
    (henv : E.pool.ValidEnv env) (ht : t.raw < E.pool.size) :
    (∀ v, (InferM.after (infer ctx env e t) E).pool.target? v ≠ E.pool.target? v →
      E.pool.target? v = none ∧ v ∈ E.pool.Reach ctx env t) ∧
    ∀ Z : Set Nat, E.pool.Unbound Z → (∀ z ∈ Z, z ∉ E.pool.Reach ctx env t) →
      Frozen Z E.pool (InferM.after (infer ctx env e t) E).pool := by
  have hwf := hp.wf
  have hfrozen : ∀ Z : Set Nat, E.pool.Unbound Z → (∀ z ∈ Z, z ∉ E.pool.Reach ctx env t) →
      Frozen Z E.pool (InferM.after (infer ctx env e t) E).pool := fun Z hZ hZR =>
    (infer_keeps_shielded ctx e Z env t E
      (Shielded.of_reach hwf htags henv ht hZ hZR)).after.2.2
  refine ⟨fun v hv => ?_, hfrozen⟩
  have hext := (infer_keeps_shielded ctx e ∅ env t E
    (Shielded.of_reach hwf htags henv ht (fun _ hz => absurd hz id) fun _ hz => absurd hz id)).after.2.1
  -- a link written before the run is kept
  have hnone : E.pool.target? v = none := by
    cases h : E.pool.target? v with
    | none => rfl
    | some t' => exact absurd (h ▸ hext.target?_of v t' h) hv
  refine ⟨hnone, Classical.byContradiction fun hvR => hv ?_⟩
  -- an old unbound variable out of reach is frozen
  have hlt : v < E.pool.varCount := Nat.lt_of_not_le fun hle => hvR (Or.inr (Or.inr (Or.inr hle)))
  have hZ : E.pool.Unbound {v} := fun z hz => (Set.mem_singleton_iff.1 hz) ▸ ⟨hlt, hnone⟩
  rw [hnone]
  exact (hfrozen {v} hZ fun z hz => (Set.mem_singleton_iff.1 hz) ▸ hvR).unbound v rfl


/-- A reference to `f : forall a. a -> b`, with `b` linked to `Int`, checked against `Bool -> c`
at the pool of `reachable_fn_pair`: `c` is within the run's reach, the quantified `a` is not, and
`a` stays unbound whatever the run does. -/
theorem infer_links_within_reach_scheme :
    ∃ q : Pool, q = (((({} : Pool).fresh.2.fresh.2.fn ⟨6⟩ ⟨7⟩).2.unify ⟨7⟩
        Prim.int.idx).1.fresh.2.fn Prim.bool.idx ⟨9⟩).2 ∧ q.Reachable ∧ q.ValidTags ({} : Context).tags ∧
      q.ValidEnv ⟨[("f", ⟨[0], ⟨8⟩⟩)], 1⟩ ∧ (⟨10⟩ : Idx).raw < q.size ∧
      2 ∈ q.Reach {} ⟨[("f", ⟨[0], ⟨8⟩⟩)], 1⟩ ⟨10⟩ ∧ 0 ∉ q.Reach {} ⟨[("f", ⟨[0], ⟨8⟩⟩)], 1⟩ ⟨10⟩ ∧
      (InferM.after (infer {} ⟨[("f", ⟨[0], ⟨8⟩⟩)], 1⟩ (.var 1 "f") ⟨10⟩) ⟨q, {}⟩).pool.target? 0 =
        none := by
  obtain ⟨q, hq⟩ : ∃ q, q = (((({} : Pool).fresh.2.fresh.2.fn ⟨6⟩ ⟨7⟩).2.unify ⟨7⟩
      Prim.int.idx).1.fresh.2.fn Prim.bool.idx ⟨9⟩).2 := ⟨_, rfl⟩
  have hr : q.Reachable := hq ▸ Pool.reachable_fn_pair
  -- the pool itself, both function types interned at its end
  have hval := hq
  rw [Pool.fn_second_compound, Pool.fn_first_compound] at hval
  have hv : q.ValidTags ({} : Context).tags := fun b hb => absurd hb List.not_mem_nil
  have he : q.ValidEnv ⟨[("f", ⟨[0], ⟨8⟩⟩)], 1⟩ := fun b hb => by
    rw [List.mem_singleton.1 hb, hval]
    decide
  have ht : (⟨10⟩ : Idx).raw < q.size := by rw [hval]; decide
  have hvars : (q.term ⟨10⟩).vars = [2] := by rw [hval]; rfl
  have hvc : q.varCount = 3 := by rw [hval]; rfl
  -- `0` is not in the expected type, the scheme quantifies it, there are no tags, and it is old
  have hout : 0 ∉ q.Reach {} ⟨[("f", ⟨[0], ⟨8⟩⟩)], 1⟩ ⟨10⟩ := by
    rintro (h | h | h | h)
    · rw [hvars] at h
      exact absurd h (by decide)
    · obtain ⟨b, hb, -, hwb⟩ := mem_envType_free.1 h
      rw [List.mem_singleton.1 hb] at hwb
      exact hwb (List.mem_singleton_self 0)
    · obtain ⟨b, hb, -⟩ := h
      exact absurd hb List.not_mem_nil
    · rw [hvc] at h
      omega
  refine ⟨q, hq, hr, hv, he, ht, Or.inl (hvars ▸ List.mem_singleton_self 2), hout,
    Classical.byContradiction fun h0 => hout ?_⟩
  have h0' : q.target? 0 = none := by rw [hval]; decide
  exact ((infer_links_within_reach (E := ⟨q, {}⟩) (.var 1 "f") hr hv he ht).1 0
    (by rw [h0']; exact h0)).2

end TagML
