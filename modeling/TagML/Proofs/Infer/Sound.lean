import TagML.Proofs.Infer.Steps

/-!
Inference is sound for the Hindley–Milner system of `Derivation`.

A run of `infer` proves nothing on its own about the types it records: they are handles,
and what they stand for changes with every later unification.  What a successful run does
establish is a derivation for its expression in every later pool that keeps frozen the
variables the environment's schemes and the tag signatures quantify, together with those the
`let`s of the expression generalized.  The induction over expressions carries this as the
success condition of a `Run`, with what the run recorded and which variables it may have bound
(`Done`).  What a `let` generalizes is new to the run, since the value's inference binds only
variables of its expected type, of the environment and new ones (`Done.confined`); so every
older type that mentions none of them keeps mentioning none.
-/
namespace TagML

open Pool InferM

namespace Pool

variable {p q : Pool} {F F' : Set Nat}

theorem Unbound.not_mem (h : p.Unbound F) {w : Nat} (hw : p.varCount ≤ w) : w ∉ F :=
  fun hwZ => Nat.not_le_of_lt (h w hwZ).1 hw

/-- A variable allocated after `p` mentions no frozen variable. -/
theorem Unbound.avoids_var (h : p.Unbound F) {n : Nat} (hn : p.varCount ≤ n) :
    ∀ w ∈ (Term.var n).vars, w ∉ F :=
  fun _ hw => List.mem_singleton.1 hw ▸ h.not_mem hn

/-- Every tag signature quantifies only variables of `F`, and its types mention only variables
it quantifies. -/
def TagsClosed (p : Pool) (F : Set Nat) (tags : Env TagSig) : Prop :=
  ∀ b ∈ tags.bindings, (∀ v ∈ b.2.bounded, v ∈ F) ∧
    (∀ a ∈ b.2.args, ∀ w ∈ (p.term a).vars, w ∈ b.2.bounded) ∧
    ∀ w ∈ (p.term b.2.result).vars, w ∈ b.2.bounded

theorem TagsClosed.later {tags : Env TagSig} (hp : p.WF) (hq : q.WF) (he : p.Extends q)
    (hF : Frozen F' p q) (hv : p.ValidTags tags) (hc : p.TagsClosed F tags) (hFF : F ⊆ F') :
    q.TagsClosed F' tags := by
  intro b hb
  obtain ⟨hbF, hargs, hres⟩ := hc b hb
  -- the types mention only frozen variables, so `q` reads them as `p` does
  have hsame : ∀ a : Idx, a.raw < p.size → (∀ w ∈ (p.term a).vars, w ∈ b.2.bounded) →
      q.term a = p.term a :=
    fun a ha haw => hF.term_eq hp hq he ha fun w hw => hFF (hbF w (haw w hw))
  refine ⟨fun v hv' => hFF (hbF v hv'), fun a ha => ?_, ?_⟩
  · rw [hsame a ((hv b hb).1 a ha) (hargs a ha)]
    exact hargs a ha
  · rw [hsame _ (hv b hb).2 hres]
    exact hres

theorem TagsClosed.mono {tags : Env TagSig} (hc : p.TagsClosed F tags) (hFF : F ⊆ F') :
    p.TagsClosed F' tags :=
  fun b hb => ⟨fun v hv => hFF ((hc b hb).1 v hv), (hc b hb).2⟩

/-- An environment that respects `F` respects any larger set that adds only variables
allocated later, in every later pool keeping the larger set frozen. -/
theorem Respects.later {env : Env Scheme} (hp : p.WF) (hq : q.WF) (he : p.Extends q)
    (hF : Frozen F' p q) (hv : p.ValidEnv env) (hr : p.Respects F env) (hFF : F ⊆ F')
    (hnew : ∀ v ∈ F', v ∉ F → p.varCount ≤ v) : q.Respects F' env := by
  intro b hb
  refine ⟨fun v hvb => hFF ((hr b hb).1 v hvb), fun w hw hwb hwF => ?_⟩
  rw [he.term_eq_subst hp hq (hv b hb), Term.mem_vars_subst] at hw
  obtain ⟨u, hu, hwu⟩ := hw
  have huc := lt_varCount_of_mem_vars_term hp (hv b hb) hu
  by_cases hub : u ∈ b.2.bounded
  · -- a quantified variable is frozen, so it stands for itself
    rw [binding_of_unbound hq (hF.unbound u (hFF ((hr b hb).1 u hub))), Term.vars,
      List.mem_singleton] at hwu
    exact hwb (hwu ▸ hub)
  · have huF' : u ∉ F' := by
      intro huF'
      by_cases huF : u ∈ F
      · exact (hr b hb).2 u hu hub huF
      · exact Nat.not_le_of_lt huc (hnew u huF' huF)
    exact hF.avoids u huc (target?_of_mem_vars_term hp hu) huF' w hwu hwF

theorem Respects.prepend {env : Env Scheme} (hr : p.Respects F env) (x : String) {σ : Scheme}
    (hb : ∀ v ∈ σ.bounded, v ∈ F) (hf : ∀ w ∈ (p.term σ.body).vars, w ∉ σ.bounded → w ∉ F) :
    p.Respects F (env.prepend x σ) := by
  intro b hmem
  rw [Env.bindings_prepend, List.mem_cons] at hmem
  rcases hmem with rfl | hmem
  exacts [⟨hb, hf⟩, hr b hmem]

theorem Respects.append {front back : Env Scheme} (h₁ : p.Respects F front)
    (h₂ : p.Respects F back) : p.Respects F (front.append back) := by
  intro b hmem
  rw [Env.bindings_append, List.mem_append] at hmem
  exact hmem.elim (h₁ b) (h₂ b)

/-- The variables an inference against the handles `hs` in `env` may bind: those of the
expected types, the free ones of the environment, and every variable allocated after `p`. -/
def Live (p : Pool) (env : Env Scheme) (hs : List Idx) : Set Nat :=
  {w | (∃ h ∈ hs, w ∈ (p.term h).vars) ∨ w ∈ (p.envType env).free ∨ p.varCount ≤ w}

/-- A binding in front of the environment adds at most the variables of its body. -/
theorem live_prepend {env : Env Scheme} {hs : List Idx} (x : String) (σ : Scheme) :
    Live p (env.prepend x σ) hs ⊆ Live p env (σ.body :: hs) := by
  rintro w (⟨h, hh, hw⟩ | hw | hw)
  · exact Or.inl ⟨h, List.mem_cons_of_mem _ hh, hw⟩
  · obtain ⟨b, hb, hwb, hwnb⟩ := mem_envType_free.1 hw
    rw [Env.bindings_prepend, List.mem_cons] at hb
    rcases hb with rfl | hb
    · exact Or.inl ⟨σ.body, List.mem_cons_self, hwb⟩
    · exact Or.inr (Or.inl (mem_envType_free.2 ⟨b, hb, hwb, hwnb⟩))
  · exact Or.inr (Or.inr hw)

/-- Every variable allocated after `p` may be bound. -/
theorem mem_live_of_le {env : Env Scheme} {hs : List Idx} {w : Nat} (hw : p.varCount ≤ w) :
    w ∈ Live p env hs :=
  Or.inr (Or.inr hw)

/-- Bindings in front of the environment, all to `s`, add at most the variables of `s`. -/
theorem live_append {front env : Env Scheme} {hs : List Idx} {s : Idx}
    (hfront : ∀ b ∈ front.bindings, b.2.body = s) :
    Live p (front.append env) hs ⊆ Live p env (s :: hs) := by
  rintro w (⟨h, hh, hw⟩ | hw | hw)
  · exact Or.inl ⟨h, List.mem_cons_of_mem _ hh, hw⟩
  · obtain ⟨b, hb, hwb, hwnb⟩ := mem_envType_free.1 hw
    rw [Env.bindings_append, List.mem_append] at hb
    rcases hb with hb | hb
    · exact Or.inl ⟨s, List.mem_cons_self, hfront b hb ▸ hwb⟩
    · exact Or.inr (Or.inl (mem_envType_free.2 ⟨b, hb, hwb, hwnb⟩))
  · exact Or.inr (Or.inr hw)

end Pool

/-- Every handle recorded in the tables is a handle of `p`. -/
def Tables.Valid (t : Tables) (p : Pool) : Prop :=
  (∀ x ∈ t.exprs, x.2.raw < p.size) ∧ (∀ x ∈ t.slots, x.2.raw < p.size) ∧
    ∀ x ∈ t.pats, x.2.raw < p.size

/-- What inference against the handles `hs` in `env` needs of the pool it starts from, with
`Z` the variables it must keep frozen. -/
structure Ready (ctx : Context) (Z : Set Nat) (env : Env Scheme) (hs : List Idx) (p : Pool) :
    Prop where
  wf : p.WF
  unbound : p.Unbound Z
  tags_valid : p.ValidTags ctx.tags
  tags_closed : p.TagsClosed Z ctx.tags
  env_valid : p.ValidEnv env
  respects : p.Respects Z env
  valid : ∀ h ∈ hs, h.raw < p.size
  avoids : ∀ h ∈ hs, ∀ w ∈ (p.term h).vars, w ∉ Z

/-- A successful inference of `nodes` from `E₀` to `E₁`: it recorded `new` in front of the old
tables, one entry per node, generalized the variables of `Q`, all of them new and frozen since,
and bound only variables of `U`. -/
structure Done (U : Set Nat) (nodes : List Expr) (E₀ E₁ : Engine) (new : Tables) (Q : Set Nat) :
    Prop where
  wf : E₁.pool.WF
  ext : E₀.pool.Extends E₁.pool
  tables : E₁.tables = new.prepend E₀.tables
  covers : new.Covers nodes
  valid : new.Valid E₁.pool
  fresh : ∀ v ∈ Q, E₀.pool.varCount ≤ v ∧ v < E₁.pool.varCount
  frozen : Frozen Q E₀.pool E₁.pool
  confined : Confined E₀.pool E₁.pool U

/-- Steps of a rule that record `rec` and bind only variables of `U`. -/
structure Stepped (U : Set Nat) (rec : Tables) (E₀ E₁ : Engine) : Prop where
  wf : E₁.pool.WF
  ext : E₀.pool.Extends E₁.pool
  tables : E₁.tables = rec.prepend E₀.tables
  confined : Confined E₀.pool E₁.pool U

namespace Ready

variable {ctx : Context} {Z Q : Set Nat} {env : Env Scheme} {hs : List Idx} {p q : Pool}

/-- Readiness survives into a later pool that keeps frozen, besides `Z`, variables `Q`
allocated since. -/
theorem extend (hr : Ready ctx Z env hs p) (hq : q.WF) (he : p.Extends q) (hF : Frozen (Z ∪ Q) p q)
    (hQ : ∀ v ∈ Q, p.varCount ≤ v ∧ v < q.varCount) : Ready ctx (Z ∪ Q) env hs q where
  wf := hq
  unbound z hz := by
    rcases hz with hz | hz
    · exact hr.unbound.later he (hF.mono hq Set.subset_union_left) z hz
    · exact ⟨(hQ z hz).2, hF.unbound z (Or.inr hz)⟩
  tags_valid := hr.tags_valid.mono he.size_le
  tags_closed := hr.tags_closed.later hr.wf hq he hF hr.tags_valid Set.subset_union_left
  env_valid := hr.env_valid.mono he.size_le
  respects := hr.respects.later hr.wf hq he hF hr.env_valid Set.subset_union_left
    fun v hv hvZ => (hQ v (hv.resolve_left hvZ)).1
  valid h hh := Nat.lt_of_lt_of_le (hr.valid h hh) he.size_le
  avoids h hh := by
    refine hF.avoids_term hr.wf hq he (hr.valid h hh) fun w hw hwZQ => ?_
    rcases hwZQ with hwZ | hwQ
    · exact hr.avoids h hh w hw hwZ
    · exact Nat.not_le_of_lt (lt_varCount_of_mem_vars_term hr.wf (hr.valid h hh) hw) (hQ w hwQ).1

theorem later (hr : Ready ctx Z env hs p) (hq : q.WF) (he : p.Extends q) (hF : Frozen Z p q) :
    Ready ctx Z env hs q := by
  have h := hr.extend (Q := ∅) hq he (by rwa [Set.union_empty]) fun v hv => absurd hv id
  rwa [Set.union_empty] at h

/-- The same pool is ready for inference with a binding in front of the environment that
quantifies only frozen variables and whose other variables are not frozen. -/
theorem bind (hr : Ready ctx Z env hs p) (x : String) {σ : Scheme} (hσ : σ.body.raw < p.size)
    (hb : ∀ v ∈ σ.bounded, v ∈ Z) (hf : ∀ w ∈ (p.term σ.body).vars, w ∉ σ.bounded → w ∉ Z) :
    Ready ctx Z (env.prepend x σ) hs p :=
  { hr with
    env_valid := hr.env_valid.prepend x hσ
    respects := hr.respects.prepend x hb hf }

/-- The same pool is ready for inference with bindings in front of the environment. -/
theorem front (hr : Ready ctx Z env hs p) {front : Env Scheme} (hv : p.ValidEnv front)
    (hf : p.Respects Z front) : Ready ctx Z (front.append env) hs p :=
  { hr with
    env_valid := hv.append hr.env_valid
    respects := hf.append hr.respects }

/-- The same pool is ready with more variables frozen: unbound ones, free nowhere in the
environment and in none of the expected types. -/
theorem freeze (hr : Ready ctx Z env hs p) {Q : Set Nat} (hQ : p.Unbound Q)
    (henv : ∀ w ∈ (p.envType env).free, w ∉ Q) (hhs : ∀ h ∈ hs, ∀ w ∈ (p.term h).vars, w ∉ Q) :
    Ready ctx (Z ∪ Q) env hs p where
  wf := hr.wf
  unbound z hz := hz.elim (hr.unbound z) (hQ z)
  tags_valid := hr.tags_valid
  tags_closed := hr.tags_closed.mono Set.subset_union_left
  env_valid := hr.env_valid
  respects b hb := ⟨fun v hv => Or.inl ((hr.respects b hb).1 v hv), fun w hw hwb hwZQ =>
    hwZQ.elim ((hr.respects b hb).2 w hw hwb) (henv w (mem_envType_free.2 ⟨b, hb, hw, hwb⟩))⟩
  valid := hr.valid
  avoids h hh w hw hwZQ := hwZQ.elim (hr.avoids h hh w hw) (hhs h hh w hw)

/-- The same pool is ready for other expected types that mention no frozen variable. -/
theorem retarget (hr : Ready ctx Z env hs p) {hs' : List Idx}
    (hv : ∀ h ∈ hs', h.raw < p.size ∧ ∀ w ∈ (p.term h).vars, w ∉ Z) :
    Ready ctx Z env hs' p :=
  { hr with valid := fun h hh => (hv h hh).1, avoids := fun h hh => (hv h hh).2 }

/-- The same pool is ready against one type, a handle of it mentioning no frozen variable. -/
theorem single (hr : Ready ctx Z env hs p) {h : Idx} (hv : h.raw < p.size)
    (ha : ∀ w ∈ (p.term h).vars, w ∉ Z) : Ready ctx Z env [h] p :=
  hr.retarget fun i hi => by
    rw [List.mem_singleton.1 hi]
    exact ⟨hv, ha⟩

/-- A pool ready against two lists of types is ready against both together. -/
theorem append (hr : Ready ctx Z env hs p) {hs' : List Idx} (hr' : Ready ctx Z env hs' p) :
    Ready ctx Z env (hs ++ hs') p :=
  hr.retarget fun h hh => (List.mem_append.1 hh).elim (fun hh => ⟨hr.valid h hh, hr.avoids h hh⟩)
    fun hh => ⟨hr'.valid h hh, hr'.avoids h hh⟩

/-- A pool ready against some types is ready against any of them. -/
theorem sub (hr : Ready ctx Z env hs p) {hs' : List Idx} (hsub : hs' ⊆ hs) :
    Ready ctx Z env hs' p :=
  hr.retarget fun h hh => ⟨hr.valid h (hsub hh), hr.avoids h (hsub hh)⟩

/-- The same pool is ready against one type whose variables were all allocated after a pool in
which the frozen variables were already unbound. -/
theorem single_new (hr : Ready ctx Z env hs p) {p₀ : Pool} (hZ : p₀.Unbound Z) {h : Idx}
    (hv : h.raw < p.size) (hnew : ∀ w ∈ (p.term h).vars, p₀.varCount ≤ w) : Ready ctx Z env [h] p :=
  hr.single hv fun w hw => hZ.not_mem (hnew w hw)

/-- `Bool` has no variables, so a ready pool is ready against it. -/
theorem bool (hr : Ready ctx Z env hs p) : Ready ctx Z env [Prim.bool.idx] p :=
  hr.single (hr.wf.prim .bool).1 fun w hw => absurd hw (hr.wf.not_mem_vars_prim .bool w)

end Ready

namespace Pool

variable {p q : Pool} {Z : Set Nat}

/-- Variables allocated after `q` are frozen from any earlier pool to `q`. -/
theorem Frozen.of_new {Q : Set Nat} (hq : q.WF) (he : p.Extends q)
    (hQ : ∀ v ∈ Q, q.varCount ≤ v) : Frozen Q p q where
  unbound z hz := target?_of_le q (hQ z hz)
  avoids _ hvc _ _ w hw hwQ := Nat.not_le_of_lt
    (lt_varCount_of_mem_vars_binding hq (Nat.lt_of_lt_of_le hvc he.varCount_le) hw) (hQ w hwQ)

/-- Read in a later pool where the environment's quantified variables are still unbound, its
free variables and the variables of the handles `hs` are among those an inference from `p₀`
may bind, as long as it was confined to them. -/
theorem live_subset {p₀ : Pool} {env : Env Scheme} {hs₀ hs : List Idx} (hp₀ : p₀.WF)
    (hp : p.WF) (he : p₀.Extends p) (hr : p₀.Respects Z env) (hv : p₀.ValidEnv env)
    (hZ : ∀ z ∈ Z, p.target? z = none) (hc : Confined p₀ p (Live p₀ env hs₀))
    (hh : ∀ h ∈ hs, ∀ w ∈ (p.term h).vars, w ∈ Live p₀ env hs₀) :
    Live p env hs ⊆ Live p₀ env hs₀ := by
  rintro w (⟨h, hmem, hw⟩ | hw | hw)
  · exact hh h hmem w hw
  · obtain ⟨b, hb, hwb, hwnb⟩ := mem_envType_free.1 hw
    rw [he.term_eq_subst hp₀ hp (hv b hb), Term.mem_vars_subst] at hwb
    obtain ⟨u, hu, hwu⟩ := hwb
    by_cases hub : u ∈ b.2.bounded
    · -- a quantified variable is still unbound, so it stands for itself
      rw [binding_of_unbound hp (hZ u ((hr b hb).1 u hub)), Term.mem_vars_var] at hwu
      exact absurd (hwu ▸ hub) hwnb
    · exact hc.vars_binding u (lt_varCount_of_mem_vars_term hp₀ (hv b hb) hu)
        (Or.inr (Or.inl (mem_envType_free.2 ⟨b, hb, hu, hub⟩))) (target?_of_mem_vars_term hp₀ hu)
        w hwu
  · exact Or.inr (Or.inr (Nat.le_trans he.varCount_le hw))

section Generalize

variable {env : Env Scheme} {h : Idx} (hp : p.WF) (hq : q.WF) (he : p.Extends q)
  (hF : Frozen Z p q) (hr : p.Respects Z env) (hv : p.ValidEnv env) (hh : h.raw < p.size)
  (hc : Confined p q (Live p env [h]))
include hp hq he hF hr hv hh hc

/-- After an inference against `h` that bound only what it could reach, generalization
quantifies variables of the type `h` stood for before, or new ones. -/
theorem mem_generalize_confined :
    ∀ w ∈ (q.generalize env h).bounded, w ∈ (p.term h).vars ∨ p.varCount ≤ w := by
  intro w hw
  obtain ⟨hwt, hwf⟩ := (mem_generalize hq env h).1 hw
  rcases hc.vars_term hp hq he hh (fun u hu => Or.inl ⟨h, List.mem_singleton_self h, hu⟩) w hwt
    with ⟨h', hh', hw'⟩ | hfree | hnew
  · rw [List.mem_singleton.1 hh'] at hw'
    exact Or.inl hw'
  · -- a free variable of the environment that is still unbound is still free
    refine absurd ((hr.mem_free hp hq he hF hv).2 ⟨w, hfree, ?_⟩) hwf
    rw [binding_of_unbound hq (target?_of_mem_vars_term hq hwt)]
    simp [Term.vars]
  · exact Or.inr hnew

/-- No older variable outside the type `h` stood for comes to stand for a type mentioning a
variable generalization quantifies. -/
theorem not_mem_generalize_binding {u : Nat} (hu : u < p.varCount) (hun : p.target? u = none)
    (huh : u ∉ (p.term h).vars) : ∀ w ∈ (q.binding u).vars, w ∉ (q.generalize env h).bounded := by
  intro w hw hwg
  by_cases huL : u ∈ Live p env [h]
  · rcases huL with ⟨h', hh', hu'⟩ | hfree | hnew
    · exact huh (List.mem_singleton.1 hh' ▸ hu')
    · exact ((mem_generalize hq env h).1 hwg).2 ((hr.mem_free hp hq he hF hv).2 ⟨u, hfree, hw⟩)
    · exact Nat.not_le_of_lt hu hnew
  · rw [binding_of_unbound hq (hc.unbound u hu hun huL), Term.mem_vars_var] at hw
    subst hw
    rcases mem_generalize_confined hp hq he hF hr hv hh hc _ hwg with h₁ | h₂
    exacts [huh h₁, Nat.not_le_of_lt hu h₂]

/-- A type of `p` sharing no variable with the type `h` stood for mentions, later, no variable
generalization quantifies. -/
theorem not_mem_generalize_term {i : Idx} (hi : i.raw < p.size)
    (hih : ∀ u ∈ (p.term i).vars, u ∉ (p.term h).vars) :
    ∀ w ∈ (q.term i).vars, w ∉ (q.generalize env h).bounded := by
  intro w hw
  rw [he.term_eq_subst hp hq hi, Term.mem_vars_subst] at hw
  obtain ⟨u, hu, hwu⟩ := hw
  exact not_mem_generalize_binding hp hq he hF hr hv hh hc (lt_varCount_of_mem_vars_term hp hi hu)
    (target?_of_mem_vars_term hp hu) (hih u hu) w hwu

end Generalize

/-- Renaming the variables `B` of a type of `p` and reading the result in a later pool that
keeps `B` frozen gives an instance of the type read in that pool, provided its other variables
are not frozen. -/
theorem subst_rename_later (hp : p.WF) (hq : q.WF) (he : p.Extends q) (hF : Frozen Z p q)
    {i : Idx} (hi : i.raw < p.size) {B : List Nat} (hBZ : ∀ v ∈ B, v ∈ Z)
    (hfree : ∀ w ∈ (p.term i).vars, w ∉ B → w ∉ Z) {ι : Nat → Term}
    (hι : ∀ v, v ∉ B → ι v = .var v) :
    ((p.term i).subst ι).subst q.binding =
      (q.term i).subst fun v => if v ∈ B then (ι v).subst q.binding else .var v := by
  rw [Term.subst_subst, he.term_eq_subst hp hq hi, Term.subst_subst]
  refine Term.subst_congr _ fun u hu => ?_
  by_cases huB : u ∈ B
  · rw [binding_of_unbound hq (hF.unbound u (hBZ u huB)), Term.subst_var, if_pos huB]
  · -- `u` is not frozen, so what it stands for mentions nothing the renaming touches
    rw [hι u huB, Term.subst_var]
    conv_lhs => rw [← Term.subst_var_self (q.binding u)]
    refine Term.subst_congr _ fun w hw => ?_
    have hwB : w ∉ B := fun hwB => hF.avoids u (lt_varCount_of_mem_vars_term hp hi hu)
      (target?_of_mem_vars_term hp hu) (hfree u hu huB) w hw (hBZ w hwB)
    rw [if_neg hwB]

end Pool

/-- `q` comes after `p` and keeps `F` frozen. -/
structure Later (F : Set Nat) (p q : Pool) : Prop where
  wf : q.WF
  ext : p.Extends q
  frozen : Frozen F p q

/-- A later pool of a later pool is a later pool of an earlier one, for what both keep
frozen. -/
theorem Later.back {F F' : Set Nat} {p₁ p₂ q : Pool} (h : Later F' p₂ q) (hp₂ : p₂.WF)
    (he : p₁.Extends p₂) (hz : Frozen F p₁ p₂) (hF : F ⊆ F') : Later F p₁ q :=
  ⟨h.wf, he.trans h.ext, hz.trans hp₂ h.wf he h.ext (h.frozen.mono h.wf hF)⟩

namespace Tables

variable {t t₁ t₂ t₃ : Tables} {p q : Pool}

theorem prepend_assoc : (t₁.prepend t₂).prepend t₃ = t₁.prepend (t₂.prepend t₃) := by
  simp [prepend]

@[simp] theorem empty_prepend : ({} : Tables).prepend t = t := by
  simp [prepend]

@[simp] theorem prepend_empty : t.prepend {} = t := by
  simp [prepend]

theorem Valid.mono (h : t.Valid p) (hs : p.size ≤ q.size) : t.Valid q :=
  ⟨fun x hx => Nat.lt_of_lt_of_le (h.1 x hx) hs, fun x hx => Nat.lt_of_lt_of_le (h.2.1 x hx) hs,
    fun x hx => Nat.lt_of_lt_of_le (h.2.2 x hx) hs⟩

theorem Valid.prepend (h₁ : t₁.Valid p) (h₂ : t₂.Valid p) : (t₁.prepend t₂).Valid p := by
  simp only [Valid, Tables.prepend, List.mem_append] at h₁ h₂ ⊢
  refine ⟨fun x hx => ?_, fun x hx => ?_, fun x hx => ?_⟩
  · exact hx.elim (h₁.1 x) (h₂.1 x)
  · exact hx.elim (h₁.2.1 x) (h₂.2.1 x)
  · exact hx.elim (h₁.2.2 x) (h₂.2.2 x)

/-- Entries recorded after those for `n₁` cover, together with them, both lists of nodes. -/
theorem Covers.prepend {n₁ n₂ : List Expr} (h₁ : t₁.Covers n₁) (h₂ : t₂.Covers n₂) :
    (t₂.prepend t₁).Covers (n₁ ++ n₂) := by
  simp only [Covers, Tables.prepend, List.map_append, List.filter_append,
    List.filterMap_append] at h₁ h₂ ⊢
  exact ⟨List.perm_append_comm.trans (h₁.1.append h₂.1),
    List.perm_append_comm.trans (h₁.2.1.append h₂.2.1),
    List.perm_append_comm.trans (h₁.2.2.1.append h₂.2.2.1),
    List.perm_append_comm.trans (h₁.2.2.2.append h₂.2.2.2)⟩

/-- The record of a node's expected type covers a node that is no variable reference,
construction or match. -/
theorem covers_node {e : Expr} (t : Idx) (hv : e.isVar = false) (ht : e.isTag = false)
    (hp : e.patId? = none) : Covers ⟨[(e.id, t)], [], [], []⟩ [e] := by
  simp [Covers, hv, ht, hp]

end Tables

namespace Typing.Records

variable {ty : Typing} {q : Pool} {t₁ t₂ : Tables}

theorem left (h : ty.Records q (t₁.prepend t₂)) : ty.Records q t₁ :=
  ⟨fun n i hm => h.1 n i (List.mem_append_left _ hm),
    fun n i hm => h.2.1 n i (List.mem_append_left _ hm),
    fun n i hm => h.2.2.1 n i (List.mem_append_left _ hm),
    fun n k hm => h.2.2.2 n k (List.mem_append_left _ hm)⟩

theorem right (h : ty.Records q (t₁.prepend t₂)) : ty.Records q t₂ :=
  ⟨fun n i hm => h.1 n i (List.mem_append_right _ hm),
    fun n i hm => h.2.1 n i (List.mem_append_right _ hm),
    fun n i hm => h.2.2.1 n i (List.mem_append_right _ hm),
    fun n k hm => h.2.2.2 n k (List.mem_append_right _ hm)⟩

end Typing.Records

/-- Nothing is frozen by an empty set. -/
theorem Pool.Frozen.empty {p q : Pool} : Frozen ∅ p q :=
  ⟨fun _ h => absurd h id, fun _ _ _ _ _ _ h => h⟩

theorem Later.mono {F F' : Set Nat} {p q : Pool} (h : Later F' p q) (hF : F ⊆ F') : Later F p q :=
  ⟨h.wf, h.ext, h.frozen.mono h.wf hF⟩

namespace Stepped

variable {U : Set Nat} {rec rec' : Tables} {E₀ E₁ E₂ : Engine}

theorem trans (h₁ : Stepped U rec E₀ E₁) (h₂ : Stepped U rec' E₁ E₂) :
    Stepped U (rec'.prepend rec) E₀ E₂ where
  wf := h₂.wf
  ext := h₁.ext.trans h₂.ext
  tables := by rw [h₂.tables, h₁.tables, Tables.prepend_assoc]
  confined := h₁.confined.trans h₁.wf h₂.wf h₁.ext h₂.ext h₂.confined

/-- Steps followed by steps that record nothing. -/
theorem trans_empty (h₁ : Stepped U rec E₀ E₁) (h₂ : Stepped U {} E₁ E₂) : Stepped U rec E₀ E₂ := by
  simpa using h₁.trans h₂

theorem record (hwf : E₀.pool.WF) (hpool : E₁.pool = E₀.pool)
    (htab : E₁.tables = rec.prepend E₀.tables) : Stepped U rec E₀ E₁ where
  wf := hpool ▸ hwf
  ext := hpool ▸ .refl _
  tables := htab
  confined := hpool ▸ .refl hwf U

/-- Building types binds nothing. -/
theorem of_grows (hp : E₀.pool.WF) (hq : E₁.pool.WF) (hg : E₀.pool.Grows E₁.pool)
    (ht : E₁.tables = E₀.tables) : Stepped U {} E₀ E₁ :=
  ⟨hq, .of_grows hg, by rw [ht, Tables.empty_prepend], .of_grows hp hq hg U⟩

theorem of_confined {V : Set Nat} (hq : E₁.pool.WF) (he : E₀.pool.Extends E₁.pool)
    (ht : E₁.tables = E₀.tables) (hc : Confined E₀.pool E₁.pool V) (hV : V ⊆ U) :
    Stepped U {} E₀ E₁ :=
  ⟨hq, he, by rw [ht, Tables.empty_prepend], hc.mono hq hV⟩

end Stepped

/-- The steps a rule takes before its first inference or unification, from `E₀` to `E`: they
recorded `rec` and only built types, so the pool grew and is still ready against `t`. -/
structure Prefix (ctx : Context) (Z : Set Nat) (env : Env Scheme) (t : Idx) (rec : Tables)
    (E₀ E : Engine) : Prop where
  ready : Ready ctx Z env [t] E.pool
  grows : E₀.pool.Grows E.pool
  tables : E.tables = rec.prepend E₀.tables

namespace Prefix

variable {ctx : Context} {Z : Set Nat} {env : Env Scheme} {t : Idx} {rec : Tables}
  {E₀ E : Engine} {α β : Type} {R : β → Engine → Prop}

/-- A prefix binds nothing, so it binds only what its rule may bind. -/
theorem stepped (hP : Prefix ctx Z env t rec E₀ E) (hwf : E₀.pool.WF) {U : Set Nat} :
    Stepped U rec E₀ E :=
  ⟨hP.ready.wf, .of_grows hP.grows, hP.tables, .of_grows hwf hP.ready.wf hP.grows U⟩

/-- A rule starts by recording its node against the expected type. -/
theorem start (hr : Ready ctx Z env [t] E₀.pool) {id : Nat} {k : PUnit → InferM β}
    (hk : ∀ E₁, Prefix ctx Z env t ⟨[(id, t)], [], [], []⟩ E₀ E₁ → E₁.pool = E₀.pool →
      Run Z (k ()) E₁ R) :
    Run Z (recordExpr id t >>= k) E₀ R :=
  Run.bind (recordExpr_run hr.wf hr.unbound) fun _ E₁ _ _ _ h₁ =>
    hk E₁ ⟨h₁.1 ▸ hr, h₁.1 ▸ Grows.refl _, h₁.2⟩ h₁.1

/-- A step that only records continues the prefix and leaves the pool as it was. -/
theorem record_bind (hP : Prefix ctx Z env t rec E₀ E) {x : InferM PUnit} {rec' : Tables}
    {k : PUnit → InferM β}
    (hx : Run Z x E fun _ E' => E'.pool = E.pool ∧ E'.tables = rec'.prepend E.tables)
    (hk : ∀ E', Prefix ctx Z env t (rec'.prepend rec) E₀ E' → E'.pool = E.pool →
      Run Z (k ()) E' R) :
    Run Z (x >>= k) E R :=
  Run.bind hx fun _ E' _ _ _ h =>
    hk E' ⟨h.1 ▸ hP.ready, h.1 ▸ hP.grows, by rw [h.2, hP.tables, Tables.prepend_assoc]⟩ h.1

/-- A step that only builds types continues the prefix. -/
theorem build_bind (hP : Prefix ctx Z env t rec E₀ E) {x : InferM α} {Q : α → Engine → Prop}
    {k : α → InferM β}
    (hx : Run Z x E fun a E' => E'.tables = E.tables ∧ E.pool.Grows E'.pool ∧ Q a E')
    (hk : ∀ a E', Prefix ctx Z env t rec E₀ E' → E.pool.Grows E'.pool → Q a E' →
      Run Z (k a) E' R) :
    Run Z (x >>= k) E R :=
  Run.bind hx fun a E' hwf he hz h =>
    hk a E' ⟨hP.ready.later hwf he hz, hP.grows.trans h.2.1, by rw [h.1, hP.tables]⟩ h.2.1 h.2.2

/-- A variable allocated in a prefix is new to the pool the rule started from. -/
theorem fresh_new (hP : Prefix ctx Z env t rec E₀ E) {E' : Engine} {v : Idx}
    (ht : E'.pool.term v = .var E.pool.varCount) :
    ∀ w ∈ (E'.pool.term v).vars, E₀.pool.varCount ≤ w := by
  rw [ht]
  exact Term.forall_mem_vars_var.2 hP.grows.varCount_le

end Prefix

/-- Unifying two of the types a pool is ready against: the two come to stand for one type, only
their variables are bound, and the pool stays ready. -/
theorem Ready.unifyAt_step {ctx : Context} {Z : Set Nat} {env : Env Scheme} {hs : List Idx}
    {E : Engine} (hr : Ready ctx Z env hs E.pool) {a b : Idx} (ha : a ∈ hs) (hb : b ∈ hs)
    (id : Nat) :
    Run Z (unifyAt a b id) E fun _ E' => E'.tables = E.tables ∧ E'.pool.term a = E'.pool.term b ∧
      Confined E.pool E'.pool (E.pool.varsOf a b) ∧ Ready ctx Z env hs E'.pool :=
  (unifyAt_run hr.wf hr.unbound (hr.valid a ha) (hr.valid b hb) (hr.avoids a ha)
    (hr.avoids b hb)).imp fun _ _ hwf he hz h => ⟨h.1, h.2.1, h.2.2, hr.later hwf he hz⟩

/-- After an inference that kept `Z` frozen, the pool is ready with what it generalized frozen
as well. -/
theorem Ready.after {ctx : Context} {Z U Q : Set Nat} {env : Env Scheme} {hs : List Idx}
    {n : List Expr} {E E' : Engine} {new : Tables} (hr : Ready ctx Z env hs E.pool)
    (hd : Done U n E E' new Q) (hz : Frozen Z E.pool E'.pool) : Ready ctx (Z ∪ Q) env hs E'.pool :=
  hr.extend hd.wf hd.ext (hz.union hd.frozen) hd.fresh

namespace Done

variable {U : Set Nat} {n n₁ n₂ : List Expr} {E₀ E₁ E₂ : Engine} {rec new new₁ new₂ : Tables}
  {Q Q₁ Q₂ : Set Nat}

theorem mono {U' : Set Nat} (h : Done U n E₀ E₁ new Q) (hU : U ⊆ U') : Done U' n E₀ E₁ new Q :=
  { h with confined := h.confined.mono h.wf hU }

/-- Steps that record the nodes `n` by themselves. -/
theorem of_step (hs : Stepped U rec E₀ E₁) (hcov : rec.Covers n) (hval : rec.Valid E₁.pool) :
    Done U n E₀ E₁ rec ∅ where
  wf := hs.wf
  ext := hs.ext
  tables := hs.tables
  covers := hcov
  valid := hval
  fresh _ hv := absurd hv id
  frozen := .empty
  confined := hs.confined

/-- Steps recording the nodes `n₁` before an inference. -/
theorem after_step (hs : Stepped U rec E₀ E₁) (hcov : rec.Covers n₁) (hval : rec.Valid E₁.pool)
    (h : Done U n₂ E₁ E₂ new Q) : Done U (n₁ ++ n₂) E₀ E₂ (new.prepend rec) Q where
  wf := h.wf
  ext := hs.ext.trans h.ext
  tables := by rw [h.tables, hs.tables, Tables.prepend_assoc]
  covers := hcov.prepend h.covers
  valid := h.valid.prepend (hval.mono h.ext.size_le)
  fresh v hv := ⟨Nat.le_trans hs.ext.varCount_le (h.fresh v hv).1, (h.fresh v hv).2⟩
  frozen := (Frozen.of_new hs.wf hs.ext fun v hv => (h.fresh v hv).1).trans hs.wf h.wf hs.ext
    h.ext h.frozen
  confined := hs.confined.trans hs.wf h.wf hs.ext h.ext h.confined

/-- Steps before an inference that record nothing. -/
theorem step_left (hs : Stepped U {} E₀ E₁) (h : Done U n E₁ E₂ new Q) : Done U n E₀ E₂ new Q := by
  simpa using after_step hs (⟨.nil, .nil, .nil, .nil⟩ : Tables.Covers {} [])
    ⟨fun _ hx => absurd hx List.not_mem_nil, fun _ hx => absurd hx List.not_mem_nil,
      fun _ hx => absurd hx List.not_mem_nil⟩ h

/-- Steps after an inference that record nothing and keep frozen what it generalized. -/
theorem then_step (h : Done U n E₀ E₁ new Q) (hs : Stepped U {} E₁ E₂)
    (hz : Frozen Q E₁.pool E₂.pool) : Done U n E₀ E₂ new Q where
  wf := hs.wf
  ext := h.ext.trans hs.ext
  tables := by rw [hs.tables, Tables.empty_prepend, h.tables]
  covers := h.covers
  valid := h.valid.mono hs.ext.size_le
  fresh v hv := ⟨(h.fresh v hv).1, Nat.lt_of_lt_of_le (h.fresh v hv).2 hs.ext.varCount_le⟩
  frozen := h.frozen.trans h.wf hs.wf h.ext hs.ext hz
  confined := h.confined.trans h.wf hs.wf h.ext hs.ext hs.confined

/-- Two inferences one after the other, the second keeping frozen what the first
generalized. -/
theorem seq (h₁ : Done U n₁ E₀ E₁ new₁ Q₁) (h₂ : Done U n₂ E₁ E₂ new₂ Q₂)
    (hz : Frozen Q₁ E₁.pool E₂.pool) : Done U (n₁ ++ n₂) E₀ E₂ (new₂.prepend new₁) (Q₁ ∪ Q₂) where
  wf := h₂.wf
  ext := h₁.ext.trans h₂.ext
  tables := by rw [h₂.tables, h₁.tables, Tables.prepend_assoc]
  covers := h₁.covers.prepend h₂.covers
  valid := h₂.valid.prepend (h₁.valid.mono h₂.ext.size_le)
  fresh v hv := by
    rcases hv with hv | hv
    · exact ⟨(h₁.fresh v hv).1, Nat.lt_of_lt_of_le (h₁.fresh v hv).2 h₂.ext.varCount_le⟩
    · exact ⟨Nat.le_trans h₁.ext.varCount_le (h₂.fresh v hv).1, (h₂.fresh v hv).2⟩
  frozen := by
    refine (h₁.frozen.trans h₁.wf h₂.wf h₁.ext h₂.ext hz).union ?_
    exact (Frozen.of_new h₁.wf h₁.ext fun v hv => (h₂.fresh v hv).1).trans h₁.wf h₂.wf h₁.ext
      h₂.ext h₂.frozen
  confined := h₁.confined.trans h₁.wf h₂.wf h₁.ext h₂.ext h₂.confined

/-- An inference that also generalized new variables `Q'`, frozen since. -/
theorem generalizes {Q' : Set Nat} (h : Done U n E₀ E₁ new Q)
    (hQ' : ∀ v ∈ Q', E₀.pool.varCount ≤ v ∧ v < E₁.pool.varCount) (hz : Frozen Q' E₀.pool E₁.pool) :
    Done U n E₀ E₁ new (Q ∪ Q') :=
  { h with
    fresh := fun v hv => hv.elim (h.fresh v) (hQ' v)
    frozen := h.frozen.union hz }

end Done

/-- What an inference may bind includes, in every later pool it was confined along, the
variables of its own expected types. -/
theorem Ready.live_self {ctx : Context} {Z : Set Nat} {env : Env Scheme} {hs : List Idx}
    {p q : Pool} (hr : Ready ctx Z env hs p) (hq : q.WF) (he : p.Extends q)
    (hc : Confined p q (Live p env hs)) : ∀ h ∈ hs, ∀ w ∈ (q.term h).vars, w ∈ Live p env hs :=
  fun h hh => hc.vars_term hr.wf hq he (hr.valid h hh) fun _ hw => Or.inl ⟨h, hh, hw⟩

/-- A part of an inference, run from a later pool against types the whole could reach,
binds only what the whole may bind. -/
theorem Done.within {ctx : Context} {Z : Set Nat} {env : Env Scheme} {hs₀ hs : List Idx}
    {n : List Expr} {E₀ E₁ E₂ : Engine} {new : Tables} {Q : Set Nat}
    (hd : Done (Live E₁.pool env hs) n E₁ E₂ new Q) (hr : Ready ctx Z env hs₀ E₀.pool)
    (hwf : E₁.pool.WF) (he : E₀.pool.Extends E₁.pool)
    (hc : Confined E₀.pool E₁.pool (Live E₀.pool env hs₀)) (hZ : ∀ z ∈ Z, E₁.pool.target? z = none)
    (hh : ∀ h ∈ hs, ∀ w ∈ (E₁.pool.term h).vars, w ∈ Live E₀.pool env hs₀) :
    Done (Live E₀.pool env hs₀) n E₁ E₂ new Q :=
  hd.mono (live_subset hr.wf hwf he hr.respects hr.env_valid hZ hc hh)

/-- Renaming every variable of a type to a variable from `n` on leaves no variable below `n`. -/
theorem Term.vars_subst_fresh {T : Term} {B : List Nat} {ι : Nat → Term} {n : Nat}
    (hT : ∀ u ∈ T.vars, u ∈ B) (hι : ∀ v ∈ B, ∃ w, n ≤ w ∧ ι v = .var w) :
    ∀ w ∈ (T.subst ι).vars, n ≤ w := by
  intro w hw
  rw [Term.mem_vars_subst] at hw
  obtain ⟨u, hu, hwu⟩ := hw
  obtain ⟨w', hw', hιu⟩ := hι u (hT u hu)
  rw [hιu, Term.mem_vars_var] at hwu
  exact hwu ▸ hw'

/-- Two pointwise relations between three lists compose. -/
theorem forall₂_compose {α β γ : Type} {R : α → β → Prop} {S : β → γ → Prop}
    {T : α → γ → Prop} (hT : ∀ a b c, R a b → S b c → T a c) :
    ∀ {l₁ : List α} {l₂ : List β} {l₃ : List γ}, List.Forall₂ R l₁ l₂ → List.Forall₂ S l₂ l₃ →
      List.Forall₂ T l₁ l₃
  | _, _, _, .nil, .nil => .nil
  | _, _, _, .cons h₁ t₁, .cons h₂ t₂ => .cons (hT _ _ _ h₁ h₂) (forall₂_compose hT t₁ t₂)

theorem Pool.live_mono {p : Pool} {env : Env Scheme} {hs hs' : List Idx} (h : hs ⊆ hs') :
    Live p env hs ⊆ Live p env hs' := by
  rintro w (⟨i, hi, hw⟩ | hw | hw)
  exacts [Or.inl ⟨i, h hi, hw⟩, Or.inr (Or.inl hw), Or.inr (Or.inr hw)]

theorem Done.refl {U : Set Nat} {E : Engine} (h : E.pool.WF) : Done U [] E E {} ∅ :=
  Done.of_step (Stepped.record h rfl Tables.empty_prepend.symm) ⟨.nil, .nil, .nil, .nil⟩
    ⟨fun _ hx => absurd hx List.not_mem_nil, fun _ hx => absurd hx List.not_mem_nil,
      fun _ hx => absurd hx List.not_mem_nil⟩

/-- A run that keeps a larger set frozen, remembered in its success condition. -/
theorem InferM.Run.nested {α : Type} {Z Z' : Set Nat} {x : InferM α} {e : Engine}
    {R : α → Engine → Prop} (h : Run Z' x e R) (hZ : Z ⊆ Z') :
    Run Z x e fun a e' => Frozen Z' e.pool e'.pool ∧ R a e' :=
  (h.imp fun _ _ _ _ hz hR => ⟨hz, hR⟩).frozen_mono hZ

/-- An instance of a binding's scheme mentions only variables its renaming allocated and free
variables of the environment, none of them frozen. -/
theorem Ready.instance_vars {ctx : Context} {Z : Set Nat} {env : Env Scheme} {hs : List Idx}
    {p : Pool} (hr : Ready ctx Z env hs p) {x : String} {a : Scheme} (hmem : (x, a) ∈ env.bindings)
    {ι : Nat → Term} (hι : Term.Renames ι a.bounded p.varCount) :
    ∀ w ∈ ((p.term a.body).subst ι).vars, p.varCount ≤ w ∨ w ∈ (p.envType env).free ∧ w ∉ Z := by
  intro w hw
  rw [Term.mem_vars_subst] at hw
  obtain ⟨u, hu, hwu⟩ := hw
  by_cases hub : u ∈ a.bounded
  · obtain ⟨w', hw', hιu⟩ := hι.fresh u hub
    rw [hιu, Term.mem_vars_var] at hwu
    exact Or.inl (hwu ▸ hw')
  · rw [hι.fixes u hub, Term.mem_vars_var] at hwu
    subst hwu
    exact Or.inr ⟨mem_envType_free.2 ⟨(x, a), hmem, hu, hub⟩, (hr.respects _ hmem).2 w hu hub⟩

/-! ## The soundness statement -/

section Soundness

variable (ctx : Context)

/-- What a successful inference of `e` against `t` in `env`, from `E₀` to `E₁` with `Z` frozen,
establishes: it recorded the nodes of `e`, the root against `t`, it bound only variables it
could reach, and `e` has a derivation in every later pool that keeps frozen, besides `Z`, what
it generalized. -/
def Inferred (Z : Set Nat) (env : Env Scheme) (e : Expr) (t : Idx) (E₀ E₁ : Engine) : Prop :=
  ∃ new Q, Done (Live E₀.pool env [t]) e.subexprs E₀ E₁ new Q ∧ (e.id, t) ∈ new.exprs ∧
    ∀ q ty, Later (Z ∪ Q) E₁.pool q → ty.Records q new →
      Derivation (ctx.tagTypes q) ty (q.envType env) e

/-- Inference of `e` from any ready pool keeps it well formed and `Z` frozen, and what it
infers is sound. -/
def InferSound (e : Expr) : Prop :=
  ∀ (Z : Set Nat) (env : Env Scheme) (t : Idx) (E₀ : Engine), Ready ctx Z env [t] E₀.pool →
    Run Z (infer ctx env e t) E₀ fun _ => Inferred ctx Z env e t E₀

/-- `Inferred` for the arguments of a construction, each against its own type. -/
def ArgsInferred (Z : Set Nat) (env : Env Scheme) (args : List Expr) (ts : List Idx)
    (E₀ E₁ : Engine) : Prop :=
  ∃ new Q, Done (Live E₀.pool env ts) (Expr.subexprsList args) E₀ E₁ new Q ∧
    List.Forall₂ (fun a t => (a.id, t) ∈ new.exprs) args ts ∧
    ∀ q ty, Later (Z ∪ Q) E₁.pool q → ty.Records q new →
      ∀ a ∈ args, Derivation (ctx.tagTypes q) ty (q.envType env) a

def ArgsSound (args : List Expr) : Prop :=
  ∀ (Z : Set Nat) (env : Env Scheme) (ts : List Idx) (E₀ : Engine), args.length = ts.length →
    Ready ctx Z env ts E₀.pool →
    Run Z (inferArgs ctx env args ts) E₀ fun _ => ArgsInferred ctx Z env args ts E₀

variable {ctx}

theorem lit_sound (id : Nat) (l : Literal) : InferSound ctx (.lit id l) := by
  intro Z env t E₀ hr
  have ht := List.mem_singleton_self t
  rw [infer]
  refine Prefix.start hr fun E₁ hP₁ hp₁ => ?_
  have hr₁ := hP₁.ready
  have hwf₁ := hr₁.wf
  have hprim := hwf₁.prim l.prim
  -- a primitive type has no variables
  have hnone := hwf₁.not_mem_vars_prim l.prim
  refine (unifyAt_run hwf₁ hr₁.unbound (hr₁.valid t ht) hprim.1 (hr₁.avoids t ht)
    fun w hw => absurd hw (hnone w)).imp fun _ E₂ hwf₂ he₂ _ ⟨htab₂, heq, hc⟩ => ?_
  have hs : Stepped (Live E₀.pool env [t]) ⟨[(id, t)], [], [], []⟩ E₀ E₂ := by
    refine (hP₁.stepped hr.wf).trans_empty (Stepped.of_confined hwf₂ he₂ htab₂ hc ?_)
    rintro w (hw | hw)
    · exact Or.inl ⟨t, ht, hp₁ ▸ hw⟩
    · exact absurd hw (hnone w)
  have ht₂ : t.raw < E₂.pool.size := Nat.lt_of_lt_of_le (hr₁.valid t ht) he₂.size_le
  refine ⟨_, ∅, Done.of_step hs ⟨.refl _, .refl _, .refl _, .refl _⟩ ?_, List.mem_singleton_self _,
    fun q ty hq hrec => Derivation.lit ?_⟩
  · exact ⟨by simpa using ht₂, by simp, by simp⟩
  · have hqt : q.term t = q.term l.prim.idx :=
      Extends.term_congr hwf₂ hq.wf hq.ext ht₂ (hwf₂.prim l.prim).1 heq
    rw [hrec.1 id t (List.mem_singleton_self _), hqt, hq.wf.term_prim l.prim]

theorem ite_sound {id : Nat} {c a b : Expr} (hc : InferSound ctx c) (ha : InferSound ctx a)
    (hb : InferSound ctx b) : InferSound ctx (.ite id c a b) := by
  intro Z env t E₀ hr
  have ht := List.mem_singleton_self t
  rw [infer]
  refine Prefix.start hr fun E₁ hP₁ _ => ?_
  have hr₁ := hP₁.ready
  have hwf₁ := hr₁.wf
  have hs₁ : Stepped (Live E₀.pool env [t]) ⟨[(id, t)], [], [], []⟩ E₀ E₁ := hP₁.stepped hr.wf
  -- the condition is checked against `Bool`, which has no variables
  have hnone := hwf₁.not_mem_vars_prim .bool
  have hrc : Ready ctx Z env [Prim.bool.idx] E₁.pool := hr₁.bool
  refine Run.bind (hc Z env _ E₁ hrc) fun _ E₂ hwf₂ he₂ hz₂ ⟨newc, Qc, hdc, hrootc, hderc⟩ => ?_
  have hra := hr₁.after hdc hz₂
  refine Run.bind ((ha _ env t E₂ hra).nested Set.subset_union_left)
    fun _ E₃ hwf₃ he₃ _ ⟨hz₃, newa, Qa, hda, hroota, hdera⟩ => ?_
  have hrb := hra.after hda hz₃
  refine ((hb _ env t E₃ hrb).nested (Set.subset_union_left.trans Set.subset_union_left)).imp
    fun _ E₄ hwf₄ he₄ _ ⟨hz₄, newb, Qb, hdb, hrootb, hderb⟩ => ?_
  -- each branch binds only what the whole may bind
  have hdc' := hdc.within hr hwf₁ hs₁.ext hs₁.confined (fun z hz => (hrc.unbound z hz).2)
    fun h hh w hw => absurd hw (List.mem_singleton.1 hh ▸ hnone w)
  have hc₂ := hs₁.confined.trans hwf₁ hwf₂ hs₁.ext he₂ hdc'.confined
  have he₀₂ := hs₁.ext.trans he₂
  have hda' := hda.within hr hwf₂ he₀₂ hc₂ (fun z hz => (hra.unbound z (Or.inl hz)).2)
    (hr.live_self hwf₂ he₀₂ hc₂)
  have hc₃ := hc₂.trans hwf₂ hwf₃ he₀₂ he₃ hda'.confined
  have he₀₃ := he₀₂.trans he₃
  have hdb' := hdb.within hr hwf₃ he₀₃ hc₃ (fun z hz => (hrb.unbound z (Or.inl (Or.inl hz))).2)
    (hr.live_self hwf₃ he₀₃ hc₃)
  have hd := Done.after_step hs₁ (Tables.covers_node (e := .ite id c a b) t rfl rfl rfl)
    ⟨by simpa using hr₁.valid t ht, by simp, by simp⟩
    ((hdc'.seq hda' (hz₃.mono hwf₃ Set.subset_union_right)).seq hdb'
      (hz₄.mono hwf₄ (Set.union_subset_union_left Qa Set.subset_union_right)))
  refine ⟨_, _, hd, List.mem_append_right _ (List.mem_singleton_self _), fun q ty hq hrec => ?_⟩
  -- each branch's derivation lives in a later pool of the pool it ended in
  have hqb : Later (Z ∪ Qc ∪ Qa ∪ Qb) E₄.pool q :=
    hq.mono (by simp only [Set.union_assoc]; exact Set.Subset.rfl)
  have hqa := hqb.back hwf₄ he₄ hz₄ Set.subset_union_left
  have hqc := hqa.back hwf₃ he₃ hz₃ Set.subset_union_left
  have hbool' : q.term Prim.bool.idx = .prim .bool := hq.wf.term_prim .bool
  exact Derivation.ite ((hrec.left.right.right.1 _ _ hrootc).trans (congrArg some hbool'))
    (hrec.left.right.left.1 _ _ hroota) (hrec.left.left.1 _ _ hrootb)
    (hrec.right.1 _ _ (List.mem_singleton_self _)) (hderc q ty hqc hrec.left.right.right)
    (hdera q ty hqa hrec.left.right.left) (hderb q ty hqb hrec.left.left)

theorem app_sound {id : Nat} {f a : Expr} (hf : InferSound ctx f) (ha : InferSound ctx a) :
    InferSound ctx (.app id f a) := by
  intro Z env t E₀ hr
  have ht := List.mem_singleton_self t
  rw [infer]
  refine Prefix.start hr fun E₁ hP₁ hp₁ => ?_
  refine hP₁.build_bind (fresh_run hP₁.ready.wf hP₁.ready.unbound) fun argTy E₂ hP₂ hg₂ hE₂ => ?_
  obtain ⟨hav, hat, _⟩ := hE₂
  have hwf₂ := hP₂.ready.wf
  refine hP₂.build_bind (fnType_run hwf₂ hP₂.ready.unbound hav (hP₂.ready.valid t ht))
    fun ft E₃ hP₃ hg₃ hE₃ => ?_
  obtain ⟨hfv, hfi⟩ := hE₃
  have hr₃ := hP₃.ready
  have hwf₃ := hr₃.wf
  -- the argument's variable is new, and the function is checked against `argument -> expected`
  have hat₃ : E₃.pool.term argTy = .var E₁.pool.varCount := (hg₃.term_eq hwf₂ hwf₃ hav).trans hat
  have hnew := hP₁.ready.unbound.avoids_var (Nat.le_refl _)
  have hft : E₃.pool.term ft = .fn (.var E₁.pool.varCount) (E₃.pool.term t) := by
    rw [term_of_fn hwf₃ hfi, hat₃]
  have hs₃ : Stepped (Live E₀.pool env [t]) ⟨[(id, t)], [], [], []⟩ E₀ E₃ := hP₃.stepped hr.wf
  have hrf : Ready ctx Z env [ft] E₃.pool := hr₃.single hfv fun w hw => by
    rw [hft] at hw
    exact (List.mem_append.1 hw).elim (hnew w) (hr₃.avoids t ht w)
  refine Run.bind (hf Z env ft E₃ hrf) fun _ E₄ hwf₄ he₄ hz₄ ⟨newf, Qf, hdf, hrootf, hderf⟩ => ?_
  have hra₃ : Ready ctx Z env [argTy] E₃.pool :=
    hr₃.single (Nat.lt_of_lt_of_le hav hg₃.size_le) (by rw [hat₃]; exact hnew)
  have hra := hra₃.after hdf hz₄
  refine ((ha _ env argTy E₄ hra).nested Set.subset_union_left).imp
    fun _ E₅ hwf₅ he₅ _ ⟨hz₅, newa, Qa, hda, hroota, hdera⟩ => ?_
  -- the function and the argument bind only what the application may bind
  have hcnew : E₁.pool.varCount ∈ Live E₀.pool env [t] := Or.inr (Or.inr (hp₁ ▸ Nat.le_refl _))
  have hdf' := hdf.within hr hwf₃ hs₃.ext hs₃.confined (fun z hz => (hrf.unbound z hz).2)
    fun h hh w hw => by
      rw [List.mem_singleton.1 hh, hft] at hw
      simp only [Term.vars, List.mem_append, List.mem_singleton] at hw
      rcases hw with rfl | hw
      exacts [hcnew, hr.live_self hwf₃ hs₃.ext hs₃.confined t ht w hw]
  have he₀₄ := hs₃.ext.trans he₄
  have hda' := hda.within hr hwf₄ he₀₄ (hs₃.confined.trans hwf₃ hwf₄ hs₃.ext he₄ hdf'.confined)
    (fun z hz => (hra.unbound z (Or.inl hz)).2) fun h hh => by
      rw [List.mem_singleton.1 hh]
      refine hdf'.confined.vars_term hwf₃ hwf₄ he₄ (Nat.lt_of_lt_of_le hav hg₃.size_le) ?_
      rw [hat₃]
      exact Term.forall_mem_vars_var.2 hcnew
  have hd := Done.after_step hs₃ (Tables.covers_node (e := .app id f a) t rfl rfl rfl)
    ⟨by simpa using hr₃.valid t ht, by simp, by simp⟩
    (hdf'.seq hda' (hz₅.mono hwf₅ Set.subset_union_right))
  refine ⟨_, _, hd, List.mem_append_right _ (List.mem_singleton_self _), fun q ty hq hrec => ?_⟩
  have hqa : Later (Z ∪ Qf ∪ Qa) E₅.pool q := hq.mono (Set.union_assoc Z Qf Qa).subset
  have hqf := hqa.back hwf₅ he₅ hz₅ Set.subset_union_left
  -- the function's type is still `argument -> expected` in `q`
  have hfq : q.term ft = .fn (q.term argTy) (q.term t) :=
    term_of_fn hq.wf (((he₄.trans he₅).trans hq.ext).item_eq ft hfv ▸ hfi)
  exact Derivation.app ((hrec.left.right.1 _ _ hrootf).trans (congrArg some hfq))
    (hrec.left.left.1 _ _ hroota) (hrec.right.1 _ _ (List.mem_singleton_self _))
    (hderf q ty hqf hrec.left.right) (hdera q ty hqa hrec.left.left)

theorem lam_sound {id : Nat} {x : String} {ann : TypeExpr} {body : Expr}
    (hb : InferSound ctx body) : InferSound ctx (.lam id x ann body) := by
  intro Z env t E₀ hr
  have ht := List.mem_singleton_self t
  rw [infer]
  refine Prefix.start hr fun E₁ hP₁ hp₁ => ?_
  refine hP₁.build_bind (resolveType_run hP₁.ready.wf hP₁.ready.unbound ann)
    fun param E₂ hP₂ hg₂ hE₂ => ?_
  obtain ⟨hpv, hadm, hpnew⟩ := hE₂
  refine hP₂.build_bind (fresh_run hP₂.ready.wf hP₂.ready.unbound) fun ret E₃ hP₃ hg₃ hE₃ => ?_
  obtain ⟨hrv, hrt, _⟩ := hE₃
  have hr₃ := hP₃.ready
  have hwf₃ := hr₃.wf
  have hs₃ : Stepped (Live E₀.pool env [t]) ⟨[(id, t)], [], [], []⟩ E₀ E₃ := hP₃.stepped hr.wf
  -- the parameter's and the result's variables are all new, so none is frozen
  have hpv₃ : param.raw < E₃.pool.size := Nat.lt_of_lt_of_le hpv hg₃.size_le
  have hpnew₃ : ∀ w ∈ (E₃.pool.term param).vars, E₀.pool.varCount ≤ w := by
    rw [hg₃.term_eq hP₂.ready.wf hwf₃ hpv, ← hp₁]
    exact hpnew
  have hrnew₃ := hP₂.fresh_new hrt
  have hrb : Ready ctx Z (env.prepend x (Scheme.mono param)) [ret] E₃.pool :=
    (hr₃.bind x hpv₃ (fun v hv => absurd hv List.not_mem_nil)
      fun w hw _ => hr.unbound.not_mem (hpnew₃ w hw)).single_new hr.unbound hrv hrnew₃
  have hr₃' : Ready ctx Z env [t, param, ret] E₃.pool :=
    hr₃.append ((hr₃.single_new hr.unbound hpv₃ hpnew₃).append
      (hr₃.single_new hr.unbound hrv hrnew₃))
  refine Run.bind (hb Z _ ret E₃ hrb) fun _ E₄ hwf₄ he₄ hz₄ hE₄ => ?_
  obtain ⟨newb, Qb, hdb, hrootb, hderb⟩ := hE₄
  have hr₄ := hr₃'.after hdb hz₄
  refine Run.bind (fnType_run hwf₄ (hr₃'.later hwf₄ he₄ hz₄).unbound (hr₄.valid param (by simp))
    (hr₄.valid ret (by simp))) fun ft E₅ hwf₅ he₅ _ hE₅ => ?_
  obtain ⟨htab₅, hg₅, hfv, hfi⟩ := hE₅
  have hz₄₅ := Frozen.of_grows hwf₄ hwf₅ hg₅ hr₄.unbound
  have hr₅ := hr₄.later hwf₅ he₅ hz₄₅
  have hft : E₅.pool.term ft = .fn (E₅.pool.term param) (E₅.pool.term ret) := term_of_fn hwf₅ hfi
  -- the unification keeps the body's generalized variables frozen as well
  refine ((unifyAt_run hwf₅ hr₅.unbound (hr₅.valid t (by simp)) hfv (hr₅.avoids t (by simp))
    ?_).nested Set.subset_union_left).imp fun _ E₆ hwf₆ he₆ _ hE₆ => ?_
  · rw [hft]
    intro w hw
    simp only [Term.vars, List.mem_append] at hw
    exact hw.elim (hr₅.avoids param (by simp) w) (hr₅.avoids ret (by simp) w)
  obtain ⟨hz₆, htab₆, heq, hc₆⟩ := hE₆
  have hdb' := (hdb.mono (live_prepend x _)).within hr hwf₃ hs₃.ext hs₃.confined
    (fun z hz => (hr₃.unbound z hz).2) fun h hh w hw => by
      simp only [List.mem_cons, List.not_mem_nil, or_false] at hh
      rcases hh with rfl | rfl
      exacts [mem_live_of_le (hpnew₃ w hw), mem_live_of_le (hrnew₃ w hw)]
  -- the unification binds only variables of the expected type, the parameter and the result
  have he₃₅ := he₄.trans he₅
  have hc₃₅ := hdb'.confined.trans hwf₄ hwf₅ he₄ he₅ (.of_grows hwf₄ hwf₅ hg₅ _)
  have hc₀₅ := hs₃.confined.trans hwf₃ hwf₅ hs₃.ext he₃₅ hc₃₅
  have hs₆ : Stepped (Live E₀.pool env [t]) {} E₄ E₆ := by
    refine (Stepped.of_grows hwf₄ hwf₅ hg₅ htab₅).trans_empty
      (Stepped.of_confined hwf₆ he₆ htab₆ hc₆ ?_)
    rintro w (hw | hw)
    · exact hr.live_self hwf₅ (hs₃.ext.trans he₃₅) hc₀₅ t ht w hw
    · rw [hft] at hw
      simp only [Term.vars, List.mem_append] at hw
      rcases hw with hw | hw
      · exact hc₃₅.vars_term hwf₃ hwf₅ he₃₅ hpv₃ (fun w hw => mem_live_of_le (hpnew₃ w hw)) w hw
      · exact hc₃₅.vars_term hwf₃ hwf₅ he₃₅ hrv (fun w hw => mem_live_of_le (hrnew₃ w hw)) w hw
  have hz₄₆ := hz₄₅.trans hwf₅ hwf₆ he₅ he₆ hz₆
  have hd := Done.after_step hs₃ (Tables.covers_node (e := .lam id x ann body) t rfl rfl rfl)
    ⟨by simpa using hr₃.valid t ht, by simp, by simp⟩
    (hdb'.then_step hs₆ (hz₄₆.mono hwf₆ Set.subset_union_right))
  refine ⟨_, _, hd, List.mem_append_right _ (List.mem_singleton_self _), fun q ty hq hrec => ?_⟩
  have hqb := hq.back hwf₆ (he₅.trans he₆) hz₄₆ Set.Subset.rfl
  have he₅q := he₆.trans hq.ext
  -- in `q`, the expected type is still `parameter -> result`, and the parameter admitted
  have hfq : q.term t = .fn (q.term param) (q.term ret) := by
    rw [Extends.term_congr hwf₆ hq.wf hq.ext (Nat.lt_of_lt_of_le (hr₅.valid t (by simp))
      he₆.size_le) (Nat.lt_of_lt_of_le hfv he₆.size_le) heq]
    exact term_of_fn hq.wf (he₅q.item_eq ft hfv ▸ hfi)
  have hadm' : ann.Admits (q.term param) := by
    rw [Extends.term_eq_subst hP₂.ready.wf hq.wf ((Extends.of_grows hg₃).trans (he₃₅.trans he₅q))
      hpv]
    exact TypeExpr.Admits.subst _ ann hadm
  exact Derivation.lam hadm' ((hrec.right.1 _ _ (List.mem_singleton_self _)).trans
    (congrArg some hfq)) (hrec.left.1 _ _ hrootb) (hderb q ty hqb hrec.left)

theorem var_sound (id : Nat) (name : String) : InferSound ctx (.var id name) := by
  intro Z env t E₀ hr
  have ht := List.mem_singleton_self t
  rw [infer]
  refine Prefix.start hr fun E₁ hP₁ hp₁ => ?_
  have hr₁ := hP₁.ready
  have hwf₁ := hr₁.wf
  cases hl : env.lookup name with
  | none => exact Run.throw hwf₁ hr₁.unbound
  | some σ =>
  have hmem := Env.mem_of_lookup hl
  have hσ := hr₁.env_valid _ hmem
  refine hP₁.build_bind (instantiate_run hwf₁ hr₁.unbound hσ) fun inst E₂ hP₂ hg₂ hE₂ => ?_
  obtain ⟨hiv, ι, hι, hinst⟩ := hE₂
  have hwf₂ := hP₂.ready.wf
  refine hP₂.build_bind (fresh_run hwf₂ hP₂.ready.unbound) fun slot E₃ hP₃ hg₃ hE₃ => ?_
  obtain ⟨hsv, hst, _⟩ := hE₃
  have hwf₃ := hP₃.ready.wf
  refine hP₃.record_bind (recordSlot_run hwf₃ hP₃.ready.unbound) fun E₄ hP₄ hp₄ => ?_
  have hr₄' := hP₄.ready
  have hwf₄ := hr₄'.wf
  -- the instance stands for the scheme's body with its quantified variables renamed apart
  have hbody₄ : E₄.pool.term σ.body = E₁.pool.term σ.body := by
    rw [hp₄, hg₃.term_eq hwf₂ hwf₃ (Nat.lt_of_lt_of_le hσ hg₂.size_le), hg₂.term_eq hwf₁ hwf₂ hσ]
  have hinst₄ : E₄.pool.term inst = (E₄.pool.term σ.body).subst ι := by
    rw [hp₄, hg₃.term_eq hwf₂ hwf₃ hiv, hinst, ← hbody₄, hp₄]
  -- so its variables are new, or free in the environment and not frozen
  have hinstvars : ∀ w ∈ (E₄.pool.term inst).vars,
      E₀.pool.varCount ≤ w ∨ w ∈ (E₀.pool.envType env).free ∧ w ∉ Z := by
    rw [hinst₄, hbody₄, ← hp₁]
    exact hr₁.instance_vars hmem hι
  have hslot : E₀.pool.varCount ≤ E₂.pool.varCount := hP₂.grows.varCount_le
  have hiv₄ : inst.raw < E₄.pool.size := hp₄ ▸ Nat.lt_of_lt_of_le hiv hg₃.size_le
  have hsv₄ : slot.raw < E₄.pool.size := hp₄ ▸ hsv
  have hst₄ : E₄.pool.term slot = .var E₂.pool.varCount := hp₄ ▸ hst
  have hr₄ : Ready ctx Z env [t, inst, slot] E₄.pool :=
    hr₄'.append ((hr₄'.single hiv₄ fun w hw => (hinstvars w hw).elim hr.unbound.not_mem (·.2)).append
      (hr₄'.single hsv₄ (by rw [hst₄]; exact hr.unbound.avoids_var hslot)))
  refine Run.bind (hr₄.unifyAt_step (by simp) (by simp) id)
    fun _ E₅ hwf₅ he₅ hz₅ ⟨htab₅, heq₅, hc₅, hr₅⟩ => ?_
  refine (hr₅.unifyAt_step (by simp) (by simp) id).imp
    fun _ E₆ hwf₆ he₆ hz₆ ⟨htab₆, heq₆, hc₆, _⟩ => ?_
  -- the two unifications bind only variables of the expected type, the instance and the slot
  have hs₄ : Stepped (Live E₀.pool env [t])
      (Tables.prepend ⟨[], [(id, slot)], [], []⟩ ⟨[(id, t)], [], [], []⟩) E₀ E₄ := hP₄.stepped hr.wf
  have hU₄ : ∀ h ∈ [t, inst, slot], ∀ w ∈ (E₄.pool.term h).vars, w ∈ Live E₀.pool env [t] := by
    intro h hh w hw
    simp only [List.mem_cons, List.not_mem_nil, or_false] at hh
    rcases hh with rfl | rfl | rfl
    · exact hr.live_self hwf₄ hs₄.ext hs₄.confined h ht w hw
    · exact (hinstvars w hw).elim (fun h => Or.inr (Or.inr h)) fun h => Or.inr (Or.inl h.1)
    · rw [hst₄, Term.mem_vars_var] at hw
      exact Or.inr (Or.inr (hw ▸ hslot))
  have hc₅' := hc₅.mono hwf₅ fun w hw => hw.elim (hU₄ slot (by simp) w) (hU₄ inst (by simp) w)
  have hU₅ : ∀ h ∈ [t, inst], ∀ w ∈ (E₅.pool.term h).vars, w ∈ Live E₀.pool env [t] := by
    intro h hh
    have hh' : h ∈ [t, inst, slot] := by
      simp only [List.mem_cons, List.not_mem_nil, or_false] at hh ⊢
      tauto
    exact hc₅'.vars_term hwf₄ hwf₅ he₅ (hr₄.valid h hh') (hU₄ h hh')
  have hs₆ := (hs₄.trans_empty (Stepped.of_confined hwf₅ he₅ htab₅ hc₅ fun w hw =>
    hw.elim (hU₄ slot (by simp) w) (hU₄ inst (by simp) w))).trans_empty
    (Stepped.of_confined hwf₆ he₆ htab₆ hc₆ fun w hw =>
      hw.elim (hU₅ t (by simp) w) (hU₅ inst (by simp) w))
  have ht₆ := Nat.lt_of_lt_of_le (hr₅.valid t (by simp)) he₆.size_le
  have hi₆ := Nat.lt_of_lt_of_le (hr₅.valid inst (by simp)) he₆.size_le
  have hs₆v := Nat.lt_of_lt_of_le (hr₅.valid slot (by simp)) he₆.size_le
  refine ⟨_, ∅, Done.of_step hs₆ ⟨.refl _, .refl _, .refl _, .refl _⟩ ⟨by simp [Tables.prepend, ht₆],
    by simp [Tables.prepend, hs₆v], by simp [Tables.prepend]⟩, by simp [Tables.prepend, Expr.id],
    fun q ty hq hrec => ?_⟩
  have hq₄ : Later Z E₄.pool q := ((hq.mono Set.subset_union_left).back hwf₆ he₆ hz₆
    Set.Subset.rfl).back hwf₅ he₅ hz₅ Set.Subset.rfl
  -- the slot, the instance and the expected type are one type in `q`, an instance of the scheme
  have hqt : q.term t = q.term inst := Extends.term_congr hwf₆ hq.wf hq.ext ht₆ hi₆ heq₆
  have hqs : q.term slot = q.term inst := Extends.term_congr hwf₅ hq.wf (he₆.trans hq.ext)
    (hr₅.valid slot (by simp)) (hr₅.valid inst (by simp)) heq₅
  have hσr := hr₄.respects _ hmem
  have hqi : q.term inst = (q.term σ.body).subst
      fun v => if v ∈ σ.bounded then (ι v).subst q.binding else .var v := by
    rw [hq₄.ext.term_eq_subst hwf₄ hq₄.wf hiv₄, hinst₄]
    exact subst_rename_later hwf₄ hq₄.wf hq₄.ext hq₄.frozen (hr₄.env_valid _ hmem) hσr.1 hσr.2 hι.fixes
  refine Derivation.var (s := q.schemeType σ) (by rw [envType_lookup, hl]; rfl)
    ⟨_, fun v hv => if_neg hv, hqt.trans hqi⟩ (hrec.1 id t (by simp [Tables.prepend])) ?_
  rw [hrec.2.1 id slot (by simp [Tables.prepend]), hqs, hqt]

theorem tag_sound {id : Nat} {name : String} {args : List Expr} (hargs : ArgsSound ctx args) :
    InferSound ctx (.tag id name args) := by
  intro Z env t E₀ hr
  have ht := List.mem_singleton_self t
  rw [infer]
  refine Prefix.start hr fun E₁ hP₁ hp₁ => ?_
  have hr₁ := hP₁.ready
  have hwf₁ := hr₁.wf
  cases hl : ctx.lookupTag name with
  | none => exact Run.throw hwf₁ hr₁.unbound
  | some sig =>
  have hmem : (name, sig) ∈ ctx.tags.bindings := Env.mem_of_lookup hl
  obtain ⟨hav, hresv⟩ := hr₁.tags_valid _ hmem
  obtain ⟨hbZ, hargvars, hresvars⟩ := hr₁.tags_closed _ hmem
  refine hP₁.build_bind (instantiateTag_run hwf₁ hr₁.unbound hav hresv) fun r E₂ hP₂ hg₂ hE₂ => ?_
  obtain ⟨ι, hι, hall, hrv, hrt⟩ := hE₂
  obtain ⟨argTys, result⟩ := r
  have hwf₂ := hP₂.ready.wf
  refine hP₂.record_bind (recordTagIndex_run hwf₂ hP₂.ready.unbound) fun E₃ hP₃ hp₃ => ?_
  have hr₃ := hP₃.ready
  have hwf₃ := hr₃.wf
  split
  · exact Run.throw hwf₃ hr₃.unbound
  next hlen =>
  -- the instantiated types stand for the signature's with its variables renamed to new ones
  have hsame : ∀ i : Idx, i.raw < E₁.pool.size → E₃.pool.term i = E₁.pool.term i :=
    fun i hi => by rw [hp₃, hg₂.term_eq hwf₁ hwf₂ hi]
  have hall₃ : List.Forall₂ (fun a' sa => (sa.raw < E₁.pool.size ∧
      ∀ u ∈ (E₁.pool.term sa).vars, u ∈ sig.bounded) ∧
      a'.raw < E₂.pool.size ∧ E₂.pool.term a' = (E₁.pool.term sa).subst ι) argTys sig.args :=
    ((List.forall₂_and_left _ _).2 ⟨fun a ha => ⟨hav a ha, hargvars a ha⟩, hall.flip⟩).flip
  have hargnew : ∀ a ∈ argTys, a.raw < E₃.pool.size ∧
      ∀ w ∈ (E₃.pool.term a).vars, E₀.pool.varCount ≤ w := by
    refine ((List.forall₂_and_left _ _).1 (hall₃.imp fun a sa h => ⟨?_, h⟩)).1
    refine ⟨hp₃ ▸ h.2.1, ?_⟩
    rw [hp₃, h.2.2, ← hp₁]
    exact Term.vars_subst_fresh h.1.2 hι.fresh
  have hresnew : ∀ w ∈ (E₃.pool.term result).vars, E₀.pool.varCount ≤ w := by
    rw [hp₃, hrt, ← hp₁]
    exact Term.vars_subst_fresh hresvars hι.fresh
  have hlen' : args.length = argTys.length := (of_not_not hlen).trans hall.length_eq.symm
  have hra : Ready ctx Z env argTys E₃.pool := hr₃.retarget fun a ha =>
    ⟨(hargnew a ha).1, fun w hw => hr.unbound.not_mem ((hargnew a ha).2 w hw)⟩
  have hrall : Ready ctx Z env (t :: result :: argTys) E₃.pool :=
    hr₃.append ((hr₃.single_new hr.unbound (hp₃ ▸ hrv) hresnew).append hra)
  refine Run.bind (hargs Z env argTys E₃ hlen' hra)
    fun _ E₄ hwf₄ he₄ hz₄ ⟨newa, Qa, hda, hroots, hders⟩ => ?_
  have hr₄ := hrall.after hda hz₄
  refine ((hr₄.unifyAt_step (a := t) (b := result) (by simp) (by simp) id).nested
    Set.subset_union_left).imp fun _ E₅ hwf₅ he₅ _ ⟨hz₅, htab₅, heq, hc₅, _⟩ => ?_
  -- the arguments and the final unification bind only what the construction may bind
  have hs₃ : Stepped (Live E₀.pool env [t])
      (Tables.prepend ⟨[], [], [(id, sig.index)], []⟩ ⟨[(id, t)], [], [], []⟩) E₀ E₃ :=
    hP₃.stepped hr.wf
  have hda' := hda.within hr hwf₃ hs₃.ext hs₃.confined (fun z hz => (hra.unbound z hz).2)
    fun a ha w hw => mem_live_of_le ((hargnew a ha).2 w hw)
  have he₀₄ := hs₃.ext.trans he₄
  have hs₅ : Stepped (Live E₀.pool env [t]) {} E₄ E₅ := by
    refine Stepped.of_confined hwf₅ he₅ htab₅ hc₅ ?_
    rintro w (hw | hw)
    · exact hr.live_self hwf₄ he₀₄ (hs₃.confined.trans hwf₃ hwf₄ hs₃.ext he₄ hda'.confined) t ht w hw
    · exact hda'.confined.vars_term hwf₃ hwf₄ he₄ (hp₃ ▸ hrv) (fun w hw => mem_live_of_le (hresnew w hw)) w hw
  have hd := Done.after_step hs₃
    (⟨.refl _, .refl _, .refl _, .refl _⟩ : Tables.Covers _ [.tag id name args])
    ⟨by simpa [Tables.prepend] using hr₃.valid t ht, by simp [Tables.prepend],
      by simp [Tables.prepend]⟩ (hda'.then_step hs₅ (hz₅.mono hwf₅ Set.subset_union_right))
  refine ⟨_, _, hd, by simp [Tables.prepend, Expr.id], fun q ty hq hrec => ?_⟩
  have hq₄ := hq.back hwf₅ he₅ hz₅ Set.Subset.rfl
  have hq₃ := hq₄.back hwf₄ he₄ hz₄ Set.subset_union_left
  -- an instantiated type read in `q` is the signature's type read in `q`, renamed
  have hread : ∀ i : Idx, i.raw < E₁.pool.size → (∀ u ∈ (E₁.pool.term i).vars, u ∈ sig.bounded) →
      ((E₁.pool.term i).subst ι).subst q.binding = (q.term i).subst
        fun v => if v ∈ sig.bounded then (ι v).subst q.binding else .var v := by
    intro i hi hiv
    have hi₃ : i.raw < E₃.pool.size := hp₃ ▸ Nat.lt_of_lt_of_le hi hg₂.size_le
    rw [← hsame i hi]
    exact subst_rename_later hwf₃ hq₃.wf hq₃.ext hq₃.frozen hi₃ hbZ
      (fun w hw hwb => absurd (hiv w (hsame i hi ▸ hw)) hwb) hι.fixes
  have he₂₄ : E₂.pool.Extends E₄.pool := hp₃ ▸ he₄
  have hread' : ∀ i : Idx, i.raw < E₂.pool.size → q.term i = (E₂.pool.term i).subst q.binding :=
    fun i hi => Extends.term_eq_subst hwf₂ hq.wf ((he₂₄.trans he₅).trans hq.ext) hi
  have hqt : q.term t = q.term result := Extends.term_congr hwf₅ hq.wf hq.ext
    (Nat.lt_of_lt_of_le (hr₄.valid t (by simp)) he₅.size_le)
    (Nat.lt_of_lt_of_le (hr₄.valid result (by simp)) he₅.size_le) heq
  refine Derivation.tag (s := q.tagType sig)
    (θ := fun v => if v ∈ sig.bounded then (ι v).subst q.binding else .var v)
    (by rw [Context.tagTypes, hl]; rfl)
    (hrec.right.2.2.2 id sig.index (by simp [Tables.prepend])) (fun v hv => if_neg hv) ?_ ?_
    fun a ha => hders q ty hq₄ hrec.left a ha
  · rw [hrec.right.1 id t (by simp [Tables.prepend]), hqt, hread' result hrv, hrt,
      hread _ hresv hresvars]
    rfl
  · refine List.forall₂_map_right_iff.2 (forall₂_compose (fun a a' sa hroot hsa => ?_) hroots hall₃)
    rw [hrec.left.1 _ _ hroot, hread' a' hsa.2.1, hsa.2.2, hread sa hsa.1.1 hsa.1.2]

theorem args_sound_nil : ArgsSound ctx [] := by
  intro Z env ts E₀ hlen hr
  cases ts with
  | cons _ _ => exact absurd hlen (by simp)
  | nil =>
    exact Run.pure hr.wf hr.unbound ⟨{}, ∅, Done.refl hr.wf, .nil,
      fun _ _ _ _ a ha => absurd ha List.not_mem_nil⟩

theorem args_sound_cons {e : Expr} {es : List Expr} (he : InferSound ctx e)
    (hes : ArgsSound ctx es) : ArgsSound ctx (e :: es) := by
  intro Z env ts E₀ hlen hr
  cases ts with
  | nil => exact absurd hlen (by simp)
  | cons t ts =>
  have hlen' : es.length = ts.length := by simpa using hlen
  have ht : t ∈ t :: ts := List.mem_cons_self
  rw [inferArgs]
  refine Run.bind (he Z env t E₀ (hr.sub (List.cons_subset.2 ⟨ht, List.nil_subset _⟩)))
    fun _ E₁ hwf₁ he₁ hz₁ ⟨new₁, Q₁, hd₁, hroot₁, hder₁⟩ => ?_
  have hrs₀ : Ready ctx Z env ts E₀.pool := hr.sub (List.subset_cons_self _ _)
  have hrs := hrs₀.extend hwf₁ he₁ (hz₁.union hd₁.frozen) hd₁.fresh
  refine ((hes _ env ts E₁ hlen' hrs).nested Set.subset_union_left).imp
    fun _ E₂ hwf₂ he₂ _ ⟨hz₂, new₂, Q₂, hd₂, hroots₂, hders₂⟩ => ?_
  -- the later arguments bind only what the whole list may bind
  have hd₁' := hd₁.mono (live_mono (List.cons_subset.2 ⟨ht, List.nil_subset _⟩))
  have hd₂' := hd₂.within hr hwf₁ he₁ hd₁'.confined (fun z hz => (hrs.unbound z (Or.inl hz)).2)
    fun h hh => hr.live_self hwf₁ he₁ hd₁'.confined h (List.mem_cons_of_mem _ hh)
  refine ⟨_, _, hd₁'.seq hd₂' (hz₂.mono hwf₂ Set.subset_union_right),
    .cons (List.mem_append_right _ hroot₁) (hroots₂.imp fun _ _ h => List.mem_append_left _ h),
    fun q ty hq hrec => ?_⟩
  have hq₂ : Later (Z ∪ Q₁ ∪ Q₂) E₂.pool q := hq.mono (Set.union_assoc Z Q₁ Q₂).subset
  have hq₁ := hq₂.back hwf₂ he₂ hz₂ Set.subset_union_left
  intro a ha
  rcases List.mem_cons.1 ha with rfl | ha
  · exact hder₁ q ty hq₁ hrec.right
  · exact hders₂ q ty hq₂ hrec.left a ha

theorem match_sound {id : Nat} {sc : Expr} {pat : Pattern} {a b : Expr}
    (hsc : InferSound ctx sc) (ha : InferSound ctx a) (hb : InferSound ctx b) :
    InferSound ctx (.matchAs id sc pat a b) := by
  intro Z env t E₀ hr
  have ht := List.mem_singleton_self t
  rw [infer]
  refine Prefix.start hr fun E₁ hP₁ _ => ?_
  refine hP₁.build_bind (fresh_run hP₁.ready.wf hP₁.ready.unbound) fun scTy E₂ hP₂ _ hE₂ => ?_
  obtain ⟨hscv, hsct, _⟩ := hE₂
  have hwf₂ := hP₂.ready.wf
  refine hP₂.build_bind (fresh_run hwf₂ hP₂.ready.unbound) fun slot E₃ hP₃ hg₃ hE₃ => ?_
  obtain ⟨hslv, hslt, _⟩ := hE₃
  have hwf₃ := hP₃.ready.wf
  refine hP₃.record_bind (recordPat_run hwf₃ hP₃.ready.unbound) fun E₄ hP₄ hp₄ => ?_
  have hr₄' := hP₄.ready
  have hwf₄ := hr₄'.wf
  -- the scrutinee's variable and the pattern's slot are new
  have hscv₄ : scTy.raw < E₄.pool.size := hp₄ ▸ Nat.lt_of_lt_of_le hscv hg₃.size_le
  have hslv₄ : slot.raw < E₄.pool.size := hp₄ ▸ hslv
  have hscnew : ∀ w ∈ (E₄.pool.term scTy).vars, E₀.pool.varCount ≤ w := by
    rw [hp₄, hg₃.term_eq hwf₂ hwf₃ hscv]
    exact hP₁.fresh_new hsct
  have hslnew : ∀ w ∈ (E₄.pool.term slot).vars, E₀.pool.varCount ≤ w := by
    rw [hp₄]
    exact hP₂.fresh_new hslt
  have hr₄ : Ready ctx Z env [t, scTy, slot] E₄.pool :=
    hr₄'.append ((hr₄'.single_new hr.unbound hscv₄ hscnew).append
      (hr₄'.single_new hr.unbound hslv₄ hslnew))
  refine Run.bind (hr₄.unifyAt_step (by simp) (by simp) id) fun _ E₅ hwf₅ he₅ _ hE₅ => ?_
  obtain ⟨htab₅, heq₅, hc₅, hr₅⟩ := hE₅
  have hc₅' : Confined E₄.pool E₅.pool (Live E₀.pool env [t]) := hc₅.mono hwf₅ fun w hw =>
    hw.elim (fun hw => mem_live_of_le (hslnew w hw)) fun hw => mem_live_of_le (hscnew w hw)
  have hs₅ : Stepped (Live E₀.pool env [t])
      (Tables.prepend ⟨[], [], [], [(pat.id, slot)]⟩ ⟨[(id, t)], [], [], []⟩) E₀ E₅ :=
    (hP₄.stepped hr.wf).trans_empty ⟨hwf₅, he₅, by rw [htab₅, Tables.empty_prepend], hc₅'⟩
  -- the branches, for the bindings the pattern makes, all to the scrutinee's variable
  suffices h : ∀ front : Env Scheme, (∀ e ∈ front.bindings, e.2 = Scheme.mono scTy) →
      (∀ q : Pool, q.envType front = pat.env (q.term scTy)) →
      Run Z (do
        infer ctx env sc scTy
        infer ctx (front.append env) a t
        infer ctx env b t) E₅ fun _ => Inferred ctx Z env (.matchAs id sc pat a b) t E₀ by
    dsimp only
    split
    · exact h {} (fun e he => absurd he List.not_mem_nil) fun q => by
        simp only [Pattern.env, *]
        rfl
    · next x hx =>
      refine h _ (fun e he => ?_) fun q => ?_
      · rw [Env.bindings_prepend, List.mem_cons] at he
        rcases he with rfl | he
        exacts [rfl, absurd he List.not_mem_nil]
      · simp only [Pattern.env, hx]
        rfl
  intro front hfront hpat
  have hrs : Ready ctx Z env [scTy] E₅.pool := hr₅.sub (by simp)
  refine Run.bind (hsc Z env scTy E₅ hrs) fun _ E₆ hwf₆ he₆ hz₆ hE₆ => ?_
  obtain ⟨news, Qs, hds, hroots, hders⟩ := hE₆
  have hr₆ := hr₅.after hds hz₆
  have hra : Ready ctx (Z ∪ Qs) (front.append env) [t] E₆.pool := by
    refine (hr₆.front (fun e he => ?_) fun e he => ?_).sub (by simp)
    · rw [hfront e he]
      exact hr₆.valid scTy (by simp)
    · rw [hfront e he]
      exact ⟨fun v hv => absurd hv List.not_mem_nil,
        fun w hw _ => hr₆.avoids scTy (by simp) w hw⟩
  refine Run.bind ((ha _ _ t E₆ hra).nested Set.subset_union_left)
    fun _ E₇ hwf₇ he₇ _ hE₇ => ?_
  obtain ⟨hz₇, newa, Qa, hda, hroota, hdera⟩ := hE₇
  have hr₇ := hr₆.after hda hz₇
  have hrb : Ready ctx (Z ∪ Qs ∪ Qa) env [t] E₇.pool := hr₇.sub (by simp)
  refine ((hb _ env t E₇ hrb).nested (Set.subset_union_left.trans Set.subset_union_left)).imp
    fun _ E₈ hwf₈ he₈ _ hE₈ => ?_
  obtain ⟨hz₈, newb, Qb, hdb, hrootb, hderb⟩ := hE₈
  -- each part binds only what the match may bind
  have hscU : ∀ w ∈ (E₅.pool.term scTy).vars, w ∈ Live E₀.pool env [t] :=
    hc₅'.vars_term hwf₄ hwf₅ he₅ hscv₄ fun w hw => mem_live_of_le (hscnew w hw)
  have hds' := hds.within hr hwf₅ hs₅.ext hs₅.confined (fun z hz => (hrs.unbound z hz).2)
    fun h hh => List.mem_singleton.1 hh ▸ hscU
  have he₀₆ := hs₅.ext.trans he₆
  have hc₆ := hs₅.confined.trans hwf₅ hwf₆ hs₅.ext he₆ hds'.confined
  have hda' := (hda.mono (live_append fun e he => by rw [hfront e he])).within hr hwf₆ he₀₆
    hc₆ (fun z hz => (hra.unbound z (Or.inl hz)).2) fun h hh => by
      simp only [List.mem_cons, List.not_mem_nil, or_false] at hh
      rcases hh with rfl | rfl
      · exact hds'.confined.vars_term hwf₅ hwf₆ he₆ (hr₅.valid h (by simp)) hscU
      · exact hr.live_self hwf₆ he₀₆ hc₆ h ht
  have he₀₇ := he₀₆.trans he₇
  have hc₇ := hc₆.trans hwf₆ hwf₇ he₀₆ he₇ hda'.confined
  have hdb' := hdb.within hr hwf₇ he₀₇ hc₇ (fun z hz => (hrb.unbound z (Or.inl (Or.inl hz))).2)
    (hr.live_self hwf₇ he₀₇ hc₇)
  have hd := Done.after_step hs₅
    (⟨.refl _, .refl _, .refl _, .refl _⟩ : Tables.Covers _ [.matchAs id sc pat a b])
    ⟨by simpa [Tables.prepend] using hr₅.valid t (by simp), by simp [Tables.prepend],
      by simpa [Tables.prepend] using hr₅.valid slot (by simp)⟩
    ((hds'.seq hda' (hz₇.mono hwf₇ Set.subset_union_right)).seq hdb'
      (hz₈.mono hwf₈ (Set.union_subset_union_left Qa Set.subset_union_right)))
  refine ⟨_, _, hd, by simp [Tables.prepend, Expr.id], fun q ty hq hrec => ?_⟩
  have hqb : Later (Z ∪ Qs ∪ Qa ∪ Qb) E₈.pool q :=
    hq.mono (by simp only [Set.union_assoc]; exact Set.Subset.rfl)
  have hqa := hqb.back hwf₈ he₈ hz₈ Set.subset_union_left
  have hqs := hqa.back hwf₇ he₇ hz₇ Set.subset_union_left
  -- the pattern's slot stands for the scrutinee's type in `q`
  have hqsl : q.term slot = q.term scTy := Extends.term_congr hwf₅ hq.wf
    (((he₆.trans he₇).trans he₈).trans hq.ext) (hr₅.valid slot (by simp))
    (hr₅.valid scTy (by simp)) heq₅
  have hderA := hdera q ty hqa hrec.left.right.left
  rw [envType_append, hpat q] at hderA
  exact Derivation.matchAs (hrec.left.right.right.1 _ _ hroots)
    ((hrec.right.2.2.1 pat.id slot (by simp [Tables.prepend])).trans (congrArg some hqsl))
    (hrec.left.right.left.1 _ _ hroota) (hrec.left.left.1 _ _ hrootb)
    (hrec.right.1 id t (by simp [Tables.prepend])) (hders q ty hqs hrec.left.right.right) hderA
    (hderb q ty hqb hrec.left.left)

/-- After a `let`'s value was inferred against the variable `c` allocated for it, what
generalization quantifies is new, unbound, and free neither in the environment nor in the
expected type; so the body can be inferred with those variables frozen as well, and the
scheme bound in front. -/
theorem Ready.letBody {Z Qv Qg : Set Nat} {env : Env Scheme} {t vTy : Idx} {E₁ E₂ E₃ : Engine}
    {nodes : List Expr} {newv : Tables} (x : String) (hr₁ : Ready ctx Z env [t] E₁.pool)
    (hwf₂ : E₂.pool.WF) (hg₂ : E₁.pool.Grows E₂.pool) (hvv : vTy.raw < E₂.pool.size)
    (hvt : E₂.pool.term vTy = .var E₁.pool.varCount)
    (hvc₂ : E₂.pool.varCount = E₁.pool.varCount + 1) (hwf₃ : E₃.pool.WF)
    (he₃ : E₂.pool.Extends E₃.pool) (hz₃ : Frozen Z E₂.pool E₃.pool)
    (hdv : Done (Live E₂.pool env [vTy]) nodes E₂ E₃ newv Qv)
    (hQgm : ∀ w, w ∈ Qg ↔ w ∈ (E₃.pool.generalize env vTy).bounded) :
    (∀ w ∈ Qg, E₁.pool.varCount ≤ w ∧ w < E₃.pool.varCount) ∧ Frozen Qg E₁.pool E₃.pool ∧
      Ready ctx (Z ∪ Qv ∪ Qg) env [t] E₃.pool ∧
      Ready ctx (Z ∪ Qv ∪ Qg) (env.prepend x (E₃.pool.generalize env vTy)) [t] E₃.pool := by
  have ht := List.mem_singleton_self t
  have hwf₁ := hr₁.wf
  have he₂ : E₁.pool.Extends E₂.pool := .of_grows hg₂
  have hr₂ := hr₁.later hwf₂ he₂ (Frozen.of_grows hwf₁ hwf₂ hg₂ hr₁.unbound)
  -- the value's type is the variable `c`, the first one allocated by the rule
  have hcvars : ∀ w, w ∈ (E₂.pool.term vTy).vars ↔ w = E₁.pool.varCount := by
    intro w
    rw [hvt]
    simp [Term.vars]
  have hcZ : E₁.pool.varCount ∉ Z := hr₁.unbound.not_mem (Nat.le_refl _)
  have hr₂' : Ready ctx Z env [t, vTy] E₂.pool :=
    hr₂.append (hr₂.single hvv fun w hw => (hcvars w).1 hw ▸ hcZ)
  have hr₃ := hr₂'.extend hwf₃ he₃ (hz₃.union hdv.frozen) hdv.fresh
  have hvv₃ : vTy.raw < E₃.pool.size := hr₃.valid vTy (by simp)
  -- what generalization quantifies is new, unbound, and free neither in the environment nor
  -- in the expected type
  have hgen := mem_generalize_confined hwf₂ hwf₃ he₃ hz₃ hr₂.respects hr₂.env_valid hvv hdv.confined
  have hQg : ∀ w ∈ Qg, E₁.pool.varCount ≤ w ∧ w < E₃.pool.varCount := by
    intro w hw
    rw [hQgm] at hw
    refine ⟨(hgen w hw).elim (fun h => ((hcvars w).1 h).ge) fun h => ?_,
      lt_varCount_of_mem_vars_term hwf₃ hvv₃ ((mem_generalize hwf₃ env vTy).1 hw).1⟩
    rw [hvc₂] at h
    exact Nat.le_of_succ_le h
  have hQgun : E₃.pool.Unbound Qg := fun w hw => ⟨(hQg w hw).2,
    target?_of_mem_vars_term hwf₃ ((mem_generalize hwf₃ env vTy).1 ((hQgm w).1 hw)).1⟩
  have hQgt : ∀ w ∈ (E₃.pool.term t).vars, w ∉ Qg := by
    intro w hw hwg
    refine not_mem_generalize_term hwf₂ hwf₃ he₃ hz₃ hr₂.respects hr₂.env_valid hvv hdv.confined
      (hr₂.valid t ht) (fun u hu hcu => ?_) w hw ((hQgm w).1 hwg)
    rw [hg₂.term_eq hwf₁ hwf₂ (hr₁.valid t ht)] at hu
    exact Nat.lt_irrefl _ (((hcvars u).1 hcu) ▸ lt_varCount_of_mem_vars_term hwf₁ (hr₁.valid t ht) hu)
  have hQgf : Frozen Qg E₁.pool E₃.pool := by
    refine ⟨fun w hw => (hQgun w hw).2, fun u hu hun _ w hw hwg => ?_⟩
    refine not_mem_generalize_binding hwf₂ hwf₃ he₃ hz₃ hr₂.respects hr₂.env_valid hvv
      hdv.confined (Nat.lt_of_lt_of_le hu he₂.varCount_le) (hg₂.target?_eq u hu ▸ hun) ?_ w hw
      ((hQgm w).1 hwg)
    exact fun hcu => Nat.lt_irrefl _ (((hcvars u).1 hcu) ▸ hu)
  -- the body is checked with those variables frozen too
  have hrg : Ready ctx (Z ∪ Qv ∪ Qg) env [t] E₃.pool :=
    (hr₃.sub (by simp)).freeze
      hQgun (fun w hw hwg => ((mem_generalize hwf₃ env vTy).1 ((hQgm w).1 hwg)).2 hw)
      fun h hh => by
        rw [List.mem_singleton.1 hh]
        exact hQgt
  have hrb := hrg.bind x hvv₃ (fun w hw => Or.inr ((hQgm w).2 hw)) fun w hw hwb hwZ =>
    hwZ.elim (hr₃.avoids vTy (by simp) w hw) fun hwg => hwb ((hQgm w).1 hwg)
  exact ⟨hQg, hQgf, hrg, hrb⟩

theorem let_sound {id : Nat} {x : String} {v b : Expr} (hv : InferSound ctx v)
    (hb : InferSound ctx b) : InferSound ctx (.letIn id x v b) := by
  intro Z env t E₀ hr
  have ht := List.mem_singleton_self t
  rw [infer]
  refine Prefix.start hr fun E₁ hP₁ hp₁ => ?_
  have hr₁ := hP₁.ready
  have hwf₁ := hr₁.wf
  refine hP₁.build_bind (fresh_run hwf₁ hr₁.unbound) fun vTy E₂ hP₂ hg₂ hE₂ => ?_
  obtain ⟨hvv, hvt, hvc₂⟩ := hE₂
  have hr₂ := hP₂.ready
  have hwf₂ := hr₂.wf
  -- the value's type is the variable `c`, the first one allocated by this rule
  have hcvars : ∀ w, w ∈ (E₂.pool.term vTy).vars ↔ w = E₁.pool.varCount := by
    intro w
    rw [hvt]
    simp [Term.vars]
  have hcZ : E₁.pool.varCount ∉ Z := hr₁.unbound.not_mem (Nat.le_refl _)
  have hr₂' : Ready ctx Z env [t, vTy] E₂.pool :=
    hr₂.append (hr₂.single hvv fun w hw => (hcvars w).1 hw ▸ hcZ)
  have hrv : Ready ctx Z env [vTy] E₂.pool := hr₂'.sub (by simp)
  refine Run.bind (hv Z env vTy E₂ hrv) fun _ E₃ hwf₃ he₃ hz₃ ⟨newv, Qv, hdv, hrootv, hderv⟩ => ?_
  refine Run.bind (generalize_run hwf₃ (hr₂.later hwf₃ he₃ hz₃).unbound)
    fun σ E₃' _ _ _ ⟨hE, hσ⟩ => ?_
  rw [hE, hσ]
  obtain ⟨Qg, hQgm⟩ : ∃ Qg : Set Nat, ∀ w, w ∈ Qg ↔ w ∈ (E₃.pool.generalize env vTy).bounded :=
    ⟨{w | w ∈ (E₃.pool.generalize env vTy).bounded}, fun _ => Iff.rfl⟩
  obtain ⟨hQg, hQgf, hrg, hrb⟩ := hr₁.letBody x hwf₂ hg₂ hvv hvt hvc₂ hwf₃ he₃ hz₃ hdv hQgm
  have hvv₃ : vTy.raw < E₃.pool.size := Nat.lt_of_lt_of_le hvv he₃.size_le
  refine ((hb _ _ t E₃ hrb).nested (Set.subset_union_left.trans Set.subset_union_left)).imp
    fun _ E₄ hwf₄ he₄ _ ⟨hz₄, newb, Qb, hdb, hrootb, hderb⟩ => ?_
  -- the value and the body bind only what the let may bind
  have hs₁ : Stepped (Live E₀.pool env [t]) ⟨[(id, t)], [], [], []⟩ E₀ E₁ := hP₁.stepped hr.wf
  -- the value is inferred after the variable `c` was allocated, and generalized against the
  -- pool before it
  have hs₁₂ : Stepped (Live E₀.pool env [t]) {} E₁ E₂ :=
    Stepped.of_grows hwf₁ hwf₂ hg₂ (hP₂.tables.trans hP₁.tables.symm)
  have hs₂ : Stepped (Live E₀.pool env [t]) ⟨[(id, t)], [], [], []⟩ E₀ E₂ := hP₂.stepped hr.wf
  have hcU : ∀ w ∈ (E₂.pool.term vTy).vars, w ∈ Live E₀.pool env [t] := fun w hw =>
    Or.inr (Or.inr (by rw [(hcvars w).1 hw, hp₁]))
  have hdv' := hdv.within hr hwf₂ hs₂.ext hs₂.confined (fun z hz => (hrv.unbound z hz).2)
    fun h hh => List.mem_singleton.1 hh ▸ hcU
  have hdv₁ := (hdv'.step_left hs₁₂).generalizes hQg hQgf
  have he₀₃ := hs₂.ext.trans he₃
  have hc₃ := hs₂.confined.trans hwf₂ hwf₃ hs₂.ext he₃ hdv'.confined
  have hdb' := (hdb.mono (live_prepend x _)).within hr hwf₃ he₀₃ hc₃
    (fun z hz => (hrb.unbound z (Or.inl (Or.inl hz))).2) fun h hh => by
      simp only [List.mem_cons, List.not_mem_nil, or_false] at hh
      rcases hh with rfl | rfl
      · exact hdv'.confined.vars_term hwf₂ hwf₃ he₃ hvv hcU
      · exact hr.live_self hwf₃ he₀₃ hc₃ h ht
  have hd := Done.after_step hs₁ (Tables.covers_node (e := .letIn id x v b) t rfl rfl rfl)
    ⟨by simpa using hr₁.valid t ht, by simp, by simp⟩
    (hdv₁.seq hdb' (hz₄.mono hwf₄ (Set.union_subset_union_left _ Set.subset_union_right)))
  refine ⟨_, _, hd, List.mem_append_right _ (List.mem_singleton_self _), fun q ty hq hrec => ?_⟩
  have hqb : Later (Z ∪ Qv ∪ Qg ∪ Qb) E₄.pool q :=
    hq.mono (by simp only [Set.union_assoc]; exact Set.Subset.rfl)
  have hq₃ := hqb.back hwf₄ he₄ hz₄ Set.subset_union_left
  -- in `q`, the scheme quantifies exactly the variables of the value's type free nowhere in
  -- the environment
  exact Derivation.letIn (Q := (E₃.pool.generalize env vTy).bounded) (hrec.left.right.1 _ _ hrootv)
    (hrec.left.left.1 _ _ hrootb) (hrec.right.1 _ _ (List.mem_singleton_self _))
    (mem_generalize_later hwf₃ hq₃.wf hq₃.ext hq₃.frozen hrg.respects hrg.env_valid hvv₃
      fun w hw => Or.inr ((hQgm w).2 hw))
    (hderv q ty (hq₃.mono Set.subset_union_left) hrec.left.right) (hderb q ty hqb hrec.left.left)

end Soundness

mutual
/-- Inference is sound for every expression: from a ready pool, every success hands the
expression a Hindley–Milner derivation in every later pool that keeps what it generalized. -/
theorem infer_sound (ctx : Context) : ∀ e : Expr, InferSound ctx e
  | .lit id l => lit_sound id l
  | .tag _ _ args => tag_sound (inferArgs_sound ctx args)
  | .var id name => var_sound id name
  | .lam _ _ _ body => lam_sound (infer_sound ctx body)
  | .app _ f a => app_sound (infer_sound ctx f) (infer_sound ctx a)
  | .ite _ c a b => ite_sound (infer_sound ctx c) (infer_sound ctx a) (infer_sound ctx b)
  | .matchAs _ sc _ a b =>
    match_sound (infer_sound ctx sc) (infer_sound ctx a) (infer_sound ctx b)
  | .letIn _ _ v b => let_sound (infer_sound ctx v) (infer_sound ctx b)

/-- Inference of the arguments of a construction is sound. -/
theorem inferArgs_sound (ctx : Context) : ∀ args : List Expr, ArgsSound ctx args
  | [] => args_sound_nil
  | e :: es => args_sound_cons (infer_sound ctx e) (inferArgs_sound ctx es)
end

end TagML
