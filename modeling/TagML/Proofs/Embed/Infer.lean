import TagML.Proofs.Embed.Scheme

/-!
Inference reads the same from an engine and from one it embeds in.

`Engine.Embeds` relates two engines: their pools embed through `ε`, and the tables of the second
are those of the first sent through `ε`.  `InferM.Sim` is a relational triple for two runs from
related engines: both succeed, in related engines with `ε` extended past what the first
allocated and with results related by a post relation, or both fail, with errors that name
handles of the first pool and correspond through the extended `ε` and the renaming.  Every
step of inference is simulated by its image, and simulations compose along `bind`, so checking
an expression in a context, an environment and against a type of the first engine simulates
checking it in their images (`infer_embeds`), by induction on the expression as the rules of
`infer` recurse.
-/
namespace TagML

open Pool (SameBelow)

/-! ## Errors, contexts and tables sent through an embedding -/

/-- A failure with its handles sent through `ε` and its variable renamed by `ψ`. -/
def Cause.map (ε : Idx → Idx) (ψ : Nat → Nat) : Cause → Cause
  | unify err => unify (err.map ε ψ)
  | undefinedTag name => undefinedTag name
  | tagArity name e f => tagArity name e f
  | undefinedVar name => undefinedVar name

/-- The handles a failure names. -/
def Cause.handles : Cause → List Idx
  | unify err => err.handles
  | _ => []

/-- A failure sent through `ε` and `ψ`, attributed to the same node. -/
def CheckError.map (ε : Idx → Idx) (ψ : Nat → Nat) (err : CheckError) : CheckError :=
  { err with cause := err.cause.map ε ψ }

/-- The tables with their handles sent through `ε`. -/
def Tables.map (ε : Idx → Idx) (t : Tables) : Tables :=
  { exprs := t.exprs.map (Prod.map id ε), slots := t.slots.map (Prod.map id ε),
    tagIndices := t.tagIndices, pats := t.pats.map (Prod.map id ε) }

@[simp] theorem Scheme.map_mono (ε : Idx → Idx) (ψ : Nat → Nat) (t : Idx) :
    (Scheme.mono t).map ε ψ = Scheme.mono (ε t) := rfl

/-! Each of these is read only through handles below some size, so `ε` may grow past it. -/

section Congr

variable {m : Nat} {ε ε' : Idx → Idx} {ψ : Nat → Nat}

theorem UnifyError.map_congr {err : UnifyError} (hv : ∀ h ∈ err.handles, h.raw < m)
    (hε : SameBelow m ε ε') : err.map ε' ψ = err.map ε ψ := by
  cases err with
  | mismatch e f =>
    simp only [UnifyError.handles, List.mem_cons, List.not_mem_nil, or_false, forall_eq_or_imp,
      forall_eq] at hv
    simp only [UnifyError.map, hε e hv.1, hε f hv.2]
  | infinite v t =>
    simp only [UnifyError.handles, List.mem_singleton, forall_eq] at hv
    simp only [UnifyError.map, hε t hv]

theorem CheckError.map_congr {err : CheckError} (hv : ∀ h ∈ err.cause.handles, h.raw < m)
    (hε : SameBelow m ε ε') : err.map ε' ψ = err.map ε ψ := by
  obtain ⟨cause, expr⟩ := err
  cases cause
  case unify e =>
    simp only [CheckError.map, Cause.map, UnifyError.map_congr (ψ := ψ) hv hε]
  all_goals rfl

theorem Scheme.map_congr {σ : Scheme} (hv : σ.body.raw < m) (hε : SameBelow m ε ε') :
    σ.map ε' ψ = σ.map ε ψ := by
  simp only [Scheme.map, hε _ hv]

theorem TagSig.map_congr {sig : TagSig} (hargs : ∀ a ∈ sig.args, a.raw < m)
    (hres : sig.result.raw < m) (hε : SameBelow m ε ε') : sig.map ε' ψ = sig.map ε ψ := by
  simp only [TagSig.map, hε _ hres, List.map_congr_left fun a ha => hε a (hargs a ha)]

theorem Pool.ValidEnv.map_congr {p : Pool} {env : Env Scheme} (hv : p.ValidEnv env)
    (hε : SameBelow p.size ε ε') : env.map (Scheme.map ε' ψ) = env.map (Scheme.map ε ψ) :=
  Env.map_congr fun b hb => Scheme.map_congr (hv b hb) hε

theorem Pool.ValidTags.map_congr {p : Pool} {tags : Env TagSig} (hv : p.ValidTags tags)
    (hε : SameBelow p.size ε ε') : tags.map (TagSig.map ε' ψ) = tags.map (TagSig.map ε ψ) :=
  Env.map_congr fun b hb => TagSig.map_congr (hv b hb).1 (hv b hb).2 hε

theorem Context.map_congr {p : Pool} {ctx : Context} (htags : p.ValidTags ctx.tags)
    (hvars : p.ValidEnv ctx.vars) (hε : SameBelow p.size ε ε') :
    ctx.map ε' ψ = ctx.map ε ψ := by
  simp only [Context.map, htags.map_congr hε, hvars.map_congr hε]

theorem Tables.Valid.map_congr {t : Tables} {p : Pool} (hv : t.Valid p)
    (hε : SameBelow p.size ε ε') : t.map ε' = t.map ε := by
  have h : ∀ xs : List (Nat × Idx), (∀ x ∈ xs, x.2.raw < p.size) →
      xs.map (Prod.map id ε') = xs.map (Prod.map id ε) := fun xs hxs =>
    List.map_congr_left fun x hx => by simp only [Prod.map, hε x.2 (hxs x hx)]
  simp only [Tables.map, h _ hv.1, h _ hv.2.1, h _ hv.2.2]

end Congr

/-! ## Corresponding engines -/

/-- Two engines correspond through `ε`: well-formed pools that embed, tables of the first that
name handles of its pool, and the tables of the second those of the first sent through `ε`. -/
structure Engine.Embeds (n k : Nat) (ε : Idx → Idx) (eB eA : Engine) : Prop where
  wfB : eB.pool.WF
  wfA : eA.pool.WF
  pool : eB.pool.Embeds n k ε eA.pool
  valid : eB.tables.Valid eB.pool
  tables : eA.tables = eB.tables.map ε

namespace Engine.Embeds

variable {n k : Nat} {ε : Idx → Idx} {eB eA : Engine}

/-- The tables stay related when the pools are replaced by later embedded ones. -/
theorem repool (h : Engine.Embeds n k ε eB eA) {B A : Pool} {ε' : Idx → Idx} (hB : B.WF)
    (hA : A.WF) (he : B.Embeds n k ε' A) (hε : SameBelow eB.pool.size ε ε')
    (hs : eB.pool.size ≤ B.size) :
    Engine.Embeds n k ε' { pool := B, tables := eB.tables } { pool := A, tables := eA.tables } where
  wfB := hB
  wfA := hA
  pool := he
  valid := h.valid.mono hs
  tables := by rw [h.tables]; exact (h.valid.map_congr hε).symm

end Engine.Embeds

/-! ## Pool operations of inference -/

namespace Pool

/-- What corresponding operations returning lists of handles reach: as `Reaches`, with every
returned handle of `B` valid and the returned handles of `A` their images. -/
def ReachesAll (n k : Nat) (ε : Idx → Idx) (B : Pool) (rB rA : List Idx × Pool) : Prop :=
  ∃ ε', SameBelow B.size ε ε' ∧ rB.2.WF ∧ rA.2.WF ∧ rB.2.Embeds n k ε' rA.2 ∧ B.Grows rB.2 ∧
    (∀ a ∈ rB.1, a.raw < rB.2.size) ∧ rA.1 = rB.1.map ε'

variable {n k : Nat} {ε ε₁ : Idx → Idx} {B B₁ A : Pool}

/-- What is reached from a later pool is reached from an earlier one. -/
theorem Reaches.after (hε : SameBelow B.size ε ε₁) (hg : B.Grows B₁) {rB rA : Idx × Pool}
    (h : Reaches n k ε₁ B₁ rB rA) : Reaches n k ε B rB rA := by
  obtain ⟨ε₂, hε₂, hB₂, hA₂, he₂, hg₂, hv₂, hx₂⟩ := h
  exact ⟨ε₂, hε.trans hε₂ hg.size_le, hB₂, hA₂, he₂, hg.trans hg₂, hv₂, hx₂⟩

/-- A handle reached first, then a list of handles reached from where it was. -/
theorem ReachesAll.cons {x : Idx} {rs rs' : List Idx × Pool} (hε : SameBelow B.size ε ε₁)
    (hg : B.Grows B₁) (hx : x.raw < B₁.size) (h : ReachesAll n k ε₁ B₁ rs rs') :
    ReachesAll n k ε B (x :: rs.1, rs.2) (ε₁ x :: rs'.1, rs'.2) := by
  obtain ⟨ε₂, hε₂, hB₂, hA₂, he₂, hg₂, hv₂, hx₂⟩ := h
  refine ⟨ε₂, hε.trans hε₂ hg.size_le, hB₂, hA₂, he₂, hg.trans hg₂, fun a ha => ?_, ?_⟩
  · rcases List.mem_cons.1 ha with rfl | ha
    · exact Nat.lt_of_lt_of_le hx hg₂.size_le
    · exact hv₂ a ha
  · show ε₁ x :: rs'.1 = (x :: rs.1).map ε₂
    rw [List.map_cons, hx₂, hε₂ x hx]

namespace Embeds

mutual
/-- Resolving a written type in `B`, and in `A` with the images of the parameters in scope. -/
theorem resolve_reaches {params : Env Idx} : ∀ {ε : Idx → Idx} {B A : Pool}, B.WF → A.WF →
    B.Embeds n k ε A → (∀ b ∈ params.bindings, b.2.raw < B.size) → ∀ t : TypeExpr,
    Reaches n k ε B (t.resolve params B) (t.resolve (params.map ε) A)
  | ε, _, _, hB, hA, he, _, .prim q =>
    ⟨ε, SameBelow.refl _ _, hB, hA, he, .refl _, (hB.prim q).1, (he.prim hB hA q).symm⟩
  | _, _, _, hB, hA, he, _, .infer => he.fresh_reaches hB hA
  | ε, B, A, hB, hA, he, hp, .fn a r => by
    simp only [TypeExpr.resolve]
    obtain ⟨ε₁, hε₁, hB₁, hA₁, he₁, hg₁, ha₁, hx₁⟩ := resolve_reaches hB hA he hp a
    generalize a.resolve params B = ra at hB₁ hA₁ he₁ hg₁ ha₁ hx₁ ⊢
    generalize a.resolve (params.map ε) A = qa at hA₁ he₁ hx₁ ⊢
    obtain ⟨aB, B₁⟩ := ra
    obtain ⟨aA, A₁⟩ := qa
    dsimp only at hB₁ hA₁ he₁ hg₁ ha₁ hx₁ ⊢
    subst hx₁
    -- the parameters are handles of `B`, where `ε₁` agrees with `ε`
    rw [← Env.map_congr fun b hb => hε₁ b.2 (hp b hb)]
    have hp₁ : ∀ b ∈ params.bindings, b.2.raw < B₁.size :=
      fun b hb => Nat.lt_of_lt_of_le (hp b hb) hg₁.size_le
    obtain ⟨ε₂, hε₂, hB₂, hA₂, he₂, hg₂, hr₂, hx₂⟩ := resolve_reaches hB₁ hA₁ he₁ hp₁ r
    generalize r.resolve params B₁ = rr at hB₂ hA₂ he₂ hg₂ hr₂ hx₂ ⊢
    generalize r.resolve (params.map ε₁) A₁ = qr at hA₂ he₂ hx₂ ⊢
    obtain ⟨rB, B₂⟩ := rr
    obtain ⟨rA, A₂⟩ := qr
    dsimp only at hB₂ hA₂ he₂ hg₂ hr₂ hx₂ ⊢
    subst hx₂
    rw [← hε₂ aB ha₁]
    exact ((he₂.fn_reaches hB₂ hA₂ (Nat.lt_of_lt_of_le ha₁ hg₂.size_le) hr₂).after hε₂ hg₂).after
      hε₁ hg₁
  | ε, B, A, hB, hA, he, hp, .named name args => by
    -- a name that is not a bare parameter builds the user type of its resolved arguments
    have huser : Reaches n k ε B
        ((TypeExpr.resolveList params B args).2.user name (TypeExpr.resolveList params B args).1)
        ((TypeExpr.resolveList (params.map ε) A args).2.user name
          (TypeExpr.resolveList (params.map ε) A args).1) := by
      obtain ⟨ε₁, hε₁, hB₁, hA₁, he₁, hg₁, hv₁, hx₁⟩ := resolveList_reaches hB hA he hp args
      rw [hx₁]
      exact (he₁.user_reaches hB₁ hA₁ name hv₁).after hε₁ hg₁
    simp only [TypeExpr.resolve, Env.lookup_map]
    cases args with
    | nil =>
      cases hl : params.lookup name with
      | none => exact huser
      | some v =>
        exact ⟨ε, SameBelow.refl _ _, hB, hA, he, .refl _, hp _ (Env.mem_of_lookup hl), rfl⟩
    | cons a as =>
      cases params.lookup name <;> exact huser

/-- Resolving written types left to right in `B`, and in `A` with the images of the
parameters. -/
theorem resolveList_reaches {params : Env Idx} : ∀ {ε : Idx → Idx} {B A : Pool}, B.WF → A.WF →
    B.Embeds n k ε A → (∀ b ∈ params.bindings, b.2.raw < B.size) → ∀ ts : List TypeExpr,
    ReachesAll n k ε B (TypeExpr.resolveList params B ts) (TypeExpr.resolveList (params.map ε) A ts)
  | ε, _, _, hB, hA, he, _, [] =>
    ⟨ε, SameBelow.refl _ _, hB, hA, he, .refl _, fun _ h => absurd h List.not_mem_nil, rfl⟩
  | ε, B, A, hB, hA, he, hp, t :: ts => by
    simp only [TypeExpr.resolveList]
    obtain ⟨ε₁, hε₁, hB₁, hA₁, he₁, hg₁, ht₁, hx₁⟩ := resolve_reaches hB hA he hp t
    generalize t.resolve params B = rt at hB₁ hA₁ he₁ hg₁ ht₁ hx₁ ⊢
    generalize t.resolve (params.map ε) A = qt at hA₁ he₁ hx₁ ⊢
    obtain ⟨tB, B₁⟩ := rt
    obtain ⟨tA, A₁⟩ := qt
    dsimp only at hB₁ hA₁ he₁ hg₁ ht₁ hx₁ ⊢
    subst hx₁
    rw [← Env.map_congr fun b hb => hε₁ b.2 (hp b hb)]
    exact ReachesAll.cons hε₁ hg₁ ht₁ (resolveList_reaches hB₁ hA₁ he₁
      (fun b hb => Nat.lt_of_lt_of_le (hp b hb) hg₁.size_le) ts)
end

/-- The pass instantiating a tag's types under a renaming `m` of `B`, and under its image. -/
theorem tagPass_reaches (hB : B.WF) (hA : A.WF) (he : B.Embeds n k ε A) {m mA : List (Nat × Idx)}
    (hm : ∀ v j, m.lookup v = some j → j.raw < B.size)
    (hmA : ∀ v, mA.lookup (shiftFrom n k v) = (m.lookup v).map ε) {sig : TagSig}
    (hargs : ∀ a ∈ sig.args, a.raw < B.size) (hres : sig.result.raw < B.size) :
    let rB := B.rewrite do
      let args ← sig.args.mapM (Rewrite.substitute m)
      return (args, ← Rewrite.substitute m sig.result)
    let rA := A.rewrite do
      let args ← (sig.args.map ε).mapM (Rewrite.substitute mA)
      return (args, ← Rewrite.substitute mA (ε sig.result))
    ∃ ε', SameBelow B.size ε ε' ∧ rB.2.WF ∧ rA.2.WF ∧ rB.2.Embeds n k ε' rA.2 ∧ B.Grows rB.2 ∧
      (∀ a ∈ rB.1.1, a.raw < rB.2.size) ∧ rA.1.1 = rB.1.1.map ε' ∧
      rB.1.2.raw < rB.2.size ∧ rA.1.2 = ε' rB.1.2 := by
  simp only [Pool.rewrite, Rewrite.run_bind, Rewrite.run_pure]
  obtain ⟨ε₁, hε₁, h₁, hg₁, hv₁, hx₁⟩ := Rewrite.mapM_embeds (P := fun i => i.raw < B.size)
    (fun i ε stB stA h hg hi => Rewrite.substitute_embeds h (Nat.lt_of_lt_of_le hi hg.size_le))
    sig.args ε _ _ (Rewrite.Embeds.start hB hA he hm hmA) (.refl _) hargs hargs
  generalize (List.mapM (Rewrite.substitute m) sig.args).run { pool := B } = r₁ at hε₁ h₁ hg₁ hv₁ hx₁ ⊢
  generalize (List.mapM (Rewrite.substitute mA) (sig.args.map ε)).run { pool := A } = q₁ at h₁ hx₁ ⊢
  rw [← hε₁ sig.result hres]
  obtain ⟨ε₂, hε₂, h₂, hg₂, hv₂, hx₂⟩ :=
    Rewrite.substitute_embeds h₁ (Nat.lt_of_lt_of_le hres hg₁.size_le)
  generalize (Rewrite.substitute m sig.result).run r₁.2 = r₂ at hε₂ h₂ hg₂ hv₂ hx₂ ⊢
  generalize (Rewrite.substitute mA (ε₁ sig.result)).run q₁.2 = q₂ at h₂ hx₂ ⊢
  refine ⟨ε₂, hε₁.trans hε₂ hg₁.size_le, h₂.wfB, h₂.wfA, h₂.pool, hg₁.trans hg₂,
    fun a ha => Nat.lt_of_lt_of_le (hv₁ a ha) hg₂.size_le, ?_, hv₂, hx₂⟩
  rw [hx₁]
  exact List.map_congr_left fun a ha => (hε₂ a (hv₁ a ha)).symm

end Embeds

end Pool

namespace InferM

variable {α β γ δ : Type} {n k : Nat} {ε : Idx → Idx} {eB eA : Engine}

/-- What two runs end in, from an engine `eB` related through `ε` to another: both succeed in
related engines, `ε` extended past the handles of `eB` and the results related by `R`, or both
fail, the first with an error naming handles of its pool and the second with its image. -/
def Related (n k : Nat) (ε : Idx → Idx) (R : (Idx → Idx) → Pool → α → β → Prop) (eB : Engine) :
    EStateM.Result CheckError Engine α → EStateM.Result CheckError Engine β → Prop
  | .ok a eB', .ok b eA' => ∃ ε', SameBelow eB.pool.size ε ε' ∧ Engine.Embeds n k ε' eB' eA' ∧
      eB.pool.size ≤ eB'.pool.size ∧ R ε' eB'.pool a b
  | .error e eB', .error e' eA' => ∃ ε', SameBelow eB.pool.size ε ε' ∧
      Engine.Embeds n k ε' eB' eA' ∧ eB.pool.size ≤ eB'.pool.size ∧
      (∀ h ∈ e.cause.handles, h.raw < eB'.pool.size) ∧ e' = e.map ε' (shiftFrom n k)
  | _, _ => False

/-- Running `xB` from `eB` and `xA` from `eA` ends in related results. -/
def Sim (n k : Nat) (ε : Idx → Idx) (R : (Idx → Idx) → Pool → α → β → Prop) (eB eA : Engine)
    (xB : InferM α) (xA : InferM β) : Prop :=
  Related n k ε R eB (xB.run eB) (xA.run eA)

/-- A handle of the pool and its image. -/
def Image (ε : Idx → Idx) (p : Pool) (a b : Idx) : Prop := a.raw < p.size ∧ b = ε a

/-- Handles of the pool and their images. -/
def ImageAll (ε : Idx → Idx) (p : Pool) (as bs : List Idx) : Prop :=
  (∀ a ∈ as, a.raw < p.size) ∧ bs = as.map ε

/-- Results related from a later engine are related from an earlier one. -/
theorem Related.start {R : (Idx → Idx) → Pool → α → β → Prop} {ε₁ : Idx → Idx} {eB₁ : Engine}
    {r : EStateM.Result CheckError Engine α} {r' : EStateM.Result CheckError Engine β}
    (h : Related n k ε₁ R eB₁ r r') (hε : SameBelow eB.pool.size ε ε₁)
    (hs : eB.pool.size ≤ eB₁.pool.size) : Related n k ε R eB r r' := by
  cases r with
  | ok a eB₂ =>
    cases r' with
    | ok b eA₂ =>
      obtain ⟨ε₂, hε₂, he, hs₂, hR⟩ := h
      exact ⟨ε₂, hε.trans hε₂ hs, he, Nat.le_trans hs hs₂, hR⟩
    | error => exact False.elim h
  | error e eB₂ =>
    cases r' with
    | ok => exact False.elim h
    | error e' eA₂ =>
      obtain ⟨ε₂, hε₂, he, hs₂, hv, herr⟩ := h
      exact ⟨ε₂, hε.trans hε₂ hs, he, Nat.le_trans hs hs₂, hv, herr⟩

namespace Sim

theorem mono {R S : (Idx → Idx) → Pool → α → β → Prop} {xB : InferM α} {xA : InferM β}
    (hx : Sim n k ε R eB eA xB xA) (hRS : ∀ ε' p a b, R ε' p a b → S ε' p a b) :
    Sim n k ε S eB eA xB xA := by
  unfold Sim at hx ⊢
  revert hx
  cases xB.run eB with
  | ok a eB₁ =>
    cases xA.run eA with
    | ok b eA₁ =>
      intro hx
      obtain ⟨ε₁, hε₁, he₁, hs₁, hR⟩ := hx
      exact ⟨ε₁, hε₁, he₁, hs₁, hRS _ _ _ _ hR⟩
    | error => exact False.elim
  | error e eB₁ =>
    cases xA.run eA with
    | ok => exact False.elim
    | error => exact id

/-- Simulations compose: a first step, and from whatever it reaches a second one. -/
protected theorem bind {R : (Idx → Idx) → Pool → α → β → Prop}
    {S : (Idx → Idx) → Pool → γ → δ → Prop} {xB : InferM α} {xA : InferM β}
    {fB : α → InferM γ} {fA : β → InferM δ} (hx : Sim n k ε R eB eA xB xA)
    (hf : ∀ ε₁ a b eB₁ eA₁, SameBelow eB.pool.size ε ε₁ → Engine.Embeds n k ε₁ eB₁ eA₁ →
      eB.pool.size ≤ eB₁.pool.size → R ε₁ eB₁.pool a b → Sim n k ε₁ S eB₁ eA₁ (fB a) (fA b)) :
    Sim n k ε S eB eA (xB >>= fB) (xA >>= fA) := by
  unfold Sim at hx ⊢
  rw [run_bind, run_bind]
  revert hx
  cases xB.run eB with
  | ok a eB₁ =>
    cases xA.run eA with
    | ok b eA₁ =>
      intro hx
      obtain ⟨ε₁, hε₁, he₁, hs₁, hR⟩ := hx
      exact Related.start (hf ε₁ a b eB₁ eA₁ hε₁ he₁ hs₁ hR) hε₁ hs₁
    | error => exact False.elim
  | error e eB₁ =>
    cases xA.run eA with
    | ok => exact False.elim
    | error => exact id

protected theorem pure {R : (Idx → Idx) → Pool → α → β → Prop} {a : α} {b : β}
    (h : Engine.Embeds n k ε eB eA) (hR : R ε eB.pool a b) :
    Sim n k ε R eB eA (pure a) (pure b) :=
  ⟨ε, SameBelow.refl _ _, h, Nat.le_refl _, hR⟩

protected theorem throw {R : (Idx → Idx) → Pool → α → β → Prop} (h : Engine.Embeds n k ε eB eA)
    {err : CheckError} (hv : ∀ x ∈ err.cause.handles, x.raw < eB.pool.size) :
    Sim n k ε R eB eA (throw err) (throw (err.map ε (shiftFrom n k))) :=
  ⟨ε, SameBelow.refl _ _, h, Nat.le_refl _, hv, rfl⟩

/-- A failure ends both runs, whatever was to follow. -/
theorem throw_bind {R : (Idx → Idx) → Pool → γ → δ → Prop} {fB : α → InferM γ}
    {fA : β → InferM δ} (h : Engine.Embeds n k ε eB eA) {err : CheckError}
    (hv : ∀ x ∈ err.cause.handles, x.raw < eB.pool.size) :
    Sim n k ε R eB eA (throw err >>= fB) (throw (err.map ε (shiftFrom n k)) >>= fA) :=
  ⟨ε, SameBelow.refl _ _, h, Nat.le_refl _, hv, rfl⟩

/-- A pool operation and its image, reaching embedded pools. -/
protected theorem withPool (h : Engine.Embeds n k ε eB eA) {f g : Pool → Idx × Pool}
    (hr : Pool.Reaches n k ε eB.pool (f eB.pool) (g eA.pool)) :
    Sim n k ε Image eB eA (withPool f) (withPool g) := by
  unfold Sim
  rw [withPool_run, withPool_run]
  obtain ⟨ε', hε, hB', hA', he', hg, hv, hx⟩ := hr
  exact ⟨ε', hε, h.repool hB' hA' he' hε hg.size_le, hg.size_le, hv, hx⟩

/-! ### The steps of inference and their images -/

theorem recordExpr (h : Engine.Embeds n k ε eB eA) (id : Nat) {t : Idx}
    (ht : t.raw < eB.pool.size) :
    Sim n k ε (fun _ _ _ _ => True) eB eA (InferM.recordExpr id t) (InferM.recordExpr id (ε t)) :=
  ⟨ε, SameBelow.refl _ _,
    { h with
      valid := ⟨fun x hx => by
          rcases List.mem_cons.1 hx with rfl | hx
          exacts [ht, h.valid.1 x hx], h.valid.2⟩
      tables := by dsimp only; rw [h.tables]; rfl },
    Nat.le_refl _, trivial⟩

theorem recordSlot (h : Engine.Embeds n k ε eB eA) (id : Nat) {t : Idx}
    (ht : t.raw < eB.pool.size) :
    Sim n k ε (fun _ _ _ _ => True) eB eA (InferM.recordSlot id t) (InferM.recordSlot id (ε t)) :=
  ⟨ε, SameBelow.refl _ _,
    { h with
      valid := ⟨h.valid.1, fun x hx => by
          rcases List.mem_cons.1 hx with rfl | hx
          exacts [ht, h.valid.2.1 x hx], h.valid.2.2⟩
      tables := by dsimp only; rw [h.tables]; rfl },
    Nat.le_refl _, trivial⟩

theorem recordPat (h : Engine.Embeds n k ε eB eA) (id : Nat) {t : Idx}
    (ht : t.raw < eB.pool.size) :
    Sim n k ε (fun _ _ _ _ => True) eB eA (InferM.recordPat id t) (InferM.recordPat id (ε t)) :=
  ⟨ε, SameBelow.refl _ _,
    { h with
      valid := ⟨h.valid.1, h.valid.2.1, fun x hx => by
          rcases List.mem_cons.1 hx with rfl | hx
          exacts [ht, h.valid.2.2 x hx]⟩
      tables := by dsimp only; rw [h.tables]; rfl },
    Nat.le_refl _, trivial⟩

theorem recordTagIndex (h : Engine.Embeds n k ε eB eA) (id index : Nat) :
    Sim n k ε (fun _ _ _ _ => True) eB eA (InferM.recordTagIndex id index)
      (InferM.recordTagIndex id index) :=
  ⟨ε, SameBelow.refl _ _, { h with valid := h.valid, tables := by dsimp only; rw [h.tables]; rfl },
    Nat.le_refl _, trivial⟩

theorem fresh (h : Engine.Embeds n k ε eB eA) :
    Sim n k ε Image eB eA InferM.fresh InferM.fresh :=
  Sim.withPool h (h.pool.fresh_reaches h.wfB h.wfA)

theorem fnType (h : Engine.Embeds n k ε eB eA) {a r a' r' : Idx} (ha : a.raw < eB.pool.size)
    (hr : r.raw < eB.pool.size) (ha' : a' = ε a) (hr' : r' = ε r) :
    Sim n k ε Image eB eA (InferM.fnType a r) (InferM.fnType a' r') := by
  subst ha' hr'
  exact Sim.withPool h (h.pool.fn_reaches h.wfB h.wfA ha hr)

theorem instantiate (h : Engine.Embeds n k ε eB eA) {σ σ' : Scheme}
    (hb : σ.body.raw < eB.pool.size) (hσ : σ' = σ.map ε (shiftFrom n k)) :
    Sim n k ε Image eB eA (InferM.instantiate σ) (InferM.instantiate σ') := by
  subst hσ
  exact Sim.withPool h (h.pool.instantiate_reaches h.wfB h.wfA hb)

theorem resolveType (h : Engine.Embeds n k ε eB eA) (ann : TypeExpr) :
    Sim n k ε Image eB eA (InferM.resolveType ann) (InferM.resolveType ann) :=
  Sim.withPool h (Pool.Embeds.resolve_reaches h.wfB h.wfA h.pool
    (fun _ hb => absurd hb List.not_mem_nil) ann)

theorem generalize (h : Engine.Embeds n k ε eB eA) {env envA : Env Scheme} {t tA : Idx}
    (hv : eB.pool.ValidEnv env) (ht : t.raw < eB.pool.size)
    (henv : envA = env.map (Scheme.map ε (shiftFrom n k))) (htA : tA = ε t) :
    Sim n k ε (fun ε' p σ σ' => σ.body.raw < p.size ∧ σ' = σ.map ε' (shiftFrom n k)) eB eA
      (InferM.generalize env t) (InferM.generalize envA tA) := by
  subst henv htA
  exact ⟨ε, SameBelow.refl _ _, h, Nat.le_refl _, ht, h.pool.generalize h.wfB h.wfA hv ht⟩

/-- Unification at a node and at its image: the same outcome, and on failure errors that name
handles of the pool and correspond. -/
theorem unifyAt (h : Engine.Embeds n k ε eB eA) {a b a' b' : Idx} (ha : a.raw < eB.pool.size)
    (hb : b.raw < eB.pool.size) (ha' : a' = ε a) (hb' : b' = ε b) (id : Nat) :
    Sim n k ε (fun _ _ _ _ => True) eB eA (InferM.unifyAt a b id) (InferM.unifyAt a' b' id) := by
  subst ha' hb'
  obtain ⟨he₁, herr⟩ := h.pool.unify h.wfB h.wfA ha hb
  obtain ⟨hB₁, hl₁⟩ := Pool.unify_wf h.wfB ha hb
  obtain ⟨hA₁, -⟩ := Pool.unify_wf h.wfA (h.pool.lt a ha) (h.pool.lt b hb)
  have hv := Pool.unify_handles_lt h.wfB ha hb
  unfold Sim InferM.unifyAt
  rw [run_bind, run_bind, withPool_run, withPool_run]
  generalize eB.pool.unify a b = rB at he₁ herr hB₁ hl₁ hv ⊢
  generalize eA.pool.unify (ε a) (ε b) = rA at he₁ herr hA₁ ⊢
  obtain ⟨B₁, oB⟩ := rB
  obtain ⟨A₁, oA⟩ := rA
  dsimp only at he₁ herr hB₁ hl₁ hv hA₁ ⊢
  subst herr
  have hs : eB.pool.size ≤ B₁.size := Nat.le_of_eq hl₁.size_eq.symm
  have heng := h.repool hB₁ hA₁ he₁ (SameBelow.refl _ _) hs
  cases oB with
  | none => exact ⟨ε, SameBelow.refl _ _, heng, hs, trivial⟩
  | some err =>
    refine ⟨ε, SameBelow.refl _ _, heng, hs, fun x hx => ?_, rfl⟩
    rw [hl₁.size_eq]
    exact hv err rfl x hx

/-- A tag's instance and the instance of its image. -/
theorem instantiateTag (h : Engine.Embeds n k ε eB eA) {sig sig' : TagSig}
    (hargs : ∀ a ∈ sig.args, a.raw < eB.pool.size) (hres : sig.result.raw < eB.pool.size)
    (hsig : sig' = sig.map ε (shiftFrom n k)) :
    Sim n k ε (fun ε' p x y => ImageAll ε' p x.1 y.1 ∧ Image ε' p x.2 y.2) eB eA
      (InferM.instantiateTag sig) (InferM.instantiateTag sig') := by
  subst hsig
  unfold Sim InferM.instantiateTag
  rw [withPool_run, withPool_run]
  obtain ⟨ε₁, hε₁, hB₁, hA₁, he₁, hg₁, hl₁, hx₁⟩ := h.pool.freshFor_reaches h.wfB h.wfA sig.bounded
  dsimp only [TagSig.map]
  generalize eB.pool.freshFor sig.bounded = fB at hB₁ he₁ hg₁ hl₁ hx₁ ⊢
  generalize eA.pool.freshFor (sig.bounded.map (shiftFrom n k)) = fA at hA₁ he₁ hx₁ ⊢
  obtain ⟨m, B₁⟩ := fB
  obtain ⟨mA, A₁⟩ := fA
  dsimp only at hB₁ hA₁ he₁ hg₁ hl₁ hx₁ ⊢
  subst hx₁
  -- the signature's types are handles of `eB.pool`, where `ε₁` agrees with `ε`
  rw [List.map_congr_left fun a ha => (hε₁ a (hargs a ha)).symm, ← hε₁ sig.result hres]
  obtain ⟨ε₂, hε₂, hB₂, hA₂, he₂, hg₂, hv₂, hx₂, hr₂, hy₂⟩ := he₁.tagPass_reaches hB₁ hA₁ hl₁
    (lookup_map_prod (strictMono_shiftFrom n k).injective ε₁ m)
    (fun a ha => Nat.lt_of_lt_of_le (hargs a ha) hg₁.size_le)
    (Nat.lt_of_lt_of_le hres hg₁.size_le)
  have hs := hg₁.size_le.trans hg₂.size_le
  exact ⟨ε₂, hε₁.trans hε₂ hg₁.size_le, h.repool hB₂ hA₂ he₂ (hε₁.trans hε₂ hg₁.size_le) hs, hs,
    ⟨hv₂, hx₂⟩, hr₂, hy₂⟩

end Sim

end InferM

/-! ## Inference of expressions -/

section Rules

open InferM

/-- Checking `e` from an engine related to another, in a context, an environment and against a
type of its pool, simulates checking `e` in their images. -/
def InferEmbeds (n k : Nat) (ctx : Context) (e : Expr) : Prop :=
  ∀ (env : Env Scheme) (t : Idx) (ε : Idx → Idx) (eB eA : Engine), Engine.Embeds n k ε eB eA →
    eB.pool.ValidTags ctx.tags → eB.pool.ValidEnv ctx.vars → eB.pool.ValidEnv env →
    t.raw < eB.pool.size →
    Sim n k ε (fun _ _ _ _ => True) eB eA (infer ctx env e t)
      (infer (ctx.map ε (shiftFrom n k)) (env.map (Scheme.map ε (shiftFrom n k))) e (ε t))

/-- Checking the arguments of a construction against types of the pool simulates checking them
against the images. -/
def ArgsEmbeds (n k : Nat) (ctx : Context) (args : List Expr) : Prop :=
  ∀ (env : Env Scheme) (ts : List Idx) (ε : Idx → Idx) (eB eA : Engine),
    Engine.Embeds n k ε eB eA → eB.pool.ValidTags ctx.tags → eB.pool.ValidEnv ctx.vars →
    eB.pool.ValidEnv env → (∀ t ∈ ts, t.raw < eB.pool.size) →
    Sim n k ε (fun _ _ _ _ => True) eB eA (inferArgs ctx env args ts)
      (inferArgs (ctx.map ε (shiftFrom n k)) (env.map (Scheme.map ε (shiftFrom n k))) args
        (ts.map ε))

variable {n k : Nat} {ctx : Context} {p : Pool} {ε ε₁ : Idx → Idx} {eB eA : Engine}

/-- A subexpression checked from a later engine and a later `ε`: the image of the context is
the one taken at the start, and the environment and the type are given by their images. -/
theorem InferEmbeds.apply {e : Expr} (hI : InferEmbeds n k ctx e) (htags : p.ValidTags ctx.tags)
    (hvars : p.ValidEnv ctx.vars) (hε : SameBelow p.size ε ε₁) (hs : p.size ≤ eB.pool.size)
    (h : Engine.Embeds n k ε₁ eB eA) {env envA : Env Scheme} (henv : eB.pool.ValidEnv env)
    (henvA : envA = env.map (Scheme.map ε₁ (shiftFrom n k))) {t tA : Idx}
    (ht : t.raw < eB.pool.size) (htA : tA = ε₁ t) :
    Sim n k ε₁ (fun _ _ _ _ => True) eB eA (infer ctx env e t)
      (infer (ctx.map ε (shiftFrom n k)) envA e tA) := by
  subst henvA htA
  rw [← Context.map_congr htags hvars hε]
  exact hI env t ε₁ eB eA h (htags.mono hs) (hvars.mono hs) henv ht

theorem ArgsEmbeds.apply {args : List Expr} (hI : ArgsEmbeds n k ctx args)
    (htags : p.ValidTags ctx.tags) (hvars : p.ValidEnv ctx.vars) (hε : SameBelow p.size ε ε₁)
    (hs : p.size ≤ eB.pool.size) (h : Engine.Embeds n k ε₁ eB eA) {env envA : Env Scheme}
    (henv : eB.pool.ValidEnv env) (henvA : envA = env.map (Scheme.map ε₁ (shiftFrom n k)))
    {ts tsA : List Idx} (hts : ∀ t ∈ ts, t.raw < eB.pool.size) (htsA : tsA = ts.map ε₁) :
    Sim n k ε₁ (fun _ _ _ _ => True) eB eA (inferArgs ctx env args ts)
      (inferArgs (ctx.map ε (shiftFrom n k)) envA args tsA) := by
  subst henvA htsA
  rw [← Context.map_congr htags hvars hε]
  exact hI env ts ε₁ eB eA h (htags.mono hs) (hvars.mono hs) henv hts

theorem lit_embeds (id : Nat) (l : Literal) : InferEmbeds n k ctx (.lit id l) := by
  intro env t ε eB eA h _ _ _ ht
  rw [infer, infer]
  refine Sim.bind (Sim.recordExpr h id ht) fun ε₁ _ _ eB₁ eA₁ hε₁ h₁ hs₁ _ => ?_
  exact Sim.unifyAt h₁ (Nat.lt_of_lt_of_le ht hs₁) (h₁.wfB.prim l.prim).1 (hε₁ t ht).symm
    (h₁.pool.prim h₁.wfB h₁.wfA l.prim).symm id

theorem ite_embeds {id : Nat} {c a b : Expr} (hc : InferEmbeds n k ctx c)
    (ha : InferEmbeds n k ctx a) (hb : InferEmbeds n k ctx b) :
    InferEmbeds n k ctx (.ite id c a b) := by
  intro env t ε eB eA h htags hvars henv ht
  rw [infer, infer]
  refine Sim.bind (Sim.recordExpr h id ht) fun ε₁ _ _ eB₁ eA₁ hε₁ h₁ hs₁ _ => ?_
  refine Sim.bind (hc.apply htags hvars hε₁ hs₁ h₁ (henv.mono hs₁) (henv.map_congr hε₁).symm
      (h₁.wfB.prim .bool).1 (h₁.pool.prim h₁.wfB h₁.wfA .bool).symm)
    fun ε₂ _ _ eB₂ eA₂ hε₂ h₂ hs₂ _ => ?_
  have hε₀₂ := hε₁.trans hε₂ hs₁
  have hs₀₂ := Nat.le_trans hs₁ hs₂
  refine Sim.bind (ha.apply htags hvars hε₀₂ hs₀₂ h₂ (henv.mono hs₀₂) (henv.map_congr hε₀₂).symm
      (Nat.lt_of_lt_of_le ht hs₀₂) (hε₀₂ t ht).symm)
    fun ε₃ _ _ eB₃ eA₃ hε₃ h₃ hs₃ _ => ?_
  have hε₀₃ := hε₀₂.trans hε₃ hs₀₂
  have hs₀₃ := Nat.le_trans hs₀₂ hs₃
  exact hb.apply htags hvars hε₀₃ hs₀₃ h₃ (henv.mono hs₀₃) (henv.map_congr hε₀₃).symm
    (Nat.lt_of_lt_of_le ht hs₀₃) (hε₀₃ t ht).symm

theorem app_embeds {id : Nat} {f x : Expr} (hf : InferEmbeds n k ctx f)
    (hx : InferEmbeds n k ctx x) : InferEmbeds n k ctx (.app id f x) := by
  intro env t ε eB eA h htags hvars henv ht
  rw [infer, infer]
  refine Sim.bind (Sim.recordExpr h id ht) fun ε₁ _ _ eB₁ eA₁ hε₁ h₁ hs₁ _ => ?_
  refine Sim.bind (Sim.fresh h₁) fun ε₂ argB _ eB₂ eA₂ hε₂ h₂ hs₂ harg => ?_
  obtain ⟨hargv, rfl⟩ := harg
  have hε₀₂ := hε₁.trans hε₂ hs₁
  have hs₀₂ := Nat.le_trans hs₁ hs₂
  -- the function is checked against `argument -> expected`
  refine Sim.bind (Sim.fnType h₂ hargv (Nat.lt_of_lt_of_le ht hs₀₂) rfl (hε₀₂ t ht).symm)
    fun ε₃ fB _ eB₃ eA₃ hε₃ h₃ hs₃ hfn => ?_
  obtain ⟨hfv, rfl⟩ := hfn
  have hε₀₃ := hε₀₂.trans hε₃ hs₀₂
  have hs₀₃ := Nat.le_trans hs₀₂ hs₃
  refine Sim.bind (hf.apply htags hvars hε₀₃ hs₀₃ h₃ (henv.mono hs₀₃) (henv.map_congr hε₀₃).symm
      hfv rfl) fun ε₄ _ _ eB₄ eA₄ hε₄ h₄ hs₄ _ => ?_
  have hε₀₄ := hε₀₃.trans hε₄ hs₀₃
  have hs₀₄ := Nat.le_trans hs₀₃ hs₄
  exact hx.apply htags hvars hε₀₄ hs₀₄ h₄ (henv.mono hs₀₄) (henv.map_congr hε₀₄).symm
    (Nat.lt_of_lt_of_le hargv (Nat.le_trans hs₃ hs₄)) ((hε₃.trans hε₄ hs₃) argB hargv).symm

theorem lam_embeds {id : Nat} {x : String} {ann : TypeExpr} {body : Expr}
    (hbody : InferEmbeds n k ctx body) : InferEmbeds n k ctx (.lam id x ann body) := by
  intro env t ε eB eA h htags hvars henv ht
  rw [infer, infer]
  refine Sim.bind (Sim.recordExpr h id ht) fun ε₁ _ _ eB₁ eA₁ hε₁ h₁ hs₁ _ => ?_
  refine Sim.bind (Sim.resolveType h₁ ann) fun ε₂ pB _ eB₂ eA₂ hε₂ h₂ hs₂ hp => ?_
  obtain ⟨hpv, rfl⟩ := hp
  have hε₀₂ := hε₁.trans hε₂ hs₁
  have hs₀₂ := Nat.le_trans hs₁ hs₂
  refine Sim.bind (Sim.fresh h₂) fun ε₃ rB _ eB₃ eA₃ hε₃ h₃ hs₃ hr => ?_
  obtain ⟨hrv, rfl⟩ := hr
  have hε₀₃ := hε₀₂.trans hε₃ hs₀₂
  have hs₀₃ := Nat.le_trans hs₀₂ hs₃
  have hpv₃ := Nat.lt_of_lt_of_le hpv hs₃
  -- the body is checked with the parameter bound, unquantified, in front
  refine Sim.bind (hbody.apply htags hvars hε₀₃ hs₀₃ h₃
      ((henv.mono hs₀₃).prepend x (σ := Scheme.mono pB) hpv₃) ?_ hrv rfl)
    fun ε₄ _ _ eB₄ eA₄ hε₄ h₄ hs₄ _ => ?_
  · rw [Env.map_prepend, Scheme.map_mono, henv.map_congr hε₀₃, hε₃ pB hpv]
  have hε₀₄ := hε₀₃.trans hε₄ hs₀₃
  have hs₀₄ := Nat.le_trans hs₀₃ hs₄
  refine Sim.bind (Sim.fnType h₄ (Nat.lt_of_lt_of_le hpv₃ hs₄) (Nat.lt_of_lt_of_le hrv hs₄)
      ((hε₃.trans hε₄ hs₃) pB hpv).symm (hε₄ rB hrv).symm)
    fun ε₅ _ _ eB₅ eA₅ hε₅ h₅ hs₅ hfn => ?_
  obtain ⟨hfv, rfl⟩ := hfn
  have hε₀₅ := hε₀₄.trans hε₅ hs₀₄
  exact Sim.unifyAt h₅ (Nat.lt_of_lt_of_le ht (Nat.le_trans hs₀₄ hs₅)) hfv (hε₀₅ t ht).symm rfl id

theorem var_embeds (id : Nat) (name : String) : InferEmbeds n k ctx (.var id name) := by
  intro env t ε eB eA h _ _ henv ht
  rw [infer, infer]
  refine Sim.bind (Sim.recordExpr h id ht) fun ε₁ _ _ eB₁ eA₁ hε₁ h₁ hs₁ _ => ?_
  rw [Env.lookup_map]
  cases hl : env.lookup name with
  | none => exact Sim.throw h₁ fun _ hx => absurd hx List.not_mem_nil
  | some σ =>
    have hσ := henv _ (Env.mem_of_lookup hl)
    refine Sim.bind (Sim.instantiate h₁ (Nat.lt_of_lt_of_le hσ hs₁) (Scheme.map_congr hσ hε₁).symm)
      fun ε₂ iB _ eB₂ eA₂ hε₂ h₂ hs₂ hi => ?_
    obtain ⟨hiv, rfl⟩ := hi
    refine Sim.bind (Sim.fresh h₂) fun ε₃ sB _ eB₃ eA₃ hε₃ h₃ hs₃ hsl => ?_
    obtain ⟨hsv, rfl⟩ := hsl
    have hiv₃ := Nat.lt_of_lt_of_le hiv hs₃
    -- the slot and the instance are unified, then the expected type and the instance
    refine Sim.bind (Sim.recordSlot h₃ id hsv) fun ε₄ _ _ eB₄ eA₄ hε₄ h₄ hs₄ _ => ?_
    have hε₂₄ := hε₃.trans hε₄ hs₃
    refine Sim.bind (Sim.unifyAt h₄ (Nat.lt_of_lt_of_le hsv hs₄) (Nat.lt_of_lt_of_le hiv₃ hs₄)
        (hε₄ sB hsv).symm (hε₂₄ iB hiv).symm id)
      fun ε₅ _ _ eB₅ eA₅ hε₅ h₅ hs₅ _ => ?_
    have hs₂₄ := Nat.le_trans hs₃ hs₄
    have hs₀₄ := Nat.le_trans (Nat.le_trans hs₁ hs₂) hs₂₄
    exact Sim.unifyAt h₅ (Nat.lt_of_lt_of_le ht (Nat.le_trans hs₀₄ hs₅))
      (Nat.lt_of_lt_of_le hiv (Nat.le_trans hs₂₄ hs₅))
      (((hε₁.trans hε₂ hs₁).trans (hε₂₄.trans hε₅ hs₂₄) (Nat.le_trans hs₁ hs₂)) t ht).symm
      ((hε₂₄.trans hε₅ hs₂₄) iB hiv).symm id

theorem let_embeds {id : Nat} {x : String} {v b : Expr} (hv : InferEmbeds n k ctx v)
    (hb : InferEmbeds n k ctx b) : InferEmbeds n k ctx (.letIn id x v b) := by
  intro env t ε eB eA h htags hvars henv ht
  rw [infer, infer]
  refine Sim.bind (Sim.recordExpr h id ht) fun ε₁ _ _ eB₁ eA₁ hε₁ h₁ hs₁ _ => ?_
  refine Sim.bind (Sim.fresh h₁) fun ε₂ vB _ eB₂ eA₂ hε₂ h₂ hs₂ hvt => ?_
  obtain ⟨hvv, rfl⟩ := hvt
  have hε₀₂ := hε₁.trans hε₂ hs₁
  have hs₀₂ := Nat.le_trans hs₁ hs₂
  refine Sim.bind (hv.apply htags hvars hε₀₂ hs₀₂ h₂ (henv.mono hs₀₂) (henv.map_congr hε₀₂).symm
      hvv rfl) fun ε₃ _ _ eB₃ eA₃ hε₃ h₃ hs₃ _ => ?_
  have hε₀₃ := hε₀₂.trans hε₃ hs₀₂
  have hs₀₃ := Nat.le_trans hs₀₂ hs₃
  -- the value's type is generalized against the environment, in both pools alike
  refine Sim.bind (Sim.generalize h₃ (henv.mono hs₀₃) (Nat.lt_of_lt_of_le hvv hs₃)
      (henv.map_congr hε₀₃).symm (hε₃ vB hvv).symm)
    fun ε₄ σB _ eB₄ eA₄ hε₄ h₄ hs₄ hσ => ?_
  obtain ⟨hσv, rfl⟩ := hσ
  have hε₀₄ := hε₀₃.trans hε₄ hs₀₃
  have hs₀₄ := Nat.le_trans hs₀₃ hs₄
  refine hb.apply htags hvars hε₀₄ hs₀₄ h₄ ((henv.mono hs₀₄).prepend x hσv) ?_
    (Nat.lt_of_lt_of_le ht hs₀₄) (hε₀₄ t ht).symm
  rw [Env.map_prepend, henv.map_congr hε₀₄]

/-- The branches of a match: the scrutinee checked in the environment, the first branch with
`bindings` in front of the environment, the second branch in the environment. -/
theorem match_branches {sc a b : Expr} (hsc : InferEmbeds n k ctx sc)
    (ha : InferEmbeds n k ctx a) (hb : InferEmbeds n k ctx b) (htags : p.ValidTags ctx.tags)
    (hvars : p.ValidEnv ctx.vars) (hε : SameBelow p.size ε ε₁) (hs : p.size ≤ eB.pool.size)
    (h : Engine.Embeds n k ε₁ eB eA) {env bindings bindingsA : Env Scheme}
    (henv : p.ValidEnv env) (hbv : eB.pool.ValidEnv bindings)
    (hbA : ∀ ε', SameBelow eB.pool.size ε₁ ε' → bindingsA = bindings.map (Scheme.map ε' (shiftFrom n k)))
    {s sA t : Idx} (hsv : s.raw < eB.pool.size) (hsA : sA = ε₁ s) (ht : t.raw < p.size) :
    Sim n k ε₁ (fun _ _ _ _ => True) eB eA
      (do
        infer ctx env sc s
        infer ctx (bindings.append env) a t
        infer ctx env b t)
      (do
        infer (ctx.map ε (shiftFrom n k)) (env.map (Scheme.map ε (shiftFrom n k))) sc sA
        infer (ctx.map ε (shiftFrom n k))
          (bindingsA.append (env.map (Scheme.map ε (shiftFrom n k)))) a (ε t)
        infer (ctx.map ε (shiftFrom n k)) (env.map (Scheme.map ε (shiftFrom n k))) b (ε t)) := by
  refine Sim.bind (hsc.apply htags hvars hε hs h (henv.mono hs) (henv.map_congr hε).symm hsv hsA)
    fun ε₂ _ _ eB₂ eA₂ hε₂ h₂ hs₂ _ => ?_
  have hε₀₂ := hε.trans hε₂ hs
  have hs₀₂ := Nat.le_trans hs hs₂
  refine Sim.bind (ha.apply htags hvars hε₀₂ hs₀₂ h₂ ((hbv.mono hs₂).append (henv.mono hs₀₂)) ?_
      (Nat.lt_of_lt_of_le ht hs₀₂) (hε₀₂ t ht).symm)
    fun ε₃ _ _ eB₃ eA₃ hε₃ h₃ hs₃ _ => ?_
  · rw [Env.map_append, henv.map_congr hε₀₂, ← hbA ε₂ hε₂]
  have hε₀₃ := hε₀₂.trans hε₃ hs₀₂
  have hs₀₃ := Nat.le_trans hs₀₂ hs₃
  exact hb.apply htags hvars hε₀₃ hs₀₃ h₃ (henv.mono hs₀₃) (henv.map_congr hε₀₃).symm
    (Nat.lt_of_lt_of_le ht hs₀₃) (hε₀₃ t ht).symm

theorem match_embeds {id : Nat} {sc : Expr} {pat : Pattern} {a b : Expr}
    (hsc : InferEmbeds n k ctx sc) (ha : InferEmbeds n k ctx a) (hb : InferEmbeds n k ctx b) :
    InferEmbeds n k ctx (.matchAs id sc pat a b) := by
  intro env t ε eB eA h htags hvars henv ht
  rw [infer, infer]
  refine Sim.bind (Sim.recordExpr h id ht) fun ε₁ _ _ eB₁ eA₁ hε₁ h₁ hs₁ _ => ?_
  refine Sim.bind (Sim.fresh h₁) fun ε₂ scB _ eB₂ eA₂ hε₂ h₂ hs₂ hsct => ?_
  obtain ⟨hscv, rfl⟩ := hsct
  refine Sim.bind (Sim.fresh h₂) fun ε₃ slB _ eB₃ eA₃ hε₃ h₃ hs₃ hslt => ?_
  obtain ⟨hslv, rfl⟩ := hslt
  refine Sim.bind (Sim.recordPat h₃ pat.id hslv) fun ε₄ _ _ eB₄ eA₄ hε₄ h₄ hs₄ _ => ?_
  have hε₂₄ := hε₃.trans hε₄ hs₃
  have hs₂₄ := Nat.le_trans hs₃ hs₄
  -- the pattern's slot is unified with the scrutinee's type before either is checked
  refine Sim.bind (Sim.unifyAt h₄ (Nat.lt_of_lt_of_le hslv hs₄) (Nat.lt_of_lt_of_le hscv hs₂₄)
      (hε₄ slB hslv).symm (hε₂₄ scB hscv).symm id)
    fun ε₅ _ _ eB₅ eA₅ hε₅ h₅ hs₅ _ => ?_
  have hε₂₅ := hε₂₄.trans hε₅ hs₂₄
  have hs₂₅ := Nat.le_trans hs₂₄ hs₅
  have hε₀₅ := (hε₁.trans hε₂ hs₁).trans hε₂₅ (Nat.le_trans hs₁ hs₂)
  have hs₀₅ := Nat.le_trans (Nat.le_trans hs₁ hs₂) hs₂₅
  have hscv₅ := Nat.lt_of_lt_of_le hscv hs₂₅
  have hsA := (hε₂₅ scB hscv).symm
  cases pat.binder with
  | none =>
    exact match_branches hsc ha hb htags hvars hε₀₅ hs₀₅ h₅ henv
      (fun _ hb => absurd hb List.not_mem_nil) (fun _ _ => rfl) hscv₅ hsA ht
  | some x =>
    refine match_branches hsc ha hb htags hvars hε₀₅ hs₀₅ h₅ henv
      (Pool.ValidEnv.prepend (fun _ hb => absurd hb List.not_mem_nil) x (σ := Scheme.mono scB)
        hscv₅) (fun ε' hε' => ?_) hscv₅ hsA ht
    rw [Env.map_prepend, Scheme.map_mono, hε' scB hscv₅, hsA]
    rfl

theorem tag_embeds {id : Nat} {name : String} {args : List Expr}
    (hargs : ArgsEmbeds n k ctx args) : InferEmbeds n k ctx (.tag id name args) := by
  intro env t ε eB eA h htags hvars henv ht
  rw [infer, infer]
  refine Sim.bind (Sim.recordExpr h id ht) fun ε₁ _ _ eB₁ eA₁ hε₁ h₁ hs₁ _ => ?_
  rw [Context.lookupTag_map]
  cases hl : ctx.lookupTag name with
  | none => exact Sim.throw h₁ fun _ hx => absurd hx List.not_mem_nil
  | some sig =>
    have hsig := htags _ (Env.mem_of_lookup hl)
    have hsargs : ∀ a ∈ sig.args, a.raw < eB₁.pool.size :=
      fun a ha => Nat.lt_of_lt_of_le (hsig.1 a ha) hs₁
    refine Sim.bind (Sim.instantiateTag h₁ hsargs (Nat.lt_of_lt_of_le hsig.2 hs₁)
        (TagSig.map_congr hsig.1 hsig.2 hε₁).symm)
      fun ε₂ xB xA eB₂ eA₂ hε₂ h₂ hs₂ hx => ?_
    obtain ⟨argsB, resB⟩ := xB
    obtain ⟨argsA, resA⟩ := xA
    obtain ⟨⟨hav, rfl⟩, hrv, rfl⟩ := hx
    refine Sim.bind (Sim.recordTagIndex h₂ id sig.index) fun ε₃ _ _ eB₃ eA₃ hε₃ h₃ hs₃ _ => ?_
    rw [TagSig.arity_map]
    -- the number of arguments is checked before any of them, on both sides alike
    split_ifs with hlen
    · exact Sim.throw_bind h₃ fun _ hx => absurd hx List.not_mem_nil
    have hε₀₃ := (hε₁.trans hε₂ hs₁).trans hε₃ (Nat.le_trans hs₁ hs₂)
    have hs₀₃ := Nat.le_trans (Nat.le_trans hs₁ hs₂) hs₃
    refine Sim.bind (hargs.apply htags hvars hε₀₃ hs₀₃ h₃ (henv.mono hs₀₃) (henv.map_congr hε₀₃).symm
        (fun a ha => Nat.lt_of_lt_of_le (hav a ha) hs₃)
        (List.map_congr_left fun a ha => (hε₃ a (hav a ha)).symm))
      fun ε₄ _ _ eB₄ eA₄ hε₄ h₄ hs₄ _ => ?_
    have hε₂₄ := hε₃.trans hε₄ hs₃
    exact Sim.unifyAt h₄ (Nat.lt_of_lt_of_le ht (Nat.le_trans hs₀₃ hs₄))
      (Nat.lt_of_lt_of_le hrv (Nat.le_trans hs₃ hs₄)) ((hε₀₃.trans hε₄ hs₀₃) t ht).symm
      (hε₂₄ resB hrv).symm id

theorem args_embeds_nil : ArgsEmbeds n k ctx [] := by
  intro env ts ε eB eA h _ _ _ _
  cases ts <;> exact Sim.pure h trivial

theorem args_embeds_cons {e : Expr} {es : List Expr} (he : InferEmbeds n k ctx e)
    (hes : ArgsEmbeds n k ctx es) : ArgsEmbeds n k ctx (e :: es) := by
  intro env ts ε eB eA h htags hvars henv hts
  cases ts with
  | nil => exact Sim.pure h trivial
  | cons t ts =>
    rw [List.map_cons, inferArgs, inferArgs]
    refine Sim.bind (he env t ε eB eA h htags hvars henv (hts t List.mem_cons_self))
      fun ε₁ _ _ eB₁ eA₁ hε₁ h₁ hs₁ _ => ?_
    exact hes.apply htags hvars hε₁ hs₁ h₁ (henv.mono hs₁) (henv.map_congr hε₁).symm
      (fun u hu => Nat.lt_of_lt_of_le (hts u (List.mem_cons_of_mem t hu)) hs₁)
      (List.map_congr_left fun u hu => (hε₁ u (hts u (List.mem_cons_of_mem t hu))).symm)

end Rules

mutual
/-- Checking an expression from related engines, in a context, an environment and against a type
of the first pool, and checking it in their images, end alike: both succeed in related engines,
or both fail with corresponding errors. -/
theorem infer_embeds (n k : Nat) (ctx : Context) : ∀ e : Expr, InferEmbeds n k ctx e
  | .lit id l => lit_embeds id l
  | .tag _ _ args => tag_embeds (inferArgs_embeds n k ctx args)
  | .var id name => var_embeds id name
  | .lam _ _ _ body => lam_embeds (infer_embeds n k ctx body)
  | .app _ f x => app_embeds (infer_embeds n k ctx f) (infer_embeds n k ctx x)
  | .ite _ c a b => ite_embeds (infer_embeds n k ctx c) (infer_embeds n k ctx a)
      (infer_embeds n k ctx b)
  | .matchAs _ sc _ a b => match_embeds (infer_embeds n k ctx sc) (infer_embeds n k ctx a)
      (infer_embeds n k ctx b)
  | .letIn _ _ v b => let_embeds (infer_embeds n k ctx v) (infer_embeds n k ctx b)

/-- Checking the arguments of a construction from related engines. -/
theorem inferArgs_embeds (n k : Nat) (ctx : Context) : ∀ args : List Expr, ArgsEmbeds n k ctx args
  | [] => args_embeds_nil
  | e :: es => args_embeds_cons (infer_embeds n k ctx e) (inferArgs_embeds n k ctx es)
end

end TagML
