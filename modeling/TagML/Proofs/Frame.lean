import TagML.Proofs.Principal
import TagML.Proofs.Pool.Print
import TagML.Proofs.Pool.Stable

/-!
Checking a form touches only what it allocates.

A type is closed by a list of variables when every variable reachable from it, through parts and
links, is unbound and in the list.  In every checker a session reaches, each scheme of the context
is closed by what it quantifies, and so is each type of each tag signature (`Reachable.closedIn`):
the prelude has no variable at all; a type definition resolves its tags' types into fresh
structure over its own parameter and `_` variables; and a top-level `let` binds a deeply resolved
type, generalized in a closed environment, so that the scheme quantifies every variable of it.
Once closed, a context stays closed, since later forms keep what it quantifies unbound.

Inference from such a context can reach an older variable only through a scheme or a signature,
and instantiation replaces every variable they quantify.  So a form, whether it is checked or
fails, links no variable that existed before it (`Inv.checkForm_later`).  A failed form's links
stay in the pool, yet nothing the context mentions reaches them: the context's types stand for
what they stood for, and the context lists the same text (`checkForm_frame`).
-/
namespace TagML

open Pool InferM

namespace Pool

variable {p q : Pool} {B : List Nat} {i : Idx}

/-- Every variable whose item lies at or below `i`, links followed, is unbound and among `B`. -/
def ClosedBy (p : Pool) (B : List Nat) (i : Idx) : Prop :=
  ∀ v, p.Occurs v i → v ∈ B ∧ p.target? v = none

/-- A handle is closed by `B` exactly when nothing below it is linked and the type it stands for
mentions only variables of `B`. -/
theorem closedBy_iff (h : p.WF) : p.ClosedBy B i ↔ p.Resolved i ∧ ∀ w ∈ (p.term i).vars, w ∈ B := by
  constructor
  · intro hc
    exact ⟨fun j hj v hv => (hc v ⟨j, hj, hv⟩).2,
      fun w hw => (hc w (occurs_of_mem_vars_term h hw)).1⟩
  · rintro ⟨hr, hB⟩ v ⟨j, hj, hv⟩
    have hun := hr j hj v hv
    exact ⟨hB v (mem_vars_term_of_occurs h hun ⟨j, hj, hv⟩), hun⟩

/-- In a pool without variables every handle is closed. -/
theorem closedBy_of_varCount (h : p.WF) (h0 : p.varCount = 0) (B : List Nat) (hi : i.raw < p.size) :
    p.ClosedBy B i := by
  rintro v ⟨j, hj, hv⟩
  have := h.varCount_of_item (lt_size_of_reach h hi hj) hv
  omega

/-- A closed handle stays closed in a later pool that leaves the variables of `B` unbound. -/
theorem ClosedBy.later (hp : p.WF) (he : p.Extends q) (hi : i.raw < p.size)
    (hB : ∀ v ∈ B, q.target? v = none) (hc : p.ClosedBy B i) : q.ClosedBy B i := by
  -- a path below `i` in `q` is one in `p`: the items are kept, and no link below `i` is written
  have hreach : ∀ j, Relation.ReflTransGen q.Succ i j → Relation.ReflTransGen p.Succ i j := by
    intro j hj
    induction hj with
    | refl => exact .refl
    | tail _ hs ih =>
      rename_i j k _
      have hj : j.raw < p.size := lt_size_of_reach hp hi ih
      refine ih.tail ?_
      rcases hs with hpart | ⟨w, hw, ht⟩
      · left
        rwa [← he.item_eq j hj]
      · rw [he.item_eq j hj] at hw
        rw [hB w (hc w ⟨j, ih, hw⟩).1] at ht
        cases ht
  rintro v ⟨j, hj, hv⟩
  have hj' := hreach j hj
  rw [he.item_eq j (lt_size_of_reach hp hi hj')] at hv
  exact ⟨(hc v ⟨j, hj', hv⟩).1, hB v (hc v ⟨j, hj', hv⟩).1⟩

/-- A closed handle whose variables are frozen stands for the same type in a later pool. -/
theorem ClosedBy.term_eq (hp : p.WF) (hq : q.WF) (he : p.Extends q) {Z : Set Nat}
    (hF : Frozen Z p q) (hBZ : ∀ v ∈ B, v ∈ Z) (hi : i.raw < p.size) (hc : p.ClosedBy B i) :
    q.term i = p.term i :=
  hF.term_eq hp hq he hi fun w hw => hBZ w (((closedBy_iff hp).1 hc).2 w hw)

/-- The variables allocated in `p` and not linked. -/
def openVars (p : Pool) : Set Nat := {v | v < p.varCount ∧ p.target? v = none}

theorem resolved_of_prim {q' : Prim} (hi : p.item i = .prim q') : p.Resolved i :=
  Resolved.of_forall_succ (fun w hw => by rw [hi] at hw; cases hw)
    fun _ hs => absurd hs (not_succ_of_prim hi)

/-- Fresh variables are resolved handles. -/
theorem freshMany_resolved : ∀ {p : Pool} (n : Nat), p.WF →
    ∀ t ∈ (p.freshMany n).1, (p.freshMany n).2.Resolved t
  | _, 0, _ => fun _ ht => absurd ht List.not_mem_nil
  | p, n + 1, h => by
    simp only [freshMany]
    obtain ⟨h₁, -, ht₁, hr₁⟩ := fresh_spec h
    have hrest := freshMany_resolved n h₁
    obtain ⟨-, hg₂, -⟩ := p.fresh.2.freshMany_spec n h₁
    generalize p.fresh = r₁ at h₁ ht₁ hr₁ hrest hg₂ ⊢
    obtain ⟨t₁, p₁⟩ := r₁
    generalize p₁.freshMany n = r₂ at hrest hg₂ ⊢
    obtain ⟨ts, p₂⟩ := r₂
    intro t ht
    rcases List.mem_cons.1 ht with rfl | ht
    · exact (hg₂.resolved_iff h₁ ht₁).2 hr₁
    · exact hrest t ht

end Pool

/-! ## A type definition builds resolved signatures -/

/-- The parameters in scope are resolved handles of `p`. -/
def ParamsResolved (params : Env Idx) (p : Pool) : Prop :=
  ∀ b ∈ params.bindings, b.2.raw < p.size ∧ p.Resolved b.2

theorem ParamsResolved.valid {params : Env Idx} {p : Pool} (h : ParamsResolved params p) :
    ∀ b ∈ params.bindings, b.2.raw < p.size :=
  fun b hb => (h b hb).1

theorem ParamsResolved.grows {params : Env Idx} {p q : Pool} (h : ParamsResolved params p)
    (hp : p.WF) (hg : p.Grows q) : ParamsResolved params q :=
  fun b hb => ⟨Nat.lt_of_lt_of_le (h b hb).1 hg.size_le, (hg.resolved_iff hp (h b hb).1).2 (h b hb).2⟩

section Resolve

variable {params : Env Idx}

mutual
/-- Resolving a written type builds a handle with nothing linked below it. -/
theorem TypeExpr.resolve_resolved : ∀ {p : Pool}, p.WF → ParamsResolved params p →
    ∀ t : TypeExpr, (t.resolve params p).2.Resolved (t.resolve params p).1
  | _, h, _, .prim q => resolved_of_prim (h.prim q).2
  | _, h, _, .infer => (fresh_spec h).2.2.2
  | p, h, hparams, .fn a r => by
    simp only [TypeExpr.resolve]
    obtain ⟨h₁, hg₁, ha⟩ := TypeExpr.resolve_spec h hparams.valid a
    have hra := TypeExpr.resolve_resolved h hparams a
    have hparams₁ := hparams.grows h hg₁
    obtain ⟨h₂, hg₂, hr⟩ := TypeExpr.resolve_spec h₁ hparams₁.valid r
    have hrr := TypeExpr.resolve_resolved h₁ hparams₁ r
    refine resolved_intern h₂ rfl fun j hj => ?_
    simp only [Item.parts, List.mem_cons, List.not_mem_nil, or_false] at hj
    rcases hj with rfl | rfl
    · exact ⟨Nat.lt_of_lt_of_le ha hg₂.size_le, (hg₂.resolved_iff h₁ ha).2 hra⟩
    · exact ⟨hr, hrr⟩
  | p, h, hparams, .named n args => by
    simp only [TypeExpr.resolve]
    split
    · next v hv => exact (hparams _ (Env.mem_of_lookup hv)).2
    · rename_i args _ _ _
      obtain ⟨h₁, -, hargs⟩ := TypeExpr.resolveList_spec h hparams.valid args
      have hres := TypeExpr.resolveList_resolved h hparams args
      exact resolved_intern h₁ rfl fun j hj => ⟨hargs j hj, hres j hj⟩

/-- Resolving written types left to right builds handles with nothing linked below them. -/
theorem TypeExpr.resolveList_resolved : ∀ {p : Pool}, p.WF → ParamsResolved params p →
    ∀ ts : List TypeExpr, ∀ a ∈ (TypeExpr.resolveList params p ts).1,
      (TypeExpr.resolveList params p ts).2.Resolved a
  | _, _, _, [] => fun _ ha => absurd ha List.not_mem_nil
  | p, h, hparams, t :: ts => by
    simp only [TypeExpr.resolveList]
    obtain ⟨h₁, hg₁, ht⟩ := TypeExpr.resolve_spec h hparams.valid t
    have hrt := TypeExpr.resolve_resolved h hparams t
    have hparams₁ := hparams.grows h hg₁
    obtain ⟨-, hg₂, -⟩ := TypeExpr.resolveList_spec h₁ hparams₁.valid ts
    have hrs := TypeExpr.resolveList_resolved h₁ hparams₁ ts
    intro a ha
    rcases List.mem_cons.1 ha with rfl | ha
    · exact (hg₂.resolved_iff h₁ ht).2 hrt
    · exact hrs a ha
end

end Resolve

/-- Every type of every signature of `sigs` is a handle of `q` with nothing linked below it. -/
def SigsResolved (q : Pool) (sigs : List TagSig) : Prop :=
  ∀ s ∈ sigs, (∀ a ∈ s.args, a.raw < q.size ∧ q.Resolved a) ∧ s.result.raw < q.size ∧
    q.Resolved s.result

namespace SigsResolved

variable {p q : Pool} {sigs : List TagSig}

theorem grows (h : SigsResolved p sigs) (hp : p.WF) (hg : p.Grows q) : SigsResolved q sigs := by
  intro s hs
  obtain ⟨hargs, hres, hrr⟩ := h s hs
  refine ⟨fun a ha => ?_, Nat.lt_of_lt_of_le hres hg.size_le, (hg.resolved_iff hp hres).2 hrr⟩
  exact ⟨Nat.lt_of_lt_of_le (hargs a ha).1 hg.size_le,
    (hg.resolved_iff hp (hargs a ha).1).2 (hargs a ha).2⟩

end SigsResolved

/-- One item's signatures are resolved in the pool they end in, which grew from the first. -/
theorem TypeItem.tagSigs_resolved {params : Env Idx} (bounded : List Nat) {result : Idx} :
    ∀ {s : Pool} (index : Nat) (ds : List TagDecl), s.WF → ParamsResolved params s →
      result.raw < s.size → s.Resolved result →
      (TypeItem.tagSigs params bounded result s index ds).2.WF ∧
        s.Grows (TypeItem.tagSigs params bounded result s index ds).2 ∧
        SigsResolved (TypeItem.tagSigs params bounded result s index ds).2
          (TypeItem.tagSigs params bounded result s index ds).1
  | s, _, [], h, _, _, _ => ⟨h, Grows.refl s, fun _ hs => absurd hs List.not_mem_nil⟩
  | s, index, d :: ds, h, hparams, hres, hrr => by
    simp only [TypeItem.tagSigs]
    obtain ⟨h₁, hg₁, hargs⟩ := TypeExpr.resolveList_spec h hparams.valid d.args
    have hargr := TypeExpr.resolveList_resolved h hparams d.args
    generalize TypeExpr.resolveList params s d.args = rl at h₁ hg₁ hargs hargr ⊢
    obtain ⟨args, s₁⟩ := rl
    dsimp only at *
    obtain ⟨h₂, hg₂, hrest⟩ := TypeItem.tagSigs_resolved bounded (index + 1) ds h₁
      (hparams.grows h hg₁) (Nat.lt_of_lt_of_le hres hg₁.size_le) ((hg₁.resolved_iff h hres).2 hrr)
    -- the new signature is resolved where it was built, and stays so while the rest are built
    have hsig : SigsResolved s₁ [TagSig.mk d.name index
        (bounded ++ (List.range (s₁.varCount - s.varCount)).map fun i => s.varCount + i)
        args result] := by
      intro sig hsig
      rw [List.mem_singleton] at hsig
      subst hsig
      exact ⟨fun a ha => ⟨hargs a ha, hargr a ha⟩, Nat.lt_of_lt_of_le hres hg₁.size_le,
        (hg₁.resolved_iff h hres).2 hrr⟩
    refine ⟨h₂, hg₁.trans hg₂, fun sig hs => ?_⟩
    rcases List.mem_cons.1 hs with rfl | hs
    · exact hsig.grows h₁ hg₂ _ List.mem_cons_self
    · exact hrest sig hs

/-- An item's signatures are resolved in the pool it ends in. -/
theorem TypeItem.build_resolved (item : TypeItem) {s : Pool} (h : s.WF) :
    SigsResolved (item.build s).2 (item.build s).1 := by
  simp only [TypeItem.build]
  obtain ⟨h₁, hg₁, -, hvars⟩ := s.freshMany_spec item.params.length h
  have hvr := s.freshMany_resolved item.params.length h
  generalize s.freshMany item.params.length = rv at h₁ hg₁ hvars hvr ⊢
  obtain ⟨vars, s₁⟩ := rv
  dsimp only at *
  have hvalid : ∀ t ∈ vars, t.raw < s₁.size := fun t ht => (hvars t ht).1
  obtain ⟨h₂, hg₂, hres⟩ := user_spec h₁ item.name hvalid
  have hrr : (s₁.user item.name vars).2.Resolved (s₁.user item.name vars).1 :=
    resolved_intern h₁ rfl fun t ht => ⟨hvalid t ht, hvr t ht⟩
  generalize s₁.user item.name vars = ru at h₂ hg₂ hres hrr ⊢
  obtain ⟨result, s₂⟩ := ru
  dsimp only at *
  -- each parameter names one of the item's fresh variables
  have hparams : ParamsResolved (Env.ofList (item.params.zip vars)) s₂ := by
    rintro ⟨x, t⟩ hb
    rw [Env.bindings_ofList, List.mem_reverse] at hb
    have ht := (List.of_mem_zip hb).2
    exact ⟨Nat.lt_of_lt_of_le (hvalid t ht) hg₂.size_le, (hg₂.resolved_iff h₁ (hvalid t ht)).2 (hvr t ht)⟩
  exact (TypeItem.tagSigs_resolved _ 0 item.tags h₂ hparams hres hrr).2.2

/-- Building an item allocates a variable for each of its parameters before anything else. -/
theorem TypeItem.le_varCount_build (item : TypeItem) {s : Pool} (h : s.WF) :
    s.varCount + item.params.length ≤ (item.build s).2.varCount := by
  simp only [TypeItem.build]
  -- the result type and the tags free none of the parameters' variables
  exact TypeItem.tagSigs_stable (Pool.stable_le_varCount _) _ _ _ 0 item.tags _
    ((Pool.stable_le_varCount _).intern _ _ rfl (s.freshMany_spec item.params.length h).2.2.1.ge)

/-- A type definition's signatures are resolved in the pool it ends in. -/
theorem Catalogue.build_resolved (items : List TypeItem) {p : Pool} (h : p.WF) :
    SigsResolved (Catalogue.build items p).2
      ((Catalogue.build items p).1.tags.bindings.map Prod.snd) := by
  simp only [Catalogue.build]
  -- the signatures built so far stay resolved while each next item grows the pool
  refine (List.foldlRecOn (motive := fun (acc : Env TagSig × Pool) =>
      acc.2.WF ∧ SigsResolved acc.2 (acc.1.bindings.map Prod.snd)) items _
    ⟨h, fun _ hs => absurd hs List.not_mem_nil⟩ fun acc hacc item _ => ?_).2
  have hb := item.build_spec hacc.1
  have hitem := item.build_resolved hacc.1
  refine ⟨hb.wf, fun sig hsig => ?_⟩
  simp only [Env.bindings_append, Env.bindings_ofList, List.map_append, List.map_reverse,
    List.map_map, List.mem_append, List.mem_reverse, List.mem_map, Function.comp_apply] at hsig
  rcases hsig with ⟨a, ha, rfl⟩ | ⟨t, ht, rfl⟩
  · exact hacc.2.grows hacc.1 hb.grows _ (List.mem_map_of_mem ha)
  · exact hitem t ht

/-! ## Closed contexts -/

/-- Every scheme of the context is closed by the variables it quantifies, and so is every type
of every tag signature. -/
structure Context.ClosedIn (ctx : Context) (p : Pool) : Prop where
  vars : ∀ b ∈ ctx.vars.bindings, p.ClosedBy b.2.bounded b.2.body
  tags : ∀ b ∈ ctx.tags.bindings,
    (∀ a ∈ b.2.args, p.ClosedBy b.2.bounded a) ∧ p.ClosedBy b.2.bounded b.2.result

namespace Context.ClosedIn

variable {ctx : Context} {p q : Pool}

/-- A closed context stays closed in a later pool that keeps what it quantifies frozen. -/
theorem later (hc : ctx.ClosedIn p) (hp : p.WF) (hl : Later ctx.quantified p q)
    (hvt : p.ValidTags ctx.tags) (hve : p.ValidEnv ctx.vars) : ctx.ClosedIn q where
  vars b hb := (hc.vars b hb).later hp hl.ext (hve b hb)
    fun v hv => hl.frozen.unbound v (Or.inl ⟨b, hb, hv⟩)
  tags b hb :=
    have hB : ∀ v ∈ b.2.bounded, q.target? v = none :=
      fun v hv => hl.frozen.unbound v (Or.inr ⟨b, hb, hv⟩)
    ⟨fun a ha => ((hc.tags b hb).1 a ha).later hp hl.ext ((hvt b hb).1 a ha) hB,
      (hc.tags b hb).2.later hp hl.ext (hvt b hb).2 hB⟩

/-- A closed context lists the same text in a later pool that keeps what it quantifies
frozen. -/
theorem render_later (hc : ctx.ClosedIn p) (hp : p.WF) (hl : Later ctx.quantified p q)
    (hvt : p.ValidTags ctx.tags) (hve : p.ValidEnv ctx.vars) : ctx.render q = ctx.render p :=
  Context.render_congr hp hl.wf
    (fun b hb =>
      have hB : ∀ v ∈ b.2.bounded, v ∈ ctx.quantified := fun _ hv => Or.inr ⟨b, hb, hv⟩
      ⟨fun a ha => ((hc.tags b hb).1 a ha).term_eq hp hl.wf hl.ext hl.frozen hB ((hvt b hb).1 a ha),
        (hc.tags b hb).2.term_eq hp hl.wf hl.ext hl.frozen hB (hvt b hb).2⟩)
    fun b hb => (hc.vars b hb).term_eq hp hl.wf hl.ext hl.frozen
      (fun _ hv => Or.inl ⟨b, hb, hv⟩) (hve b hb)

end Context.ClosedIn

/-! ## Checking a form -/

namespace Checker

theorem closedIn_new : ({} : Checker).ctx.ClosedIn ({} : Checker).pool :=
  ⟨fun _ hb => absurd hb List.not_mem_nil, fun _ hb => absurd hb List.not_mem_nil⟩

/-- The prelude's operators have a type without variables. -/
theorem closedIn_withPrelude : withPrelude.ctx.ClosedIn withPrelude.pool := by
  have hint : Prim.int.idx.raw < ({} : Pool).size := (WF.empty.prim Prim.int).1
  have hargs : ∀ a ∈ [Prim.int.idx, Prim.int.idx], a.raw < ({} : Pool).size := by
    intro a ha
    simp only [List.mem_cons, List.not_mem_nil, or_false, or_self] at ha
    exact ha ▸ hint
  obtain ⟨h, -, hbin⟩ := curried_spec WF.empty hint hargs
  have h0 := varCount_curried ({} : Pool) Prim.int.idx [Prim.int.idx, Prim.int.idx]
  simp only [withPrelude, Context.prelude]
  generalize ({} : Pool).curried [Prim.int.idx, Prim.int.idx] Prim.int.idx = r at h hbin h0 ⊢
  obtain ⟨binary, p⟩ := r
  refine ⟨fun b hb => ?_, fun _ hb => absurd hb List.not_mem_nil⟩
  simp only [Env.bindings_ofList, List.mem_reverse, List.mem_map] at hb
  obtain ⟨n, -, rfl⟩ := hb
  exact closedBy_of_varCount h h0 _ hbin

/-- A form that fails, or that evaluates an expression, leaves the context as it was. -/
theorem ctx_checkForm {c : Checker} {form : Form}
    (h : (∃ err, (c.checkForm form).2 = .error err) ∨ ∃ e, form = .eval e) :
    (c.checkForm form).1.ctx = c.ctx := by
  rcases h with ⟨err, herr⟩ | ⟨e, rfl⟩
  · cases form with
    | typeDef items => cases herr
    | eval e =>
      simp only [Checker.checkForm]
      split <;> rfl
    | bind x v =>
      simp only [Checker.checkForm] at herr ⊢
      split
      · next hrun =>
        rw [hrun] at herr
        cases herr
      · rfl
  · simp only [Checker.checkForm]
    split <;> rfl

/-- A type definition builds its catalogue in the checker's pool and puts the catalogue's
tables behind the context's. -/
theorem checkForm_typeDef (c : Checker) (items : List TypeItem) :
    (c.checkForm (.typeDef items)).1 =
      { pool := (Catalogue.build items c.pool).2,
        ctx := c.ctx.withCatalogue (Catalogue.build items c.pool).1 } := rfl

namespace Inv

variable {c : Checker}

/-- With a closed context, inference from the checker runs ready with every variable unbound in
the checker's pool frozen, besides what the context quantifies: the context reaches none of them
and the expected type is new. -/
theorem fresh_open (h : c.Inv) (hcl : c.Closed) :
    Ready c.ctx (c.ctx.quantified ∪ c.pool.openVars) c.ctx.vars [c.pool.fresh.1] c.pool.fresh.2 := by
  refine h.fresh.freeze (fun v hv => ⟨?_, ?_⟩) (fun w hw _ => hcl.later h h.fresh_later w hw)
    fun t ht w hw hwo => ?_
  · rw [varCount_fresh]
    exact Nat.lt_succ_of_lt hv.1
  · rw [target?_fresh]
    exact hv.2
  · rw [List.mem_singleton.1 ht, fresh_term h.wf, Term.mem_vars_var] at hw
    exact Nat.lt_irrefl _ (hw ▸ hwo.1)

/-- Inference from the checker, on success or failure, links no variable of the checker's
pool. -/
theorem run_open (h : c.Inv) (hcl : c.Closed) (e : Expr) :
    match (infer c.ctx c.ctx.vars e c.pool.fresh.1).run ⟨c.pool.fresh.2, {}⟩ with
    | .ok _ eng => Later c.pool.openVars c.pool eng.pool
    | .error _ eng => Later c.pool.openVars c.pool eng.pool := by
  have hsound := infer_sound c.ctx e _ c.ctx.vars c.pool.fresh.1 ⟨c.pool.fresh.2, {}⟩
    (h.fresh_open hcl)
  obtain ⟨h₁, hg₁, -⟩ := fresh_spec h.wf
  have hl : Later c.pool.openVars c.pool c.pool.fresh.2 :=
    ⟨h₁, Extends.of_grows hg₁, Frozen.of_grows h.wf h₁ hg₁ fun _ hz => hz⟩
  split <;> rename_i heq
  · obtain ⟨hwf, hext, hfz, -⟩ := hsound.of_ok heq
    exact Later.back ⟨hwf, hext, hfz⟩ hl.wf hl.ext hl.frozen Set.subset_union_right
  · obtain ⟨hwf, hext, hfz⟩ := hsound.of_error heq
    exact Later.back ⟨hwf, hext, hfz⟩ hl.wf hl.ext hl.frozen Set.subset_union_right

/-- Settling a successful inference only builds types, so it links nothing either. -/
theorem settle_open (h : c.Inv) {e : Expr} {u : Unit} {eng : Engine}
    (hrun : (infer c.ctx c.ctx.vars e c.pool.fresh.1).run ⟨c.pool.fresh.2, {}⟩ = .ok u eng)
    (hl : Later c.pool.openVars c.pool eng.pool) :
    Later c.pool.openVars c.pool (eng.settle c.pool.fresh.1).2.2 := by
  obtain ⟨hready, hres, new, Q, hd, -⟩ := h.run_ok hrun
  obtain ⟨hq, hg, -⟩ :=
    Engine.settle_spec hready.wf ((hd.tables.trans Tables.prepend_empty) ▸ hd.valid) hres
  have hZ : ∀ z ∈ c.pool.openVars, z < eng.pool.varCount ∧ eng.pool.target? z = none :=
    fun z hz => ⟨Nat.lt_of_lt_of_le hz.1 hl.ext.varCount_le, hl.frozen.unbound z hz⟩
  exact Later.back ⟨hq, Extends.of_grows hg, Frozen.of_grows hready.wf hq hg hZ⟩ hready.wf hl.ext
    hl.frozen subset_rfl

/-- The type a successful inference settles to has nothing linked below it. -/
theorem settle_resolved (h : c.Inv) {e : Expr} {u : Unit} {eng : Engine}
    (hrun : (infer c.ctx c.ctx.vars e c.pool.fresh.1).run ⟨c.pool.fresh.2, {}⟩ = .ok u eng) :
    (eng.settle c.pool.fresh.1).2.2.Resolved (eng.settle c.pool.fresh.1).1 := by
  obtain ⟨hready, hres, new, Q, hd, -⟩ := h.run_ok hrun
  have hv : eng.tables.Valid eng.pool := (hd.tables.trans Tables.prepend_empty) ▸ hd.valid
  obtain ⟨p, t⟩ := eng
  simp only [Engine.settle]
  obtain ⟨h₁, hg₁, hty, hr₁, -⟩ := resolveDeep_spec hready.wf hres
  generalize p.resolveDeep c.pool.fresh.1 = r at h₁ hg₁ hty hr₁ ⊢
  obtain ⟨ty, p₁⟩ := r
  dsimp only at *
  obtain ⟨-, hg₂, -⟩ := Engine.finish_spec (E := ⟨p₁, t⟩) h₁ (hv.mono hg₁.size_le)
  exact (hg₂.resolved_iff h₁ hty).2 hr₁

/-- Checking any form from a checker with a closed context links no variable that existed
before it. -/
theorem checkForm_later (h : c.Inv) (hcl : c.Closed) :
    ∀ form : Form, Later c.pool.openVars c.pool (c.checkForm form).1.pool
  | .typeDef items => by
    have hb := Catalogue.build_spec items h.wf
    exact ⟨hb.wf, Extends.of_grows hb.grows, Frozen.of_grows h.wf hb.wf hb.grows fun _ hz => hz⟩
  | .eval e | .bind _ e => by
    -- both forms run inference at a fresh variable and settle a success the same way
    have hr := h.run_open hcl e
    simp only [Checker.checkForm]
    split
    · next hrun =>
      rw [hrun] at hr
      exact h.settle_open hrun hr
    · next hrun =>
      rw [hrun] at hr
      exact hr

/-- Checking any form keeps a closed context closed: old entries stay closed, a type
definition's signatures are built resolved over their own variables, and a bound value's
scheme quantifies every variable of its resolved type. -/
theorem closedIn_checkForm (h : c.Inv) (hcl : c.Closed) (hci : c.ctx.ClosedIn c.pool) :
    ∀ form : Form, (c.checkForm form).1.ctx.ClosedIn (c.checkForm form).1.pool
  | .typeDef items => by
    have hb := Catalogue.build_spec items h.wf
    have hr := Catalogue.build_resolved items h.wf
    have hold := hci.later h.wf ⟨hb.wf, Extends.of_grows hb.grows,
      Frozen.of_grows h.wf hb.wf hb.grows h.unbound⟩ h.tags_valid h.env_valid
    simp only [Checker.checkForm, Checker.defineTypes]
    generalize Catalogue.build items c.pool = r at hb hr hold ⊢
    obtain ⟨cat, q⟩ := r
    refine ⟨hold.vars, fun b hb' => ?_⟩
    rw [Context.withCatalogue, Env.bindings_append, List.mem_append] at hb'
    rcases hb' with hb' | hb'
    · exact hold.tags b hb'
    · have hc := hb.closed b.2 (List.mem_map_of_mem hb')
      have hrs := hr b.2 (List.mem_map_of_mem hb')
      exact ⟨fun a ha => (closedBy_iff hb.wf).2 ⟨(hrs.1 a ha).2, (hc.1 a ha).2⟩,
        (closedBy_iff hb.wf).2 ⟨hrs.2.2, hc.2.2⟩⟩
  | .eval e => by
    rw [ctx_checkForm (Or.inr ⟨e, rfl⟩)]
    exact hci.later h.wf ((h.checkForm_later hcl _).mono fun z hz => h.unbound z hz) h.tags_valid
      h.env_valid
  | .bind x v => by
    have hl := (h.checkForm_later hcl (.bind x v)).mono fun z hz => h.unbound z hz
    have hold := hci.later h.wf hl h.tags_valid h.env_valid
    simp only [Checker.checkForm] at hl hold ⊢
    split
    · next hrun =>
      rw [hrun] at hl hold
      have hq := (h.settle_later hrun).1.wf
      refine ⟨fun b hb => ?_, hold.tags⟩
      rcases List.mem_cons.1 hb with rfl | hb
      · -- the scheme quantifies every variable of its type, the context being closed
        refine (closedBy_iff hq).2 ⟨h.settle_resolved hrun, fun w hw => ?_⟩
        exact (mem_generalize hq c.ctx.vars _).2 ⟨hw, hcl.later h (h.settle_later hrun).1 w⟩
      · exact hold.vars b hb
    · next hrun =>
      rw [hrun] at hold
      exact hold

end Inv

/-- In every reachable checker, each scheme of the context is closed by what it quantifies, and
so is each type of each tag signature. -/
theorem Reachable.closedIn {c : Checker} (hc : c.Reachable) : c.ctx.ClosedIn c.pool := by
  induction hc with
  | new => exact closedIn_new
  | withPrelude => exact closedIn_withPrelude
  | checkForm form hc ih => exact hc.inv.closedIn_checkForm hc.closed ih form

end Checker

/-- Checking a form from a reachable checker keeps to its own variables.  Every scheme of the
context and every type of every tag signature reaches, through parts and links, only unbound
variables it quantifies; the form links no variable allocated before it, whether it is checked
or fails; and when it fails, or evaluates an expression, the context and its listing are as they
were, though the links it made stay in the pool. -/
theorem checkForm_frame {c : Checker} (hc : c.Reachable) (form : Form) :
    c.ctx.ClosedIn c.pool ∧
      (∀ v < c.pool.varCount, (c.checkForm form).1.pool.target? v = c.pool.target? v) ∧
      ((∃ err, (c.checkForm form).2 = .error err) ∨ (∃ e, form = .eval e) →
        (c.checkForm form).1.ctx = c.ctx ∧
          (c.checkForm form).1.ctx.render (c.checkForm form).1.pool = c.ctx.render c.pool) := by
  have h := hc.inv
  have hci := hc.closedIn
  have hl := h.checkForm_later hc.closed form
  refine ⟨hci, fun v hv => ?_, fun hform => ?_⟩
  · -- an unbound variable is frozen, and a link is never rewritten
    cases ht : c.pool.target? v with
    | none => exact hl.frozen.unbound v ⟨hv, ht⟩
    | some t => exact hl.ext.target?_of v t ht
  · have hctx := Checker.ctx_checkForm hform
    refine ⟨hctx, ?_⟩
    rw [hctx]
    exact hci.render_later h.wf (hl.mono fun z hz => h.unbound z hz) h.tags_valid h.env_valid

/-- After the definition of `Option a` with the tags `None` and `Some a`, the checker has a
variable for the parameter and tags quantifying it; checking `Some 1` then links no variable of
that pool and leaves the context and its listing as they were. -/
theorem checkForm_frame_after_typeDef :
    ∃ c : Checker, c = (({} : Checker).checkForm (.typeDef
        [{ name := "Option", params := ["a"], tags := [{ name := "None" },
          { name := "Some", args := [.named "a" []] }] }])).1 ∧
      c.Reachable ∧ 0 < c.pool.varCount ∧
      c.ctx.ClosedIn c.pool ∧
      (∀ v < c.pool.varCount,
        (c.checkForm (.eval (.tag 0 "Some" [.lit 1 (.int 1)]))).1.pool.target? v =
          c.pool.target? v) ∧
      (c.checkForm (.eval (.tag 0 "Some" [.lit 1 (.int 1)]))).1.ctx = c.ctx ∧
      (c.checkForm (.eval (.tag 0 "Some" [.lit 1 (.int 1)]))).1.ctx.render
          (c.checkForm (.eval (.tag 0 "Some" [.lit 1 (.int 1)]))).1.pool =
        c.ctx.render c.pool := by
  refine ⟨_, rfl, .checkForm _ .new, ?_, ?_⟩
  · -- the one item's parameter is allocated first
    rw [Checker.checkForm_typeDef]
    simp only [Catalogue.build, List.foldl]
    exact Nat.lt_of_lt_of_le (by decide) (TypeItem.le_varCount_build _ WF.empty)
  · obtain ⟨hcl, htarget, hctx⟩ := checkForm_frame (.checkForm _ .new)
      (.eval (.tag 0 "Some" [.lit 1 (.int 1)]))
    exact ⟨hcl, htarget, hctx (Or.inr ⟨_, rfl⟩)⟩

end TagML
