import TagML.Proofs.Infer.WellFormed
import TagML.Proofs.Ty.Build

/-!
What a type definition adds to the context.

Building a catalogue allocates every variable its signatures quantify: an item's parameters
get fresh variables before its tags are read, and a tag's `_` arguments get fresh variables
while its arguments are resolved.  So each signature quantifies only variables allocated by the
definition, and its argument and result types mention only variables it quantifies: a
parameter's, or one its own arguments allocated (`Catalogue.build_spec`).
-/
namespace TagML

open Pool

/-- A tag signature's types are handles of `p` that mention only the variables it
quantifies. -/
def TagSig.Closed (p : Pool) (s : TagSig) : Prop :=
  (∀ a ∈ s.args, a.raw < p.size ∧ ∀ w ∈ (p.term a).vars, w ∈ s.bounded) ∧
    s.result.raw < p.size ∧ ∀ w ∈ (p.term s.result).vars, w ∈ s.bounded

theorem TagSig.Closed.grows {p q : Pool} {s : TagSig} (hp : p.WF) (hq : q.WF) (hg : p.Grows q)
    (h : s.Closed p) : s.Closed q := by
  obtain ⟨hargs, hres, hresv⟩ := h
  refine ⟨fun a ha => ?_, Nat.lt_of_lt_of_le hres hg.size_le, ?_⟩
  · rw [hg.term_eq hp hq (hargs a ha).1]
    exact ⟨Nat.lt_of_lt_of_le (hargs a ha).1 hg.size_le, (hargs a ha).2⟩
  · rw [hg.term_eq hp hq hres]
    exact hresv

/-- Signatures built while `p` grew into `q`: each is closed in `q` and quantifies only
variables allocated from `L` on. -/
structure SigsBuilt (L : Nat) (p q : Pool) (sigs : List TagSig) : Prop where
  wf : q.WF
  grows : p.Grows q
  closed : ∀ s ∈ sigs, s.Closed q
  bounded : ∀ s ∈ sigs, ∀ v ∈ s.bounded, L ≤ v ∧ v < q.varCount

namespace SigsBuilt

variable {L : Nat} {p q r : Pool} {sigs sigs' : List TagSig}

theorem nil (h : p.WF) : SigsBuilt L p p [] :=
  ⟨h, Grows.refl p, fun _ hs => absurd hs List.not_mem_nil, fun _ hs => absurd hs List.not_mem_nil⟩

theorem append (h₁ : SigsBuilt L p q sigs) (h₂ : SigsBuilt L q r sigs') :
    SigsBuilt L p r (sigs ++ sigs') where
  wf := h₂.wf
  grows := h₁.grows.trans h₂.grows
  closed s hs := (List.mem_append.1 hs).elim
    (fun hs => (h₁.closed s hs).grows h₁.wf h₂.wf h₂.grows) (h₂.closed s)
  bounded s hs v hv := (List.mem_append.1 hs).elim
    (fun hs => ⟨(h₁.bounded s hs v hv).1,
      Nat.lt_of_lt_of_le (h₁.bounded s hs v hv).2 h₂.grows.varCount_le⟩)
    (fun hs => h₂.bounded s hs v hv)

theorem of_grows (hg : p.Grows q) (h : SigsBuilt L q r sigs) : SigsBuilt L p r sigs :=
  ⟨h.wf, hg.trans h.grows, h.closed, h.bounded⟩

theorem lower {L' : Nat} (h : SigsBuilt L p q sigs) (hL : L' ≤ L) : SigsBuilt L' p q sigs :=
  ⟨h.wf, h.grows, h.closed,
    fun s hs v hv => ⟨Nat.le_trans hL (h.bounded s hs v hv).1, (h.bounded s hs v hv).2⟩⟩

theorem of_subset (h : SigsBuilt L p q sigs) (hs : ∀ s ∈ sigs', s ∈ sigs) :
    SigsBuilt L p q sigs' :=
  ⟨h.wf, h.grows, fun s hm => h.closed s (hs s hm), fun s hm => h.bounded s (hs s hm)⟩

end SigsBuilt

/-- The parameters in scope are handles of `p` whose variables are in `P`. -/
def ParamsIn (params : Env Idx) (P : Set Nat) (p : Pool) : Prop :=
  ∀ b ∈ params.bindings, b.2.raw < p.size ∧ ∀ w ∈ (p.term b.2).vars, w ∈ P

namespace ParamsIn

variable {params : Env Idx} {P : Set Nat} {p q : Pool}

theorem valid (h : ParamsIn params P p) : ∀ b ∈ params.bindings, b.2.raw < p.size :=
  fun b hb => (h b hb).1

theorem grows (h : ParamsIn params P p) (hp : p.WF) (hq : q.WF) (hg : p.Grows q) :
    ParamsIn params P q := by
  intro b hb
  rw [hg.term_eq hp hq (h b hb).1]
  exact ⟨Nat.lt_of_lt_of_le (h b hb).1 hg.size_le, (h b hb).2⟩

end ParamsIn

section Resolve

variable {params : Env Idx} {P : Set Nat}

mutual
/-- A resolved type mentions only the parameters' variables and variables the resolution
allocated. -/
theorem TypeExpr.resolve_vars {p : Pool} (h : p.WF) (hparams : ParamsIn params P p) :
    ∀ t : TypeExpr, ∀ w ∈ ((t.resolve params p).2.term (t.resolve params p).1).vars,
      w ∈ P ∨ p.varCount ≤ w
  | .prim q => by
    simp only [TypeExpr.resolve]
    rw [h.term_prim q]
    simp [Term.vars]
  | .infer => by
    simp only [TypeExpr.resolve]
    rw [fresh_term h]
    simp [Term.vars]
  | .fn a r => by
    simp only [TypeExpr.resolve]
    obtain ⟨h₁, hg₁, ha⟩ := TypeExpr.resolve_spec h hparams.valid a
    have hav := TypeExpr.resolve_vars h hparams a
    generalize a.resolve params p = ra at h₁ hg₁ ha hav ⊢
    obtain ⟨a', p₁⟩ := ra
    have hparams₁ := hparams.grows h h₁ hg₁
    obtain ⟨h₂, hg₂, hr⟩ := TypeExpr.resolve_spec h₁ hparams₁.valid r
    have hrv := TypeExpr.resolve_vars h₁ hparams₁ r
    generalize r.resolve params p₁ = rr at h₂ hg₂ hr hrv ⊢
    obtain ⟨r', p₂⟩ := rr
    dsimp only at *
    rw [fn_term h₂ (Nat.lt_of_lt_of_le ha hg₂.size_le) hr, hg₂.term_eq h₁ h₂ ha]
    intro w hw
    simp only [Term.vars, List.mem_append] at hw
    rcases hw with hw | hw
    · exact hav w hw
    · exact (hrv w hw).imp_right (Nat.le_trans hg₁.varCount_le)
  | .named n args => by
    simp only [TypeExpr.resolve]
    obtain ⟨h₁, hg₁, hargs⟩ := TypeExpr.resolveList_spec h hparams.valid args
    have hav := TypeExpr.resolveList_vars h hparams args
    generalize TypeExpr.resolveList params p args = rl at h₁ hg₁ hargs hav ⊢
    obtain ⟨args', p₁⟩ := rl
    dsimp only at *
    split
    · next v hlv =>
      -- a bare parameter name stands for the parameter's variable
      intro w hw
      exact Or.inl ((hparams _ (Env.mem_of_lookup hlv)).2 w hw)
    · rw [user_term h₁ n hargs]
      intro w hw
      rw [Term.vars_user, Term.mem_varsList] at hw
      obtain ⟨_, hm, hw⟩ := hw
      obtain ⟨a, ha, rfl⟩ := List.mem_map.1 hm
      exact hav a ha w hw

theorem TypeExpr.resolveList_vars {p : Pool} (h : p.WF) (hparams : ParamsIn params P p) :
    ∀ ts : List TypeExpr, ∀ a ∈ (TypeExpr.resolveList params p ts).1,
      ∀ w ∈ ((TypeExpr.resolveList params p ts).2.term a).vars, w ∈ P ∨ p.varCount ≤ w
  | [] => fun _ ha => absurd ha List.not_mem_nil
  | t :: ts => by
    simp only [TypeExpr.resolveList]
    obtain ⟨h₁, hg₁, ht⟩ := TypeExpr.resolve_spec h hparams.valid t
    have htv := TypeExpr.resolve_vars h hparams t
    generalize t.resolve params p = rt at h₁ hg₁ ht htv ⊢
    obtain ⟨t', p₁⟩ := rt
    have hparams₁ := hparams.grows h h₁ hg₁
    obtain ⟨h₂, hg₂, -⟩ := TypeExpr.resolveList_spec h₁ hparams₁.valid ts
    have hsv := TypeExpr.resolveList_vars h₁ hparams₁ ts
    generalize TypeExpr.resolveList params p₁ ts = rs at h₂ hg₂ hsv ⊢
    obtain ⟨ts', p₂⟩ := rs
    dsimp only at *
    intro a ha w hw
    rcases List.mem_cons.1 ha with rfl | ha
    · rw [hg₂.term_eq h₁ h₂ ht] at hw
      exact htv w hw
    · exact (hsv a ha w hw).imp_right (Nat.le_trans hg₁.varCount_le)
end

end Resolve

/-- Allocating `n` variables returns handles standing for the next `n` variables. -/
theorem Pool.freshMany_spec : ∀ {p : Pool} (n : Nat), p.WF →
    (p.freshMany n).2.WF ∧ p.Grows (p.freshMany n).2 ∧
      (p.freshMany n).2.varCount = p.varCount + n ∧
      ∀ t ∈ (p.freshMany n).1, t.raw < (p.freshMany n).2.size ∧
        ∃ i < n, (p.freshMany n).2.term t = .var (p.varCount + i)
  | p, 0, h => ⟨h, Grows.refl p, rfl, fun _ ht => absurd ht List.not_mem_nil⟩
  | p, n + 1, h => by
    simp only [freshMany]
    obtain ⟨h₁, hg₁, ht₁, -⟩ := fresh_spec h
    have hterm₁ := fresh_term h
    have hc₁ : p.fresh.2.varCount = p.varCount + 1 := varCount_fresh p
    generalize p.fresh = r₁ at h₁ hg₁ ht₁ hterm₁ hc₁ ⊢
    obtain ⟨t₁, p₁⟩ := r₁
    obtain ⟨h₂, hg₂, hc₂, hts⟩ := freshMany_spec n h₁
    generalize p₁.freshMany n = r₂ at h₂ hg₂ hc₂ hts ⊢
    obtain ⟨ts, p₂⟩ := r₂
    dsimp only at *
    refine ⟨h₂, hg₁.trans hg₂, by omega, fun t ht => ?_⟩
    rcases List.mem_cons.1 ht with rfl | ht
    · refine ⟨Nat.lt_of_lt_of_le ht₁ hg₂.size_le, 0, Nat.succ_pos n, ?_⟩
      rw [hg₂.term_eq h₁ h₂ ht₁, hterm₁, Nat.add_zero]
    · obtain ⟨hlt, i, hi, hti⟩ := hts t ht
      refine ⟨hlt, i + 1, by omega, ?_⟩
      rw [hti, hc₁, Nat.add_assoc, Nat.add_comm 1 i]

/-- One item's signatures, numbered from `index`: each quantifies `bounded` and the variables
its own arguments allocated. -/
theorem TypeItem.tagSigs_spec {params : Env Idx} {bounded : List Nat} {result : Idx} {L : Nat} :
    ∀ {s : Pool} (index : Nat) (ds : List TagDecl), s.WF → ParamsIn params {v | v ∈ bounded} s →
      result.raw < s.size → (∀ w ∈ (s.term result).vars, w ∈ bounded) →
      (∀ v ∈ bounded, L ≤ v ∧ v < s.varCount) → L ≤ s.varCount →
      SigsBuilt L s (TypeItem.tagSigs params bounded result s index ds).2
        (TypeItem.tagSigs params bounded result s index ds).1
  | s, _, [], h, _, _, _, _, _ => SigsBuilt.nil h
  | s, index, d :: ds, h, hparams, hres, hresv, hb, hL => by
    simp only [TypeItem.tagSigs]
    obtain ⟨h₁, hg₁, hargs⟩ := TypeExpr.resolveList_spec h hparams.valid d.args
    have hargv := TypeExpr.resolveList_vars h hparams d.args
    generalize TypeExpr.resolveList params s d.args = rl at h₁ hg₁ hargs hargv ⊢
    obtain ⟨args, s₁⟩ := rl
    dsimp only at *
    have hres₁ : s₁.term result = s.term result := hg₁.term_eq h h₁ hres
    -- an argument's variable is a parameter's or one of the tag's own
    have hsig : SigsBuilt L s s₁ [TagSig.mk d.name index
        (bounded ++ (List.range (s₁.varCount - s.varCount)).map fun i => s.varCount + i)
        args result] := by
      refine ⟨h₁, hg₁, fun sig hsig => ?_, fun sig hsig v hv => ?_⟩ <;>
        rw [List.mem_singleton] at hsig <;> subst hsig
      · refine ⟨fun a ha => ⟨hargs a ha, fun w hw => ?_⟩, Nat.lt_of_lt_of_le hres hg₁.size_le,
          fun w hw => List.mem_append_left _ (hresv w (hres₁ ▸ hw))⟩
        have hw₁ := lt_varCount_of_mem_vars_term h₁ (hargs a ha) hw
        rcases hargv a ha w hw with hw | hw
        · exact List.mem_append_left _ hw
        · exact List.mem_append_right _ (List.mem_map.2 ⟨w - s.varCount, by simp; omega, by omega⟩)
      · rcases List.mem_append.1 hv with hv | hv
        · exact ⟨(hb v hv).1, Nat.lt_of_lt_of_le (hb v hv).2 hg₁.varCount_le⟩
        · obtain ⟨i, hi, rfl⟩ := List.mem_map.1 hv
          rw [List.mem_range] at hi
          omega
    have hrest := TypeItem.tagSigs_spec (index + 1) ds h₁ (hparams.grows h h₁ hg₁)
      (Nat.lt_of_lt_of_le hres hg₁.size_le) (fun w hw => hresv w (hres₁ ▸ hw))
      (fun v hv => ⟨(hb v hv).1, Nat.lt_of_lt_of_le (hb v hv).2 hg₁.varCount_le⟩)
      (Nat.le_trans hL hg₁.varCount_le)
    exact hsig.append hrest

/-- An item's signatures quantify only variables the item allocated. -/
theorem TypeItem.build_spec (item : TypeItem) {s : Pool} (h : s.WF) :
    SigsBuilt s.varCount s (item.build s).2 (item.build s).1 := by
  simp only [TypeItem.build]
  obtain ⟨h₁, hg₁, hc₁, hvars⟩ := s.freshMany_spec item.params.length h
  generalize s.freshMany item.params.length = rv at h₁ hg₁ hc₁ hvars ⊢
  obtain ⟨vars, s₁⟩ := rv
  dsimp only at *
  have hvalid : ∀ t ∈ vars, t.raw < s₁.size := fun t ht => (hvars t ht).1
  -- each parameter stands for one of the variables the item quantifies
  have hvb : ∀ t ∈ vars, ∀ w ∈ (s₁.term t).vars,
      w ∈ (List.range item.params.length).map fun i => s.varCount + i := by
    intro t ht w hw
    obtain ⟨-, i, hi, hti⟩ := hvars t ht
    rw [hti, Term.mem_vars_var] at hw
    exact List.mem_map.2 ⟨i, List.mem_range.2 hi, hw.symm⟩
  obtain ⟨h₂, hg₂, hres⟩ := user_spec h₁ item.name hvalid
  have hresv := user_term h₁ item.name hvalid
  generalize s₁.user item.name vars = ru at h₂ hg₂ hres hresv ⊢
  obtain ⟨result, s₂⟩ := ru
  dsimp only at *
  have hparams : ParamsIn (Env.ofList (item.params.zip vars))
      {v | v ∈ (List.range item.params.length).map fun i => s.varCount + i} s₂ := by
    rintro ⟨x, t⟩ hb
    rw [Env.bindings_ofList, List.mem_reverse] at hb
    have ht := (List.of_mem_zip hb).2
    rw [hg₂.term_eq h₁ h₂ (hvalid t ht)]
    exact ⟨Nat.lt_of_lt_of_le (hvalid t ht) hg₂.size_le, hvb t ht⟩
  refine SigsBuilt.of_grows (hg₁.trans hg₂) ?_
  refine TypeItem.tagSigs_spec 0 item.tags h₂ hparams hres (fun w hw => ?_) (fun v hv => ?_)
    (Nat.le_trans (Nat.le_add_right _ _) (hc₁ ▸ hg₂.varCount_le))
  · rw [hresv, Term.vars_user, Term.mem_varsList] at hw
    obtain ⟨_, hm, hw⟩ := hw
    obtain ⟨t, ht, rfl⟩ := List.mem_map.1 hm
    exact hvb t ht w hw
  · obtain ⟨i, hi, rfl⟩ := List.mem_map.1 hv
    have hle := hg₂.varCount_le
    rw [List.mem_range] at hi
    omega

/-- A type definition's signatures are closed in the pool it ends in and quantify only
variables it allocated. -/
theorem Catalogue.build_spec (items : List TypeItem) {p : Pool} (h : p.WF) :
    SigsBuilt p.varCount p (Catalogue.build items p).2
      ((Catalogue.build items p).1.tags.bindings.map Prod.snd) := by
  simp only [Catalogue.build]
  -- each item's signatures are put behind those of the items before it
  refine List.foldlRecOn (motive := fun (acc : Env TagSig × Pool) =>
      SigsBuilt p.varCount p acc.2 (acc.1.bindings.map Prod.snd)) items _
    (SigsBuilt.nil h) fun acc hacc item _ => ?_
  have hitem := (item.build_spec hacc.wf).lower hacc.grows.varCount_le
  refine (hacc.append hitem).of_subset fun sig hsig => ?_
  simp only [Env.bindings_append, Env.bindings_ofList, List.map_append, List.map_reverse,
    List.map_map, List.mem_append, List.mem_reverse, List.mem_map, Function.comp_apply] at hsig ⊢
  rcases hsig with hsig | ⟨t, ht, rfl⟩
  exacts [Or.inl hsig, Or.inr ht]

end TagML
