import TagML.Check
import TagML.Proofs.Catalogue
import TagML.Proofs.Infer.Sound

/-!
Checking a form is sound.

A checker reached from an empty one or from the prelude by checking forms keeps its context
ready for inference: the pool is well formed, the schemes and signatures are handles of it, the
variables they quantify are unbound, no scheme's free variable is quantified anywhere, and each
signature mentions only variables it quantifies (`Checker.Reachable.inv`).  Inference from such a
checker gives a derivation in every later pool that keeps those variables frozen; settling the
result only builds new types, so the finished tables, read in the settled pool, are a derivation
of the expression, and its root has the reported type (`checkForm_sound`).
-/
namespace TagML

open Pool

/-! ## Finished tables -/

/-- `t'` holds the entries of `t`, in some order, each handle replaced by one standing in `q`
for the same type. -/
structure Tables.Equiv (q : Pool) (t t' : Tables) : Prop where
  exprs : (t'.exprs.map fun x => (x.1, q.term x.2)).Perm (t.exprs.map fun x => (x.1, q.term x.2))
  slots : (t'.slots.map fun x => (x.1, q.term x.2)).Perm (t.slots.map fun x => (x.1, q.term x.2))
  tagIndices : t'.tagIndices.Perm t.tagIndices
  pats : (t'.pats.map fun x => (x.1, q.term x.2)).Perm (t.pats.map fun x => (x.1, q.term x.2))

/-- Deep resolution of a table's entries in one pass keeps each node id and rewrites its
handle. -/
theorem Rewrite.deep_spec {p : Pool} (h : p.WF) (xs : List (Nat × Idx)) {st : Rewrite}
    (hinv : st.Inv p []) (hxs : ∀ x ∈ xs, x.2.raw < p.size) {r : List (Nat × Idx) × Rewrite}
    (hr : (xs.mapM fun (x : Nat × Idx) => do return (x.1, ← substitute [] x.2)).run st = r) :
    r.2.Inv p [] ∧ st.pool.Grows r.2.pool ∧
      List.Forall₂ (fun (x y : Nat × Idx) => y.1 = x.1 ∧ p.Rewritten [] r.2.pool x.2 y.2) xs r.1 :=
  hr ▸ mapM_forall₂ (R := fun q (x y : Nat × Idx) => y.1 = x.1 ∧ p.Rewritten [] q x.2 y.2)
    (fun hq hq' hg hr => ⟨hr.1, hr.2.grows hq hq' hg⟩)
    (fun x st hinv hx => by
      obtain ⟨hinv', hg, hr⟩ := substitute_spec h (resolvedImages_nil p) hinv hx
      exact ⟨hinv', hg, rfl, hr⟩)
    xs st hinv hxs

/-- Deeply resolved entries, read in a pool grown from the one the pass started on, stand for
what the old entries stand for. -/
theorem map_term_of_deep {p q : Pool} (hp : p.WF) (hq : q.WF) (hg : p.Grows q) :
    ∀ {xs ys : List (Nat × Idx)}, (∀ x ∈ xs, x.2.raw < p.size) →
      List.Forall₂ (fun (x y : Nat × Idx) => y.1 = x.1 ∧ p.Rewritten [] q x.2 y.2) xs ys →
      (ys.map fun y => (y.1, q.term y.2)) = xs.map fun x => (x.1, q.term x.2)
  | _, _, _, .nil => rfl
  | x :: _, y :: _, hv, .cons ⟨h₁, hr⟩ hall => by
    have hterm : q.term y.2 = q.term x.2 := by
      rw [hr.2.2, image_nil, Term.subst_var_self, hg.term_eq hp hq (hv x List.mem_cons_self)]
    rw [List.map_cons, List.map_cons, h₁, hterm,
      map_term_of_deep hp hq hg (fun x' hx' => hv x' (List.mem_cons_of_mem x hx')) hall]

/-- Deeply resolved entries, sorted, hold the old entries, read in any later pool. -/
theorem perm_of_deep {p q₁ q : Pool} (hp : p.WF) (hq₁ : q₁.WF) (hq : q.WF) (hg₁ : p.Grows q₁)
    (hg : q₁.Grows q) {xs ys : List (Nat × Idx)} (hv : ∀ x ∈ xs, x.2.raw < p.size)
    (hr : List.Forall₂ (fun (x y : Nat × Idx) => y.1 = x.1 ∧ p.Rewritten [] q₁ x.2 y.2) xs ys)
    (le : Nat × Idx → Nat × Idx → Bool) :
    ((ys.mergeSort le).map fun y => (y.1, q.term y.2)).Perm
      (xs.map fun x => (x.1, q.term x.2)) := by
  rw [← map_term_of_deep hp hq (hg₁.trans hg) hv (hr.imp fun _ _ h => ⟨h.1, h.2.grows hq₁ hq hg⟩)]
  exact (List.mergeSort_perm ys le).map _

/-- Finishing only builds types, and the finished tables hold the recorded entries with the
same types. -/
theorem Engine.finish_spec {E : Engine} (h : E.pool.WF) (hv : E.tables.Valid E.pool) :
    E.finish.2.WF ∧ E.pool.Grows E.finish.2 ∧ Tables.Equiv E.finish.2 E.tables E.finish.1 := by
  obtain ⟨p, t⟩ := E
  obtain ⟨hve, hvs, hvp⟩ := hv
  simp only [Engine.finish, Pool.rewrite, Rewrite.run_bind, Rewrite.run_pure]
  -- the pass resolves the three lists one after the other
  obtain ⟨hinv₁, hg₁, hr₁⟩ := Rewrite.deep_spec h t.exprs (Rewrite.Inv.start h) hve rfl
  generalize (t.exprs.mapM fun (x : Nat × Idx) => do
    return (x.1, ← Rewrite.substitute [] x.2)).run { pool := p } = r₁ at hinv₁ hg₁ hr₁ ⊢
  obtain ⟨hinv₂, hg₂, hr₂⟩ := Rewrite.deep_spec h t.slots hinv₁ hvs rfl
  generalize (t.slots.mapM fun (x : Nat × Idx) => do
    return (x.1, ← Rewrite.substitute [] x.2)).run r₁.2 = r₂ at hinv₂ hg₂ hr₂ ⊢
  obtain ⟨hinv₃, hg₃, hr₃⟩ := Rewrite.deep_spec h t.pats hinv₂ hvp rfl
  generalize (t.pats.mapM fun (x : Nat × Idx) => do
    return (x.1, ← Rewrite.substitute [] x.2)).run r₂.2 = r₃ at hinv₃ hg₃ hr₃ ⊢
  have hq := hinv₃.wf
  refine ⟨hq, hinv₃.grows, perm_of_deep h hinv₁.wf hq hinv₁.grows (hg₂.trans hg₃) hve hr₁ _,
    perm_of_deep h hinv₂.wf hq hinv₂.grows hg₃ hvs hr₂ _, List.mergeSort_perm _ _,
    perm_of_deep h hq hq hinv₃.grows (Grows.refl _) hvp hr₃ _⟩

/-- Settling resolves the expected type deeply and finishes the tables: it only builds types,
the settled type stands for the expected one, and the tables hold the recorded entries. -/
theorem Engine.settle_spec {E : Engine} (h : E.pool.WF) (hv : E.tables.Valid E.pool) {i : Idx}
    (hi : i.raw < E.pool.size) :
    (E.settle i).2.2.WF ∧ E.pool.Grows (E.settle i).2.2 ∧
      (E.settle i).1.raw < (E.settle i).2.2.size ∧
      (E.settle i).2.2.term (E.settle i).1 = (E.settle i).2.2.term i ∧
      Tables.Equiv (E.settle i).2.2 E.tables (E.settle i).2.1 := by
  obtain ⟨p, t⟩ := E
  simp only [Engine.settle]
  obtain ⟨h₁, hg₁, hty, -, hterm⟩ := resolveDeep_spec h hi
  generalize p.resolveDeep i = r at h₁ hg₁ hty hterm ⊢
  obtain ⟨ty, p₁⟩ := r
  dsimp only at *
  obtain ⟨h₂, hg₂, heq⟩ := Engine.finish_spec (E := ⟨p₁, t⟩) h₁ (hv.mono hg₁.size_le)
  generalize Engine.finish ⟨p₁, t⟩ = r at h₂ hg₂ heq ⊢
  obtain ⟨tables, q⟩ := r
  dsimp only at *
  refine ⟨h₂, hg₁.trans hg₂, Nat.lt_of_lt_of_le hty hg₂.size_le, ?_, heq⟩
  rw [hg₂.term_eq h₁ h₂ hty, hterm, (hg₁.trans hg₂).term_eq h h₂ hi]

/-- The typing finished tables give, each handle read in `q`. -/
def Tables.typing (t : Tables) (q : Pool) : Typing where
  expr n := (t.exprs.lookup n).map q.term
  slot n := (t.slots.lookup n).map q.term
  pat n := (t.pats.lookup n).map q.term
  tagIndex n := t.tagIndices.lookup n

theorem lookup_eq_of_mem {β : Type} : ∀ {l : List (Nat × β)} {a : Nat} {b : β},
    (l.map Prod.fst).Nodup → (a, b) ∈ l → l.lookup a = some b
  | [], _, _, _, hm => absurd hm List.not_mem_nil
  | (k, v) :: l, a, b, hnd, hm => by
    rw [List.map_cons, List.nodup_cons] at hnd
    rw [List.lookup_cons]
    rcases List.mem_cons.1 hm with heq | hl
    · obtain ⟨rfl, rfl⟩ := Prod.mk.inj heq
      simp
    · -- a key found further on is not the first one
      have hne : (a == k) = false :=
        beq_eq_false_iff_ne.2 fun hak => hnd.1 (List.mem_map.2 ⟨(a, b), hl, hak⟩)
      simp only [hne]
      exact lookup_eq_of_mem hnd.2 hl

/-- In a list with one entry per key, looking up the key of an entry of an equivalent list
finds a handle standing for the same type. -/
theorem lookup_term_of_perm {q : Pool} {xs ys : List (Nat × Idx)}
    (hperm : (ys.map fun y => (y.1, q.term y.2)).Perm (xs.map fun x => (x.1, q.term x.2)))
    (hnd : (ys.map Prod.fst).Nodup) {n : Nat} {i : Idx} (hm : (n, i) ∈ xs) :
    (ys.lookup n).map q.term = some (q.term i) := by
  have hmem := hperm.symm.subset (List.mem_map_of_mem (f := fun x => (x.1, q.term x.2)) hm)
  obtain ⟨⟨n', j⟩, hj, hjeq⟩ := List.mem_map.1 hmem
  obtain ⟨rfl, hterm⟩ := Prod.mk.inj hjeq
  rw [lookup_eq_of_mem hnd hj, Option.map_some, hterm]

theorem keys_perm {q : Pool} {xs ys : List (Nat × Idx)}
    (hperm : (ys.map fun y => (y.1, q.term y.2)).Perm (xs.map fun x => (x.1, q.term x.2))) :
    (ys.map Prod.fst).Perm (xs.map Prod.fst) := by
  have h := hperm.map Prod.fst
  simp only [List.map_map] at h
  exact h

namespace Tables

variable {q : Pool} {t t' : Tables}

/-- Tables equivalent to ones covering some nodes cover them too. -/
theorem Equiv.covers (h : Equiv q t t') {n : List Expr} (hc : t.Covers n) : t'.Covers n :=
  ⟨(keys_perm h.exprs).trans hc.1, (keys_perm h.slots).trans hc.2.1,
    (h.tagIndices.map Prod.fst).trans hc.2.2.1, (keys_perm h.pats).trans hc.2.2.2⟩

/-- Tables with one entry per node give, read in `q`, the types that equivalent tables
record. -/
theorem Equiv.records (h : Equiv q t t') (he : (t'.exprs.map Prod.fst).Nodup)
    (hs : (t'.slots.map Prod.fst).Nodup) (hp : (t'.pats.map Prod.fst).Nodup)
    (hk : (t'.tagIndices.map Prod.fst).Nodup) : (t'.typing q).Records q t :=
  ⟨fun _ _ hm => lookup_term_of_perm h.exprs he hm, fun _ _ hm => lookup_term_of_perm h.slots hs hm,
    fun _ _ hm => lookup_term_of_perm h.pats hp hm,
    fun _ _ hm => lookup_eq_of_mem hk (h.tagIndices.symm.subset hm)⟩

/-- Tables covering an expression whose node ids and pattern ids are distinct hold one entry
per key. -/
theorem Covers.keys_nodup {e : Expr} (hc : t.Covers e.subexprs) (hids : e.ids.Nodup)
    (hpats : e.patIds.Nodup) :
    (t.exprs.map Prod.fst).Nodup ∧ (t.slots.map Prod.fst).Nodup ∧
      (t.pats.map Prod.fst).Nodup ∧ (t.tagIndices.map Prod.fst).Nodup :=
  ⟨hc.1.nodup_iff.2 hids, hc.2.1.nodup_iff.2 (hids.sublist (List.filter_sublist.map _)),
    hc.2.2.2.nodup_iff.2 hpats, hc.2.2.1.nodup_iff.2 (hids.sublist (List.filter_sublist.map _))⟩

end Tables

/-! ## Reachable checkers -/

/-- Building types keeps frozen the old unbound variables and every variable it allocates. -/
theorem Pool.Frozen.of_grows_new {p q : Pool} {Z : Set Nat} (hp : p.WF) (hq : q.WF)
    (hg : p.Grows q) (hZ : p.Unbound Z) : Frozen (Z ∪ {v | p.varCount ≤ v}) p q where
  unbound z hz := hz.elim (fun hz => (hg.target?_eq z (hZ z hz).1).trans (hZ z hz).2)
    (hg.target?_new z)
  avoids v hvc hv hvZ w hw := by
    rw [hg.binding_eq hp hq hvc, binding_of_unbound hp hv, Term.mem_vars_var] at hw
    exact hw ▸ hvZ

/-- The variables the context's schemes and tag signatures quantify. -/
def Context.quantified (ctx : Context) : Set Nat :=
  {v | (∃ b ∈ ctx.vars.bindings, v ∈ b.2.bounded) ∨ ∃ b ∈ ctx.tags.bindings, v ∈ b.2.bounded}

theorem Context.quantified_withBinding (ctx : Context) (x : String) (σ : Scheme) :
    (ctx.withBinding x σ).quantified = ctx.quantified ∪ {v | v ∈ σ.bounded} := by
  ext v
  simp only [quantified, withBinding, Env.bindings_prepend, List.mem_cons, Set.mem_union,
    Set.mem_ofPred_eq, or_and_right, exists_or, exists_eq_left, or_assoc, or_comm]

theorem Context.quantified_withCatalogue (ctx : Context) (cat : Catalogue) :
    (ctx.withCatalogue cat).quantified =
      ctx.quantified ∪ {v | ∃ b ∈ cat.tags.bindings, v ∈ b.2.bounded} := by
  ext v
  simp only [quantified, withCatalogue, Env.bindings_append, List.mem_append, Set.mem_union,
    Set.mem_ofPred_eq, or_and_right, exists_or, or_assoc]

/-- A pool stays ready for inference in a context with a type definition's signatures put
behind the tags, when they are handles of it mentioning only variables they quantify, all
frozen. -/
theorem Ready.withCatalogue {ctx : Context} {Z : Set Nat} {env : Env Scheme} {hs : List Idx}
    {p : Pool} (hr : Ready ctx Z env hs p) {cat : Catalogue} (hv : p.ValidTags cat.tags)
    (hc : p.TagsClosed Z cat.tags) : Ready (ctx.withCatalogue cat) Z env hs p :=
  have hmem {b} (hb : b ∈ (ctx.withCatalogue cat).tags.bindings) :
      b ∈ ctx.tags.bindings ∨ b ∈ cat.tags.bindings := by
    rwa [Context.withCatalogue, Env.bindings_append, List.mem_append] at hb
  { hr with
    tags_valid := fun b hb => (hmem hb).elim (hr.tags_valid b) (hv b)
    tags_closed := fun b hb => (hmem hb).elim (hr.tags_closed b) (hc b) }

/-- Building types keeps a pool ready. -/
theorem Ready.grows {ctx : Context} {Z : Set Nat} {env : Env Scheme} {hs : List Idx} {p q : Pool}
    (hr : Ready ctx Z env hs p) (hq : q.WF) (hg : p.Grows q) : Ready ctx Z env hs q :=
  hr.later hq (Extends.of_grows hg) (Frozen.of_grows hr.wf hq hg hr.unbound)

namespace Checker

/-- What every reachable checker satisfies: its context is ready for inference, with the
variables it quantifies frozen. -/
def Inv (c : Checker) : Prop := Ready c.ctx c.ctx.quantified c.ctx.vars [] c.pool

/-- The checkers a session reaches: an empty one, one with the prelude, and any checker after
checking one more form. -/
inductive Reachable : Checker → Prop
  | new : Reachable {}
  | withPrelude : Reachable withPrelude
  | checkForm {c : Checker} (form : Form) : Reachable c → Reachable (c.checkForm form).1

theorem inv_new : ({} : Checker).Inv where
  wf := WF.empty
  unbound _ hz := by simp [Context.quantified] at hz
  tags_valid _ hb := absurd hb List.not_mem_nil
  tags_closed _ hb := absurd hb List.not_mem_nil
  env_valid _ hb := absurd hb List.not_mem_nil
  respects _ hb := absurd hb List.not_mem_nil
  valid _ hh := absurd hh List.not_mem_nil
  avoids _ hh := absurd hh List.not_mem_nil

/-- The prelude binds its operators unquantified, to one function type. -/
theorem inv_withPrelude : withPrelude.Inv := by
  have hint : Prim.int.idx.raw < ({} : Pool).size := (WF.empty.prim Prim.int).1
  have hargs : ∀ a ∈ [Prim.int.idx, Prim.int.idx], a.raw < ({} : Pool).size := by
    intro a ha
    simp only [List.mem_cons, List.not_mem_nil, or_false, or_self] at ha
    exact ha ▸ hint
  obtain ⟨h, -, hbin⟩ := curried_spec WF.empty hint hargs
  simp only [withPrelude, Context.prelude]
  generalize ({} : Pool).curried [Prim.int.idx, Prim.int.idx] Prim.int.idx = r at h hbin ⊢
  obtain ⟨binary, p⟩ := r
  dsimp only at *
  -- every binding is `Scheme.mono binary`, so nothing is quantified
  have hmono : ∀ b ∈ (Env.ofList (Context.preludeOperators.map
      fun n => (n, Scheme.mono binary))).bindings, b.2 = Scheme.mono binary := by
    intro b hb
    simp only [Env.bindings_ofList, List.mem_reverse, List.mem_map] at hb
    obtain ⟨n, -, rfl⟩ := hb
    rfl
  have hnone : ∀ v, v ∉ ({ vars := Env.ofList (Context.preludeOperators.map
      fun n => (n, Scheme.mono binary)) } : Context).quantified := by
    rintro v (⟨b, hb, hv⟩ | ⟨b, hb, -⟩)
    · rw [hmono b hb] at hv
      exact absurd hv List.not_mem_nil
    · exact absurd hb List.not_mem_nil
  exact {
    wf := h
    unbound := fun z hz => absurd hz (hnone z)
    tags_valid := fun _ hb => absurd hb List.not_mem_nil
    tags_closed := fun _ hb => absurd hb List.not_mem_nil
    env_valid := fun b hb => (hmono b hb).symm ▸ hbin
    respects := fun b hb => ⟨fun v hv => absurd ((hmono b hb) ▸ hv) List.not_mem_nil,
      fun w _ _ => hnone w⟩
    valid := fun _ hh => absurd hh List.not_mem_nil
    avoids := fun _ hh => absurd hh List.not_mem_nil }

namespace Inv

variable {c : Checker}

/-- A type definition quantifies only variables it allocates, all unbound, and its signatures
mention only what they quantify: the checker stays ready with them frozen too. -/
theorem defineTypes (h : c.Inv) (items : List TypeItem) : (c.defineTypes items).1.Inv := by
  simp only [Checker.defineTypes]
  have hb := Catalogue.build_spec items h.wf
  generalize Catalogue.build items c.pool = r at hb ⊢
  obtain ⟨cat, q⟩ := r
  dsimp only at *
  have hQ : ∀ v ∈ {v | ∃ b ∈ cat.tags.bindings, v ∈ b.2.bounded},
      c.pool.varCount ≤ v ∧ v < q.varCount := by
    rintro v ⟨b, hb', hv⟩
    exact hb.bounded b.2 (List.mem_map_of_mem hb') v hv
  have hF : Frozen (c.ctx.quantified ∪ {v | ∃ b ∈ cat.tags.bindings, v ∈ b.2.bounded}) c.pool q :=
    (Frozen.of_grows_new h.wf hb.wf hb.grows h.unbound).mono hb.wf
      (Set.union_subset_union_right _ fun v hv => (hQ v hv).1)
  have hr := h.extend hb.wf (Extends.of_grows hb.grows) hF hQ
  show Ready _ (c.ctx.withCatalogue cat).quantified _ _ _
  rw [Context.quantified_withCatalogue]
  refine hr.withCatalogue (fun b hb' => ?_) (fun b hb' => ?_)
  · have hc := hb.closed b.2 (List.mem_map_of_mem hb')
    exact ⟨fun a ha => (hc.1 a ha).1, hc.2.1⟩
  · have hc := hb.closed b.2 (List.mem_map_of_mem hb')
    exact ⟨fun v hv => Or.inr ⟨b, hb', hv⟩, fun a ha => (hc.1 a ha).2, hc.2.2⟩

/-- A fresh variable for the expected type keeps the checker's pool ready, against it. -/
theorem fresh (h : c.Inv) :
    Ready c.ctx c.ctx.quantified c.ctx.vars [c.pool.fresh.1] c.pool.fresh.2 := by
  obtain ⟨h₁, hg₁, ht₁, -⟩ := fresh_spec h.wf
  refine (Ready.grows h h₁ hg₁).single ht₁ ?_
  rw [fresh_term h.wf]
  exact h.unbound.avoids_var (Nat.le_refl _)

/-- A failed inference from the checker leaves a pool that keeps the checker ready. -/
theorem run_error (h : c.Inv) {e : Expr} {err : CheckError} {eng : Engine}
    (hrun : (infer c.ctx c.ctx.vars e c.pool.fresh.1).run ⟨c.pool.fresh.2, {}⟩ = .error err eng) :
    Ready c.ctx c.ctx.quantified c.ctx.vars [] eng.pool := by
  obtain ⟨hwf, hext, hfz⟩ := (infer_sound c.ctx e c.ctx.quantified c.ctx.vars c.pool.fresh.1
    ⟨c.pool.fresh.2, {}⟩ h.fresh).of_error hrun
  exact (h.fresh.sub (List.nil_subset _)).later hwf hext hfz

/-- A successful inference from the checker leaves a pool that keeps the checker ready, with
what `Inferred` says of it. -/
theorem run_ok (h : c.Inv) {e : Expr} {u : Unit} {eng : Engine}
    (hrun : (infer c.ctx c.ctx.vars e c.pool.fresh.1).run ⟨c.pool.fresh.2, {}⟩ = .ok u eng) :
    Ready c.ctx c.ctx.quantified c.ctx.vars [] eng.pool ∧ c.pool.fresh.1.raw < eng.pool.size ∧
      Inferred c.ctx c.ctx.quantified c.ctx.vars e c.pool.fresh.1 ⟨c.pool.fresh.2, {}⟩ eng := by
  obtain ⟨hwf, hext, hfz, hinf⟩ := (infer_sound c.ctx e c.ctx.quantified c.ctx.vars c.pool.fresh.1
    ⟨c.pool.fresh.2, {}⟩ h.fresh).of_ok hrun
  exact ⟨(h.fresh.sub (List.nil_subset _)).later hwf hext hfz,
    Nat.lt_of_lt_of_le (h.fresh.valid _ List.mem_cons_self) hext.size_le, hinf⟩

/-- Settling a successful inference from the checker keeps the checker ready. -/
theorem settled (h : c.Inv) {e : Expr} {u : Unit} {eng : Engine}
    (hrun : (infer c.ctx c.ctx.vars e c.pool.fresh.1).run ⟨c.pool.fresh.2, {}⟩ = .ok u eng) :
    Ready c.ctx c.ctx.quantified c.ctx.vars [] (eng.settle c.pool.fresh.1).2.2 ∧
      (eng.settle c.pool.fresh.1).1.raw < (eng.settle c.pool.fresh.1).2.2.size := by
  obtain ⟨hready, hres, new, Q, hd, -⟩ := h.run_ok hrun
  obtain ⟨hq, hg, hty, -⟩ :=
    Engine.settle_spec hready.wf ((hd.tables.trans Tables.prepend_empty) ▸ hd.valid) hres
  exact ⟨hready.grows hq hg, hty⟩

/-- A successful inference of `e` from the checker, settled: the finished tables cover `e` and,
read in the settled pool, are a derivation of `e` whose root has the settled type. -/
theorem settle_sound (h : c.Inv) {e : Expr} (hids : e.ids.Nodup) (hpats : e.patIds.Nodup)
    {u : Unit} {eng : Engine}
    (hrun : (infer c.ctx c.ctx.vars e c.pool.fresh.1).run ⟨c.pool.fresh.2, {}⟩ = .ok u eng) :
    (eng.settle c.pool.fresh.1).2.1.Covers e.subexprs ∧
      Derivation (c.ctx.tagTypes (eng.settle c.pool.fresh.1).2.2)
        ((eng.settle c.pool.fresh.1).2.1.typing (eng.settle c.pool.fresh.1).2.2)
        ((eng.settle c.pool.fresh.1).2.2.envType c.ctx.vars) e ∧
      ((eng.settle c.pool.fresh.1).2.1.typing (eng.settle c.pool.fresh.1).2.2).expr e.id =
        some ((eng.settle c.pool.fresh.1).2.2.term (eng.settle c.pool.fresh.1).1) := by
  obtain ⟨hready, hres, new, Q, hd, hroot, hder⟩ := h.run_ok hrun
  have htab : eng.tables = new := hd.tables.trans Tables.prepend_empty
  obtain ⟨hq, hg, -, hty, heqv⟩ := Engine.settle_spec hready.wf (htab ▸ hd.valid) hres
  rw [htab] at heqv
  -- the settled pool only built types, so it is a later pool of the inference's
  have hunb : eng.pool.Unbound (c.ctx.quantified ∪ Q) := fun z hz =>
    hz.elim (hready.unbound z) fun hz => ⟨(hd.fresh z hz).2, hd.frozen.unbound z hz⟩
  have hlater : Later (c.ctx.quantified ∪ Q) eng.pool (eng.settle c.pool.fresh.1).2.2 :=
    ⟨hq, Extends.of_grows hg, Frozen.of_grows hready.wf hq hg hunb⟩
  have hcov := heqv.covers hd.covers
  obtain ⟨he, hs, hp, hk⟩ := hcov.keys_nodup hids hpats
  have hrec := heqv.records he hs hp hk
  refine ⟨hcov, hder _ _ hlater hrec, ?_⟩
  rw [hrec.1 _ _ hroot, hty]

/-- Binding a value generalized in a ready pool keeps the checker ready: the scheme quantifies
unbound variables free nowhere in the environment, and a variable it leaves free is free in the
environment, where nothing quantifies it. -/
theorem bind {ctx : Context} {q : Pool} (hr : Ready ctx ctx.quantified ctx.vars [] q)
    (x : String) {t : Idx} (ht : t.raw < q.size) :
    ({ pool := q, ctx := ctx.withBinding x (q.generalize ctx.vars t) } : Checker).Inv := by
  have hgen := fun w => mem_generalize hr.wf (v := w) ctx.vars t
  have hQ : q.Unbound {v | v ∈ (q.generalize ctx.vars t).bounded} := fun v hv =>
    ⟨lt_varCount_of_mem_vars_term hr.wf ht ((hgen v).1 hv).1,
      target?_of_mem_vars_term hr.wf ((hgen v).1 hv).1⟩
  have hfz := hr.freeze hQ (fun w hw hwQ => ((hgen w).1 hwQ).2 hw)
    fun _ hh => absurd hh List.not_mem_nil
  have hfree : ∀ w ∈ (q.term (q.generalize ctx.vars t).body).vars,
      w ∉ (q.generalize ctx.vars t).bounded →
      w ∉ ctx.quantified ∪ {v | v ∈ (q.generalize ctx.vars t).bounded} := by
    rintro w hw hwb (hwZ | hwQ)
    · have hfree : w ∈ (q.envType ctx.vars).free := by
        by_contra hnf
        exact hwb ((hgen w).2 ⟨hw, hnf⟩)
      obtain ⟨b, hb, hwv, hwnb⟩ := mem_envType_free.1 hfree
      exact (hr.respects b hb).2 w hwv hwnb hwZ
    · exact hwb hwQ
  show Ready _ (ctx.withBinding x _).quantified _ _ _
  rw [Context.quantified_withBinding]
  -- a binding leaves the tags as they are
  have hb := hfz.bind x ht (fun v hv => Or.inr hv) hfree
  exact { hb with }

/-- Checking any form keeps the checker ready. -/
theorem checkForm (h : c.Inv) : ∀ form : Form, (c.checkForm form).1.Inv
  | .typeDef items => h.defineTypes items
  | .eval e => by
    simp only [Checker.checkForm]
    split
    · next hrun => exact (h.settled hrun).1
    · next hrun => exact h.run_error hrun
  | .bind x v => by
    simp only [Checker.checkForm]
    split
    · next hrun => exact bind (h.settled hrun).1 x (h.settled hrun).2
    · next hrun => exact h.run_error hrun

end Inv

/-- Every reachable checker is ready for inference. -/
theorem Reachable.inv {c : Checker} (hc : c.Reachable) : c.Inv := by
  induction hc with
  | new => exact inv_new
  | withPrelude => exact inv_withPrelude
  | checkForm form _ ih => exact ih.checkForm form

end Checker

/-! ## Soundness of checking a form -/

/-- The expression a form checks. -/
def Form.expr? : Form → Option Expr
  | .typeDef _ => none
  | .eval e => some e
  | .bind _ v => some v

/-- The type a checked form reports for its expression: an evaluated expression's type, or the
body of a bound value's scheme. -/
def Outcome.type? : Outcome → Option Idx
  | .typeDefined _ _ => none
  | .evaluated _ ty => some ty
  | .bound _ σ => some σ.body

/-- Checking an expression from any reachable checker is sound: when it succeeds, the finished
tables have one entry of each kind for each node, and read in the pool the checker ends with
they are a Hindley–Milner derivation of the expression in the context's environment, whose
root has the reported type. -/
theorem checkForm_sound {c : Checker} (hc : c.Reachable) {form : Form} {e : Expr}
    (he : form.expr? = some e) (hids : e.ids.Nodup) (hpats : e.patIds.Nodup) {done : Checked}
    (hok : (c.checkForm form).2 = .ok done) :
    done.tables.Covers e.subexprs ∧
      Derivation (c.ctx.tagTypes (c.checkForm form).1.pool)
        (done.tables.typing (c.checkForm form).1.pool)
        ((c.checkForm form).1.pool.envType c.ctx.vars) e ∧
      (done.tables.typing (c.checkForm form).1.pool).expr e.id =
        done.outcome.type?.map (c.checkForm form).1.pool.term := by
  have h := hc.inv
  cases form with
  | typeDef items => cases he
  | eval e' =>
    cases he
    simp only [Checker.checkForm] at hok ⊢
    rcases hrun : (infer c.ctx c.ctx.vars e c.pool.fresh.1).run ⟨c.pool.fresh.2, {}⟩ with
      ⟨u, eng⟩ | ⟨err, eng⟩
    · rw [hrun] at hok
      dsimp only at hok ⊢
      cases hok
      exact h.settle_sound hids hpats hrun
    · rw [hrun] at hok
      dsimp only at hok
      cases hok
  | bind x v =>
    cases he
    simp only [Checker.checkForm] at hok ⊢
    rcases hrun : (infer c.ctx c.ctx.vars e c.pool.fresh.1).run ⟨c.pool.fresh.2, {}⟩ with
      ⟨u, eng⟩ | ⟨err, eng⟩
    · rw [hrun] at hok
      dsimp only at hok ⊢
      cases hok
      exact h.settle_sound hids hpats hrun
    · rw [hrun] at hok
      dsimp only at hok
      cases hok

/-- `if true then 1 else 2` checked from the empty checker: the tables cover its four nodes and
are a derivation of it whose root has the reported type, `Int`. -/
theorem checkForm_sound_ite :
    ∃ done, (({} : Checker).checkForm
        (.eval (.ite 0 (.lit 1 (.bool true)) (.lit 2 (.int 1)) (.lit 3 (.int 2))))).2 = .ok done ∧
      done.outcome.type?.map (({} : Checker).checkForm
        (.eval (.ite 0 (.lit 1 (.bool true)) (.lit 2 (.int 1)) (.lit 3 (.int 2))))).1.pool.term =
        some (.prim .int) ∧
      done.tables.Covers
        (Expr.ite 0 (.lit 1 (.bool true)) (.lit 2 (.int 1)) (.lit 3 (.int 2))).subexprs ∧
      Derivation (({} : Checker).ctx.tagTypes (({} : Checker).checkForm
          (.eval (.ite 0 (.lit 1 (.bool true)) (.lit 2 (.int 1)) (.lit 3 (.int 2))))).1.pool)
        (done.tables.typing (({} : Checker).checkForm
          (.eval (.ite 0 (.lit 1 (.bool true)) (.lit 2 (.int 1)) (.lit 3 (.int 2))))).1.pool)
        ((({} : Checker).checkForm
          (.eval (.ite 0 (.lit 1 (.bool true)) (.lit 2 (.int 1)) (.lit 3 (.int 2))))).1.pool.envType
          ({} : Checker).ctx.vars)
        (.ite 0 (.lit 1 (.bool true)) (.lit 2 (.int 1)) (.lit 3 (.int 2))) ∧
      (done.tables.typing (({} : Checker).checkForm
          (.eval (.ite 0 (.lit 1 (.bool true)) (.lit 2 (.int 1)) (.lit 3 (.int 2))))).1.pool).expr
          0 =
        done.outcome.type?.map (({} : Checker).checkForm
          (.eval (.ite 0 (.lit 1 (.bool true)) (.lit 2 (.int 1)) (.lit 3 (.int 2))))).1.pool.term :=
  ⟨_, rfl, rfl, checkForm_sound .new rfl (by decide) (by decide) rfl⟩

end TagML
