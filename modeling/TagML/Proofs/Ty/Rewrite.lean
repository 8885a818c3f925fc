import TagML.Ty.Rewrite
import TagML.Proofs.Pool.Denote

/-!
What a rewriting pass computes.

A pass only interns items: the items it finds keep their places, flags and links, so every
handle of the pool it starts from keeps its successors, its resolution and the type it stands
for (`Grows`).  Within the pass the memo table maps resolved handles of the starting pool to
their rewrites, and the invariant `Rewrite.Inv` says each entry is what the walk would compute
afresh: a handle of the current pool, with nothing linked below it, standing for the entry's
key with the substitution applied.  The walk keeps the invariant and returns such a handle for
every handle it is given (`substWithin_spec`), because its budget, the pool's size when the
call starts, exceeds the rank of every handle of the starting pool.

For deep resolution the substitution is empty, so the result stands for the same type as the
handle and has no link below it; two such results are equal exactly when the types are.
-/
namespace TagML

namespace Pool

/-! ## Pools that only grow -/

/-- `q` extends `p` by new items and new variables: what `p` had keeps its place, flag, link
and item. -/
structure Grows (p q : Pool) : Prop where
  size_le : p.size ≤ q.size
  varCount_le : p.varCount ≤ q.varCount
  item_eq : ∀ i : Idx, i.raw < p.size → q.item i = p.item i
  hasVars_eq : ∀ i : Idx, i.raw < p.size → q.hasVars i = p.hasVars i
  target?_eq : ∀ v, v < p.varCount → q.target? v = p.target? v
  varItem?_eq : ∀ v, v < p.varCount → q.varItem? v = p.varItem? v
  /-- The variables allocated since are unbound. -/
  target?_new : ∀ v, p.varCount ≤ v → q.target? v = none

namespace Grows

variable {p q r : Pool}

protected theorem refl (p : Pool) : p.Grows p :=
  ⟨Nat.le_refl _, Nat.le_refl _, fun _ _ => rfl, fun _ _ => rfl, fun _ _ => rfl, fun _ _ => rfl,
    fun _ hv => target?_of_le p hv⟩

protected theorem trans (h₁ : p.Grows q) (h₂ : q.Grows r) : p.Grows r where
  size_le := Nat.le_trans h₁.size_le h₂.size_le
  varCount_le := Nat.le_trans h₁.varCount_le h₂.varCount_le
  item_eq i hi := (h₂.item_eq i (Nat.lt_of_lt_of_le hi h₁.size_le)).trans (h₁.item_eq i hi)
  hasVars_eq i hi :=
    (h₂.hasVars_eq i (Nat.lt_of_lt_of_le hi h₁.size_le)).trans (h₁.hasVars_eq i hi)
  target?_eq v hv :=
    (h₂.target?_eq v (Nat.lt_of_lt_of_le hv h₁.varCount_le)).trans (h₁.target?_eq v hv)
  varItem?_eq v hv :=
    (h₂.varItem?_eq v (Nat.lt_of_lt_of_le hv h₁.varCount_le)).trans (h₁.varItem?_eq v hv)
  target?_new v hv := by
    rcases Nat.lt_or_ge v q.varCount with hq | hq
    · rw [h₂.target?_eq v hq]
      exact h₁.target?_new v hv
    · exact h₂.target?_new v hq

/-- A handle of `p` has the same successors in `q`. -/
theorem succ_iff (hp : p.WF) (hg : p.Grows q) {i j : Idx} (hi : i.raw < p.size) :
    q.Succ i j ↔ p.Succ i j := by
  cases hit : p.item i with
  | var w =>
    have hw := hp.varCount_of_item hi hit
    rw [succ_of_var hit, succ_of_var ((hg.item_eq i hi).trans hit), hg.target?_eq w hw]
  | prim _ | fn _ _ | user _ _ =>
    unfold Succ
    rw [hg.item_eq i hi, hit]
    simp

/-- What is reachable from a handle of `p` is reached the same way in `q`. -/
theorem reach_iff (hp : p.WF) (hg : p.Grows q) {i j : Idx} (hi : i.raw < p.size) :
    Relation.ReflTransGen q.Succ i j ↔ Relation.ReflTransGen p.Succ i j := by
  constructor
  · intro hr
    induction hr with
    | refl => exact .refl
    | tail _ hs ih => exact ih.tail ((hg.succ_iff hp (lt_size_of_reach hp hi ih)).1 hs)
  · intro hr
    induction hr with
    | refl => exact .refl
    | tail hr hs ih => exact ih.tail ((hg.succ_iff hp (lt_size_of_reach hp hi hr)).2 hs)

theorem settled_iff (hp : p.WF) (hg : p.Grows q) {i : Idx} (hi : i.raw < p.size) :
    q.Settled i ↔ p.Settled i := by
  unfold Settled
  rw [hg.item_eq i hi]
  exact forall_congr' fun w => imp_congr_right fun hw =>
    by rw [hg.target?_eq w (hp.varCount_of_item hi hw)]

theorem resolved_iff (hp : p.WF) (hg : p.Grows q) {i : Idx} (hi : i.raw < p.size) :
    q.Resolved i ↔ p.Resolved i := by
  unfold Resolved
  refine forall_congr' fun j => ?_
  constructor
  · intro hj hr
    exact (hg.settled_iff hp (lt_size_of_reach hp hi hr)).1 (hj ((hg.reach_iff hp hi).2 hr))
  · intro hj hr
    have hr' := (hg.reach_iff hp hi).1 hr
    exact (hg.settled_iff hp (lt_size_of_reach hp hi hr')).2 (hj hr')

theorem resolve_eq (hp : p.WF) (hq : q.WF) (hg : p.Grows q) {i : Idx} (hi : i.raw < p.size) :
    q.resolve i = p.resolve i := by
  -- the chain of `p` from `i` is a chain of `q`, and ends at a handle settled in both
  have hchain : ∀ {j}, Relation.ReflTransGen p.LinkStep i j → Relation.ReflTransGen q.LinkStep i j := by
    intro j hc
    induction hc with
    | refl => exact .refl
    | tail hc hs ih =>
      have hk := lt_size_of_reach hp hi
        (Relation.ReflTransGen.mono (fun _ _ h => LinkStep.succ h) _ _ hc)
      obtain ⟨w, hw, ht⟩ := hs
      refine ih.tail ⟨w, (hg.item_eq _ hk).trans hw, ?_⟩
      rw [hg.target?_eq w (hp.varCount_of_item hk hw)]
      exact ht
  have hend := resolve_lt_size hp hi
  exact resolve_eq_of hq (hchain (resolve_spec hp i).1)
    ((hg.settled_iff hp hend).2 (resolve_spec hp i).2)

theorem term_eq (hp : p.WF) (hq : q.WF) (hg : p.Grows q) {i : Idx} (hi : i.raw < p.size) :
    q.term i = p.term i := by
  refine hp.induction (motive := fun i => i.raw < p.size → q.term i = p.term i)
    (fun i ih hi => ?_) i hi
  have below : ∀ {j}, p.Succ i j → q.term j = p.term j := fun hs =>
    ih _ hs (hp.closed _ _ hs)
  have hit := hg.item_eq i hi
  cases hpi : p.item i with
  | prim _ => rw [term_of_prim hp hpi, term_of_prim hq (hit.trans hpi)]
  | var w =>
    have htw := hg.target?_eq w (hp.varCount_of_item hi hpi)
    cases ht : p.target? w with
    | none => rw [term_of_unbound hp hpi ht, term_of_unbound hq (hit.trans hpi) (htw.trans ht)]
    | some t =>
      rw [term_of_link hp hpi ht, term_of_link hq (hit.trans hpi) (htw.trans ht),
        below ((succ_of_var hpi).2 ht)]
  | fn a r =>
    rw [term_of_fn hp hpi, term_of_fn hq (hit.trans hpi), below ((succ_of_fn hpi).2 (Or.inl rfl)),
      below ((succ_of_fn hpi).2 (Or.inr rfl))]
  | user name args =>
    rw [term_of_user hp hpi, term_of_user hq (hit.trans hpi)]
    exact congrArg _ (List.map_congr_left fun a ha => below ((succ_of_user hpi).2 ha))

end Grows

variable {p : Pool}

theorem grows_intern (h : p.WF) (it : Item) : p.Grows (p.intern it).2 := by
  cases hmem : p.interned[it]? with
  | some i =>
    rw [p.intern_of_mem hmem]
    exact Grows.refl p
  | none =>
    rw [p.intern_of_not_mem hmem]
    -- the new item lands past the end; `interned` is read by none of the fields compared
    set f := it.parts.any p.hasVars
    refine ⟨?_, ?_, fun i hi => ?_, fun i hi => ?_, fun v _ => ?_, fun v _ => ?_, fun v hv => ?_⟩
    · show p.size ≤ (p.push it f).2.size
      simp
    · exact Nat.le_of_eq (varCount_push p it f).symm
    · show (p.push it f).2.item i = p.item i
      rw [item_push, if_neg (Nat.ne_of_lt hi)]
    · show (p.push it f).2.hasVars i = p.hasVars i
      rw [hasVars_push, h.flags_size, if_neg (Nat.ne_of_lt hi)]
    · exact target?_push p it f v
    · exact varItem?_push p it f v
    · exact (target?_push p it f v).trans (target?_of_le p hv)

theorem grows_fresh (h : p.WF) : p.Grows p.fresh.2 where
  size_le := by simp
  varCount_le := by simp
  item_eq i hi := by rw [item_fresh, if_neg (Nat.ne_of_lt hi)]
  hasVars_eq i hi := by rw [hasVars_fresh, h.flags_size, if_neg (Nat.ne_of_lt hi)]
  target?_eq v _ := target?_fresh p v
  varItem?_eq v hv := by rw [varItem?_fresh, h.varItems_size, if_neg (Nat.ne_of_lt hv)]
  target?_new v hv := (target?_fresh p v).trans (target?_of_le p hv)

/-! ## The rewrite of one handle -/

/-- The type a substitution of handles for variable ids gives each variable: the first handle
paired with it, written out, or else the variable itself. -/
def image (p : Pool) (σ : List (Nat × Idx)) (v : Nat) : Term :=
  match σ.lookup v with
  | some j => p.term j
  | none => .var v

/-- Every handle `σ` substitutes is a handle of `p` with nothing linked below it. -/
def ResolvedImages (p : Pool) (σ : List (Nat × Idx)) : Prop :=
  ∀ v j, σ.lookup v = some j → j.raw < p.size ∧ p.Resolved j

/-- `out` is a handle of `q` with nothing linked below it, standing for what `i` stands for in
`p` with `σ` applied. -/
def Rewritten (p : Pool) (σ : List (Nat × Idx)) (q : Pool) (i out : Idx) : Prop :=
  out.raw < q.size ∧ q.Resolved out ∧ q.term out = (p.term i).subst (p.image σ)

theorem Rewritten.grows {σ : List (Nat × Idx)} {q q' : Pool} {i out : Idx} (hq : q.WF)
    (hq' : q'.WF) (hg : q.Grows q') (hr : p.Rewritten σ q i out) : p.Rewritten σ q' i out :=
  ⟨Nat.lt_of_lt_of_le hr.1 hg.size_le, (hg.resolved_iff hq hr.1).2 hr.2.1,
    (hg.term_eq hq hq' hr.1).trans hr.2.2⟩

end Pool

namespace Rewrite

variable {p : Pool} {σ : List (Nat × Idx)}

/-- The invariant of a pass started on `p`: the pool is well formed and extends `p`, and each
remembered rewrite is a rewrite of its key, a handle of `p`. -/
structure Inv (p : Pool) (σ : List (Nat × Idx)) (st : Rewrite) : Prop where
  wf : st.pool.WF
  grows : p.Grows st.pool
  done : ∀ i out, st.done[i]? = some out → i.raw < p.size ∧ p.Rewritten σ st.pool i out

/-- What a step of the pass from state `st` to the result `r` achieves for handle `i`: the
invariant holds after it, the pool only grew, and the value returned rewrites `i`. -/
def Post (p : Pool) (σ : List (Nat × Idx)) (st : Rewrite) (i : Idx) (r : Idx × Rewrite) : Prop :=
  r.2.Inv p σ ∧ st.pool.Grows r.2.pool ∧ p.Rewritten σ r.2.pool i r.1

theorem Inv.start (h : p.WF) : Inv p σ { pool := p } where
  wf := h
  grows := Pool.Grows.refl p
  done i out hd := by simp at hd

theorem run_bind {α β : Type} (x : RewriteM α) (f : α → RewriteM β) (st : Rewrite) :
    (x >>= f).run st = (f (x.run st).1).run (x.run st).2 := rfl

theorem run_pure {α : Type} (a : α) (st : Rewrite) : (pure a : RewriteM α).run st = (a, st) := rfl

theorem build_run (it : Item) (st : Rewrite) :
    (build it).run st = ((st.pool.intern it).1, { st with pool := (st.pool.intern it).2 }) := rfl

theorem remember_run (i out : Idx) (st : Rewrite) :
    (remember i out).run st = ((), { st with done := st.done.insert i out }) := rfl

/-- Building a compound from handles of the pass's pool keeps the invariant. -/
theorem Inv.build {st : Rewrite} (hinv : st.Inv p σ) (it : Item) (hc : it.isCompound = true)
    (hparts : ∀ j ∈ it.parts, j.raw < st.pool.size) :
    ({ st with pool := (st.pool.intern it).2 } : Rewrite).Inv p σ ∧
      st.pool.Grows (st.pool.intern it).2 := by
  have hq := hinv.wf.intern hc hparts
  have hg := Pool.grows_intern hinv.wf it
  exact ⟨⟨hq, hinv.grows.trans hg, fun i out hd =>
    ⟨(hinv.done i out hd).1, (hinv.done i out hd).2.grows hinv.wf hq hg⟩⟩, hg⟩

/-- Remembering a rewrite of a handle of `p` keeps the invariant. -/
theorem Inv.remember {st : Rewrite} (hinv : st.Inv p σ) {i out : Idx} (hi : i.raw < p.size)
    (hr : p.Rewritten σ st.pool i out) :
    ({ st with done := st.done.insert i out } : Rewrite).Inv p σ where
  wf := hinv.wf
  grows := hinv.grows
  done j o hd := by
    rw [Std.HashMap.getElem?_insert] at hd
    split at hd
    · next hij =>
      cases hd
      obtain rfl := eq_of_beq hij
      exact ⟨hi, hr⟩
    · exact hinv.done j o hd

/-- What a pass over a list achieves: the invariant holds after it, the pool only grew, and the
values returned rewrite the list's handles, one for one. -/
def PostAll (p : Pool) (σ : List (Nat × Idx)) (st : Rewrite) (is : List Idx)
    (r : List Idx × Rewrite) : Prop :=
  r.2.Inv p σ ∧ st.pool.Grows r.2.pool ∧ List.Forall₂ (p.Rewritten σ r.2.pool) is r.1

/-- A pass over a list, element by element, keeps the invariant and only grows the pool, and
it relates each element to its result as each step does, read in the final pool: for any
relation that survives the pool growing. -/
theorem mapM_forall₂ {α β : Type} {f : α → RewriteM β} {P : α → Prop} {R : Pool → α → β → Prop}
    (hR : ∀ {q q' : Pool} {a : α} {b : β}, q.WF → q'.WF → q.Grows q' → R q a b → R q' a b)
    (hf : ∀ a st, st.Inv p σ → P a →
      ((f a).run st).2.Inv p σ ∧ st.pool.Grows ((f a).run st).2.pool ∧
        R ((f a).run st).2.pool a ((f a).run st).1) :
    ∀ (as : List α) (st : Rewrite), st.Inv p σ → (∀ a ∈ as, P a) →
      ((as.mapM f).run st).2.Inv p σ ∧ st.pool.Grows ((as.mapM f).run st).2.pool ∧
        List.Forall₂ (R ((as.mapM f).run st).2.pool) as ((as.mapM f).run st).1
  | [], _, hinv, _ => ⟨hinv, Pool.Grows.refl _, List.Forall₂.nil⟩
  | a :: as, st, hinv, hP => by
    rw [List.mapM_cons]
    simp only [run_bind, run_pure]
    obtain ⟨hinv₁, hg₁, hr₁⟩ := hf a st hinv (hP a List.mem_cons_self)
    generalize (f a).run st = r₁ at hinv₁ hg₁ hr₁ ⊢
    obtain ⟨hinv₂, hg₂, hall⟩ :=
      mapM_forall₂ (R := R) hR hf as r₁.2 hinv₁ (fun b hb => hP b (List.mem_cons_of_mem a hb))
    generalize (as.mapM f).run r₁.2 = r₂ at hinv₂ hg₂ hall ⊢
    exact ⟨hinv₂, hg₁.trans hg₂, List.Forall₂.cons (hR hinv₁.wf hinv₂.wf hg₂ hr₁) hall⟩

/-- Rewriting a list handle by handle achieves `PostAll` when each step achieves `Post`. -/
theorem mapM_spec {f : Idx → RewriteM Idx} {P : Idx → Prop}
    (hf : ∀ i st, st.Inv p σ → P i → Post p σ st i ((f i).run st)) :
    ∀ (is : List Idx) (st : Rewrite), st.Inv p σ → (∀ i ∈ is, P i) →
      PostAll p σ st is ((is.mapM f).run st) :=
  mapM_forall₂ (fun hq hq' hg hr => hr.grows hq hq' hg) hf

/-- The rewrites of a list are handles of the pool with nothing linked below them. -/
theorem forall₂_rewritten_mem {q : Pool} :
    ∀ {is outs : List Idx}, List.Forall₂ (p.Rewritten σ q) is outs →
      ∀ o ∈ outs, o.raw < q.size ∧ q.Resolved o
  | _, _, List.Forall₂.nil => fun _ ho => absurd ho List.not_mem_nil
  | _, _, List.Forall₂.cons hr hall => fun o ho => by
    rcases List.mem_cons.1 ho with rfl | ho
    · exact ⟨hr.1, hr.2.1⟩
    · exact forall₂_rewritten_mem hall o ho

private theorem map_term_of_forall₂ {q : Pool} :
    ∀ {is outs : List Idx}, List.Forall₂ (p.Rewritten σ q) is outs →
      outs.map q.term = is.map (fun i => (p.term i).subst (p.image σ))
  | _, _, List.Forall₂.nil => rfl
  | _, _, List.Forall₂.cons hr hall => by
    rw [List.map_cons, List.map_cons, hr.2.2, map_term_of_forall₂ hall]

end Rewrite

namespace Pool

variable {p q : Pool} {σ : List (Nat × Idx)}

/-- `Rewritten` depends on the handle only through the type it stands for. -/
theorem Rewritten.of_resolve (h : p.WF) {i out : Idx} (hr : p.Rewritten σ q (p.resolve i) out) :
    p.Rewritten σ q i out := by
  rw [Rewritten, ← term_resolve h i]
  exact hr

/-- A handle with no variable item below it is its own rewrite. -/
theorem rewritten_self (h : p.WF) (hq : q.WF) (hg : p.Grows q) {i : Idx} (hi : i.raw < p.size)
    (hf : p.hasVars i = false) : p.Rewritten σ q i i :=
  ⟨Nat.lt_of_lt_of_le hi hg.size_le, (hg.resolved_iff h hi).2 (resolved_of_hasVars_false h hf),
    (hg.term_eq h hq hi).trans (subst_term_of_hasVars_false h hf _).symm⟩

/-- Nothing is linked below an unbound variable's item. -/
theorem resolved_of_unbound {i : Idx} {v : Nat} (hit : p.item i = .var v)
    (hv : p.target? v = none) : p.Resolved i :=
  Resolved.of_forall_succ (fun w hw => by
    rw [hit] at hw
    cases hw
    exact hv) (fun j hs => absurd ((succ_of_var hit).1 hs) (by rw [hv]; exact nofun))

/-- An unbound variable is rewritten to its image, or to itself when `σ` names none. -/
theorem rewritten_var (h : p.WF) (hq : q.WF) (hg : p.Grows q) (hσ : p.ResolvedImages σ)
    {i : Idx} {v : Nat} (hi : i.raw < p.size) (hit : p.item i = .var v)
    (hv : p.target? v = none) : p.Rewritten σ q i ((σ.lookup v).getD i) := by
  rw [Rewritten, term_of_unbound h hit hv, Term.subst_var, image]
  cases hl : σ.lookup v with
  | some j =>
    obtain ⟨hj, hrj⟩ := hσ v j hl
    exact ⟨Nat.lt_of_lt_of_le hj hg.size_le, (hg.resolved_iff h hj).2 hrj, hg.term_eq h hq hj⟩
  | none =>
    exact ⟨Nat.lt_of_lt_of_le hi hg.size_le, (hg.resolved_iff h hi).2 (resolved_of_unbound hit hv),
      (hg.term_eq h hq hi).trans (term_of_unbound h hit hv)⟩

/-- A compound built from resolved parts is resolved. -/
theorem resolved_intern (hq : q.WF) {it : Item} (hc : it.isCompound = true)
    (hparts : ∀ j ∈ it.parts, j.raw < q.size ∧ q.Resolved j) :
    (q.intern it).2.Resolved (q.intern it).1 := by
  have hg := grows_intern hq it
  obtain ⟨-, hitx⟩ := hq.intern_fst it
  refine Resolved.of_forall_succ (fun w hw => ?_) (fun j hs => ?_)
  · rw [hitx] at hw
    subst hw
    cases hc
  · have hj : j ∈ it.parts := by
      rcases hs with hs | ⟨w, hw, _⟩
      · rwa [hitx] at hs
      · rw [hitx] at hw
        subst hw
        cases hc
    exact (hg.resolved_iff hq (hparts j hj).1).2 (hparts j hj).2

/-- A compound built from rewrites of the parts of a compound is a rewrite of it. -/
theorem rewritten_intern (hq : q.WF) {i : Idx} {it' : Item}
    (hc : it'.isCompound = true) (hparts : ∀ j ∈ it'.parts, j.raw < q.size ∧ q.Resolved j)
    (hterm : (q.intern it').2.term (q.intern it').1 = (p.term i).subst (p.image σ)) :
    p.Rewritten σ (q.intern it').2 i (q.intern it').1 :=
  ⟨(hq.intern_fst it').1, resolved_intern hq hc hparts, hterm⟩

end Pool

namespace Rewrite

variable {p : Pool} {σ : List (Nat × Idx)}

theorem substWithin_spec (h : p.WF) (hσ : p.ResolvedImages σ) :
    ∀ (n : Nat) (i : Idx) (st : Rewrite), st.Inv p σ → i.raw < p.size → p.rank i < n →
      Post p σ st i ((substWithin σ n i).run st)
  | 0, _, _, _, _, hn => absurd hn (Nat.not_lt_zero _)
  | n + 1, i, st, hinv, hi, hn => by
    have hq := hinv.wf
    have hg := hinv.grows
    have hi' := Pool.resolve_lt_size h hi
    have hri := Pool.rank_resolve_le h i
    rw [substWithin]
    simp only [StateT.run_bind, StateT.run_get, pure_bind]
    simp only [hg.hasVars_eq i hi, hg.resolve_eq h hq hi, hg.hasVars_eq _ hi', hg.item_eq _ hi']
    split
    · next hf =>
      rw [Bool.not_eq_true'] at hf
      exact ⟨hinv, Pool.Grows.refl _, Pool.rewritten_self h hq hg hi hf⟩
    split
    · next _ hf =>
      exact ⟨hinv, Pool.Grows.refl _,
        (Pool.rewritten_self h hq hg hi' (by simpa using hf)).of_resolve h⟩
    split
    · next out hd =>
      exact ⟨hinv, Pool.Grows.refl _, ((hinv.done _ out hd).2).of_resolve h⟩
    · next hd =>
      -- the resolved handle's item decides; its parts lie below it, at lower rank
      have below : ∀ {j}, p.Succ (p.resolve i) j → j.raw < p.size ∧ p.rank j < n := fun hs =>
        ⟨h.closed _ _ hs, by have := h.rank_lt_of_succ hs; omega⟩
      split
      · next v hit =>
        simp only [run_bind, remember_run, run_pure]
        have hr := Pool.rewritten_var h hq hg hσ hi' hit (Pool.target?_resolve h hit) (σ := σ)
        exact ⟨hinv.remember hi' hr, Pool.Grows.refl _, hr.of_resolve h⟩
      · next a r hit =>
        simp only [run_bind, build_run, remember_run, run_pure]
        have ha := below ((Pool.succ_of_fn hit).2 (Or.inl rfl))
        have hr := below ((Pool.succ_of_fn hit).2 (Or.inr rfl))
        obtain ⟨hinv₁, hg₁, hr₁⟩ := substWithin_spec h hσ n a st hinv ha.1 ha.2
        generalize (substWithin σ n a).run st = r₁ at hinv₁ hg₁ hr₁ ⊢
        obtain ⟨hinv₂, hg₂, hr₂⟩ := substWithin_spec h hσ n r r₁.2 hinv₁ hr.1 hr.2
        generalize (substWithin σ n r).run r₁.2 = r₂ at hinv₂ hg₂ hr₂ ⊢
        replace hr₁ := hr₁.grows hinv₁.wf hinv₂.wf hg₂
        have hparts : ∀ j ∈ (Item.fn r₁.1 r₂.1).parts, j.raw < r₂.2.pool.size ∧
            r₂.2.pool.Resolved j := by
          simp only [Item.parts, List.mem_cons, List.not_mem_nil, or_false]
          rintro j (rfl | rfl)
          exacts [⟨hr₁.1, hr₁.2.1⟩, ⟨hr₂.1, hr₂.2.1⟩]
        obtain ⟨hinv₃, hg₃⟩ := hinv₂.build (.fn r₁.1 r₂.1) rfl (fun j hj => (hparts j hj).1)
        have hout := Pool.rewritten_intern hinv₂.wf (i := p.resolve i) rfl hparts (by
          have hx := hinv₂.wf.intern_fst (.fn r₁.1 r₂.1)
          rw [Pool.term_of_fn hinv₃.wf hx.2, hg₃.term_eq hinv₂.wf hinv₃.wf hr₁.1,
            hg₃.term_eq hinv₂.wf hinv₃.wf hr₂.1, hr₁.2.2, hr₂.2.2, Pool.term_of_fn h hit,
            Term.subst_fn])
        exact ⟨hinv₃.remember hi' hout, hg₁.trans (hg₂.trans hg₃), hout.of_resolve h⟩
      · next name args hit =>
        simp only [run_bind, build_run, remember_run, run_pure]
        obtain ⟨hinv₁, hg₁, hall⟩ := mapM_spec (P := fun j => j.raw < p.size ∧ p.rank j < n)
          (fun j st hinv hj => substWithin_spec h hσ n j st hinv hj.1 hj.2) args st hinv
          (fun j hj => below ((Pool.succ_of_user hit).2 hj))
        generalize (args.mapM fun a => substWithin σ n a).run st = r₁ at hinv₁ hg₁ hall ⊢
        have hparts : ∀ j ∈ (Item.user name r₁.1).parts, j.raw < r₁.2.pool.size ∧
            r₁.2.pool.Resolved j := forall₂_rewritten_mem hall
        obtain ⟨hinv₂, hg₂⟩ := hinv₁.build (.user name r₁.1) rfl (fun j hj => (hparts j hj).1)
        have hout := Pool.rewritten_intern hinv₁.wf (σ := σ) (i := p.resolve i) rfl hparts (by
          have hx := hinv₁.wf.intern_fst (.user name r₁.1)
          rw [Pool.term_of_user hinv₂.wf hx.2, Pool.term_of_user h hit, Term.subst_user,
            List.map_map]
          refine congrArg _ ((List.map_congr_left fun j hj => ?_).trans (map_term_of_forall₂ hall))
          exact hg₂.term_eq hinv₁.wf hinv₂.wf (hparts j hj).1)
        exact ⟨hinv₂.remember hi' hout, hg₁.trans hg₂, hout.of_resolve h⟩
      · next q hit =>
        -- a primitive has no variable below it, so the walk stopped before
        have hf := h.hasVars_eq _ hi'
        rw [hit] at hf
        simp_all [Item.isVar, Item.parts]

/-- A call of `substitute` within a pass rewrites any handle of the pool the pass started
on: its budget, the current pool's size, exceeds the handle's rank. -/
theorem substitute_spec (h : p.WF) (hσ : p.ResolvedImages σ) {i : Idx} {st : Rewrite}
    (hinv : st.Inv p σ) (hi : i.raw < p.size) : Post p σ st i ((substitute σ i).run st) :=
  substWithin_spec h hσ _ i st hinv hi
    (Nat.lt_of_lt_of_le (h.rank_lt i) hinv.grows.size_le)

end Rewrite

namespace Pool

variable {p : Pool} {σ : List (Nat × Idx)}

/-- Substitution returns, in a well-formed pool that extends the old one, a handle with
nothing linked below it standing for the old handle's type with `σ` applied. -/
theorem substitute_spec (h : p.WF) (hσ : p.ResolvedImages σ) {i : Idx} (hi : i.raw < p.size) :
    (p.substitute σ i).2.WF ∧ p.Grows (p.substitute σ i).2 ∧
      p.Rewritten σ (p.substitute σ i).2 i (p.substitute σ i).1 := by
  obtain ⟨hinv, hg, hr⟩ := Rewrite.substitute_spec h hσ (Rewrite.Inv.start h) hi
  exact ⟨hinv.wf, hg, hr⟩

/-- Substitution over a list in one pass rewrites each handle. -/
theorem substituteAll_spec (h : p.WF) (hσ : p.ResolvedImages σ) {is : List Idx}
    (his : ∀ i ∈ is, i.raw < p.size) :
    (p.substituteAll σ is).2.WF ∧ p.Grows (p.substituteAll σ is).2 ∧
      List.Forall₂ (p.Rewritten σ (p.substituteAll σ is).2) is (p.substituteAll σ is).1 := by
  obtain ⟨hinv, hg, hr⟩ := Rewrite.mapM_spec (P := fun i => i.raw < p.size)
    (fun i st hinv hi => Rewrite.substitute_spec h hσ hinv hi) is _ (Rewrite.Inv.start h) his
  exact ⟨hinv.wf, hg, hr⟩

theorem resolvedImages_nil (p : Pool) : p.ResolvedImages [] := fun _ _ hl => by cases hl

@[simp] theorem image_nil (p : Pool) : p.image [] = .var := rfl

/-- Deep resolution returns, in a well-formed pool that extends the old one, a handle with
nothing linked below it standing for the same type. -/
theorem resolveDeep_spec (h : p.WF) {i : Idx} (hi : i.raw < p.size) :
    (p.resolveDeep i).2.WF ∧ p.Grows (p.resolveDeep i).2 ∧
      (p.resolveDeep i).1.raw < (p.resolveDeep i).2.size ∧
      (p.resolveDeep i).2.Resolved (p.resolveDeep i).1 ∧
      (p.resolveDeep i).2.term (p.resolveDeep i).1 = p.term i := by
  obtain ⟨hq, hg, hout, hres, hterm⟩ := substitute_spec h (resolvedImages_nil p) hi
  rw [image_nil, Term.subst_var_self] at hterm
  exact ⟨hq, hg, hout, hres, hterm⟩

end Pool

end TagML
