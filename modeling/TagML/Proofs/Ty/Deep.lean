import Mathlib.Data.Finset.Sort
import TagML.Proofs.Reachable
import TagML.Proofs.Ty.Footprint
import TagML.Proofs.Pool.Print

/-!
Deep resolution is canonical, and printing agrees with it.

Deep resolution rebuilds a type with every link followed.  Its result has nothing linked below
it and stands for the same type, so it has the same free variables; and since the pool
hash-conses, a handle with nothing linked below it is the only such handle for its type.  The
rewrite of a handle is therefore fixed by the type the handle stands for.  A walk that meets a
handle whose rewrite is already built returns that rewrite and builds nothing
(`Rewrite.substWithin_of_rewritten`), so a walk returns and builds what a walk with any other
memo table or budget, over any handle standing for the same type, does
(`Rewrite.substWithin_congr`): deep resolution is a function of the type
(`Pool.resolveDeep_eq_of_term_eq`).  Deep resolution of its own result then changes nothing, and
resolving a list in one pass, with one memo table shared across the list, gives the handles and
the pool that resolving the types one after another gives (`Pool.resolveDeep_canonical`).

Printing follows links too, and parenthesises a function's argument by what the argument
resolves to.  Both views print the type a handle stands for, so a handle prints as its deep
resolution does, the two sides of a successful unification print alike, and a scheme prints its
quantified ids in ascending order before its body (`Pool.render_sees_through_links`).
-/
namespace TagML

/-! ## Free variables come in ascending order -/

namespace VarSet

theorem insert_pairwise {v : Nat} :
    ∀ {l : List Nat}, l.Pairwise (· < ·) → (VarSet.insert v l).Pairwise (· < ·)
  | [], _ => List.pairwise_singleton _ _
  | w :: ws, h => by
    rw [List.pairwise_cons] at h
    unfold VarSet.insert
    split
    · next hvw =>
      refine List.Pairwise.cons (fun u hu => ?_) (List.Pairwise.cons h.1 h.2)
      rcases List.mem_cons.1 hu with rfl | hu
      exacts [hvw, Nat.lt_trans hvw (h.1 u hu)]
    · split
      · exact List.Pairwise.cons h.1 h.2
      · next hvw hne =>
        refine List.Pairwise.cons (fun u hu => ?_) (insert_pairwise h.2)
        rcases (mem_insert ws).1 hu with rfl | hu
        exacts [by omega, h.1 u hu]

end VarSet

namespace Pool

variable {p q : Pool}

theorem freeVarsWithin_pairwise (p : Pool) :
    ∀ (n : Nat) (acc : List Nat) (i : Idx), acc.Pairwise (· < ·) →
      (p.freeVarsWithin n acc i).Pairwise (· < ·)
  | 0, _, _, h => h
  | n + 1, acc, i, h => by
    unfold freeVarsWithin
    split
    · exact h
    split
    · next w _ =>
      split
      · exact freeVarsWithin_pairwise p n _ _ h
      · exact VarSet.insert_pairwise h
    · exact freeVarsWithin_pairwise p n _ _ (freeVarsWithin_pairwise p n _ _ h)
    · next _ args hit =>
      -- the fold over the arguments keeps the accumulator ascending
      clear hit
      induction args generalizing acc with
      | nil => exact h
      | cons a args ih => exact ih _ (freeVarsWithin_pairwise p n _ _ h)
    · exact h

/-- The free variables of a type are listed in ascending order. -/
theorem freeVars_pairwise (p : Pool) (i : Idx) : (p.freeVars i).Pairwise (· < ·) :=
  p.freeVarsWithin_pairwise _ [] i List.Pairwise.nil

/-- Two types with the same variables list the same free variables. -/
theorem freeVars_eq_of_vars (hp : p.WF) (hq : q.WF) {i j : Idx}
    (he : ∀ v, v ∈ (q.term j).vars ↔ v ∈ (p.term i).vars) : q.freeVars j = p.freeVars i :=
  (q.freeVars_pairwise j).eq_of_mem_iff (p.freeVars_pairwise i) fun v => by
    rw [mem_freeVars hq, mem_freeVars hp, he v]

/-! ## Rewrites are unique -/

variable {σ : List (Nat × Idx)}

/-- Two rewrites of one handle in one pool are one handle. -/
theorem Rewritten.unique (hq : q.WF) {i o₁ o₂ : Idx} (h₁ : p.Rewritten σ q i o₁)
    (h₂ : p.Rewritten σ q i o₂) : o₁ = o₂ :=
  eq_of_term_eq hq h₁.1 h₂.1 h₁.2.1 h₂.2.1 (h₁.2.2.trans h₂.2.2.symm)

/-- The rewrite of a function type is a function type of the rewrites of its parts. -/
theorem Rewritten.fn_parts (hp : p.WF) (hq : q.WF) {j a r out : Idx} (hit : p.item j = .fn a r)
    (hout : p.Rewritten σ q j out) :
    ∃ x y, q.item out = .fn x y ∧ p.Rewritten σ q a x ∧ p.Rewritten σ q r y := by
  have ht := hout.2.2
  rw [term_of_fn hp hit, Term.subst_fn] at ht
  rcases term_resolved_cases hq hout.2.1 with ⟨_, -, ho⟩ | ⟨_, -, ho⟩ | ⟨x, y, hox, ho⟩ |
      ⟨_, _, -, ho⟩ <;> rw [ho] at ht <;> try cases ht
  obtain ⟨hx, hy⟩ := Term.fn.inj ht
  have hsx : q.Succ out x := (succ_of_fn hox).2 (Or.inl rfl)
  have hsy : q.Succ out y := (succ_of_fn hox).2 (Or.inr rfl)
  exact ⟨x, y, hox, ⟨hq.closed _ _ hsx, hout.2.1.of_succ hsx, hx⟩,
    ⟨hq.closed _ _ hsy, hout.2.1.of_succ hsy, hy⟩⟩

/-- The rewrite of a user type is the user type of the same name over the rewrites of its
arguments. -/
theorem Rewritten.user_parts (hp : p.WF) (hq : q.WF) {j out : Idx} {name : String}
    {args : List Idx} (hit : p.item j = .user name args) (hout : p.Rewritten σ q j out) :
    ∃ xs, q.item out = .user name xs ∧ List.Forall₂ (p.Rewritten σ q) args xs := by
  have ht := hout.2.2
  rw [term_of_user hp hit, Term.subst_user] at ht
  rcases term_resolved_cases hq hout.2.1 with ⟨_, -, ho⟩ | ⟨_, -, ho⟩ | ⟨_, _, -, ho⟩ |
      ⟨name', xs, hox, ho⟩ <;> rw [ho] at ht <;> try cases ht
  obtain ⟨rfl, hxs⟩ := Term.user.inj ht
  refine ⟨xs, hox, ?_⟩
  -- the argument lists stand for the same types, one for one
  have hall : List.Forall₂ (· = ·) (xs.map q.term) (args.map fun a => (p.term a).subst (p.image σ)) := by
    rw [List.forall₂_eq_eq_eq, hxs, List.map_map]
    rfl
  rw [List.forall₂_map_left_iff, List.forall₂_map_right_iff] at hall
  have hmem : ∀ x ∈ xs, x.raw < q.size ∧ q.Resolved x := fun x hx =>
    have hs : q.Succ out x := (succ_of_user hox).2 hx
    ⟨hq.closed _ _ hs, hout.2.1.of_succ hs⟩
  exact ((List.forall₂_and_left _ _).2 ⟨hmem, hall⟩).flip.imp fun _ _ h => ⟨h.1.1, h.1.2, h.2⟩

/-- A settled handle standing for the type of a function item is a function item whose parts
stand for the same types. -/
theorem Settled.fn_of_term_eq (h : p.WF) {i j a r : Idx} (hs : p.Settled j)
    (hit : p.item i = .fn a r) (he : p.term i = p.term j) :
    ∃ a' r', p.item j = .fn a' r' ∧ p.term a = p.term a' ∧ p.term r = p.term r' := by
  rw [term_of_fn h hit] at he
  cases hjt : p.item j with
  | prim q => rw [term_of_prim h hjt] at he; cases he
  | var w => rw [term_of_unbound h hjt (hs w hjt)] at he; cases he
  | fn a' r' =>
    rw [term_of_fn h hjt] at he
    obtain ⟨ha, hr⟩ := Term.fn.inj he
    exact ⟨a', r', rfl, ha, hr⟩
  | user name args => rw [term_of_user h hjt] at he; cases he

/-- A settled handle standing for the type of a user item is a user item of the same name
whose arguments stand for the same types. -/
theorem Settled.user_of_term_eq (h : p.WF) {i j : Idx} {name : String} {args : List Idx}
    (hs : p.Settled j) (hit : p.item i = .user name args) (he : p.term i = p.term j) :
    ∃ args', p.item j = .user name args' ∧ args.map p.term = args'.map p.term := by
  rw [term_of_user h hit] at he
  cases hjt : p.item j with
  | prim q => rw [term_of_prim h hjt] at he; cases he
  | var w => rw [term_of_unbound h hjt (hs w hjt)] at he; cases he
  | fn a' r' => rw [term_of_fn h hjt] at he; cases he
  | user name' args' =>
    rw [term_of_user h hjt] at he
    obtain ⟨rfl, hargs⟩ := Term.user.inj he
    exact ⟨args', rfl, hargs⟩

end Pool

/-! ## A walk builds only rewrites that are missing -/

namespace Rewrite

variable {p : Pool} {σ : List (Nat × Idx)}

/-- The same pool with nothing remembered. -/
theorem Inv.forget {st : Rewrite} (h : st.Inv p σ) : ({ pool := st.pool } : Rewrite).Inv p σ :=
  ⟨h.wf, h.grows, fun _ _ hd => by simp at hd⟩

/-- A pass over a list whose rewrites are all built returns them and builds nothing, when each
step does so for its element. -/
theorem mapM_of_rewritten {f : Idx → RewriteM Idx} {P : Idx → Prop}
    (hf : ∀ a st out, st.Inv p σ → P a → p.Rewritten σ st.pool a out →
      ((f a).run st).1 = out ∧ ((f a).run st).2.pool = st.pool ∧ ((f a).run st).2.Inv p σ) :
    ∀ (as outs : List Idx) (st : Rewrite), st.Inv p σ → (∀ a ∈ as, P a) →
      List.Forall₂ (p.Rewritten σ st.pool) as outs →
      ((as.mapM f).run st).1 = outs ∧ ((as.mapM f).run st).2.pool = st.pool ∧
        ((as.mapM f).run st).2.Inv p σ
  | [], [], st, hinv, _, _ => ⟨rfl, rfl, hinv⟩
  | a :: as, out :: outs, st, hinv, hP, List.Forall₂.cons ha hall => by
    rw [List.mapM_cons]
    simp only [run_bind, run_pure]
    obtain ⟨h₁, hp₁, hinv₁⟩ := hf a st out hinv (hP a List.mem_cons_self) ha
    generalize (f a).run st = r₁ at h₁ hp₁ hinv₁ ⊢
    obtain ⟨h₂, hp₂, hinv₂⟩ := mapM_of_rewritten hf as outs r₁.2 hinv₁
      (fun b hb => hP b (List.mem_cons_of_mem a hb)) (hp₁ ▸ hall)
    exact ⟨by rw [h₁, h₂], hp₂.trans hp₁, hinv₂⟩

/-- A walk over a handle whose rewrite is already built returns that rewrite and builds
nothing, whatever the memo table holds. -/
theorem substWithin_of_rewritten (h : p.WF) (hσ : p.ResolvedImages σ) :
    ∀ (n : Nat) (i : Idx) (st : Rewrite) (out : Idx), st.Inv p σ → i.raw < p.size →
      p.rank i < n → p.Rewritten σ st.pool i out →
      ((substWithin σ n i).run st).1 = out ∧ ((substWithin σ n i).run st).2.pool = st.pool
  | 0, _, _, _, _, _, hn, _ => absurd hn (Nat.not_lt_zero _)
  | n + 1, i, st, out, hinv, hi, hn, hout => by
    -- one level down, a walk over a built rewrite returns it and keeps the pool and invariant
    have step : ∀ (j : Idx) (st' : Rewrite) (o : Idx), st'.Inv p σ →
        j.raw < p.size ∧ p.rank j < n → p.Rewritten σ st'.pool j o →
        ((substWithin σ n j).run st').1 = o ∧ ((substWithin σ n j).run st').2.pool = st'.pool ∧
          ((substWithin σ n j).run st').2.Inv p σ := fun j st' o hinv' hj ho =>
      ⟨(substWithin_of_rewritten h hσ n j st' o hinv' hj.1 hj.2 ho).1,
        (substWithin_of_rewritten h hσ n j st' o hinv' hj.1 hj.2 ho).2,
        (substWithin_spec h hσ n j st' hinv' hj.1 hj.2).1⟩
    have hq := hinv.wf
    have hg := hinv.grows
    have hi' := Pool.resolve_lt_size h hi
    have hri := Pool.rank_resolve_le h i
    have hout' : p.Rewritten σ st.pool (p.resolve i) out := by
      rw [Pool.Rewritten, Pool.term_resolve h]
      exact hout
    rw [substWithin]
    simp only [StateT.run_bind, StateT.run_get, pure_bind]
    simp only [hg.hasVars_eq i hi, hg.resolve_eq h hq hi, hg.hasVars_eq _ hi', hg.item_eq _ hi']
    split
    · next hf =>
      rw [Bool.not_eq_true'] at hf
      exact ⟨(Pool.rewritten_self h hq hg hi hf).unique hq hout, rfl⟩
    split
    · next _ hf =>
      exact ⟨(Pool.rewritten_self h hq hg hi' (by simpa using hf)).unique hq hout', rfl⟩
    split
    · next o hd => exact ⟨(hinv.done _ o hd).2.unique hq hout', rfl⟩
    · next hd =>
      have below : ∀ {j}, p.Succ (p.resolve i) j → j.raw < p.size ∧ p.rank j < n := fun hs =>
        ⟨h.closed _ _ hs, by have := h.rank_lt_of_succ hs; omega⟩
      split
      · next v hit =>
        simp only [run_bind, remember_run, run_pure]
        exact ⟨(Pool.rewritten_var h hq hg hσ hi' hit (Pool.target?_resolve h hit)).unique hq hout',
          trivial⟩
      · next a r hit =>
        -- the parts' rewrites are the parts of the rewrite, and the compound is found interned
        obtain ⟨x, y, hxy, hx, hy⟩ := hout'.fn_parts h hq hit
        have ha := below ((Pool.succ_of_fn hit).2 (Or.inl rfl))
        have hr := below ((Pool.succ_of_fn hit).2 (Or.inr rfl))
        simp only [run_bind, build_run, remember_run, run_pure]
        obtain ⟨h₁, hp₁, hinv₁⟩ := step a st x hinv ha hx
        generalize (substWithin σ n a).run st = r₁ at h₁ hp₁ hinv₁ ⊢
        obtain ⟨h₂, hp₂, -⟩ := step r r₁.2 y hinv₁ hr (hp₁ ▸ hy)
        generalize (substWithin σ n r).run r₁.2 = r₂ at h₂ hp₂ ⊢
        have hmem : st.pool.interned[Item.fn x y]? = some out :=
          (hq.interned _ out).2 ⟨hout.1, hxy, rfl⟩
        rw [h₁, h₂, hp₂, hp₁, st.pool.intern_of_mem hmem]
        exact ⟨rfl, rfl⟩
      · next name args hit =>
        obtain ⟨xs, hxs, hall⟩ := hout'.user_parts h hq hit
        simp only [run_bind, build_run, remember_run, run_pure]
        obtain ⟨h₁, hp₁, -⟩ := mapM_of_rewritten (P := fun j => j.raw < p.size ∧ p.rank j < n)
          step args xs st hinv (fun j hj => below ((Pool.succ_of_user hit).2 hj)) hall
        generalize (args.mapM fun a => substWithin σ n a).run st = r₁ at h₁ hp₁ ⊢
        have hmem : st.pool.interned[Item.user name xs]? = some out :=
          (hq.interned _ out).2 ⟨hout.1, hxs, rfl⟩
        rw [h₁, hp₁, st.pool.intern_of_mem hmem]
        exact ⟨rfl, rfl⟩
      · next hit =>
        -- a primitive has no variable below it, so the walk stopped before
        have hf := h.hasVars_eq _ hi'
        rw [hit] at hf
        simp_all [Item.isVar, Item.parts]

/-! ## A walk is a function of the type it walks

Two walks over handles that stand for one type, started from states with one pool, return the
same handle and build the same pool, whatever their budgets and memo tables hold.  A rewrite
already built is what both return, building nothing.  Otherwise neither walk takes an early
return, both handles resolve to compound items of one shape whose parts stand for the same
types, and one level down the walks agree again. -/

/-- One level of a walk that finds no early answer: a function type's parts are rewritten and
the compound rebuilt. -/
theorem substWithin_succ_fn {n : Nat} {i a r : Idx} {st : Rewrite}
    (hv : st.pool.hasVars i = true) (hv' : st.pool.hasVars (st.pool.resolve i) = true)
    (hd : st.done[st.pool.resolve i]? = none) (hit : st.pool.item (st.pool.resolve i) = .fn a r) :
    (substWithin σ (n + 1) i).run st =
      (do
        let a ← substWithin σ n a
        let r ← substWithin σ n r
        let out ← build (.fn a r)
        remember (st.pool.resolve i) out
        return out).run st := by
  rw [substWithin]
  simp only [StateT.run_bind, StateT.run_get, pure_bind, hv, hv', hd, hit]
  rfl

/-- One level of a walk that finds no early answer: a user type's arguments are rewritten left
to right and the compound rebuilt. -/
theorem substWithin_succ_user {n : Nat} {i : Idx} {name : String} {args : List Idx}
    {st : Rewrite} (hv : st.pool.hasVars i = true)
    (hv' : st.pool.hasVars (st.pool.resolve i) = true) (hd : st.done[st.pool.resolve i]? = none)
    (hit : st.pool.item (st.pool.resolve i) = .user name args) :
    (substWithin σ (n + 1) i).run st =
      (do
        let args ← args.mapM (fun a => substWithin σ n a)
        let out ← build (.user name args)
        remember (st.pool.resolve i) out
        return out).run st := by
  rw [substWithin]
  simp only [StateT.run_bind, StateT.run_get, pure_bind, hv, hv', hd, hit]
  rfl

/-- A walk over a handle whose rewrite is not built takes no early return: the handle and what it
resolves to have variables below them, nothing is remembered for it, and it resolves to a
compound item. -/
theorem Inv.no_early (h : p.WF) (hσ : p.ResolvedImages σ) {st : Rewrite} (hinv : st.Inv p σ)
    {i : Idx} (hi : i.raw < p.size) (hex : ¬ ∃ out, p.Rewritten σ st.pool i out) :
    st.pool.hasVars i = true ∧ st.pool.hasVars (st.pool.resolve i) = true ∧
      st.done[st.pool.resolve i]? = none ∧
      st.pool.item (st.pool.resolve i) = p.item (p.resolve i) ∧
      (∀ q, p.item (p.resolve i) ≠ .prim q) ∧ ∀ v, p.item (p.resolve i) ≠ .var v := by
  have hq := hinv.wf
  have hg := hinv.grows
  have hi' := Pool.resolve_lt_size h hi
  have hres : st.pool.resolve i = p.resolve i := hg.resolve_eq h hq hi
  have hv : st.pool.hasVars i = true := by
    by_contra hf
    rw [hg.hasVars_eq i hi] at hf
    exact hex ⟨i, Pool.rewritten_self h hq hg hi (by simpa using hf)⟩
  have hv' : p.hasVars (p.resolve i) = true := by
    by_contra hf
    exact hex ⟨_, (Pool.rewritten_self h hq hg hi' (by simpa using hf)).of_resolve h⟩
  refine ⟨hv, by rw [hres, hg.hasVars_eq _ hi']; exact hv', ?_, by rw [hres, hg.item_eq _ hi'],
    fun r hr => ?_, fun v hit => ?_⟩
  · cases hd : st.done[st.pool.resolve i]? with
    | none => rfl
    | some o =>
      rw [hres] at hd
      exact absurd ⟨o, (hinv.done _ o hd).2.of_resolve h⟩ hex
  · -- a primitive has no variable below it
    rw [h.hasVars_eq _ hi', hr] at hv'
    cases hv'
  · exact hex ⟨_, (Pool.rewritten_var h hq hg hσ hi' hit (Pool.target?_resolve h hit)).of_resolve h⟩

/-- Passes over two lists from two states with one pool return and build the same, when each
step does so for the elements the lists pair. -/
theorem mapM_congr {f g : Idx → RewriteM Idx} {P Q : Idx → Prop} {R : Idx → Idx → Prop}
    (hfg : ∀ a b st st', st.Inv p σ → st'.Inv p σ → st.pool = st'.pool → P a → Q b → R a b →
      ((f a).run st).1 = ((g b).run st').1 ∧ ((f a).run st).2.pool = ((g b).run st').2.pool ∧
        ((f a).run st).2.Inv p σ ∧ ((g b).run st').2.Inv p σ)
    {as bs : List Idx} (hall : List.Forall₂ R as bs) :
    (∀ a ∈ as, P a) → (∀ b ∈ bs, Q b) → ∀ (st st' : Rewrite), st.Inv p σ → st'.Inv p σ →
      st.pool = st'.pool →
      ((as.mapM f).run st).1 = ((bs.mapM g).run st').1 ∧
        ((as.mapM f).run st).2.pool = ((bs.mapM g).run st').2.pool := by
  induction hall with
  | nil => exact fun _ _ _ _ _ _ hpool => ⟨rfl, hpool⟩
  | @cons a b as bs hab _ ih =>
    intro hP hQ st st' hinv hinv' hpool
    rw [List.mapM_cons, List.mapM_cons]
    simp only [run_bind, run_pure]
    obtain ⟨he₁, hp₁, hinv₁, hinv₁'⟩ := hfg a b st st' hinv hinv' hpool
      (hP a List.mem_cons_self) (hQ b List.mem_cons_self) hab
    generalize (f a).run st = r₁ at he₁ hp₁ hinv₁ ⊢
    generalize (g b).run st' = r₁' at he₁ hp₁ hinv₁' ⊢
    obtain ⟨he₂, hp₂⟩ := ih (fun a ha => hP a (List.mem_cons_of_mem _ ha))
      (fun b hb => hQ b (List.mem_cons_of_mem _ hb)) r₁.2 r₁'.2 hinv₁ hinv₁' hp₁
    exact ⟨by rw [he₁, he₂], hp₂⟩

/-- Two walks over handles standing for one type, from two states with one pool, return the
same handle and build the same pool, whatever their budgets and memo tables. -/
theorem substWithin_congr (h : p.WF) (hσ : p.ResolvedImages σ) :
    ∀ (n m : Nat) (i j : Idx) (st st' : Rewrite), st.Inv p σ → st'.Inv p σ →
      st.pool = st'.pool → i.raw < p.size → j.raw < p.size → p.rank i < n → p.rank j < m →
      p.term i = p.term j →
      ((substWithin σ n i).run st).1 = ((substWithin σ m j).run st').1 ∧
        ((substWithin σ n i).run st).2.pool = ((substWithin σ m j).run st').2.pool
  | 0, _, _, _, _, _, _, _, _, _, _, hn, _, _ => absurd hn (Nat.not_lt_zero _)
  | _ + 1, 0, _, _, _, _, _, _, _, _, _, _, hm, _ => absurd hm (Nat.not_lt_zero _)
  | n + 1, m + 1, i, j, st, st', hinv, hinv', hpool, hi, hj, hn, hm, he => by
    -- a rewrite already built is what both walks return, and neither builds anything
    by_cases hex : ∃ out, p.Rewritten σ st.pool i out
    · obtain ⟨out, hout⟩ := hex
      have hout' : p.Rewritten σ st'.pool j out := by
        rw [← hpool, Pool.Rewritten, ← he]
        exact hout
      obtain ⟨h₁, h₂⟩ := substWithin_of_rewritten h hσ (n + 1) i st out hinv hi hn hout
      obtain ⟨h₁', h₂'⟩ := substWithin_of_rewritten h hσ (m + 1) j st' out hinv' hj hm hout'
      exact ⟨h₁.trans h₁'.symm, h₂.trans (hpool.trans h₂'.symm)⟩
    have hex' : ¬ ∃ out, p.Rewritten σ st'.pool j out := by
      rintro ⟨out, hout⟩
      refine hex ⟨out, ?_⟩
      rw [hpool, Pool.Rewritten, he]
      exact hout
    obtain ⟨hv, hv', hd, hitem, hprim, hvar⟩ := hinv.no_early h hσ hi hex
    obtain ⟨hvj, hvj', hdj, hitemj, -, -⟩ := hinv'.no_early h hσ hj hex'
    -- the two walks meet resolved handles of one shape, whose parts stand for the same types
    have hsj : p.Settled (p.resolve j) := (Pool.resolve_spec h j).2
    have hej : p.term (p.resolve i) = p.term (p.resolve j) := by
      rw [Pool.term_resolve h, Pool.term_resolve h, he]
    have below : ∀ {k c : Idx} {b : Nat}, p.rank k < b + 1 → p.Succ (p.resolve k) c →
        c.raw < p.size ∧ p.rank c < b := fun {k} _ _ hb hs =>
      ⟨h.closed _ _ hs, by have := h.rank_lt_of_succ hs; have := Pool.rank_resolve_le h k; omega⟩
    have step : ∀ (c d : Idx) (s s' : Rewrite), s.Inv p σ → s'.Inv p σ → s.pool = s'.pool →
        c.raw < p.size ∧ p.rank c < n → d.raw < p.size ∧ p.rank d < m → p.term c = p.term d →
        ((substWithin σ n c).run s).1 = ((substWithin σ m d).run s').1 ∧
          ((substWithin σ n c).run s).2.pool = ((substWithin σ m d).run s').2.pool ∧
          ((substWithin σ n c).run s).2.Inv p σ ∧ ((substWithin σ m d).run s').2.Inv p σ :=
      fun c d s s' hs hs' hsp hc hd hcd =>
        ⟨(substWithin_congr h hσ n m c d s s' hs hs' hsp hc.1 hd.1 hc.2 hd.2 hcd).1,
          (substWithin_congr h hσ n m c d s s' hs hs' hsp hc.1 hd.1 hc.2 hd.2 hcd).2,
          (substWithin_spec h hσ n c s hs hc.1 hc.2).1, (substWithin_spec h hσ m d s' hs' hd.1 hd.2).1⟩
    cases hit : p.item (p.resolve i) with
    | var v => exact absurd hit (hvar v)
    | prim q => exact absurd hit (hprim q)
    | fn a r =>
      obtain ⟨a', r', hjt, hea, her⟩ := hsj.fn_of_term_eq h hit hej
      rw [hit] at hitem
      rw [hjt] at hitemj
      rw [substWithin_succ_fn hv hv' hd hitem, substWithin_succ_fn hvj hvj' hdj hitemj]
      simp only [run_bind, build_run, remember_run, run_pure]
      obtain ⟨he₁, hp₁, hinv₁, hinv₁'⟩ := step a a' st st' hinv hinv' hpool
        (below hn ((Pool.succ_of_fn hit).2 (Or.inl rfl)))
        (below hm ((Pool.succ_of_fn hjt).2 (Or.inl rfl))) hea
      generalize (substWithin σ n a).run st = r₁ at hinv₁ he₁ hp₁ ⊢
      generalize (substWithin σ m a').run st' = r₁' at hinv₁' he₁ hp₁ ⊢
      obtain ⟨he₂, hp₂, -, -⟩ := step r r' r₁.2 r₁'.2 hinv₁ hinv₁' hp₁
        (below hn ((Pool.succ_of_fn hit).2 (Or.inr rfl)))
        (below hm ((Pool.succ_of_fn hjt).2 (Or.inr rfl))) her
      generalize (substWithin σ n r).run r₁.2 = r₂ at he₂ hp₂ ⊢
      generalize (substWithin σ m r').run r₁'.2 = r₂' at he₂ hp₂ ⊢
      rw [he₁, he₂, hp₂]
      exact ⟨rfl, rfl⟩
    | user name args =>
      obtain ⟨args', hjt, hargs⟩ := hsj.user_of_term_eq h hit hej
      rw [hit] at hitem
      rw [hjt] at hitemj
      rw [substWithin_succ_user hv hv' hd hitem, substWithin_succ_user hvj hvj' hdj hitemj]
      simp only [run_bind, build_run, remember_run, run_pure]
      -- the argument lists stand for the same types, one for one
      have hall : List.Forall₂ (fun a b => p.term a = p.term b) args args' := by
        have heq : List.Forall₂ (· = ·) (args.map p.term) (args'.map p.term) := by
          rw [List.forall₂_eq_eq_eq]
          exact hargs
        rwa [List.forall₂_map_left_iff, List.forall₂_map_right_iff] at heq
      obtain ⟨he₁, hp₁⟩ := mapM_congr (P := fun c => c.raw < p.size ∧ p.rank c < n)
        (Q := fun d => d.raw < p.size ∧ p.rank d < m) step hall
        (fun c hc => below hn ((Pool.succ_of_user hit).2 hc))
        (fun d hd => below hm ((Pool.succ_of_user hjt).2 hd)) st st' hinv hinv' hpool
      generalize (args.mapM fun a => substWithin σ n a).run st = r₁ at he₁ hp₁ ⊢
      generalize (args'.mapM fun a => substWithin σ m a).run st' = r₁' at he₁ hp₁ ⊢
      rw [he₁, hp₁]
      exact ⟨rfl, rfl⟩

/-- Two walks over one handle from two states with one pool return the same handle and build
the same pool, whatever their memo tables hold. -/
theorem substWithin_memo (h : p.WF) (hσ : p.ResolvedImages σ) :
    ∀ (n : Nat) (i : Idx) (st st' : Rewrite), st.Inv p σ → st'.Inv p σ → st.pool = st'.pool →
      i.raw < p.size → p.rank i < n →
      ((substWithin σ n i).run st).1 = ((substWithin σ n i).run st').1 ∧
        ((substWithin σ n i).run st).2.pool = ((substWithin σ n i).run st').2.pool :=
  fun n i st st' hinv hinv' hpool hi hn =>
    substWithin_congr h hσ n n i i st st' hinv hinv' hpool hi hi hn hn rfl

theorem substitute_run (σ : List (Nat × Idx)) (i : Idx) (st : Rewrite) :
    (substitute σ i).run st = (substWithin σ st.pool.size i).run st := rfl

end Rewrite

/-! ## Deep resolution -/

namespace Pool

variable {p : Pool}

/-- Deep resolution of several types one after another, each in the pool the one before it
left, with nothing remembered from one to the next. -/
def resolveDeepEach (p : Pool) : List Idx → List Idx × Pool
  | [] => ([], p)
  | i :: is =>
    let (o, p) := p.resolveDeep i
    let (os, p) := p.resolveDeepEach is
    (o :: os, p)

theorem resolveDeepEach_cons (p : Pool) (i : Idx) (is : List Idx) :
    p.resolveDeepEach (i :: is) = ((p.resolveDeep i).1 :: ((p.resolveDeep i).2.resolveDeepEach is).1,
      ((p.resolveDeep i).2.resolveDeepEach is).2) := rfl

theorem resolveDeep_eq (p : Pool) (i : Idx) :
    p.resolveDeep i = (((Rewrite.substitute [] i).run { pool := p }).1,
      ((Rewrite.substitute [] i).run { pool := p }).2.pool) := rfl

theorem resolveDeepAll_eq (p : Pool) (is : List Idx) :
    p.resolveDeepAll is = (((is.mapM (Rewrite.substitute [])).run { pool := p }).1,
      ((is.mapM (Rewrite.substitute [])).run { pool := p }).2.pool) := rfl

end Pool

namespace Rewrite

variable {p : Pool}

/-- Deep resolutions over a list within a pass started on `p`, from any state of it, return
and build what deep resolutions one after another from the state's pool do. -/
theorem mapM_resolveDeep (h : p.WF) :
    ∀ (is : List Idx) (st : Rewrite), st.Inv p [] → (∀ i ∈ is, i.raw < p.size) →
      ((is.mapM (substitute [])).run st).1 = (st.pool.resolveDeepEach is).1 ∧
        ((is.mapM (substitute [])).run st).2.pool = (st.pool.resolveDeepEach is).2
  | [], _, _, _ => ⟨rfl, rfl⟩
  | i :: is, st, hinv, his => by
    have hi := his i List.mem_cons_self
    rw [List.mapM_cons, Pool.resolveDeepEach_cons, Pool.resolveDeep_eq]
    simp only [run_bind, run_pure]
    obtain ⟨hinv₁, -, -⟩ := substitute_spec h (Pool.resolvedImages_nil p) hinv hi
    -- the pass's memo table gives what a pass started afresh on the same pool gives
    obtain ⟨he, hp⟩ := substWithin_memo h (Pool.resolvedImages_nil p) st.pool.size i st
      { pool := st.pool } hinv hinv.forget rfl hi
      (Nat.lt_of_lt_of_le (h.rank_lt i) hinv.grows.size_le)
    rw [substitute_run, substitute_run]
    rw [substitute_run] at hinv₁
    generalize (substWithin [] st.pool.size i).run st = r₁ at hinv₁ he hp ⊢
    obtain ⟨h₁, h₂⟩ := mapM_resolveDeep h is r₁.2 hinv₁ fun j hj => his j (List.mem_cons_of_mem i hj)
    rw [h₁, h₂, he, hp]
    exact ⟨rfl, rfl⟩

end Rewrite

namespace Pool

variable {p : Pool}

/-- Resolving a list in one pass, sharing one memo table, gives the handles and the pool that
resolving its types one after another gives. -/
theorem resolveDeepAll_eq_each (h : p.WF) {is : List Idx} (his : ∀ i ∈ is, i.raw < p.size) :
    p.resolveDeepAll is = p.resolveDeepEach is := by
  obtain ⟨h₁, h₂⟩ := Rewrite.mapM_resolveDeep h is { pool := p } (Rewrite.Inv.start h) his
  rw [resolveDeepAll_eq]
  exact Prod.ext h₁ h₂

/-- A handle whose deep resolution is already built resolves to it and builds nothing. -/
theorem resolveDeep_of_resolved (h : p.WF) {t o : Idx} (ht : t.raw < p.size)
    (ho : o.raw < p.size) (hres : p.Resolved o) (he : p.term o = p.term t) :
    p.resolveDeep t = (o, p) := by
  have hrw : p.Rewritten [] p t o := ⟨ho, hres, by rw [image_nil, Term.subst_var_self, he]⟩
  obtain ⟨h₁, h₂⟩ := Rewrite.substWithin_of_rewritten h (resolvedImages_nil p) p.size t
    { pool := p } o (Rewrite.Inv.start h) ht (h.rank_lt t) hrw
  rw [resolveDeep_eq, Rewrite.substitute_run]
  exact Prod.ext h₁ h₂

/-- Deep resolution of a deep resolution returns it and builds nothing. -/
theorem resolveDeep_resolveDeep (h : p.WF) {t : Idx} (ht : t.raw < p.size) :
    (p.resolveDeep t).2.resolveDeep (p.resolveDeep t).1 = p.resolveDeep t := by
  obtain ⟨hq, -, hout, hres, -⟩ := resolveDeep_spec h ht
  generalize p.resolveDeep t = r at hq hout hres ⊢
  obtain ⟨o, q⟩ := r
  -- `o` is its own deep resolution, already built
  exact resolveDeep_of_resolved hq hout hout hres rfl

/-- Deep resolution is a function of the type a handle stands for: two handles standing for one
type resolve to the same handle and leave the same pool. -/
theorem resolveDeep_eq_of_term_eq (h : p.WF) {i j : Idx} (hi : i.raw < p.size)
    (hj : j.raw < p.size) (he : p.term i = p.term j) : p.resolveDeep i = p.resolveDeep j := by
  obtain ⟨h₁, h₂⟩ := Rewrite.substWithin_congr h (resolvedImages_nil p) p.size p.size i j
    { pool := p } { pool := p } (Rewrite.Inv.start h) (Rewrite.Inv.start h) rfl hi hj
    (h.rank_lt i) (h.rank_lt j) he
  rw [resolveDeep_eq, resolveDeep_eq, Rewrite.substitute_run, Rewrite.substitute_run]
  exact Prod.ext h₁ h₂

/-- Deep resolution is canonical.  In every reachable pool, the deep resolution of a type has
nothing linked below it, has the type's free variables, and is its own deep resolution, with the
pool left as it was; and deep resolution of a list in one pass, one memo table shared across the
list, returns the same handles and leaves the same pool (items, flags, interning map, links) as
resolving the types one after another. -/
theorem resolveDeep_canonical (hp : p.Reachable) :
    (∀ t : Idx, t.raw < p.size →
      (p.resolveDeep t).2.Resolved (p.resolveDeep t).1 ∧
      (p.resolveDeep t).2.freeVars (p.resolveDeep t).1 = p.freeVars t ∧
      (p.resolveDeep t).2.resolveDeep (p.resolveDeep t).1 = p.resolveDeep t) ∧
    ∀ ts : List Idx, (∀ t ∈ ts, t.raw < p.size) → p.resolveDeepAll ts = p.resolveDeepEach ts := by
  have h := hp.wf
  refine ⟨fun t ht => ?_, fun ts hts => resolveDeepAll_eq_each h hts⟩
  obtain ⟨hq, -, -, hres, hterm⟩ := resolveDeep_spec h ht
  exact ⟨hres, freeVars_eq_of_vars h hq fun v => by rw [hterm], resolveDeep_resolveDeep h ht⟩

/-- Deep resolution at the pool of `reachable_fn_unify`, where the function type `a -> b`
(handle 8) holds `b`, linked to `Int`: the function type is not resolved, its deep resolution is,
with the same one free variable `a`, and resolving it and `b` in one pass agrees with resolving
them one after another. -/
theorem resolveDeep_canonical_fn_unify :
    ∃ p : Pool, p = ((({} : Pool).fresh.2.fresh.2.fn ⟨6⟩ ⟨7⟩).2.unify ⟨7⟩ Prim.int.idx).1 ∧
      p.Reachable ∧ p.item ⟨8⟩ = .fn ⟨6⟩ ⟨7⟩ ∧ p.target? 1 = some Prim.int.idx ∧
      ¬ p.Resolved ⟨8⟩ ∧ (p.resolveDeep ⟨8⟩).2.Resolved (p.resolveDeep ⟨8⟩).1 ∧
      (p.resolveDeep ⟨8⟩).2.freeVars (p.resolveDeep ⟨8⟩).1 = [0] ∧
      (p.resolveDeep ⟨8⟩).2.resolveDeep (p.resolveDeep ⟨8⟩).1 = p.resolveDeep ⟨8⟩ ∧
      p.resolveDeepAll [⟨8⟩, ⟨7⟩, ⟨8⟩] = p.resolveDeepEach [⟨8⟩, ⟨7⟩, ⟨8⟩] := by
  obtain ⟨p, hp⟩ : ∃ p, p = ((({} : Pool).fresh.2.fresh.2.fn ⟨6⟩ ⟨7⟩).2.unify ⟨7⟩ Prim.int.idx).1 :=
    ⟨_, rfl⟩
  have hr : p.Reachable := hp ▸ reachable_fn_unify
  -- the pool itself, `a -> b` interned at its end
  have hval := hp
  rw [fn_first_compound] at hval
  have H := resolveDeep_canonical hr
  obtain ⟨hres, hfree, hidem⟩ := H.1 ⟨8⟩ (by rw [hval]; decide)
  have hitem : p.item ⟨8⟩ = .fn ⟨6⟩ ⟨7⟩ := by rw [hval]; decide
  have hlink : p.target? 1 = some Prim.int.idx := by rw [hval]; decide
  -- `b` lies below the function type and is linked, so the function type is not resolved
  have hunres : ¬ p.Resolved ⟨8⟩ := fun h8 => by
    have hb := h8 ⟨7⟩ (.single (.inl (by rw [hitem]; decide))) 1 (by rw [hval]; decide)
    rw [hlink] at hb
    cases hb
  refine ⟨p, hp, hr, hitem, hlink, hunres, hres, hfree.trans (by rw [hval]; decide), hidem,
    H.2 _ ?_⟩
  rw [hval]
  decide

end Pool

/-! ## Printing sees through links as deep resolution does -/

namespace Pool

variable {p q : Pool}

/-- A handle prints the same in every pool that extends its own by building types. -/
theorem render_of_grows (hp : p.WF) (hq : q.WF) (hg : p.Grows q) {i : Idx}
    (hi : i.raw < p.size) : q.render i = p.render i := by
  rw [render_eq hq, render_eq hp, hg.term_eq hp hq hi]

/-- A handle prints as its deep resolution does, in the pool the resolution leaves, and as it
printed before. -/
theorem render_resolveDeep (h : p.WF) {t : Idx} (ht : t.raw < p.size) :
    (p.resolveDeep t).2.render (p.resolveDeep t).1 = (p.resolveDeep t).2.render t ∧
      (p.resolveDeep t).2.render t = p.render t := by
  obtain ⟨hq, hg, -, -, hterm⟩ := resolveDeep_spec h ht
  refine ⟨?_, render_of_grows h hq hg ht⟩
  rw [render_eq hq, render_eq hq, hterm, hg.term_eq h hq ht]

/-- After a successful unification its two sides print alike. -/
theorem render_unify (h : p.WF) {a b : Idx} (ha : a.raw < p.size) (hb : b.raw < p.size)
    (hok : (p.unify a b).2 = none) : (p.unify a b).1.render a = (p.unify a b).1.render b := by
  have hq := (unify_wf h ha hb).1
  rw [render_eq hq, render_eq hq, term_eq_of_unify h ha hb hok]

/-- A scheme prints `forall` and its quantified ids in ascending order before its body, which
prints as its deep resolution does; a scheme that quantifies nothing prints as its body. -/
theorem renderScheme_resolveDeep (h : p.WF) {σ : Scheme} (hb : σ.body.raw < p.size)
    (hasc : σ.bounded.Pairwise (· < ·)) :
    p.renderScheme σ =
      (if σ.bounded.toFinset = ∅ then ""
        else "forall" ++ String.join ((σ.bounded.toFinset.sort (· ≤ ·)).map fun v => " " ++ varName v)
          ++ ". ") ++ (p.resolveDeep σ.body).2.render (p.resolveDeep σ.body).1 := by
  obtain ⟨hbody, hsame⟩ := render_resolveDeep h hb
  rw [hbody, hsame, (List.toFinset_sort _ hasc.nodup).2 (hasc.imp Nat.le_of_lt), renderScheme,
    Scheme.isMono]
  cases hbl : σ.bounded <;> simp

/-- Printing sees through links exactly as deep resolution does.  In every reachable pool a
handle prints as its deep resolution, whose links are all followed, and as it printed before the
resolution: following links while printing, and parenthesising a function's argument when it
resolves to a function, agree with printing the rebuilt type.  So the two sides of a successful
unification print alike, and a scheme prints `forall` and its quantified ids in ascending order
before its body printed the same way, or just the body when it quantifies nothing. -/
theorem render_sees_through_links (hp : p.Reachable) :
    (∀ t : Idx, t.raw < p.size →
      (p.resolveDeep t).2.render (p.resolveDeep t).1 = (p.resolveDeep t).2.render t ∧
        (p.resolveDeep t).2.render t = p.render t) ∧
    (∀ a b : Idx, a.raw < p.size → b.raw < p.size → (p.unify a b).2 = none →
      (p.unify a b).1.render a = (p.unify a b).1.render b) ∧
    ∀ σ : Scheme, σ.body.raw < p.size → σ.bounded.Pairwise (· < ·) →
      p.renderScheme σ =
        (if σ.bounded.toFinset = ∅ then ""
          else "forall" ++
            String.join ((σ.bounded.toFinset.sort (· ≤ ·)).map fun v => " " ++ varName v) ++ ". ") ++
          (p.resolveDeep σ.body).2.render (p.resolveDeep σ.body).1 :=
  ⟨fun _ ht => render_resolveDeep hp.wf ht, fun _ _ ha hb hok => render_unify hp.wf ha hb hok,
    fun _ hb hasc => renderScheme_resolveDeep hp.wf hb hasc⟩


/-- Printing at the pool of `reachable_fn_pair`: `a -> b` (handle 8) prints through the link
of `b`, alike before and after deep resolution; once it is unified with `Bool -> c` (handle 10)
both sides print `Bool -> Int`; and `forall a. a -> b` prints its quantifier before that body. -/
theorem render_sees_through_links_fn_pair :
    ∃ q : Pool, q = (((({} : Pool).fresh.2.fresh.2.fn ⟨6⟩ ⟨7⟩).2.unify ⟨7⟩
        Prim.int.idx).1.fresh.2.fn Prim.bool.idx ⟨9⟩).2 ∧ q.Reachable ∧ q.render ⟨8⟩ = "$t0 -> Int" ∧
      (q.resolveDeep ⟨8⟩).2.render (q.resolveDeep ⟨8⟩).1 = "$t0 -> Int" ∧
      (q.unify ⟨8⟩ ⟨10⟩).2 = none ∧ (q.unify ⟨8⟩ ⟨10⟩).1.render ⟨8⟩ = "Bool -> Int" ∧
      (q.unify ⟨8⟩ ⟨10⟩).1.render ⟨10⟩ = "Bool -> Int" ∧
      q.renderScheme ⟨[0], ⟨8⟩⟩ = "forall $t0. $t0 -> Int" := by
  obtain ⟨q, hq⟩ : ∃ q, q = (((({} : Pool).fresh.2.fresh.2.fn ⟨6⟩ ⟨7⟩).2.unify ⟨7⟩
      Prim.int.idx).1.fresh.2.fn Prim.bool.idx ⟨9⟩).2 := ⟨_, rfl⟩
  have hr : q.Reachable := hq ▸ reachable_fn_pair
  -- the pool itself, both function types interned at its end
  have hval := hq
  rw [fn_second_compound, fn_first_compound] at hval
  have h8 : (⟨8⟩ : Idx).raw < q.size := by rw [hval]; decide
  have h10 : (⟨10⟩ : Idx).raw < q.size := by rw [hval]; decide
  have hok : (q.unify ⟨8⟩ ⟨10⟩).2 = none := by rw [hval]; rfl
  have hprint : q.render ⟨8⟩ = "$t0 -> Int" := by rw [hval]; rfl
  have hprint' : (q.unify ⟨8⟩ ⟨10⟩).1.render ⟨8⟩ = "Bool -> Int" := by
    rw [hval]; rfl
  have H := render_sees_through_links hr
  obtain ⟨hdeep, hsame⟩ := H.1 ⟨8⟩ h8
  have hbody : (q.resolveDeep ⟨8⟩).2.render (q.resolveDeep ⟨8⟩).1 = "$t0 -> Int" := by
    rw [hdeep, hsame, hprint]
  refine ⟨q, hq, hr, hprint, hbody, hok, hprint',
    (H.2.1 ⟨8⟩ ⟨10⟩ h8 h10 hok).symm.trans hprint', ?_⟩
  rw [H.2.2 ⟨[0], ⟨8⟩⟩ h8 (List.pairwise_singleton _ _), hbody]
  simp [varName]
  rfl

end Pool

end TagML
