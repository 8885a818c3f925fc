import TagML.Proofs.Ty.Termination

/-!
What unification can reach.

Unification walks down from its two sides, following links and parts, and writes links only at
the unbound variables it meets, each to a handle it met.  So every link it writes goes from a
variable whose item lies at or below one of the two sides to a handle at or below one of them
(`LinksWithin`).  A path of the new pool either is a path of the old one or, at its last new
link, enters what the sides already reached (`LinksWithin.reach`): linking never makes anything
reachable that was not reachable before.  Sub-calls on parts compose (`LinksWithin.trans`), since
what a part reaches after earlier links is, by the same argument, what the sides reached
(`unifyWithin_linksWithin`).

The footprint of a unification follows (`unify_footprint`): it allocates nothing, changes the
state only of variables that were unbound and reachable from its sides, and leaves the
variables reachable from its sides a subset of those reachable before.  Links are only added,
so reachability in every pool the call passes through is bounded by the same set.
-/
namespace TagML

namespace Pool

variable {p q r : Pool} {S S' : List Idx}

/-- Handle `j` lies at or below one of the handles `S`, following parts and links. -/
def Spans (p : Pool) (S : List Idx) (j : Idx) : Prop :=
  ∃ s ∈ S, Relation.ReflTransGen p.Succ s j

theorem spans_of_mem {s : Idx} (hs : s ∈ S) : p.Spans S s := ⟨s, hs, .refl⟩

theorem Spans.of_reach {i j : Idx} (h : p.Spans S i) (hr : Relation.ReflTransGen p.Succ i j) :
    p.Spans S j := by
  obtain ⟨s, hs, hsi⟩ := h
  exact ⟨s, hs, hsi.trans hr⟩

/-- What lies below handles each below `S'` lies below `S'`. -/
theorem Spans.trans {j : Idx} (h : p.Spans S j) (hS : ∀ s ∈ S, p.Spans S' s) : p.Spans S' j := by
  obtain ⟨s, hs, hsj⟩ := h
  exact (hS s hs).of_reach hsj

theorem Spans.addsLinks {j : Idx} (h : p.Spans S j) (hl : p.AddsLinks q) : q.Spans S j := by
  obtain ⟨s, hs, hsj⟩ := h
  exact ⟨s, hs, hl.reach hsj⟩

/-- A variable whose item lies below one of `S` is reachable from it. -/
theorem Spans.occurs {x : Idx} {v : Nat} (h : p.Spans S x) (hx : p.item x = .var v) :
    ∃ s ∈ S, p.Occurs v s := by
  obtain ⟨s, hs, hsx⟩ := h
  exact ⟨s, hs, x, hsx, hx⟩

theorem spans_pair {c d : Idx} (hc : p.Spans S c) (hd : p.Spans S d) :
    ∀ s ∈ [c, d], p.Spans S s := by
  intro s hs
  rcases List.mem_pair.1 hs with rfl | rfl
  exacts [hc, hd]

/-- The parts of a function type below `S` are handles of the pool below `S`. -/
theorem Spans.fn_parts (h : p.WF) {i c d : Idx} (hi : p.Spans S i) (hit : p.item i = .fn c d) :
    (c.raw < p.size ∧ p.Spans S c) ∧ (d.raw < p.size ∧ p.Spans S d) := by
  have hc := (succ_of_fn hit).2 (Or.inl rfl)
  have hd := (succ_of_fn hit).2 (Or.inr rfl)
  exact ⟨⟨h.closed _ _ hc, hi.of_reach (.single hc)⟩, ⟨h.closed _ _ hd, hi.of_reach (.single hd)⟩⟩

/-- `q` is `p` with links added, each written to a variable whose item lies at or below one of
the handles `S`, and pointing at a handle at or below one of them. -/
structure LinksWithin (p q : Pool) (S : List Idx) : Prop where
  adds : p.AddsLinks q
  linked : ∀ v t, q.target? v = some t → p.target? v = none →
    (∃ x, p.varItem? v = some x ∧ p.Spans S x) ∧ p.Spans S t

namespace LinksWithin

protected theorem refl (p : Pool) (S : List Idx) : LinksWithin p p S :=
  ⟨.refl p, fun _ _ ht hv => by rw [hv] at ht; cases ht⟩

/-- A path of the new pool is a path of the old one, or ends below `S`: after its last new
link it runs through old steps from a handle below `S`. -/
theorem reach (h : LinksWithin p q S) {c j : Idx} (hr : Relation.ReflTransGen q.Succ c j) :
    Relation.ReflTransGen p.Succ c j ∨ p.Spans S j := by
  induction hr with
  | refl => exact .inl .refl
  | tail _ hs ih =>
    rename_i k j _
    -- an old step extends either alternative; a new link lands below `S`
    have old : p.Succ k j → Relation.ReflTransGen p.Succ c j ∨ p.Spans S j := fun hs' =>
      ih.imp (fun hck => hck.tail hs') (fun hk => hk.of_reach (.single hs'))
    rcases hs with hpart | ⟨w, hw, ht⟩
    · rw [h.adds.item_eq] at hpart
      exact old (Or.inl hpart)
    · rw [h.adds.item_eq] at hw
      cases hpt : p.target? w with
      | some t' =>
        rw [h.adds.target?_of hpt] at ht
        cases ht
        exact old (Or.inr ⟨w, hw, hpt⟩)
      | none => exact .inr (h.linked w j ht hpt).2

/-- What lies below handles of the new pool that each lie below `S` in the old one lies below
`S` in the old one. -/
theorem spans (h : LinksWithin p q S) (hS' : ∀ s ∈ S', p.Spans S s) {j : Idx}
    (hj : q.Spans S' j) : p.Spans S j := by
  obtain ⟨s, hs, hsj⟩ := hj
  rcases h.reach hsj with hsj | hj
  · exact (hS' s hs).of_reach hsj
  · exact hj

theorem mono (h : LinksWithin p q S) (hS : ∀ s ∈ S, p.Spans S' s) : LinksWithin p q S' := by
  refine ⟨h.adds, fun v t ht hv => ?_⟩
  obtain ⟨⟨x, hx, hxS⟩, htS⟩ := h.linked v t ht hv
  exact ⟨⟨x, hx, hxS.trans hS⟩, htS.trans hS⟩

/-- Two runs in a row stay within `S` when the second starts from handles below `S`. -/
theorem trans (h₁ : LinksWithin p q S) (h₂ : LinksWithin q r S') (hS' : ∀ s ∈ S', p.Spans S s) :
    LinksWithin p r S := by
  refine ⟨h₁.adds.trans h₂.adds, fun v t ht hv => ?_⟩
  cases hqt : q.target? v with
  | some t' =>
    -- linked by the first run, and kept by the second
    rw [h₂.adds.target?_of hqt] at ht
    cases ht
    exact h₁.linked v _ hqt hv
  | none =>
    obtain ⟨⟨x, hx, hxS⟩, htS⟩ := h₂.linked v t ht hqt
    rw [h₁.adds.varItem?_eq] at hx
    exact ⟨⟨x, hx, h₁.spans hS' hxS⟩, h₁.spans hS' htS⟩

/-- A variable changes state only if it was unbound and its item lies below `S`. -/
theorem target?_changed (h : LinksWithin p q S) {v : Nat} (hne : q.target? v ≠ p.target? v) :
    p.target? v = none ∧ ∃ x, p.varItem? v = some x ∧ p.Spans S x := by
  cases hpv : p.target? v with
  | some t =>
    rw [hpv, h.adds.target?_of hpv] at hne
    exact absurd rfl hne
  | none =>
    cases hqv : q.target? v with
    | none => rw [hqv, hpv] at hne; exact absurd rfl hne
    | some t => exact ⟨rfl, (h.linked v t hqv hpv).1⟩

/-- A variable reachable in the new pool from a handle was reachable from it in the old one,
or from one of `S`. -/
theorem occurs (h : LinksWithin p q S) {v : Nat} {c : Idx} (ho : q.Occurs v c) :
    p.Occurs v c ∨ ∃ s ∈ S, p.Occurs v s := by
  obtain ⟨j, hcj, hj⟩ := ho
  rw [h.adds.item_eq] at hj
  exact (h.reach hcj).imp (fun hcj => ⟨j, hcj, hj⟩) (fun hjS => hjS.occurs hj)

end LinksWithin

/-- Binding a variable whose item lies below `S` to a handle below `S` stays within `S`. -/
theorem bind_linksWithin (h : p.WF) {x t : Idx} {v : Nat} (hx : p.item x = .var v)
    (hv : p.target? v = none) (hxS : p.Spans S x) (htS : p.Spans S t) :
    LinksWithin p (p.bind v t).1 S := by
  rw [bind_eq]
  split
  · exact .refl p S
  · refine ⟨.link t (.refl p) hv, fun w s hs hw => ?_⟩
    rw [target?_link] at hs
    split at hs
    · next hwv =>
      obtain ⟨rfl, -⟩ := hwv
      cases hs
      exact ⟨⟨x, h.var_unique x w (lt_size_of_item p hx (by simp)) hx, hxS⟩, htS⟩
    · rw [hw] at hs
      cases hs

/-- A fold of calls each staying within its pair stays within `S` when every pair lies below
`S`. -/
theorem unifyPairs_linksWithin {f : Pool → Idx → Idx → Pool × Option UnifyError}
    (hwf : ∀ p x y, p.WF → x.raw < p.size → y.raw < p.size → (f p x y).1.WF)
    (hf : ∀ p x y, p.WF → x.raw < p.size → y.raw < p.size → LinksWithin p (f p x y).1 [x, y]) :
    ∀ (pairs : List (Idx × Idx)) (p : Pool), p.WF →
      (∀ pair ∈ pairs, pair.1.raw < p.size ∧ pair.2.raw < p.size) →
      (∀ pair ∈ pairs, p.Spans S pair.1 ∧ p.Spans S pair.2) →
      LinksWithin p (unifyPairs f (p, none) pairs).1 S
  | [], p, _, _, _ => .refl p S
  | pair :: pairs, p, h, hv, hS => by
    have hvp := hv pair List.mem_cons_self
    have hSp := hS pair List.mem_cons_self
    have hl₀ := (hf p pair.1 pair.2 h hvp.1 hvp.2).mono (spans_pair hSp.1 hSp.2)
    obtain ⟨p₁, h₁, -, hrest, ⟨e, hres, hfold⟩ | ⟨hres, hfold⟩⟩ := unifyPairs_step
      (fun p x y hp hx hy => ⟨hwf p x y hp hx hy, (hf p x y hp hx hy).adds⟩) h hv
    · rw [hfold]
      rw [hres] at hl₀
      exact hl₀
    · rw [hfold]
      rw [hres] at hl₀
      -- the later pairs lie below `S` in the pool the head call left
      have hS₁ : ∀ pr ∈ pairs, p₁.Spans S pr.1 ∧ p₁.Spans S pr.2 := fun pr hpr =>
        have hSr := hS pr (List.mem_cons_of_mem pair hpr)
        ⟨hSr.1.addsLinks hl₀.adds, hSr.2.addsLinks hl₀.adds⟩
      exact hl₀.trans (unifyPairs_linksWithin hwf hf pairs p₁ h₁ hrest hS₁)
        fun s hs => spans_of_mem hs

/-- Unification, whatever its budget and outcome, stays within its two sides. -/
theorem unifyWithin_linksWithin (h : p.WF) {a b : Idx} (ha : a.raw < p.size)
    (hb : b.raw < p.size) (n : Nat) : LinksWithin p (p.unifyWithin n a b).1 [a, b] := by
  induction n generalizing p a b with
  | zero => exact .refl p _
  | succ n ih =>
    have hra : p.Spans [a, b] (p.resolve a) := ⟨a, by simp, reach_resolve h a⟩
    have hrb : p.Spans [a, b] (p.resolve b) := ⟨b, by simp, reach_resolve h b⟩
    rw [unifyWithin_succ]
    split
    · exact .refl p _
    split
    · exact .refl p _
    split
    · next va vb hva hvb =>
      split
      · exact bind_linksWithin h hvb (target?_resolve h hvb) hrb hra
      · exact bind_linksWithin h hva (target?_resolve h hva) hra hrb
    · next va hva _ => exact bind_linksWithin h hva (target?_resolve h hva) hra hrb
    · next vb hvb _ => exact bind_linksWithin h hvb (target?_resolve h hvb) hrb hra
    · next x r y q hx hy =>
      -- the parts of the resolved sides lie below the sides
      obtain ⟨⟨hxs, hxS⟩, hrs, hrS⟩ := hra.fn_parts h hx
      obtain ⟨⟨hys, hyS⟩, hqs, hqS⟩ := hrb.fn_parts h hy
      have hl₁ := (ih h hxs hys).mono (spans_pair hxS hyS)
      have h₁ := (unifyWithin_wf h hxs hys n).1
      cases hres : p.unifyWithin n x y with
      | mk p₁ r₁ =>
        rw [hres] at hl₁ h₁
        cases r₁ with
        | some e => exact hl₁
        | none =>
          rw [← hl₁.adds.size_eq] at hrs hqs
          exact hl₁.trans (ih h₁ hrs hqs) (spans_pair hrS hqS)
    · next m xs m' ys hx hy =>
      split
      · refine unifyPairs_linksWithin (fun p x y hp hx hy => (unifyWithin_wf hp hx hy n).1)
          (fun p x y hp hx hy => ih hp hx hy) _ p h (h.zip_args_lt hx hy) fun pair hpair => ?_
        have hl := List.of_mem_zip hpair
        exact ⟨hra.of_reach (.single ((succ_of_user hx).2 hl.1)),
          hrb.of_reach (.single ((succ_of_user hy).2 hl.2))⟩
      · exact .refl p _
    · exact .refl p _

/-- The footprint of unification.  In every reachable pool, unifying two of its types,
whether it succeeds or fails, allocates no item and no variable and leaves every item as it
was; a variable whose state it changes was unbound and reachable through links and parts from
one of the two sides; and every variable reachable from a side afterwards was reachable from
one of the sides before. -/
theorem unify_footprint (hp : p.Reachable) {a b : Idx} (ha : a.raw < p.size)
    (hb : b.raw < p.size) :
    (p.unify a b).1.size = p.size ∧ (p.unify a b).1.varCount = p.varCount ∧
      (p.unify a b).1.item = p.item ∧
      (∀ v, (p.unify a b).1.target? v ≠ p.target? v →
        p.target? v = none ∧ (p.Occurs v a ∨ p.Occurs v b)) ∧
      ∀ v, (p.unify a b).1.Occurs v a ∨ (p.unify a b).1.Occurs v b →
        p.Occurs v a ∨ p.Occurs v b := by
  have h := hp.wf
  have hl := unifyWithin_linksWithin h ha hb (p.size + 1)
  -- a variable reachable from one of the sides, named as a disjunction
  have sides : ∀ {v : Nat}, (∃ s ∈ [a, b], p.Occurs v s) → p.Occurs v a ∨ p.Occurs v b := by
    simp
  refine ⟨hl.adds.size_eq, hl.adds.varCount_eq, hl.adds.item_eq, fun v hne => ?_, fun v hv => ?_⟩
  · obtain ⟨hpv, x, hx, hxS⟩ := hl.target?_changed hne
    exact ⟨hpv, sides (hxS.occurs (h.varItem?_spec hx).2)⟩
  · rcases hv with hv | hv
    · exact (hl.occurs hv).elim Or.inl sides
    · exact (hl.occurs hv).elim Or.inr sides

/-- The footprint at the pool of `reachable_fn_pair`: unifying `a -> b` (handle 8, with `b`
linked to `Int`) with `Bool -> c` (handle 10) builds nothing and links `a` and `c`, each unbound
before and under one of the two sides. -/
theorem unify_footprint_fn_pair :
    ∃ q : Pool, q = (((({} : Pool).fresh.2.fresh.2.fn ⟨6⟩ ⟨7⟩).2.unify ⟨7⟩
        Prim.int.idx).1.fresh.2.fn Prim.bool.idx ⟨9⟩).2 ∧ q.Reachable ∧
      (q.unify ⟨8⟩ ⟨10⟩).1.target? 0 ≠ q.target? 0 ∧ (q.unify ⟨8⟩ ⟨10⟩).1.target? 2 ≠ q.target? 2 ∧
      (q.unify ⟨8⟩ ⟨10⟩).1.size = q.size ∧ (q.unify ⟨8⟩ ⟨10⟩).1.varCount = q.varCount ∧
      (q.unify ⟨8⟩ ⟨10⟩).1.item = q.item ∧
      (∀ v, (q.unify ⟨8⟩ ⟨10⟩).1.target? v ≠ q.target? v →
        q.target? v = none ∧ (q.Occurs v ⟨8⟩ ∨ q.Occurs v ⟨10⟩)) ∧
      ∀ v, (q.unify ⟨8⟩ ⟨10⟩).1.Occurs v ⟨8⟩ ∨ (q.unify ⟨8⟩ ⟨10⟩).1.Occurs v ⟨10⟩ →
        q.Occurs v ⟨8⟩ ∨ q.Occurs v ⟨10⟩ := by
  obtain ⟨q, hq⟩ : ∃ q, q = (((({} : Pool).fresh.2.fresh.2.fn ⟨6⟩ ⟨7⟩).2.unify ⟨7⟩
      Prim.int.idx).1.fresh.2.fn Prim.bool.idx ⟨9⟩).2 := ⟨_, rfl⟩
  have hr : q.Reachable := hq ▸ reachable_fn_pair
  -- the pool itself, both function types interned at its end
  have hval := hq
  rw [fn_second_compound, fn_first_compound] at hval
  exact ⟨q, hq, hr, by rw [hval]; decide, by rw [hval]; decide,
    unify_footprint hr (by rw [hval]; decide) (by rw [hval]; decide)⟩

end Pool

end TagML
