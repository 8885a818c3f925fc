import TagML.Proofs.Embed.Pool

/-!
Unification reads the same in a pool and in one it sits in.

Two facts carry this.  The budget of unification is never used up (`unifyWithin_congr`): any
budget above the rank the expected side has in the pool the call ends with gives the same answer,
links and error included.  And with one budget for both, unifying two handles of `B` and
unifying their images in `A` take the same path (`Embeds.unifyWithin`): equal handles have equal
images, resolution commutes with `ε`, items are the renamed ones, the occurs check reads the
same, and the tie-break between two variables compares ids that the renaming keeps in order.
So the pools stay embedded, with the same `ε` since unification builds nothing, and the errors
are the same up to `ε` and the renaming.  Each pool unifies within its own size, and the
embedding bounds the rank in `A` by the rank in `B`, so both budgets give the same answer there
(`Embeds.unify`).
-/
namespace TagML

/-- An error of unification with its handles sent through `ε` and its variable renamed by
`ψ`. -/
def UnifyError.map (ε : Idx → Idx) (ψ : Nat → Nat) : UnifyError → UnifyError
  | mismatch e f => mismatch (ε e) (ε f)
  | infinite v t => infinite (ψ v) (ε t)

/-- The handles an error of unification names. -/
def UnifyError.handles : UnifyError → List Idx
  | mismatch e f => [e, f]
  | infinite _ t => [t]

namespace Pool

variable {p : Pool}

/-! ## The budget is never used up -/

/-- A fold of calls that agree with those of another within a rank bound agrees with it, when
the fold ends within the bound. -/
theorem unifyPairs_congr {f g : Pool → Idx → Idx → Pool × Option UnifyError} {n : Nat}
    (hwf : ∀ p x y, p.WF → x.raw < p.size → y.raw < p.size →
      (f p x y).1.WF ∧ p.AddsLinks (f p x y).1)
    (hfg : ∀ p x y, p.WF → x.raw < p.size → y.raw < p.size → (f p x y).1.rank x < n →
      g p x y = f p x y) :
    ∀ (pairs : List (Idx × Idx)) (p : Pool), p.WF →
      (∀ pair ∈ pairs, pair.1.raw < p.size ∧ pair.2.raw < p.size) →
      (∀ pair ∈ pairs, (unifyPairs f (p, none) pairs).1.rank pair.1 < n) →
      unifyPairs g (p, none) pairs = unifyPairs f (p, none) pairs
  | [], _, _, _, _ => rfl
  | pair :: pairs, p, h, hv, hn => by
    have hvp := hv pair List.mem_cons_self
    obtain ⟨p₁, h₁, hl₁, hrest, ⟨e, hres, hfold⟩ | ⟨hres, hfold⟩⟩ := unifyPairs_step hwf h hv
    · rw [hfold] at hn ⊢
      rw [unifyPairs_cons, hfg p pair.1 pair.2 h hvp.1 hvp.2
        (by rw [hres]; exact hn pair List.mem_cons_self), hres, unifyPairs_error]
    · rw [hfold] at hn ⊢
      -- the rest of the fold only adds links, so ranks after the head call are no larger
      have hl₂ := (unifyPairs_wf hwf pairs p₁ h₁ hrest).2
      rw [unifyPairs_cons, hfg p pair.1 pair.2 h hvp.1 hvp.2 (by
        rw [hres]
        exact Nat.lt_of_le_of_lt (hl₂.rank_le _) (hn pair List.mem_cons_self)), hres]
      exact unifyPairs_congr hwf hfg pairs p₁ h₁ hrest
        (fun pr hpr => hn pr (List.mem_cons_of_mem pair hpr))

/-- Unification gives the same answer under every budget above the rank of the expected side
in the pool it ends with: along one path of the recursion the expected side moves down through
parts of the final pool, so a larger budget is never reached. -/
theorem unifyWithin_congr (h : p.WF) {a b : Idx} (ha : a.raw < p.size) (hb : b.raw < p.size)
    {n m : Nat} (hn : (p.unifyWithin n a b).1.rank a < n) (hnm : n ≤ m) :
    p.unifyWithin m a b = p.unifyWithin n a b := by
  induction n generalizing p a b m with
  | zero => exact absurd hn (Nat.not_lt_zero _)
  | succ n ih =>
    obtain ⟨m, rfl⟩ : ∃ m', m = m' + 1 := ⟨m - 1, by omega⟩
    have ha' := resolve_lt_size h ha
    have hb' := resolve_lt_size h hb
    obtain ⟨hq, hl⟩ := unifyWithin_wf h ha hb (n + 1)
    generalize hres : p.unifyWithin (n + 1) a b = res at hn hq hl
    -- a part of `a`'s resolved item ranks below `n` in every pool on the way to the end
    have hlow : ∀ {q : Pool} {c : Idx}, q.AddsLinks res.1 → p.Succ (p.resolve a) c →
        q.rank c < n := fun {q c} hqr hc => by
      have hca := rank_lt_of_below hq.acyclic hq.closed
        (hl.below_of (Relation.TransGen.tail' (reach_resolve h a) hc))
      have := hqr.rank_le c
      omega
    rw [unifyWithin_succ] at hres ⊢
    by_cases hab : a = b
    · rw [if_pos hab] at hres ⊢
      exact hres
    rw [if_neg hab] at hres ⊢
    by_cases hr : p.resolve a = p.resolve b
    · rw [if_pos hr] at hres ⊢
      exact hres
    rw [if_neg hr] at hres ⊢
    cases hA : p.item (p.resolve a) <;> cases hB : p.item (p.resolve b) <;>
      simp only [hA, hB] at hres ⊢ <;> try exact hres
    case fn.fn x r y q =>
      obtain ⟨hxs, hrs⟩ := h.fn_parts_lt hA
      obtain ⟨hys, hqs⟩ := h.fn_parts_lt hB
      obtain ⟨h₁, hl₁⟩ := unifyWithin_wf h hxs hys n
      cases hfst : p.unifyWithin n x y with
      | mk p₁ r₁ =>
        rw [hfst] at hres h₁ hl₁
        cases r₁ with
        | some e =>
          subst hres
          rw [ih h hxs hys (by rw [hfst]; exact hlow (.refl _) ((succ_of_fn hA).2 (Or.inl rfl)))
            (by omega), hfst]
        | none =>
          have hl₂ := (unifyWithin_wf h₁ (hl₁.size_eq ▸ hrs) (hl₁.size_eq ▸ hqs) n).2
          rw [ih h hxs hys (by rw [hfst]; exact hlow (hres ▸ hl₂) ((succ_of_fn hA).2 (Or.inl rfl)))
            (by omega), hfst]
          dsimp only at hres ⊢
          rw [ih h₁ (hl₁.size_eq ▸ hrs) (hl₁.size_eq ▸ hqs)
            (by rw [hres]; exact hlow (.refl _) ((succ_of_fn hA).2 (Or.inr rfl))) (by omega)]
          exact hres
    case user.user m₁ xs m₂ ys =>
      by_cases hmn : m₁ = m₂ ∧ xs.length = ys.length
      · rw [if_pos hmn] at hres ⊢
        refine (unifyPairs_congr (fun p x y hp hx hy => unifyWithin_wf hp hx hy n)
          (fun p x y hp hx hy hr => ih hp hx hy hr (by omega)) _ p h (h.zip_args_lt hA hB)
          fun pair hpair => ?_).trans hres
        rw [hres]
        exact hlow (.refl _) ((succ_of_user hA).2 (List.of_mem_zip hpair).1)
      · rw [if_neg hmn] at hres ⊢
        exact hres

/-- Two budgets, each above the rank of the expected side where its call ends, give the same
answer. -/
theorem unifyWithin_eq_of_rank (h : p.WF) {a b : Idx} (ha : a.raw < p.size) (hb : b.raw < p.size)
    {n m : Nat} (hn : (p.unifyWithin n a b).1.rank a < n)
    (hm : (p.unifyWithin m a b).1.rank a < m) : p.unifyWithin m a b = p.unifyWithin n a b := by
  rcases Nat.le_total n m with hnm | hmn
  · exact unifyWithin_congr h ha hb hn hnm
  · exact (unifyWithin_congr h ha hb hm hmn).symm

/-! ## Unification in step -/

/-- Two outcomes of unification correspond: the pools embed, and the errors are the same up to
`ε` and the renaming. -/
def EmbedsOutcome (n k : Nat) (ε : Idx → Idx) (rB rA : Pool × Option UnifyError) : Prop :=
  Embeds n k ε rB.1 rA.1 ∧ rA.2 = rB.2.map (UnifyError.map ε (shiftFrom n k))

namespace Embeds

variable {n k : Nat} {ε : Idx → Idx} {B A : Pool}

/-- Binding a variable and its renamed id: the occurs checks agree, and so do the links. -/
theorem bind (hB : B.WF) (hA : A.WF) (he : Embeds n k ε B A) {v : Nat} (hv : v < B.varCount)
    {t : Idx} (ht : t.raw < B.size) :
    EmbedsOutcome n k ε (B.bind v t) (A.bind (shiftFrom n k v) (ε t)) := by
  rw [bind_eq, bind_eq, he.occurs hB hA v ht]
  split
  · exact ⟨he, rfl⟩
  · exact ⟨he.link hv t, rfl⟩

/-- A fold of corresponding calls over argument pairs and their images corresponds. -/
theorem unifyPairs {fB fA : Pool → Idx → Idx → Pool × Option UnifyError}
    (hwfB : ∀ p x y, p.WF → x.raw < p.size → y.raw < p.size →
      (fB p x y).1.WF ∧ p.AddsLinks (fB p x y).1)
    (hwfA : ∀ p x y, p.WF → x.raw < p.size → y.raw < p.size →
      (fA p x y).1.WF ∧ p.AddsLinks (fA p x y).1)
    (hf : ∀ B A x y, B.WF → A.WF → Embeds n k ε B A → x.raw < B.size → y.raw < B.size →
      EmbedsOutcome n k ε (fB B x y) (fA A (ε x) (ε y))) :
    ∀ (pairs : List (Idx × Idx)) (B A : Pool), B.WF → A.WF → Embeds n k ε B A →
      (∀ pair ∈ pairs, pair.1.raw < B.size ∧ pair.2.raw < B.size) →
      EmbedsOutcome n k ε (Pool.unifyPairs fB (B, none) pairs)
        (Pool.unifyPairs fA (A, none) (pairs.map (Prod.map ε ε)))
  | [], _, _, _, _, he, _ => ⟨he, rfl⟩
  | pair :: pairs, B, A, hB, hA, he, hv => by
    rw [List.map_cons, unifyPairs_cons, unifyPairs_cons]
    have hvp := hv pair List.mem_cons_self
    obtain ⟨hB₁, hl₁⟩ := hwfB B pair.1 pair.2 hB hvp.1 hvp.2
    obtain ⟨hA₁, -⟩ := hwfA A _ _ hA (he.lt _ hvp.1) (he.lt _ hvp.2)
    have hout := hf B A pair.1 pair.2 hB hA he hvp.1 hvp.2
    simp only [Prod.map_fst, Prod.map_snd]
    cases hresB : fB B pair.1 pair.2 with
    | mk B₁ r₁ =>
      cases hresA : fA A (ε pair.1) (ε pair.2) with
      | mk A₁ s₁ =>
        rw [hresB] at hB₁ hl₁ hout
        rw [hresA] at hA₁ hout
        obtain ⟨he₁, herr⟩ := hout
        dsimp only at herr
        subst herr
        cases r₁ with
        | some e =>
          rw [Option.map_some, unifyPairs_error, unifyPairs_error]
          exact ⟨he₁, rfl⟩
        | none =>
          exact Embeds.unifyPairs hwfB hwfA hf pairs B₁ A₁ hB₁ hA₁ he₁ fun pr hpr => by
            rw [hl₁.size_eq]
            exact hv pr (List.mem_cons_of_mem pair hpr)

/-- Unifying two handles of `B`, and their images in `A` within the same budget, keeps the
pools embedded and reports corresponding errors. -/
theorem unifyWithin (m : Nat) : ∀ {B A : Pool} {a b : Idx}, B.WF → A.WF → Embeds n k ε B A →
    a.raw < B.size → b.raw < B.size →
    EmbedsOutcome n k ε (B.unifyWithin m a b) (A.unifyWithin m (ε a) (ε b)) := by
  induction m with
  | zero => exact fun _ _ he _ _ => ⟨he, rfl⟩
  | succ m ih =>
    intro B A a b hB hA he ha hb
    have ha' := resolve_lt_size hB ha
    have hb' := resolve_lt_size hB hb
    rw [unifyWithin_succ, unifyWithin_succ]
    by_cases hab : a = b
    · rw [if_pos hab, if_pos (congrArg ε hab)]
      exact ⟨he, rfl⟩
    rw [if_neg hab, if_neg fun h => hab (he.inj a b ha hb h), he.resolve hB hA ha,
      he.resolve hB hA hb]
    by_cases hr : B.resolve a = B.resolve b
    · rw [if_pos hr, if_pos (congrArg ε hr)]
      exact ⟨he, rfl⟩
    rw [if_neg hr, if_neg fun h => hr (he.inj _ _ ha' hb' h), he.item _ ha', he.item _ hb']
    cases hia : B.item (B.resolve a) <;> cases hib : B.item (B.resolve b) <;>
      simp only [Item.map] <;> try exact ⟨he, rfl⟩
    case var.var va vb =>
      -- the younger variable is linked in both pools: the renaming keeps ids in order
      by_cases hlt : va < vb
      · rw [if_pos hlt, if_pos ((strictMono_shiftFrom n k).lt_iff_lt.2 hlt)]
        exact he.bind hB hA (hB.varCount_of_item hb' hib) ha'
      · rw [if_neg hlt, if_neg (mt (strictMono_shiftFrom n k).lt_iff_lt.1 hlt)]
        exact he.bind hB hA (hB.varCount_of_item ha' hia) hb'
    case fn.fn x r y q =>
      obtain ⟨hxs, hrs⟩ := hB.fn_parts_lt hia
      obtain ⟨hys, hqs⟩ := hB.fn_parts_lt hib
      obtain ⟨hB₁, hl₁⟩ := unifyWithin_wf hB hxs hys m
      obtain ⟨hA₁, -⟩ := unifyWithin_wf hA (he.lt _ hxs) (he.lt _ hys) m
      have hout := ih hB hA he hxs hys
      -- the result pair is unified in the pools the argument pair left, if it succeeded
      cases hresB : B.unifyWithin m x y with
      | mk B₁ r₁ =>
        cases hresA : A.unifyWithin m (ε x) (ε y) with
        | mk A₁ s₁ =>
          rw [hresB] at hB₁ hl₁ hout
          rw [hresA] at hA₁ hout
          obtain ⟨he₁, herr⟩ := hout
          dsimp only at herr
          subst herr
          cases r₁ with
          | some e => exact ⟨he₁, rfl⟩
          | none => exact ih hB₁ hA₁ he₁ (hl₁.size_eq ▸ hrs) (hl₁.size_eq ▸ hqs)
    case user.user m₁ xs m₂ ys =>
      rw [List.length_map, List.length_map]
      by_cases hmn : m₁ = m₂ ∧ xs.length = ys.length
      · rw [if_pos hmn, if_pos hmn, List.zip_map]
        exact he.unifyPairs (fun p x y hp hx hy => unifyWithin_wf hp hx hy m)
          (fun p x y hp hx hy => unifyWithin_wf hp hx hy m)
          (fun B A x y hB hA he hx hy => ih hB hA he hx hy) _ B A hB hA (hB.zip_args_lt hia hib)
      · rw [if_neg hmn, if_neg hmn]
        exact ⟨he, rfl⟩
    -- a variable against anything else: the variable is linked in both pools
    case var.prim | var.fn | var.user => exact he.bind hB hA (hB.varCount_of_item ha' hia) hb'
    case prim.var | fn.var | user.var => exact he.bind hB hA (hB.varCount_of_item hb' hib) ha'

/-- Unifying two handles of `B`, each pool within its own size, and their images in `A` keeps
the pools embedded and reports corresponding errors. -/
theorem unify (hB : B.WF) (hA : A.WF) (he : Embeds n k ε B A) {a b : Idx} (ha : a.raw < B.size)
    (hb : b.raw < B.size) : EmbedsOutcome n k ε (B.unify a b) (A.unify (ε a) (ε b)) := by
  have hout := he.unifyWithin (B.size + 1) hB hA ha hb
  obtain ⟨hB₁, hl₁⟩ := unifyWithin_wf hB ha hb (B.size + 1)
  -- `A`'s own budget gives the answer the budget of `B` gives: both exceed the rank of `ε a`
  have hrank : (A.unifyWithin (B.size + 1) (ε a) (ε b)).1.rank (ε a) < B.size + 1 := by
    have := hout.1.rank_le hB₁ (hl₁.size_eq ▸ ha)
    have := hB₁.rank_lt a
    rw [hl₁.size_eq] at this
    omega
  obtain ⟨hA₁, hlA⟩ := unify_wf hA (he.lt a ha) (he.lt b hb)
  have hown : (A.unify (ε a) (ε b)).1.rank (ε a) < A.size + 1 := by
    have := hA₁.rank_lt (ε a)
    rw [hlA.size_eq] at this
    omega
  rw [Pool.unify, Pool.unify, unifyWithin_eq_of_rank hA (he.lt a ha) (he.lt b hb) hrank hown]
  exact hout

end Embeds

/-! ## Errors name handles of the pool -/

/-- A fold of calls whose errors name handles of the pool they start from does the same. -/
theorem unifyPairs_handles_lt {f : Pool → Idx → Idx → Pool × Option UnifyError}
    (hwf : ∀ p x y, p.WF → x.raw < p.size → y.raw < p.size →
      (f p x y).1.WF ∧ p.AddsLinks (f p x y).1)
    (hf : ∀ p x y, p.WF → x.raw < p.size → y.raw < p.size →
      ∀ err, (f p x y).2 = some err → ∀ h ∈ err.handles, h.raw < p.size) :
    ∀ (pairs : List (Idx × Idx)) (p : Pool), p.WF →
      (∀ pair ∈ pairs, pair.1.raw < p.size ∧ pair.2.raw < p.size) →
      ∀ err, (unifyPairs f (p, none) pairs).2 = some err → ∀ h ∈ err.handles, h.raw < p.size
  | [], _, _, _, _, herr => by cases herr
  | pair :: pairs, p, hp, hv, err, herr => by
    have hv₁ := hv pair List.mem_cons_self
    have hf₁ := hf p pair.1 pair.2 hp hv₁.1 hv₁.2
    obtain ⟨q, h₁, hl₁, hrest, ⟨e, hres, hfold⟩ | ⟨-, hfold⟩⟩ := unifyPairs_step hwf hp hv
    · rw [hfold] at herr
      rw [hres] at hf₁
      exact hf₁ err herr
    · rw [hfold] at herr
      rw [← hl₁.size_eq]
      exact unifyPairs_handles_lt hwf hf pairs q h₁ hrest err herr

/-- A failed unification names handles of the pool it started from: a mismatch names the
resolved sides, and a failed occurs check the side the variable would have been linked to. -/
theorem unifyWithin_handles_lt (h : p.WF) {a b : Idx} (ha : a.raw < p.size) (hb : b.raw < p.size)
    (n : Nat) : ∀ err, (p.unifyWithin n a b).2 = some err → ∀ x ∈ err.handles, x.raw < p.size := by
  induction n generalizing p a b with
  | zero => intro err herr; cases herr
  | succ n ih =>
    have ha' := resolve_lt_size h ha
    have hb' := resolve_lt_size h hb
    have hbind : ∀ v t, t.raw < p.size →
        ∀ err, (p.bind v t).2 = some err → ∀ x ∈ err.handles, x.raw < p.size := by
      intro v t ht err herr
      rw [bind_eq] at herr
      split at herr
      · cases herr
        simpa [UnifyError.handles] using ht
      · cases herr
    intro err herr
    rw [unifyWithin_succ] at herr
    split at herr
    · cases herr
    split at herr
    · cases herr
    split at herr
    · split at herr
      · exact hbind _ _ ha' err herr
      · exact hbind _ _ hb' err herr
    · exact hbind _ _ hb' err herr
    · exact hbind _ _ ha' err herr
    · next x r y q hx hy =>
      obtain ⟨hxs, hrs⟩ := h.fn_parts_lt hx
      obtain ⟨hys, hqs⟩ := h.fn_parts_lt hy
      obtain ⟨h₁, hl₁⟩ := unifyWithin_wf h hxs hys n
      have herr₁ := ih h hxs hys
      cases hres : p.unifyWithin n x y with
      | mk p₁ r₁ =>
        rw [hres] at h₁ hl₁ herr₁ herr
        cases r₁ with
        | some e => exact herr₁ err herr
        | none =>
          rw [← hl₁.size_eq]
          exact ih h₁ (by rw [hl₁.size_eq]; exact hrs) (by rw [hl₁.size_eq]; exact hqs) err herr
    · next m xs m' ys hx hy =>
      split at herr
      · exact unifyPairs_handles_lt (fun p x y hp hx hy => unifyWithin_wf hp hx hy n)
          (fun p x y hp hx hy => ih hp hx hy) _ p h (h.zip_args_lt hx hy) err herr
      · cases herr
        simp [UnifyError.handles, ha', hb']
    · cases herr
      simp [UnifyError.handles, ha', hb']

theorem unify_handles_lt (h : p.WF) {a b : Idx} (ha : a.raw < p.size) (hb : b.raw < p.size) :
    ∀ err, (p.unify a b).2 = some err → ∀ x ∈ err.handles, x.raw < p.size :=
  unifyWithin_handles_lt h ha hb _

end Pool

end TagML
