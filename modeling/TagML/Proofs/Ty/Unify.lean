import TagML.Ty.Unify
import TagML.Proofs.Pool.Denote

/-!
Unification computes a most general unifier, and keeps the pool well formed.

Unification changes a pool only by links, each written to a variable that is unbound when it
is written (`AddsLinks`): a bound variable keeps its link, and items, flags and the interning
map stay as they are.  Every bind first runs the occurs check, so the link never closes a
cycle and the pool stays well formed whatever the budget (`unifyWithin_wf`).

What unification achieves is read through `Sat` (`Solves`): a successful call makes the
substitutions that solve the new links exactly those that solved the old ones and make the two
sides equal, and a failed call shows that no solving substitution makes them equal
(`unifyWithin_solves`).  The budget is never used up: along one path of the
recursion each side moves from a resolved item to one of its parts, which is a path of the
final pool, so the rank of the left side in the final pool bounds the depth.
-/
namespace TagML

namespace Pool

/-- `q` is `p` with links written one at a time, each to a variable unbound when it was
written: the way unification changes a pool. -/
inductive AddsLinks : Pool → Pool → Prop
  | refl (p : Pool) : AddsLinks p p
  | link {p q : Pool} {v : Nat} (t : Idx) : AddsLinks p q → q.target? v = none →
      AddsLinks p (q.link v t)

@[simp] theorem unlinked_link (p : Pool) (v : Nat) (t : Idx) :
    (p.link v t).unlinked = p.unlinked := by
  obtain ⟨items, flags, links, varItems, interned⟩ := p
  simp only [link, unlinked, Pool.mk.injEq, and_true, true_and]
  apply Array.ext
  · simp
  · intro k hk _
    simp only [Array.getElem_map]

namespace AddsLinks

variable {p q r : Pool}

theorem trans (h₁ : p.AddsLinks q) (h₂ : q.AddsLinks r) : p.AddsLinks r := by
  induction h₂ with
  | refl => exact h₁
  | link t _ hv ih => exact .link t ih hv

theorem item_eq (h : p.AddsLinks q) : q.item = p.item := by
  induction h with
  | refl => rfl
  | link t _ _ ih => rw [item_link, ih]

theorem size_eq (h : p.AddsLinks q) : q.size = p.size := by
  induction h with
  | refl => rfl
  | link t _ _ ih => rw [size_link, ih]

theorem hasVars_eq (h : p.AddsLinks q) : q.hasVars = p.hasVars := by
  induction h with
  | refl => rfl
  | link t _ _ ih => rw [hasVars_link, ih]

theorem varItem?_eq (h : p.AddsLinks q) : q.varItem? = p.varItem? := by
  induction h with
  | refl => rfl
  | link t _ _ ih => rw [varItem?_link, ih]

theorem unlinked_eq (h : p.AddsLinks q) : q.unlinked = p.unlinked := by
  induction h with
  | refl => rfl
  | link t _ _ ih => rw [unlinked_link, ih]

theorem raw_eq (h : p.AddsLinks q) : q.raw = p.raw := by
  funext i
  simp only [raw, h.unlinked_eq]

/-- Links are written once: a link of `p` is a link of `q`. -/
theorem target?_of (h : p.AddsLinks q) {v : Nat} {t : Idx} (ht : p.target? v = some t) :
    q.target? v = some t := by
  induction h with
  | refl => exact ht
  | link s _ hv ih =>
    rw [target?_link]
    split
    · next hw =>
      obtain ⟨rfl, -⟩ := hw
      rw [ih] at hv
      cases hv
    · exact ih

theorem succ (h : p.AddsLinks q) {i j : Idx} (hs : p.Succ i j) : q.Succ i j := by
  rcases hs with hp | ⟨w, hw, ht⟩
  · left
    rwa [h.item_eq]
  · exact Or.inr ⟨w, by rw [h.item_eq]; exact hw, h.target?_of ht⟩

theorem below_of (h : p.AddsLinks q) {i j : Idx} (hb : p.Below i j) : q.Below i j :=
  Relation.TransGen.mono (fun _ _ hs => h.succ hs) _ _ hb

theorem reach (h : p.AddsLinks q) {i j : Idx} (hr : Relation.ReflTransGen p.Succ i j) :
    Relation.ReflTransGen q.Succ i j :=
  Relation.ReflTransGen.mono (fun _ _ hs => h.succ hs) _ _ hr

/-- More links, more below: ranks only grow. -/
theorem rank_le (h : p.AddsLinks q) (i : Idx) : p.rank i ≤ q.rank i :=
  rank_le_rank (by rw [h.size_eq]) (fun _ hb => h.below_of hb)

/-- A substitution solving the links of `q` solves those of `p`. -/
theorem sat (h : p.AddsLinks q) {σ : Nat → Term} (hs : q.Sat σ) : p.Sat σ := by
  intro v t ht
  rw [hs v t (h.target?_of ht), h.raw_eq]

end AddsLinks

/-! ## One level of unification -/

/-- The fold the user-type case runs over argument pairs: unify pair after pair with `f`,
keeping the first failure. -/
def unifyPairs (f : Pool → Idx → Idx → Pool × Option UnifyError) :
    Pool × Option UnifyError → List (Idx × Idx) → Pool × Option UnifyError :=
  List.foldl fun acc pair =>
    match acc with
    | (p, none) => f p pair.1 pair.2
    | failed => failed

theorem unifyPairs_nil (f : Pool → Idx → Idx → Pool × Option UnifyError)
    (acc : Pool × Option UnifyError) : unifyPairs f acc [] = acc := rfl

theorem unifyPairs_cons (f : Pool → Idx → Idx → Pool × Option UnifyError) (p : Pool)
    (pair : Idx × Idx) (pairs : List (Idx × Idx)) :
    unifyPairs f (p, none) (pair :: pairs) = unifyPairs f (f p pair.1 pair.2) pairs := rfl

/-- After a failure the fold carries it to the end. -/
theorem unifyPairs_error (f : Pool → Idx → Idx → Pool × Option UnifyError) (p : Pool)
    (e : UnifyError) : ∀ pairs, unifyPairs f (p, some e) pairs = (p, some e)
  | [] => rfl
  | _ :: pairs => unifyPairs_error f p e pairs

theorem bind_eq (p : Pool) (v : Nat) (t : Idx) :
    p.bind v t = if p.occurs v t then (p, some (.infinite v t)) else (p.link v t, none) := rfl

/-- One level of unification, with the resolved sides named. -/
theorem unifyWithin_succ (n : Nat) (p : Pool) (a b : Idx) :
    unifyWithin (n + 1) p a b =
      if a = b then (p, none)
      else if p.resolve a = p.resolve b then (p, none)
      else match p.item (p.resolve a), p.item (p.resolve b) with
        | .var va, .var vb =>
          if va < vb then p.bind vb (p.resolve a) else p.bind va (p.resolve b)
        | .var va, _ => p.bind va (p.resolve b)
        | _, .var vb => p.bind vb (p.resolve a)
        | .fn x r, .fn y q =>
          match unifyWithin n p x y with
          | (p, none) => unifyWithin n p r q
          | failed => failed
        | .user m xs, .user m' ys =>
          if m = m' ∧ xs.length = ys.length then unifyPairs (unifyWithin n) (p, none) (xs.zip ys)
          else (p, some (.mismatch (p.resolve a) (p.resolve b)))
        | _, _ => (p, some (.mismatch (p.resolve a) (p.resolve b))) := rfl

/-! ## Unification keeps the pool well formed -/

section Wf

variable {p : Pool}

/-- Binding an unbound variable keeps the invariant and only adds its link. -/
theorem bind_wf (h : p.WF) {v : Nat} {t : Idx} (ht : t.raw < p.size) (hv : p.target? v = none) :
    (p.bind v t).1.WF ∧ p.AddsLinks (p.bind v t).1 := by
  rw [bind_eq]
  split
  · exact ⟨h, .refl p⟩
  · next hocc =>
    refine ⟨h.link ht (fun x hx hr => hocc ?_), .link t (.refl p) hv⟩
    rw [occurs_iff h]
    exact ⟨x, hr, (h.varItem?_spec hx).2⟩

/-- One step of the fold over pairs of handles, when each call keeps the invariant and only
adds links: the head call leaves such a pool, in which the remaining pairs are still pairs of
handles; if it failed, its result is the fold's, and otherwise the fold goes on from there. -/
theorem unifyPairs_step {f : Pool → Idx → Idx → Pool × Option UnifyError}
    (hf : ∀ p x y, p.WF → x.raw < p.size → y.raw < p.size →
      (f p x y).1.WF ∧ p.AddsLinks (f p x y).1)
    {pair : Idx × Idx} {pairs : List (Idx × Idx)} (h : p.WF)
    (hv : ∀ pr ∈ pair :: pairs, pr.1.raw < p.size ∧ pr.2.raw < p.size) :
    ∃ p₁, p₁.WF ∧ p.AddsLinks p₁ ∧ (∀ pr ∈ pairs, pr.1.raw < p₁.size ∧ pr.2.raw < p₁.size) ∧
      ((∃ e, f p pair.1 pair.2 = (p₁, some e) ∧
          unifyPairs f (p, none) (pair :: pairs) = (p₁, some e)) ∨
        (f p pair.1 pair.2 = (p₁, none) ∧
          unifyPairs f (p, none) (pair :: pairs) = unifyPairs f (p₁, none) pairs)) := by
  have hvp := hv pair List.mem_cons_self
  obtain ⟨h₁, hl₁⟩ := hf p pair.1 pair.2 h hvp.1 hvp.2
  refine ⟨_, h₁, hl₁, fun pr hpr => ?_, ?_⟩
  · rw [hl₁.size_eq]
    exact hv pr (List.mem_cons_of_mem pair hpr)
  · rw [unifyPairs_cons]
    cases hres : f p pair.1 pair.2 with
    | mk p₁ r₁ =>
      cases r₁ with
      | some e => exact .inl ⟨e, rfl, unifyPairs_error f p₁ e pairs⟩
      | none => exact .inr ⟨rfl, rfl⟩

/-- A fold of calls that each keep the invariant and only add links does the same. -/
theorem unifyPairs_wf {f : Pool → Idx → Idx → Pool × Option UnifyError}
    (hf : ∀ p x y, p.WF → x.raw < p.size → y.raw < p.size →
      (f p x y).1.WF ∧ p.AddsLinks (f p x y).1) :
    ∀ (pairs : List (Idx × Idx)) (p : Pool), p.WF →
      (∀ pair ∈ pairs, pair.1.raw < p.size ∧ pair.2.raw < p.size) →
      (unifyPairs f (p, none) pairs).1.WF ∧ p.AddsLinks (unifyPairs f (p, none) pairs).1
  | [], p, h, _ => ⟨h, .refl p⟩
  | _ :: pairs, _, h, hv => by
    obtain ⟨p₁, h₁, hl₁, hrest, ⟨e, -, hfold⟩ | ⟨-, hfold⟩⟩ := unifyPairs_step hf h hv
    · rw [hfold]
      exact ⟨h₁, hl₁⟩
    · rw [hfold]
      obtain ⟨h₂, hl₂⟩ := unifyPairs_wf hf pairs p₁ h₁ hrest
      exact ⟨h₂, hl₁.trans hl₂⟩

/-- Unification keeps the invariant whatever its budget, and only adds links, each to a
variable unbound when it is written. -/
theorem unifyWithin_wf (h : p.WF) {a b : Idx} (ha : a.raw < p.size) (hb : b.raw < p.size)
    (n : Nat) : (p.unifyWithin n a b).1.WF ∧ p.AddsLinks (p.unifyWithin n a b).1 := by
  induction n generalizing p a b with
  | zero => exact ⟨h, .refl p⟩
  | succ n ih =>
    have ha' := resolve_lt_size h ha
    have hb' := resolve_lt_size h hb
    rw [unifyWithin_succ]
    split
    · exact ⟨h, .refl p⟩
    split
    · exact ⟨h, .refl p⟩
    split
    · next va vb hva hvb =>
      split
      · exact bind_wf h ha' (target?_resolve h hvb)
      · exact bind_wf h hb' (target?_resolve h hva)
    · next va hva _ => exact bind_wf h hb' (target?_resolve h hva)
    · next vb hvb _ => exact bind_wf h ha' (target?_resolve h hvb)
    · next x r y q hx hy =>
      obtain ⟨hxs, hrs⟩ := h.fn_parts_lt hx
      obtain ⟨hys, hqs⟩ := h.fn_parts_lt hy
      obtain ⟨h₁, hl₁⟩ := ih h hxs hys
      cases hres : p.unifyWithin n x y with
      | mk p₁ r₁ =>
        rw [hres] at h₁ hl₁
        cases r₁ with
        | some e => exact ⟨h₁, hl₁⟩
        | none =>
          obtain ⟨h₂, hl₂⟩ := ih h₁ (by rw [hl₁.size_eq]; exact hrs) (by rw [hl₁.size_eq]; exact hqs)
          exact ⟨h₂, hl₁.trans hl₂⟩
    · next m xs m' ys hx hy =>
      split
      · exact unifyPairs_wf (fun p x y hp hx hy => ih hp hx hy) _ p h (h.zip_args_lt hx hy)
      · exact ⟨h, .refl p⟩
    · exact ⟨h, .refl p⟩

theorem unify_wf (h : p.WF) {a b : Idx} (ha : a.raw < p.size) (hb : b.raw < p.size) :
    (p.unify a b).1.WF ∧ p.AddsLinks (p.unify a b).1 :=
  unifyWithin_wf h ha hb _

end Wf

/-! ## What unification achieves -/

/-- What a unification of `a` with `b` from `p` achieves, given where it ends: on success the
substitutions solving the new links are exactly those solving the old links and equating the
two sides; on failure no substitution solving the old links equates them. -/
def Solves (p : Pool) (a b : Idx) : Pool × Option UnifyError → Prop
  | (q, none) => ∀ σ, q.Sat σ ↔ p.Sat σ ∧ (p.raw a).subst σ = (p.raw b).subst σ
  | (_, some _) => ∀ σ, p.Sat σ → (p.raw a).subst σ ≠ (p.raw b).subst σ

section Solves

variable {p : Pool}

/-- Two equations with the same solutions among the link-solving substitutions are solved by
the same calls. -/
theorem Solves.congr {a b c d : Idx}
    (hiff : ∀ σ, p.Sat σ →
      ((p.raw a).subst σ = (p.raw b).subst σ ↔ (p.raw c).subst σ = (p.raw d).subst σ)) :
    ∀ {res : Pool × Option UnifyError}, Solves p c d res → Solves p a b res
  | (q, none), hs => fun σ => by
    rw [hs σ]
    exact ⟨fun ⟨h₁, h₂⟩ => ⟨h₁, (hiff σ h₁).2 h₂⟩, fun ⟨h₁, h₂⟩ => ⟨h₁, (hiff σ h₁).1 h₂⟩⟩
  | (_, some _), hs => fun σ hσ he => hs σ hσ ((hiff σ hσ).1 he)

/-- Resolving both sides, or swapping them, changes nothing a call must achieve. -/
theorem Solves.of_resolve (h : p.WF) {a b c d : Idx}
    (hcd : (c = p.resolve a ∧ d = p.resolve b) ∨ (c = p.resolve b ∧ d = p.resolve a))
    {res : Pool × Option UnifyError} (hs : Solves p c d res) : Solves p a b res := by
  refine Solves.congr (fun σ hσ => ?_) hs
  rcases hcd with ⟨rfl, rfl⟩ | ⟨rfl, rfl⟩
  · rw [raw_subst_resolve h hσ, raw_subst_resolve h hσ]
  · rw [raw_subst_resolve h hσ, raw_subst_resolve h hσ]
    exact eq_comm

@[simp] theorem raw_link (v : Nat) (t : Idx) : (p.link v t).raw = p.raw := by
  funext i
  simp only [raw, unlinked_link]

/-- Binding an unbound variable's item `x` to `t` solves the equation `x = t`, or shows it
unsolvable when the occurs check fires on a `t` that is not a variable. -/
theorem bind_solves (h : p.WF) {x t : Idx} {v : Nat} (hx : p.item x = .var v)
    (hv : p.target? v = none) (hnv : p.occurs v t = true → ∀ w, p.item t ≠ .var w) :
    Solves p x t (p.bind v t) := by
  have hvc : v < p.varCount := h.varCount_of_item (lt_size_of_item p hx (by simp)) hx
  rw [bind_eq]
  split
  · next hocc =>
    intro σ hσ he
    rw [raw_of_var h hx, Term.subst_var, ← subst_term_of_sat h hσ] at he
    have hmem := mem_vars_term_of_occurs h hv ((occurs_iff h v t).1 hocc)
    exact Term.ne_subst_of_mem_vars σ hmem (term_ne_var h (hnv hocc)) he
  · intro σ
    constructor
    · intro hs
      refine ⟨fun w s hws => ?_, ?_⟩
      · have hne : w ≠ v := by
          rintro rfl
          rw [hv] at hws
          cases hws
        have := hs w s (by rw [target?_link, if_neg (fun hw => hne hw.1)]; exact hws)
        rwa [raw_link] at this
      · have := hs v t (by rw [target?_link, if_pos ⟨rfl, hvc⟩])
        rw [raw_link] at this
        rw [raw_of_var h hx, Term.subst_var]
        exact this
    · rintro ⟨hσ, he⟩ w s hws
      rw [raw_link]
      rw [target?_link] at hws
      split at hws
      · next hw =>
        obtain ⟨rfl, -⟩ := hw
        cases hws
        rw [raw_of_var h hx, Term.subst_var] at he
        exact he
      · exact hσ w s hws

/-- Two distinct handles that are not variables, not both functions, and not both user types
of one name and argument count, have no common instance. -/
theorem solves_mismatch (h : p.WF) {a b : Idx} (ha : a.raw < p.size) (hb : b.raw < p.size)
    (hne : a ≠ b) (hav : ∀ v, p.item a ≠ .var v) (hbv : ∀ v, p.item b ≠ .var v)
    (hfn : ∀ x r y q, p.item a = .fn x r → p.item b = .fn y q → False)
    (husr : ∀ m xs m' ys, p.item a = .user m xs → p.item b = .user m' ys →
      m = m' ∧ xs.length = ys.length → False) (e : UnifyError) :
    Solves p a b (p, some e) := by
  intro σ _ he
  rw [raw_eq h a, raw_eq h b] at he
  cases hia : p.item a <;> cases hib : p.item b <;>
    simp only [hia, hib, Term.subst_prim, Term.subst_fn, Term.subst_user, reduceCtorEq] at he
  case prim.prim q q' =>
    cases he
    exact hne ((h.prim_unique a q ha hia).trans (h.prim_unique b q hb hib).symm)
  case var.prim => exact hav _ hia
  case var.var => exact hav _ hia
  case var.fn => exact hav _ hia
  case var.user => exact hav _ hia
  case prim.var => exact hbv _ hib
  case fn.var => exact hbv _ hib
  case user.var => exact hbv _ hib
  case fn.fn => exact hfn _ _ _ _ hia hib
  case user.user m xs m' ys =>
    obtain ⟨hm, hargs⟩ := Term.user.inj he
    have hlen := congrArg List.length hargs
    simp only [List.length_map] at hlen
    exact husr m xs m' ys hia hib ⟨hm, hlen⟩

/-- `Solves` for several equations at once. -/
def SolvesAll (p : Pool) (pairs : List (Idx × Idx)) : Pool × Option UnifyError → Prop
  | (q, none) => ∀ σ, q.Sat σ ↔
      p.Sat σ ∧ ∀ pair ∈ pairs, (p.raw pair.1).subst σ = (p.raw pair.2).subst σ
  | (_, some _) => ∀ σ, p.Sat σ →
      ¬ ∀ pair ∈ pairs, (p.raw pair.1).subst σ = (p.raw pair.2).subst σ

/-- Lists of equal length have equal images exactly when each pair of members does. -/
private theorem map_eq_map_iff_zip {f : Idx → Term} :
    ∀ {xs ys : List Idx}, xs.length = ys.length →
      (xs.map f = ys.map f ↔ ∀ pair ∈ xs.zip ys, f pair.1 = f pair.2)
  | [], [], _ => by simp
  | [], _ :: _, hl => by simp at hl
  | _ :: _, [], hl => by simp at hl
  | x :: xs, y :: ys, hl => by
    simp only [List.length_cons, Nat.add_right_cancel_iff] at hl
    simp only [List.map_cons, List.cons.injEq, List.zip_cons_cons, List.forall_mem_cons,
      map_eq_map_iff_zip hl]

/-- The fold over argument pairs achieves `SolvesAll` when each call achieves `Solves` within
its budget. -/
theorem unifyPairs_solves {f : Pool → Idx → Idx → Pool × Option UnifyError} {n : Nat}
    (hwf : ∀ p x y, p.WF → x.raw < p.size → y.raw < p.size →
      (f p x y).1.WF ∧ p.AddsLinks (f p x y).1)
    (hf : ∀ p x y, p.WF → x.raw < p.size → y.raw < p.size → (f p x y).1.rank x < n →
      Solves p x y (f p x y)) :
    ∀ (pairs : List (Idx × Idx)) (p : Pool), p.WF →
      (∀ pair ∈ pairs, pair.1.raw < p.size ∧ pair.2.raw < p.size) →
      (∀ pair ∈ pairs, (unifyPairs f (p, none) pairs).1.rank pair.1 < n) →
      SolvesAll p pairs (unifyPairs f (p, none) pairs)
  | [], p, _, _, _ => fun σ => by simp
  | pair :: pairs, p, h, hv, hn => by
    have hvp := hv pair List.mem_cons_self
    obtain ⟨p₁, h₁, hl₁, hrest, ⟨e, hres, hfold⟩ | ⟨hres, hfold⟩⟩ := unifyPairs_step hwf h hv
    · rw [hfold] at hn ⊢
      have hs := hf p pair.1 pair.2 h hvp.1 hvp.2 (by rw [hres]; exact hn pair List.mem_cons_self)
      rw [hres] at hs
      exact fun σ hσ hall => hs σ hσ (hall pair List.mem_cons_self)
    · rw [hfold] at hn ⊢
      -- the rest of the fold only adds links, so ranks there bound ranks after the head call
      have hl₂ := (unifyPairs_wf hwf pairs p₁ h₁ hrest).2
      have hs := hf p pair.1 pair.2 h hvp.1 hvp.2 (by
        rw [hres]
        exact Nat.lt_of_le_of_lt (hl₂.rank_le _) (hn pair List.mem_cons_self))
      rw [hres] at hs
      have ih := unifyPairs_solves hwf hf pairs p₁ h₁ hrest
        (fun pr hpr => hn pr (List.mem_cons_of_mem pair hpr))
      have hraw : p₁.raw = p.raw := hl₁.raw_eq
      cases hfin : unifyPairs f (p₁, none) pairs with
      | mk q r =>
        rw [hfin] at ih
        cases r with
        | none =>
          intro σ
          have ih' : q.Sat σ ↔ p₁.Sat σ ∧
              ∀ pr ∈ pairs, (p₁.raw pr.1).subst σ = (p₁.raw pr.2).subst σ := ih σ
          rw [ih', hraw, hs σ, List.forall_mem_cons, and_assoc]
        | some e =>
          intro σ hσ hall
          have ih' : p₁.Sat σ →
              ¬ ∀ pr ∈ pairs, (p₁.raw pr.1).subst σ = (p₁.raw pr.2).subst σ := ih σ
          rw [hraw] at ih'
          exact ih' ((hs σ).2 ⟨hσ, hall pair List.mem_cons_self⟩)
            (fun pr hpr => hall pr (List.mem_cons_of_mem pair hpr))

/-- Under a solving substitution, two handles resolving to functions have equal instances
exactly when arguments and results do. -/
theorem subst_eq_iff_of_fn (h : p.WF) {σ : Nat → Term} (hσ : p.Sat σ) {a b x r y q : Idx}
    (hx : p.item (p.resolve a) = .fn x r) (hy : p.item (p.resolve b) = .fn y q) :
    (p.raw a).subst σ = (p.raw b).subst σ ↔
      (p.raw x).subst σ = (p.raw y).subst σ ∧ (p.raw r).subst σ = (p.raw q).subst σ := by
  rw [← raw_subst_resolve h hσ a, ← raw_subst_resolve h hσ b, raw_of_fn h hx, raw_of_fn h hy,
    Term.subst_fn, Term.subst_fn, Term.fn.injEq]

/-- Under a solving substitution, two handles resolving to user types of one name and argument
count have equal instances exactly when each pair of arguments does. -/
theorem subst_eq_iff_of_user (h : p.WF) {σ : Nat → Term} (hσ : p.Sat σ) {a b : Idx}
    {m : String} {xs ys : List Idx} (hx : p.item (p.resolve a) = .user m xs)
    (hy : p.item (p.resolve b) = .user m ys) (hl : xs.length = ys.length) :
    (p.raw a).subst σ = (p.raw b).subst σ ↔
      ∀ pair ∈ xs.zip ys, (p.raw pair.1).subst σ = (p.raw pair.2).subst σ := by
  rw [← raw_subst_resolve h hσ a, ← raw_subst_resolve h hσ b, raw_of_user h hx,
    raw_of_user h hy, Term.subst_user, Term.subst_user, Term.user.injEq, List.map_map,
    List.map_map]
  simp only [true_and]
  exact map_eq_map_iff_zip hl

/-- Solving `c = d` in the pool an earlier call left solves `a = b`, when `a = b` amounts to
the earlier equation together with `c = d`. -/
theorem Solves.seq {a b x y c d : Idx} {p₁ : Pool} (hl : p.AddsLinks p₁)
    (hiff : ∀ σ, p.Sat σ → ((p.raw a).subst σ = (p.raw b).subst σ ↔
      (p.raw x).subst σ = (p.raw y).subst σ ∧ (p.raw c).subst σ = (p.raw d).subst σ))
    (h₁ : Solves p x y (p₁, none)) :
    ∀ {res : Pool × Option UnifyError}, Solves p₁ c d res → Solves p a b res
  | (q, none), h₂ => fun σ => by
    have h₂' : q.Sat σ ↔ p₁.Sat σ ∧ (p₁.raw c).subst σ = (p₁.raw d).subst σ := h₂ σ
    rw [h₂', hl.raw_eq, h₁ σ]
    constructor
    · rintro ⟨⟨hσ, hxy⟩, hcd⟩
      exact ⟨hσ, (hiff σ hσ).2 ⟨hxy, hcd⟩⟩
    · rintro ⟨hσ, hab⟩
      exact ⟨⟨hσ, ((hiff σ hσ).1 hab).1⟩, ((hiff σ hσ).1 hab).2⟩
  | (_, some _), h₂ => fun σ hσ hab => by
    have h₂' : p₁.Sat σ → (p₁.raw c).subst σ ≠ (p₁.raw d).subst σ := h₂ σ
    rw [hl.raw_eq] at h₂'
    obtain ⟨hxy, hcd⟩ := (hiff σ hσ).1 hab
    exact h₂' ((h₁ σ).2 ⟨hσ, hxy⟩) hcd

/-- `SolvesAll` for equations that together amount to `a = b` is `Solves` for `a = b`. -/
theorem SolvesAll.solves {a b : Idx} {pairs : List (Idx × Idx)}
    (hiff : ∀ σ, p.Sat σ → ((p.raw a).subst σ = (p.raw b).subst σ ↔
      ∀ pair ∈ pairs, (p.raw pair.1).subst σ = (p.raw pair.2).subst σ)) :
    ∀ {res : Pool × Option UnifyError}, SolvesAll p pairs res → Solves p a b res
  | (q, none), hs => fun σ => by
    have hs' : q.Sat σ ↔ p.Sat σ ∧
        ∀ pair ∈ pairs, (p.raw pair.1).subst σ = (p.raw pair.2).subst σ := hs σ
    rw [hs']
    exact ⟨fun ⟨hσ, hall⟩ => ⟨hσ, (hiff σ hσ).2 hall⟩, fun ⟨hσ, hab⟩ => ⟨hσ, (hiff σ hσ).1 hab⟩⟩
  | (_, some _), hs => fun σ hσ hab => hs σ hσ ((hiff σ hσ).1 hab)

/-- Unification achieves `Solves` when its budget exceeds the rank of the expected side in the
pool it ends with. -/
theorem unifyWithin_solves (h : p.WF) {a b : Idx} (ha : a.raw < p.size) (hb : b.raw < p.size)
    {n : Nat} (hn : (p.unifyWithin n a b).1.rank a < n) : Solves p a b (p.unifyWithin n a b) := by
  induction n generalizing p a b with
  | zero => exact absurd hn (Nat.not_lt_zero _)
  | succ n ih =>
    have ha' := resolve_lt_size h ha
    have hb' := resolve_lt_size h hb
    -- a part of `a`'s resolved item stays below `a` in every pool the call passes through
    have hlow : ∀ {q : Pool} {c : Idx}, q.WF → p.AddsLinks q → p.Succ (p.resolve a) c →
        q.rank c < q.rank a := fun hq hl hc =>
      rank_lt_of_below hq.acyclic hq.closed
        (hl.below_of (Relation.TransGen.tail' (reach_resolve h a) hc))
    obtain ⟨hq, hl⟩ := unifyWithin_wf h ha hb (n + 1)
    generalize hres : p.unifyWithin (n + 1) a b = res at hn hq hl ⊢
    rw [unifyWithin_succ] at hres
    split at hres
    · next hab =>
      subst hres hab
      exact fun σ => ⟨fun hσ => ⟨hσ, rfl⟩, And.left⟩
    split at hres
    · next hr =>
      subst hres
      refine fun σ => ⟨fun hσ => ⟨hσ, ?_⟩, And.left⟩
      rw [← raw_subst_resolve h hσ a, hr, raw_subst_resolve h hσ b]
    next hne =>
    split at hres
    · next va vb hva hvb =>
      -- distinct unbound variables: neither occurs in the other's item
      have hva' := target?_resolve h hva
      have hvb' := target?_resolve h hvb
      have hvv : va ≠ vb := by
        rintro rfl
        exact hne (Option.some.inj
          ((h.var_unique _ _ ha' hva).symm.trans (h.var_unique _ _ hb' hvb)))
      split at hres
      · subst hres
        refine Solves.of_resolve h (Or.inr ⟨rfl, rfl⟩) (bind_solves h hvb hvb' fun hocc => ?_)
        exact absurd ((occurs_of_unbound hva hva').1 ((occurs_iff h vb _).1 hocc)) hvv.symm
      · subst hres
        refine Solves.of_resolve h (Or.inl ⟨rfl, rfl⟩) (bind_solves h hva hva' fun hocc => ?_)
        exact absurd ((occurs_of_unbound hvb hvb').1 ((occurs_iff h va _).1 hocc)) hvv
    · next va hva hnv =>
      subst hres
      exact Solves.of_resolve h (Or.inl ⟨rfl, rfl⟩)
        (bind_solves h hva (target?_resolve h hva) fun _ => hnv)
    · next vb hvb hnv =>
      subst hres
      exact Solves.of_resolve h (Or.inr ⟨rfl, rfl⟩)
        (bind_solves h hvb (target?_resolve h hvb) fun _ => hnv)
    · next x r y q hx hy =>
      obtain ⟨hxs, hrs⟩ := h.fn_parts_lt hx
      obtain ⟨hys, hqs⟩ := h.fn_parts_lt hy
      have hiff : ∀ σ, p.Sat σ → ((p.raw a).subst σ = (p.raw b).subst σ ↔
          (p.raw x).subst σ = (p.raw y).subst σ ∧ (p.raw r).subst σ = (p.raw q).subst σ) :=
        fun σ hσ => subst_eq_iff_of_fn h hσ hx hy
      have hxa := fun {q} hq hl => hlow (q := q) hq hl ((succ_of_fn hx).2 (Or.inl rfl))
      have hra := fun {q} hq hl => hlow (q := q) hq hl ((succ_of_fn hx).2 (Or.inr rfl))
      obtain ⟨h₁, hl₁⟩ := unifyWithin_wf h hxs hys n
      have ih₁ := fun hn₁ => ih h hxs hys hn₁
      cases hfst : p.unifyWithin n x y with
      | mk p₁ r₁ =>
        rw [hfst] at h₁ hl₁ ih₁ hres
        cases r₁ with
        | some e =>
          subst hres
          have hs₁ := ih₁ (Nat.lt_of_lt_of_le (hxa h₁ hl₁) (Nat.le_of_lt_succ hn))
          exact fun σ hσ hab => hs₁ σ hσ ((hiff σ hσ).1 hab).1
        | none =>
          subst hres
          have hs₁ := ih₁ (Nat.lt_of_le_of_lt ((unifyWithin_wf h₁ (hl₁.size_eq ▸ hrs)
            (hl₁.size_eq ▸ hqs) n).2.rank_le x)
            (Nat.lt_of_lt_of_le (hxa hq hl) (Nat.le_of_lt_succ hn)))
          have hs₂ := ih h₁ (hl₁.size_eq ▸ hrs) (hl₁.size_eq ▸ hqs)
            (Nat.lt_of_lt_of_le (hra hq hl) (Nat.le_of_lt_succ hn))
          exact Solves.seq hl₁ hiff hs₁ hs₂
    · next m xs m' ys hx hy =>
      split at hres
      · next hmn =>
        obtain ⟨rfl, hlen⟩ := hmn
        subst hres
        refine SolvesAll.solves (fun σ hσ => subst_eq_iff_of_user h hσ hx hy hlen)
          (unifyPairs_solves (fun p x y hp hx hy => unifyWithin_wf hp hx hy n)
            (fun p x y hp hx hy hn => ih hp hx hy hn) _ p h (h.zip_args_lt hx hy)
            fun pair hpair => ?_)
        have hpa := hlow hq hl ((succ_of_user hx).2 (List.of_mem_zip hpair).1)
        omega
      · next hmn =>
        subst hres
        refine Solves.of_resolve h (Or.inl ⟨rfl, rfl⟩)
          (solves_mismatch h ha' hb' hne (fun v hv => ?_) (fun v hv => ?_) (fun _ _ _ _ hf => ?_)
            (fun _ _ _ _ hu hu' hmn' => ?_) _)
        · rw [hx] at hv
          cases hv
        · rw [hy] at hv
          cases hv
        · rw [hx] at hf
          cases hf
        · rw [hx] at hu
          rw [hy] at hu'
          cases hu
          cases hu'
          exact hmn hmn'
    · next hav hbv _ hfn husr =>
      subst hres
      exact solves_mismatch h ha' hb' hne hav hbv hfn (fun m xs m' ys hx hy _ => husr m xs m' ys hx hy) _
      |> Solves.of_resolve h (Or.inl ⟨rfl, rfl⟩)

theorem unify_solves (h : p.WF) {a b : Idx} (ha : a.raw < p.size) (hb : b.raw < p.size) :
    Solves p a b (p.unify a b) := by
  obtain ⟨hq, hl⟩ := unify_wf h ha hb
  have hlt := hq.rank_lt a
  rw [hl.size_eq] at hlt
  exact unifyWithin_solves h ha hb (Nat.lt_succ_of_lt hlt)

/-- When the occurs check fires, unification reports the infinite type and links nothing: an
unbound variable occurring in what a non-variable type stands for is never made equal to it. -/
theorem unify_of_occurs (h : p.WF) {x t : Idx} {v : Nat} (hx : p.item x = .var v)
    (hv : p.target? v = none) (ht : ∀ w, p.item (p.resolve t) ≠ .var w)
    (hocc : v ∈ (p.term t).vars) : p.unify x t = (p, some (.infinite v (p.resolve t))) := by
  have hxs : p.resolve x = x := resolve_of_settled h fun w hw => by
    rw [hx] at hw
    cases hw
    exact hv
  have hne : x ≠ p.resolve t := fun he => ht v (he ▸ hx)
  have hne' : x ≠ t := by
    rintro rfl
    exact hne hxs.symm
  have hoc : p.occurs v (p.resolve t) = true :=
    (occurs_iff h v _).2 (occurs_of_mem_vars_term h (by rwa [term_resolve h]))
  rw [unify, unifyWithin_succ, if_neg hne', hxs, if_neg hne, hx]
  cases hit : p.item (p.resolve t) with
  | var w => exact absurd hit (ht w)
  | prim _ | fn _ _ | user _ _ =>
    dsimp only
    rw [bind_eq, if_pos hoc]

end Solves

end Pool

end TagML
