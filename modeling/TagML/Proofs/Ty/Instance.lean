import TagML.Proofs.Infer.Steps
import TagML.Proofs.Pool.Stable

/-!
Instances rename exactly the quantified variables, in order.

An instance of a scheme allocates one fresh variable for each quantified id, in the order the
scheme lists them, and rewrites the body in one pass with each quantified id sent to its
variable.  Nothing is linked and no other variable is allocated, so the `k`-th quantified id
becomes variable `n + k` where `n` is the variable count before the instance, and every other
variable of the body is kept.  A scheme lists its quantified ids in ascending order, so the
fresh variables follow the order of the ids they replace.

An instance of a tag uses one renaming for its argument types and its result type, rewritten
in one pass: a quantified id that occurs in several of them becomes the same variable in
each.  The tag's name, index and quantified ids are not copied, since the caller reads them
from the signature itself.
-/
namespace TagML

namespace Pool

/-- `q` extends `p` by exactly one fresh variable per id of `B`, and `ρ` sends the `k`-th id of
`B` to the `k`-th of them and every other id to itself. -/
structure RenamesApart (p q : Pool) (B : List Nat) (ρ : Nat → Term) : Prop where
  grows : p.Grows q
  varCount_eq : q.varCount = p.varCount + B.length
  fresh : ∀ k (hk : k < B.length), ρ B[k] = .var (p.varCount + k)
  keeps : ∀ v, v ∉ B → ρ v = .var v

namespace RenamesApart

variable {p q r : Pool} {B : List Nat} {ρ : Nat → Term}

theorem nil (p : Pool) : RenamesApart p p [] .var :=
  ⟨Grows.refl p, rfl, fun _ hk => absurd hk (Nat.not_lt_zero _), fun _ _ => rfl⟩

/-- A pass that allocates no variable after the renaming keeps it a renaming apart. -/
theorem grows_of_varCount (h : RenamesApart p q B ρ) (hg : q.Grows r)
    (hc : r.varCount = q.varCount) : RenamesApart p r B ρ :=
  ⟨h.grows.trans hg, hc.trans h.varCount_eq, h.fresh, h.keeps⟩

/-- A renaming apart links nothing: every variable has the link it had, and the new ones
have none. -/
theorem target?_eq (h : RenamesApart p q B ρ) (v : Nat) : q.target? v = p.target? v := by
  rcases Nat.lt_or_ge v p.varCount with hv | hv
  · exact h.grows.target?_eq v hv
  · rw [h.grows.target?_new v hv, target?_of_le p hv]

/-- Each renamed id goes to a variable allocated by the renaming. -/
theorem image_of_mem (h : RenamesApart p q B ρ) {v : Nat} (hv : v ∈ B) :
    ∃ w, p.varCount ≤ w ∧ ρ v = .var w := by
  obtain ⟨k, hk, rfl⟩ := List.getElem_of_mem hv
  exact ⟨p.varCount + k, Nat.le_add_right _ _, h.fresh k hk⟩

/-- A variable that is not renamed stays in the instance. -/
theorem mem_vars_subst_of_not_mem (h : RenamesApart p q B ρ) {t : Term} {v : Nat}
    (hv : v ∈ t.vars) (hvB : v ∉ B) : v ∈ (t.subst ρ).vars :=
  (Term.mem_vars_subst ρ t).2 ⟨v, hv, by rw [h.keeps v hvB]; exact List.mem_singleton_self v⟩

/-- When the renamed ids are variables of `p`, none of them is left in an instance. -/
theorem not_mem_vars_subst (h : RenamesApart p q B ρ) (hB : ∀ v ∈ B, v < p.varCount)
    (t : Term) {w : Nat} (hw : w ∈ B) : w ∉ (t.subst ρ).vars := by
  intro hmem
  obtain ⟨v, -, hwv⟩ := (Term.mem_vars_subst ρ t).1 hmem
  by_cases hvB : v ∈ B
  · -- a renamed id goes to a new variable, and every id of `B` is older
    obtain ⟨u, hu, hρ⟩ := h.image_of_mem hvB
    rw [hρ, Term.mem_vars_var] at hwv
    exact Nat.lt_irrefl _ (Nat.lt_of_lt_of_le (hwv ▸ hB w hw) hu)
  · rw [h.keeps v hvB, Term.mem_vars_var] at hwv
    exact hvB (hwv ▸ hw)

end RenamesApart

variable {p : Pool}

/-- The renaming `freshFor B` makes allocates the variables of `B` apart, in the order of
`B`. -/
theorem freshFor_renamesApart (h : p.WF) {B : List Nat} (hB : B.Nodup) :
    RenamesApart p (p.freshFor B).2 B ((p.freshFor B).2.image (p.freshFor B).1) := by
  induction B generalizing p with
  | nil => exact RenamesApart.nil p
  | cons u us ih =>
    obtain ⟨hu, hus⟩ := List.nodup_cons.1 hB
    obtain ⟨h₁, hg₁, ht, -⟩ := fresh_spec h
    obtain ⟨h₂, hg₂, -⟩ := freshFor_spec h₁ us
    have ih₁ := ih h₁ hus
    have hcount : p.fresh.2.varCount = p.varCount + 1 := varCount_fresh p
    -- the head id goes to the variable allocated first, the others as the tail sends them
    have hhead : (p.fresh.2.freshFor us).2.term p.fresh.1 = .var p.varCount := by
      rw [hg₂.term_eq h₁ h₂ ht, fresh_term h]
    rw [freshFor_cons]
    refine ⟨hg₁.trans ih₁.grows, by simp [ih₁.varCount_eq, hcount]; omega, fun k hk => ?_,
      fun v hv => ?_⟩
    · rw [image_cons]
      cases k with
      | zero => rw [List.getElem_cons_zero, if_pos rfl, hhead, Nat.add_zero]
      | succ k =>
        have hk' : k < us.length := Nat.lt_of_succ_lt_succ hk
        have hne : us[k] ≠ u := fun he => hu (he ▸ List.getElem_mem hk')
        rw [List.getElem_cons_succ, if_neg hne, ih₁.fresh k hk', hcount]
        exact congrArg Term.var (by omega)
    · have hvu : v ≠ u := fun he => hv (he ▸ List.mem_cons_self)
      rw [image_cons, if_neg hvu, ih₁.keeps v fun hm => hv (List.mem_cons_of_mem u hm)]

/-- A rewriting pass only interns compounds, so it allocates no variable. -/
theorem varCount_rewrite {α : Type} {pass : RewriteM α}
    (hpass : ∀ n, Rewrite.KeepsPool (fun q => q.varCount = n) pass) :
    (p.rewrite pass).2.varCount = p.varCount :=
  Stable.rewrite (hpass p.varCount) rfl

theorem substitute_keepsVarCount (σ : List (Nat × Idx)) (i : Idx) (n : Nat) :
    Rewrite.KeepsPool (fun q => q.varCount = n) (Rewrite.substitute σ i) :=
  Rewrite.substitute_keepsPool (fun p it _ hp => (varCount_intern p it).trans hp) σ i

/-- An instance of a scheme whose quantified ids are distinct renames them apart, and stands
for the body with the renaming applied. -/
theorem instantiate_renamesApart (h : p.WF) {σ : Scheme} (hb : σ.body.raw < p.size)
    (hB : σ.bounded.Nodup) :
    ∃ ρ, RenamesApart p (p.instantiate σ).2 σ.bounded ρ ∧
      (p.instantiate σ).2.term (p.instantiate σ).1 = (p.term σ.body).subst ρ := by
  unfold instantiate
  split
  · next hmono =>
    -- nothing is quantified, so the instance is the body itself
    have hnil : σ.bounded = [] := List.isEmpty_iff.1 hmono
    exact ⟨.var, hnil ▸ RenamesApart.nil p, (Term.subst_var_self _).symm⟩
  · obtain ⟨h₁, hg₁, him⟩ := freshFor_spec h σ.bounded
    obtain ⟨-, hg₂, hr⟩ := substitute_spec h₁ him (Nat.lt_of_lt_of_le hb hg₁.size_le)
    refine ⟨_, (freshFor_renamesApart h hB).grows_of_varCount hg₂
      (varCount_rewrite (substitute_keepsVarCount _ _)), ?_⟩
    rw [hr.2.2, hg₁.term_eq h h₁ hb]

end Pool

namespace InferM

open Pool

/-- An instance of a tag renames its quantified ids apart once, and its argument types and
result type stand for the signature's under that one renaming.  It never fails. -/
theorem instantiateTag_renamesApart {e : Engine} (h : e.pool.WF) {sig : TagSig}
    (hargs : ∀ a ∈ sig.args, a.raw < e.pool.size) (hres : sig.result.raw < e.pool.size)
    (hB : sig.bounded.Nodup) :
    ∃ args res q ρ, (instantiateTag sig).run e = .ok (args, res) { pool := q, tables := e.tables } ∧
      RenamesApart e.pool q sig.bounded ρ ∧
      List.Forall₂ (fun a' a => q.term a' = (e.pool.term a).subst ρ) args sig.args ∧
      q.term res = (e.pool.term sig.result).subst ρ := by
  unfold instantiateTag
  rw [withPool_run]
  have hren := freshFor_renamesApart h hB
  obtain ⟨h₁, hg₁, him⟩ := freshFor_spec h sig.bounded
  have hterm : ∀ i : Idx, i.raw < e.pool.size →
      (e.pool.freshFor sig.bounded).2.term i = e.pool.term i := fun i hi => hg₁.term_eq h h₁ hi
  generalize e.pool.freshFor sig.bounded = fm at hren h₁ hg₁ him hterm ⊢
  obtain ⟨m, p₁⟩ := fm
  dsimp only at hren h₁ hg₁ him hterm ⊢
  obtain ⟨-, hg₂, hall, -, hrt⟩ := tagPass_spec h₁ him
    (fun a ha => Nat.lt_of_lt_of_le (hargs a ha) hg₁.size_le)
    (Nat.lt_of_lt_of_le hres hg₁.size_le)
  -- the pass rewrites the arguments, then the result, and allocates nothing
  have hcount := varCount_rewrite (p := p₁) fun n =>
    (Rewrite.KeepsPool.mapM (fun a => substitute_keepsVarCount m a n) sig.args).bind fun args =>
      (substitute_keepsVarCount m sig.result n).bind fun res => Rewrite.KeepsPool.pure (args, res)
  generalize p₁.rewrite _ = r at hg₂ hall hrt hcount ⊢
  obtain ⟨⟨args, res⟩, q⟩ := r
  dsimp only at hg₂ hall hrt hcount
  refine ⟨args, res, q, p₁.image m, rfl, hren.grows_of_varCount hg₂ hcount, ?_,
    by rw [hrt, hterm _ hres]⟩
  -- the argument types were read in the renamed pool, where they stand for what they did
  refine (List.Forall₂.imp (fun a a' ha => ?_)
    ((List.forall₂_and_left _ _).2 ⟨hargs, hall.flip⟩)).flip
  exact ha.2.2.trans (by rw [hterm a ha.1])

end InferM

namespace Pool

/-- Instantiation renames exactly the quantified variables, in order.  In a reachable pool, an
instance of a scheme whose quantified ids are variables listed in ascending order allocates one
fresh variable per id, in that order, links nothing, and stands for the body with each
quantified id replaced by its variable: the other variables of the body are kept and no
quantified one is left.  With nothing quantified the instance is the body and the pool is
unchanged.  An instance of a tag applies one such renaming to every argument type and to the
result type. -/
theorem instantiate_renames_quantified (hp : p.Reachable) :
    (∀ σ : Scheme, σ.body.raw < p.size → (∀ v ∈ σ.bounded, v < p.varCount) →
      σ.bounded.Pairwise (· < ·) →
      ∃ ρ, RenamesApart p (p.instantiate σ).2 σ.bounded ρ ∧
        (p.instantiate σ).2.term (p.instantiate σ).1 = (p.term σ.body).subst ρ ∧
        (σ.bounded = [] → p.instantiate σ = (σ.body, p)) ∧
        (∀ v ∈ (p.term σ.body).vars, v ∉ σ.bounded →
          v ∈ ((p.instantiate σ).2.term (p.instantiate σ).1).vars) ∧
        ∀ v ∈ σ.bounded, v ∉ ((p.instantiate σ).2.term (p.instantiate σ).1).vars) ∧
    ∀ (sig : TagSig) (tables : Tables), (∀ a ∈ sig.args, a.raw < p.size) →
      sig.result.raw < p.size → sig.bounded.Pairwise (· < ·) →
      ∃ args res q ρ,
        (InferM.instantiateTag sig).run { pool := p, tables := tables } =
          .ok (args, res) { pool := q, tables := tables } ∧
        RenamesApart p q sig.bounded ρ ∧
        List.Forall₂ (fun a' a => q.term a' = (p.term a).subst ρ) args sig.args ∧
        q.term res = (p.term sig.result).subst ρ := by
  have h := hp.wf
  refine ⟨fun σ hb hB hsorted => ?_, fun sig tables hargs hres hsorted =>
    InferM.instantiateTag_renamesApart (e := { pool := p, tables := tables }) h hargs hres
      (hsorted.imp Nat.ne_of_lt)⟩
  obtain ⟨ρ, hren, hterm⟩ := instantiate_renamesApart h hb (hsorted.imp Nat.ne_of_lt)
  refine ⟨ρ, hren, hterm, fun hnil => ?_, fun v hv hvB => ?_, fun v hv => ?_⟩
  · have hmono : σ.isMono = true := List.isEmpty_iff.2 hnil
    unfold instantiate
    rw [if_pos hmono]
  · rw [hterm]
    exact hren.mem_vars_subst_of_not_mem hv hvB
  · rw [hterm]
    exact hren.not_mem_vars_subst hB _ hv

/-- Instances at the pool of `a` (handle 6) and `Option a` (handle 7): the scheme
`forall a. Option a` and the tag `Some : a -> Option a` each rename `a` to the next variable,
`1`, and keep the rest of the type. -/
theorem instantiate_renames_option :
    ∃ p : Pool, p = (({} : Pool).fresh.2.user "Option" [⟨6⟩]).2 ∧ p.Reachable ∧
      p.term ⟨7⟩ = .user "Option" [.var 0] ∧
      (p.instantiate ⟨[0], ⟨7⟩⟩).2.term (p.instantiate ⟨[0], ⟨7⟩⟩).1 = .user "Option" [.var 1] ∧
      ∃ args res q, (InferM.instantiateTag ⟨"Some", 1, [0], [⟨6⟩], ⟨7⟩⟩).run
          { pool := p, tables := {} } = .ok (args, res) { pool := q, tables := {} } ∧
        args.map q.term = [.var 1] ∧ q.term res = .user "Option" [.var 1] := by
  -- `Option a` is the pool's first compound, so it is interned at the pool's end
  have hopt : ({} : Pool).fresh.2.user "Option" [⟨6⟩] = _ :=
    Pool.intern_of_not_mem _ Std.HashMap.getElem?_empty
  obtain ⟨p, hp⟩ : ∃ p, p = (({} : Pool).fresh.2.user "Option" [⟨6⟩]).2 := ⟨_, rfl⟩
  have hr : p.Reachable := hp ▸ .user (.fresh .empty) (by decide)
  have h6 : p.term ⟨6⟩ = .var 0 := by rw [hp, hopt]; rfl
  have h7 : p.term ⟨7⟩ = .user "Option" [.var 0] := by rw [hp, hopt]; rfl
  have hsize : (⟨7⟩ : Idx).raw < p.size := by rw [hp, hopt]; decide
  have hvc : p.varCount = 1 := by rw [hp, hopt]; decide
  have H := instantiate_renames_quantified hr
  obtain ⟨ρ, hren, hterm, -⟩ := H.1 ⟨[0], ⟨7⟩⟩ hsize (by simp [hvc]) (by simp)
  obtain ⟨args, res, q, ρ', hrun, hren', hargs, hres⟩ :=
    H.2 ⟨"Some", 1, [0], [⟨6⟩], ⟨7⟩⟩ {} (by simpa using Nat.lt_trans (by decide) hsize) hsize
      (by simp)
  -- both renamings send the one quantified variable to the first new one
  have hρ : ρ 0 = .var 1 := by simpa [hvc] using hren.fresh 0 (by simp)
  have hρ' : ρ' 0 = .var 1 := by simpa [hvc] using hren'.fresh 0 (by simp)
  obtain ⟨a, hqa, rfl⟩ : ∃ a, q.term a = .var 1 ∧ args = [a] := by
    obtain ⟨a, l, ha, hl, rfl⟩ := List.forall₂_cons_right_iff.1 hargs
    rw [h6, Term.subst_var, hρ'] at ha
    exact ⟨a, ha, by rw [List.forall₂_nil_right_iff.1 hl]⟩
  refine ⟨p, hp, hr, h7, ?_, [a], res, q, hrun, by simp [hqa], ?_⟩
  · rw [hterm, h7]
    simp [hρ]
  · rw [hres, h7]
    simp [hρ']

end Pool

end TagML
