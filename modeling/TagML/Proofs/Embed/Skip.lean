import TagML.Proofs.Embed.Check
import TagML.Session

/-!
# Skipping a form

A session under the `proceed` policy checks forms one after another and goes on after a failure
(`Checker.checkEach`, which `Session.run_proceed` reads off `Session.run`).  Whether or not a form
that fails, or one that only evaluates an expression, is checked first, the forms after it give
corresponding results (`checkEach_skip`).  The theorem starts from any reachable checker, so it
also covers a form that follows others: those others give the same results in both runs
(`Checker.checkEach_append`), and they leave a reachable checker (`Checker.Reachable.checkEach`).

Such a form leaves the context as it was and links no variable allocated before it
(`Checker.Reachable.target?_checkForm`).  So the checker before it embeds into the checker after
it with the identity on handles (`Checker.Embeds.skip`), and the variables it allocated are the
ones that `shiftFrom n k` steps over.  The step lemma `Checker.Embeds.checkForm` then carries the
embedding from form to form (`Checker.Embeds.checkEach`).
-/

namespace TagML

open Pool (SameBelow)

/-! ## Checking forms one after another -/

/-- Check every form in order and go on after a failure, in the checker the failure left.  The
result is each form's outcome together with the pool it is read in, and the checker after the
last form. -/
def Checker.checkEach (c : Checker) :
    List Form → List (Except CheckError Checked × Pool) × Checker
  | [] => ([], c)
  | f :: fs =>
    let r := c.checkForm f
    let rest := r.1.checkEach fs
    ((r.2, r.1.pool) :: rest.1, rest.2)

/-- Checking a list in two parts: the second part is checked in the checker the first leaves. -/
theorem Checker.checkEach_append (c : Checker) (pre post : List Form) :
    c.checkEach (pre ++ post) =
      ((c.checkEach pre).1 ++ ((c.checkEach pre).2.checkEach post).1,
        ((c.checkEach pre).2.checkEach post).2) := by
  induction pre generalizing c with
  | nil => rfl
  | cons f pre ih => simp only [List.cons_append, Checker.checkEach, ih]

/-- Checking forms one after another from a reachable checker reaches a reachable checker. -/
theorem Checker.Reachable.checkEach {c : Checker} (hc : c.Reachable) (fs : List Form) :
    (c.checkEach fs).2.Reachable := by
  induction fs generalizing c with
  | nil => exact hc
  | cons f fs ih => exact ih (Checker.Reachable.checkForm f hc)

/-- The report line for a form's result, read in its pool. -/
def Entry.ofResult (f : Form) (r : Except CheckError Checked × Pool) : Entry :=
  match r.1 with
  | .ok done => Session.describe r.2 f done.outcome
  | .error err => .failed (err.diagnostic r.2)

/-- Under the `proceed` policy a session checks its forms one after another.  It ends in the
checker the forms leave and reports each form's result. -/
theorem Session.run_proceed (ses : Session) (hp : ses.config.errorPolicy = .proceed)
    (fs : List Form) :
    (ses.run fs).1 = { ses with checker := (ses.checker.checkEach fs).2 } ∧
      (ses.run fs).2.entries = List.zipWith Entry.ofResult fs (ses.checker.checkEach fs).1 := by
  induction fs generalizing ses with
  | nil => exact ⟨rfl, rfl⟩
  | cons f fs ih =>
    simp only [Session.run, Checker.checkEach]
    generalize ses.checker.checkForm f = r
    obtain ⟨c, res⟩ := r
    obtain ⟨hses, hentries⟩ := ih { ses with checker := c } hp
    generalize ({ ses with checker := c } : Session).run fs = out at hses hentries
    obtain ⟨ses', rest⟩ := out
    cases res with
    | ok done => exact ⟨hses, by rw [hentries]; rfl⟩
    | error err =>
      simp only [hp, reduceCtorEq, if_false]
      exact ⟨hses, by rw [hentries]; rfl⟩

/-! ## The identity renaming below the variables allocated -/

section Identity

variable {n k : Nat}

theorem map_shiftFrom_of_lt {l : List Nat} (h : ∀ v ∈ l, v < n) : l.map (shiftFrom n k) = l := by
  refine (List.map_congr_left fun v hv => ?_).trans (List.map_id l)
  rw [shiftFrom, if_pos (h v hv), id]

theorem Item.map_id_shiftFrom {it : Item} (h : ∀ v, it = .var v → v < n) :
    it.map id (shiftFrom n k) = it := by
  cases it with
  | prim q => rfl
  | var v => rw [Item.map, shiftFrom, if_pos (h v rfl)]
  | fn a r => rfl
  | user name args => rw [Item.map, List.map_id]

theorem Scheme.map_id_shiftFrom {σ : Scheme} (h : ∀ v ∈ σ.bounded, v < n) :
    σ.map id (shiftFrom n k) = σ := by
  rw [Scheme.map, map_shiftFrom_of_lt h]
  rfl

theorem TagSig.map_id_shiftFrom {sig : TagSig} (h : ∀ v ∈ sig.bounded, v < n) :
    sig.map id (shiftFrom n k) = sig := by
  rw [TagSig.map, map_shiftFrom_of_lt h, List.map_id]
  rfl

theorem Env.map_eq_self {α : Type} {f : α → α} {e : Env α} (h : ∀ b ∈ e.bindings, f b.2 = b.2) :
    e.map f = e := by
  refine Env.ext ?_ rfl
  refine (List.map_congr_left fun b hb => ?_).trans (List.map_id e.bindings)
  rw [h b hb]
  rfl

/-- A context whose quantified variables all come before `n` is its own image under the
identity on handles. -/
theorem Context.map_id_shiftFrom {ctx : Context} (h : ∀ v ∈ ctx.quantified, v < n) :
    ctx.map id (shiftFrom n k) = ctx := by
  have hvars : ctx.vars.map (Scheme.map id (shiftFrom n k)) = ctx.vars :=
    Env.map_eq_self fun b hb => Scheme.map_id_shiftFrom fun v hv => h v (Or.inl ⟨b, hb, hv⟩)
  have htags : ctx.tags.map (TagSig.map id (shiftFrom n k)) = ctx.tags :=
    Env.map_eq_self fun b hb => TagSig.map_id_shiftFrom fun v hv => h v (Or.inr ⟨b, hb, hv⟩)
  rw [Context.map, hvars, htags]

end Identity

/-- Checking a form links no variable allocated before it. -/
theorem Checker.Reachable.target?_checkForm {c : Checker} (hc : c.Reachable) (form : Form)
    {v : Nat} (hv : v < c.pool.varCount) :
    (c.checkForm form).1.pool.target? v = c.pool.target? v := by
  have hl := hc.inv.checkForm_later hc.closed form
  cases ht : c.pool.target? v with
  | none => exact hl.frozen.unbound v ⟨hv, ht⟩
  | some t => exact hl.ext.target?_of v t ht

/-- The checker before a form that fails, or one that evaluates an expression, embeds into the
checker after it with the identity on handles.  The variables the form allocated are the ones
the renaming steps over. -/
theorem Checker.Embeds.skip {c : Checker} (hc : c.Reachable) {f : Form}
    (hf : (∃ err, (c.checkForm f).2 = .error err) ∨ ∃ e, f = .eval e) :
    Checker.Embeds c.pool.varCount ((c.checkForm f).1.pool.varCount - c.pool.varCount) id c
      (c.checkForm f).1 := by
  have h := hc.inv
  have hl := h.checkForm_later hc.closed f
  refine ⟨h.wf, (Checker.Reachable.checkForm f hc).inv.wf, ⟨le_refl _, ?_,
    fun i hi => Nat.lt_of_lt_of_le hi hl.ext.size_le, fun _ _ _ _ hij => hij, fun i hi => ?_,
    fun v hv => ?_⟩, h.tags_valid, h.env_valid, ?_⟩
  · have := hl.ext.varCount_le
    omega
  · rw [id, hl.ext.item_eq i hi, Item.map_id_shiftFrom fun v hv => h.wf.varCount_of_item hi hv]
  · rw [shiftFrom, if_pos hv, hc.target?_checkForm f hv, Option.map_id_fun, id]
  · rw [Checker.ctx_checkForm hf, Context.map_id_shiftFrom fun v hv => (h.unbound v hv).1]

/-! ## The run lemma -/

/-- A result of the first run read in its pool, and the result of the second run that is its
image through `ε`. -/
def Checker.Corresponds (n k : Nat) (ε : Idx → Idx) (rB rA : Except CheckError Checked × Pool) :
    Prop :=
  rB.2.WF ∧ rA.2.WF ∧ rB.2.Embeds n k ε rA.2 ∧ Checked.ResultIn rB.2 rB.1 ∧
    rA.1 = Checked.mapResult ε (shiftFrom n k) rB.1

theorem Checker.Corresponds.congr {n k : Nat} {ε ε' : Idx → Idx}
    {rB rA : Except CheckError Checked × Pool} (h : Checker.Corresponds n k ε rB rA)
    (hε : SameBelow rB.2.size ε ε') : Checker.Corresponds n k ε' rB rA := by
  obtain ⟨hB, hA, he, hr, hx⟩ := h
  exact ⟨hB, hA, he.congr hB hε, hr, by rw [hx, Checked.mapResult_congr hr hε]⟩

/-- Checking the same forms from related checkers gives corresponding results form by form,
all through one `ε` extended past the first checker's handles, and ends in related checkers. -/
theorem Checker.Embeds.checkEach {n k : Nat} {ε : Idx → Idx} {cB cA : Checker}
    (h : Checker.Embeds n k ε cB cA) (fs : List Form) :
    ∃ ε', SameBelow cB.pool.size ε ε' ∧
      List.Forall₂ (Checker.Corresponds n k ε') (cB.checkEach fs).1 (cA.checkEach fs).1 ∧
      Checker.Embeds n k ε' (cB.checkEach fs).2 (cA.checkEach fs).2 := by
  induction fs generalizing ε cB cA with
  | nil => exact ⟨ε, SameBelow.refl _ _, .nil, h⟩
  | cons f fs ih =>
    obtain ⟨ε₁, hε₁, h₁, hs₁, hv₁, hx₁⟩ := h.checkForm f
    obtain ⟨ε₂, hε₂, hall, hlast⟩ := ih h₁
    -- the later forms only extend the renaming past the pool this form's result is read in
    exact ⟨ε₂, hε₁.trans hε₂ hs₁,
      .cons (Checker.Corresponds.congr ⟨h₁.wfB, h₁.wfA, h₁.pool, hv₁, hx₁⟩ hε₂) hall, hlast⟩

/-! ## Skipping a form -/

/-- The renaming of variable ids that skipping `f` from `c` amounts to.  Ids allocated before `f`
are kept, and later ones shift by the number of variables `f` allocated. -/
def Checker.skipRenaming (c : Checker) (f : Form) : Nat → Nat :=
  shiftFrom c.pool.varCount ((c.checkForm f).1.pool.varCount - c.pool.varCount)

/-- Skipping a form that fails, or one that only evaluates an expression, changes nothing else.
Take any checker a session reaches.  Check the forms `fs` one after another, going on after
failures, once from it and once from the checker `f` leaves.  Then some `ε` on handles relates
the two runs, together with the renaming `ψ = c.skipRenaming f` of variable ids:

* the same forms succeed and fail;
* every outcome, table and error of the second run is the image of the first's under `ε` and
  `ψ`, so error kinds and attributed expression ids are equal, and schemes and bounded sets are
  renamed;
* each handle a result names, read in its pool, stands for the renamed type, and prints as it;
* the final contexts are each other's image, and their pools relate as the results' do. -/
theorem checkEach_skip {c : Checker} (hc : c.Reachable) {f : Form}
    (hf : (∃ err, (c.checkForm f).2 = .error err) ∨ ∃ e, f = .eval e) (fs : List Form) :
    ∃ ε : Idx → Idx,
      List.Forall₂ (fun rB rA => rA.1 = Checked.mapResult ε (c.skipRenaming f) rB.1 ∧
          ∀ i : Idx, i.raw < rB.2.size →
            rA.2.term (ε i) = (rB.2.term i).rename (c.skipRenaming f) ∧
              rA.2.render (ε i) = ((rB.2.term i).rename (c.skipRenaming f)).render)
        (c.checkEach fs).1 ((c.checkForm f).1.checkEach fs).1 ∧
      ((c.checkForm f).1.checkEach fs).2.ctx =
        (c.checkEach fs).2.ctx.map ε (c.skipRenaming f) ∧
      ∀ i : Idx, i.raw < (c.checkEach fs).2.pool.size →
        ((c.checkForm f).1.checkEach fs).2.pool.term (ε i) =
          ((c.checkEach fs).2.pool.term i).rename (c.skipRenaming f) := by
  obtain ⟨ε, -, hall, hlast⟩ := (Checker.Embeds.skip hc hf).checkEach fs
  refine ⟨ε, hall.imp fun rB rA hr => ⟨hr.2.2.2.2, fun i hi => ?_⟩, hlast.ctx,
    fun i hi => hlast.pool.term hlast.wfB hlast.wfA hi⟩
  obtain ⟨hB, hA, he, -, -⟩ := hr
  have hterm := he.term hB hA hi
  exact ⟨hterm, by rw [Pool.render_eq hA, hterm]; rfl⟩

/-- From the empty checker, skipping the evaluation of an unbound name, which fails, before
checking the identity function. -/
theorem checkEach_skip_unbound :
    ∃ f : Form, f = .eval (.var 0 "x") ∧
      ∃ fs : List Form, fs = [.eval (.lam 1 "y" .infer (.var 2 "y"))] ∧
      Checker.Reachable {} ∧ (∃ err, (({} : Checker).checkForm f).2 = .error err) ∧
      ∃ ε : Idx → Idx,
        List.Forall₂ (fun rB rA =>
            rA.1 = Checked.mapResult ε (({} : Checker).skipRenaming f) rB.1 ∧
            ∀ i : Idx, i.raw < rB.2.size →
              rA.2.term (ε i) = (rB.2.term i).rename (({} : Checker).skipRenaming f) ∧
                rA.2.render (ε i) = ((rB.2.term i).rename (({} : Checker).skipRenaming f)).render)
          (({} : Checker).checkEach fs).1 ((({} : Checker).checkForm f).1.checkEach fs).1 ∧
        ((({} : Checker).checkForm f).1.checkEach fs).2.ctx =
          (({} : Checker).checkEach fs).2.ctx.map ε (({} : Checker).skipRenaming f) ∧
        ∀ i : Idx, i.raw < (({} : Checker).checkEach fs).2.pool.size →
          ((({} : Checker).checkForm f).1.checkEach fs).2.pool.term (ε i) =
            ((({} : Checker).checkEach fs).2.pool.term i).rename (({} : Checker).skipRenaming f) :=
  ⟨_, rfl, _, rfl, .new, ⟨_, rfl⟩, checkEach_skip .new (.inl ⟨_, rfl⟩) _⟩

end TagML
