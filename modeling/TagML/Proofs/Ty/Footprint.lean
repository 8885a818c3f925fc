import Mathlib.Data.Set.Basic
import TagML.Proofs.Ty.Extend

/-!
Which variables unification touches.

Unifying `a` with `b` links only variables of the types the two sides stand for, and what
those variables come to stand for mentions no other variable (`unify_confined`): every
other variable of the pool is left as it was.  Inference relies on this to keep the
variables a scheme quantifies out of reach.  A set `Z` of unbound variables is `Frozen`
along a run of steps when its variables stay unbound and no older variable comes to stand
for a type that mentions one of them; building types keeps any set frozen, and so does a
unification of two types that mention none of `Z` (`unify_frozen`).
-/
namespace TagML

namespace VarSet

theorem mem_insert {v w : Nat} : ∀ l : List Nat, v ∈ VarSet.insert w l ↔ v = w ∨ v ∈ l
  | [] => by simp [VarSet.insert]
  | u :: us => by
    unfold VarSet.insert
    split
    · simp
    · split
      · next hwu =>
        subst hwu
        simp
      · simp only [List.mem_cons, mem_insert us]
        tauto

theorem mem_union {v : Nat} : ∀ xs ys : List Nat, v ∈ VarSet.union xs ys ↔ v ∈ xs ∨ v ∈ ys
  | [], ys => by simp [VarSet.union]
  | x :: xs, ys => by
    simp only [VarSet.union, List.foldl_cons] at mem_union ⊢
    rw [mem_union xs, mem_insert, List.mem_cons]
    tauto

end VarSet

namespace Pool

variable {p q r : Pool}

/-- Along `p` to `q`, links were added only to variables of `V`, and what a variable of `V`
unbound in `p` stands for in `q` mentions only variables of `V`; variables allocated after `p`
are not constrained. -/
structure Confined (p q : Pool) (V : Set Nat) : Prop where
  unbound : ∀ v < p.varCount, p.target? v = none → v ∉ V → q.target? v = none
  vars_binding : ∀ v < p.varCount, v ∈ V → p.target? v = none → ∀ w ∈ (q.binding v).vars, w ∈ V

/-- The variables of what `v` stands for are unbound. -/
theorem target?_of_mem_vars_binding (h : p.WF) {v w : Nat} (hw : w ∈ (p.binding v).vars) :
    p.target? w = none := by
  unfold binding at hw
  cases hx : p.varItem? v with
  | some x =>
    rw [hx] at hw
    exact target?_of_mem_vars_term h hw
  | none =>
    rw [hx, Term.mem_vars_var] at hw
    subst hw
    refine target?_of_le p (Nat.le_of_not_lt fun hv => ?_)
    obtain ⟨x, hx', -⟩ := h.varItem w hv
    rw [hx] at hx'
    cases hx'

theorem lt_varCount_of_mem_vars_binding (h : p.WF) {v w : Nat} (hv : v < p.varCount)
    (hw : w ∈ (p.binding v).vars) : w < p.varCount := by
  obtain ⟨x, hx, hxs, -⟩ := h.varItem v hv
  rw [binding, hx] at hw
  exact lt_varCount_of_mem_vars_term h hxs hw

/-- Building types leaves what every old variable stands for as it was. -/
theorem Grows.binding_eq (hp : p.WF) (hq : q.WF) (hg : p.Grows q) {v : Nat}
    (hv : v < p.varCount) : q.binding v = p.binding v := by
  obtain ⟨x, hx, hxs, -⟩ := hp.varItem v hv
  simp only [binding, hx, hg.varItem?_eq v hv]
  exact hg.term_eq hp hq hxs

namespace Confined

protected theorem refl (h : p.WF) (V : Set Nat) : Confined p p V where
  unbound _ _ hv _ := hv
  vars_binding v _ hvV hv w hw := by
    rw [binding_of_unbound h hv, Term.mem_vars_var] at hw
    exact hw ▸ hvV

theorem mono (hq : q.WF) {V W : Set Nat} (h : Confined p q V) (hVW : V ⊆ W) :
    Confined p q W where
  unbound v hvc hv hvW := h.unbound v hvc hv fun hvV => hvW (hVW hvV)
  vars_binding v hvc hvW hv w hw := by
    by_cases hvV : v ∈ V
    · exact hVW (h.vars_binding v hvc hvV hv w hw)
    · rw [binding_of_unbound hq (h.unbound v hvc hv hvV), Term.mem_vars_var] at hw
      exact hw ▸ hvW

/-- A handle whose type mentions only variables of `V` still does after the step. -/
theorem vars_term (hp : p.WF) (hq : q.WF) (he : p.Extends q) {V : Set Nat}
    (h : Confined p q V) {i : Idx} (hi : i.raw < p.size) (hV : ∀ w ∈ (p.term i).vars, w ∈ V) :
    ∀ w ∈ (q.term i).vars, w ∈ V := by
  intro w hw
  rw [he.term_eq_subst hp hq hi, Term.mem_vars_subst] at hw
  obtain ⟨u, hu, hwu⟩ := hw
  exact h.vars_binding u (lt_varCount_of_mem_vars_term hp hi hu) (hV u hu)
    (target?_of_mem_vars_term hp hu) w hwu

protected theorem trans (hq : q.WF) (hr : r.WF) (hpq : p.Extends q) (he : q.Extends r)
    {V : Set Nat} (h₁ : Confined p q V) (h₂ : Confined q r V) : Confined p r V where
  unbound v hvc hv hvV := h₂.unbound v (Nat.lt_of_lt_of_le hvc hpq.varCount_le)
    (h₁.unbound v hvc hv hvV) hvV
  vars_binding v hvc hvV hv w hw := by
    rw [he.binding_eq_subst hq hr, Term.mem_vars_subst] at hw
    obtain ⟨u, hu, hwu⟩ := hw
    exact h₂.vars_binding u
      (lt_varCount_of_mem_vars_binding hq (Nat.lt_of_lt_of_le hvc hpq.varCount_le) hu)
      (h₁.vars_binding v hvc hvV hv u hu) (target?_of_mem_vars_binding hq hu) w hwu

/-- Building types links nothing, so it is confined to any set. -/
theorem of_grows (hp : p.WF) (hq : q.WF) (hg : p.Grows q) (V : Set Nat) : Confined p q V where
  unbound v hvc hv _ := by rw [hg.target?_eq v hvc]; exact hv
  vars_binding v hvc hvV hv w hw := by
    rw [hg.binding_eq hp hq hvc, binding_of_unbound hp hv, Term.mem_vars_var] at hw
    exact hw ▸ hvV

end Confined

/-- The variables of the types `a` and `b` stand for. -/
def varsOf (p : Pool) (a b : Idx) : Set Nat := {w | w ∈ (p.term a).vars ∨ w ∈ (p.term b).vars}

/-- Binding `x`'s unbound variable to `t` is confined to the variables of the two sides. -/
theorem bind_confined (h : p.WF) {x t : Idx} {v : Nat} (hx : p.item x = .var v)
    (hv : p.target? v = none) (ht : t.raw < p.size) {V : Set Nat} (hvV : v ∈ V)
    (htV : ∀ w ∈ (p.term t).vars, w ∈ V) : Confined p (p.bind v t).1 V := by
  rw [bind_eq]
  split
  · exact Confined.refl h V
  · next hocc =>
    have hq := h.link ht (fun y hy hr => hocc ((occurs_iff h v t).2 ⟨y, hr, (h.varItem?_spec hy).2⟩))
    have hvt : v ∉ (p.term t).vars := fun hm =>
      hocc ((occurs_iff h v t).2 (occurs_of_mem_vars_term h hm))
    have hvc : v < p.varCount := h.varCount_of_item (lt_size_of_item p hx (by simp)) hx
    have hlink : ∀ w, w ≠ v → (p.link v t).target? w = p.target? w := fun w hw => by
      rw [target?_link, if_neg fun hc => hw hc.1]
    refine ⟨fun w _ hw hwV => ?_, fun w _ hwV hw u hu => ?_⟩
    · rw [hlink w fun he => hwV (he ▸ hvV)]
      exact hw
    · dsimp only at hu
      by_cases hwv : w = v
      · subst hwv
        -- `v` now stands for what `t` stood for, which does not mention `v`
        have hext := Extends.of_addsLinks (AddsLinks.link t (.refl p) hv)
        have hterm : (p.link w t).term t = p.term t := by
          rw [hext.term_eq_subst h hq ht, subst_binding_of_unbound hq fun u hu => ?_]
          rw [hlink u fun he => hvt (he ▸ hu)]
          exact target?_of_mem_vars_term h hu
        obtain ⟨y, hy, -, hyv⟩ := hq.varItem w (by rwa [varCount_link])
        have hbw : (p.link w t).binding w = p.term t := by
          simp only [binding, hy]
          rw [term_of_link hq hyv (by rw [target?_link, if_pos ⟨rfl, hvc⟩]), hterm]
        rw [hbw] at hu
        exact htV u hu
      · rw [binding_of_unbound hq (by rw [hlink w hwv]; exact hw), Term.vars,
          List.mem_singleton] at hu
        exact hu ▸ hwV

/-- A fold of calls each confined to the variables of its pair is confined to any set holding
the variables of every pair. -/
theorem unifyPairs_confined {f : Pool → Idx → Idx → Pool × Option UnifyError}
    (hwf : ∀ p x y, p.WF → x.raw < p.size → y.raw < p.size →
      (f p x y).1.WF ∧ p.AddsLinks (f p x y).1)
    (hf : ∀ p x y, p.WF → x.raw < p.size → y.raw < p.size → Confined p (f p x y).1 (p.varsOf x y))
    {V : Set Nat} :
    ∀ (pairs : List (Idx × Idx)) (p : Pool), p.WF →
      (∀ pair ∈ pairs, pair.1.raw < p.size ∧ pair.2.raw < p.size) →
      (∀ pair ∈ pairs, p.varsOf pair.1 pair.2 ⊆ V) →
      Confined p (unifyPairs f (p, none) pairs).1 V
  | [], p, h, _, _ => Confined.refl h V
  | pair :: pairs, p, h, hv, hV => by
    have hvp := hv pair List.mem_cons_self
    have hc₀ := (hf p pair.1 pair.2 h hvp.1 hvp.2).mono (hwf p pair.1 pair.2 h hvp.1 hvp.2).1
      (hV pair List.mem_cons_self)
    obtain ⟨p₁, h₁, hl₁, hrest, ⟨e, hres, hfold⟩ | ⟨hres, hfold⟩⟩ := unifyPairs_step hwf h hv
    · rw [hfold]
      rw [hres] at hc₀
      exact hc₀
    · rw [hfold]
      rw [hres] at hc₀
      have he₁ := Extends.of_addsLinks hl₁
      -- the later pairs still mention only variables of `V` in the pool the head call left
      have hV₁ : ∀ pr ∈ pairs, p₁.varsOf pr.1 pr.2 ⊆ V := by
        intro pr hpr w hw
        have hvr := hv pr (List.mem_cons_of_mem pair hpr)
        have hVr := hV pr (List.mem_cons_of_mem pair hpr)
        rcases hw with hw | hw
        · exact hc₀.vars_term h h₁ he₁ hvr.1 (fun u hu => hVr (Or.inl hu)) w hw
        · exact hc₀.vars_term h h₁ he₁ hvr.2 (fun u hu => hVr (Or.inr hu)) w hw
      obtain ⟨h₂, hl₂⟩ := unifyPairs_wf hwf pairs p₁ h₁ hrest
      exact hc₀.trans h₁ h₂ he₁ (Extends.of_addsLinks hl₂)
        (unifyPairs_confined hwf hf pairs p₁ h₁ hrest hV₁)

theorem mem_vars_of_resolve (h : p.WF) {a : Idx} {v : Nat} (hv : p.item (p.resolve a) = .var v) :
    v ∈ (p.term a).vars := by
  rw [← term_resolve h, term_of_unbound h hv (target?_resolve h hv)]
  simp [Term.vars]

/-- Unification, whatever its budget and outcome, is confined to the variables of the types
the two sides stand for. -/
theorem unifyWithin_confined (h : p.WF) {a b : Idx} (ha : a.raw < p.size) (hb : b.raw < p.size)
    (n : Nat) : Confined p (p.unifyWithin n a b).1 (p.varsOf a b) := by
  induction n generalizing p a b with
  | zero => exact Confined.refl h _
  | succ n ih =>
    have ha' := resolve_lt_size h ha
    have hb' := resolve_lt_size h hb
    have hva : ∀ w ∈ (p.term (p.resolve a)).vars, w ∈ p.varsOf a b := fun w hw =>
      Or.inl (by rwa [term_resolve h] at hw)
    have hvb : ∀ w ∈ (p.term (p.resolve b)).vars, w ∈ p.varsOf a b := fun w hw =>
      Or.inr (by rwa [term_resolve h] at hw)
    rw [unifyWithin_succ]
    split
    · exact Confined.refl h _
    split
    · exact Confined.refl h _
    split
    · next va vb hxa hxb =>
      split
      · exact bind_confined h hxb (target?_resolve h hxb) ha' (Or.inr (mem_vars_of_resolve h hxb)) hva
      · exact bind_confined h hxa (target?_resolve h hxa) hb' (Or.inl (mem_vars_of_resolve h hxa)) hvb
    · next va hxa _ =>
      exact bind_confined h hxa (target?_resolve h hxa) hb' (Or.inl (mem_vars_of_resolve h hxa)) hvb
    · next vb hxb _ =>
      exact bind_confined h hxb (target?_resolve h hxb) ha' (Or.inr (mem_vars_of_resolve h hxb)) hva
    · next x r y q hx hy =>
      obtain ⟨hxs, hrs⟩ := h.fn_parts_lt hx
      obtain ⟨hys, hqs⟩ := h.fn_parts_lt hy
      -- the parts of the two sides mention only variables of the sides
      have hsub : ∀ {c d : Idx} {w : Nat}, (c = x ∨ c = r) → (d = y ∨ d = q) →
          (w ∈ (p.term c).vars → w ∈ p.varsOf a b) ∧ (w ∈ (p.term d).vars → w ∈ p.varsOf a b) := by
        intro c d w hc hd
        refine ⟨fun hw => hva w ?_, fun hw => hvb w ?_⟩
        · rw [term_of_fn h hx]
          rcases hc with rfl | rfl <;> simp [Term.vars, hw]
        · rw [term_of_fn h hy]
          rcases hd with rfl | rfl <;> simp [Term.vars, hw]
      obtain ⟨h₁, hl₁⟩ := unifyWithin_wf h hxs hys n
      have hc₁ := (ih h hxs hys).mono h₁ fun w hw =>
        hw.elim (hsub (Or.inl rfl) (Or.inl rfl)).1 (hsub (Or.inl rfl) (Or.inl rfl)).2
      cases hres : p.unifyWithin n x y with
      | mk p₁ r₁ =>
        rw [hres] at h₁ hl₁ hc₁
        cases r₁ with
        | some e => exact hc₁
        | none =>
          have he₁ := Extends.of_addsLinks hl₁
          have hrs₁ : r.raw < p₁.size := by rw [hl₁.size_eq]; exact hrs
          have hqs₁ : q.raw < p₁.size := by rw [hl₁.size_eq]; exact hqs
          obtain ⟨h₂, hl₂⟩ := unifyWithin_wf h₁ hrs₁ hqs₁ n
          have hc₂ := (ih h₁ hrs₁ hqs₁).mono h₂ fun w hw => hw.elim
            (hc₁.vars_term h h₁ he₁ hrs (fun u hu => (hsub (Or.inr rfl) (Or.inr rfl)).1 hu) w)
            (hc₁.vars_term h h₁ he₁ hqs (fun u hu => (hsub (Or.inr rfl) (Or.inr rfl)).2 hu) w)
          exact hc₁.trans h₁ h₂ he₁ (Extends.of_addsLinks hl₂) hc₂
    · next m xs m' ys hx hy =>
      split
      · refine unifyPairs_confined (fun p x y hp hx hy => unifyWithin_wf hp hx hy n)
          (fun p x y hp hx hy => ih hp hx hy) _ p h (h.zip_args_lt hx hy) fun pair hpair => ?_
        have hl := List.of_mem_zip hpair
        rintro w (hw | hw)
        · refine hva w ?_
          rw [term_of_user h hx, Term.vars_user, Term.mem_varsList]
          exact ⟨_, List.mem_map_of_mem hl.1, hw⟩
        · refine hvb w ?_
          rw [term_of_user h hy, Term.vars_user, Term.mem_varsList]
          exact ⟨_, List.mem_map_of_mem hl.2, hw⟩
      · exact Confined.refl h _
    · exact Confined.refl h _

theorem unify_confined (h : p.WF) {a b : Idx} (ha : a.raw < p.size) (hb : b.raw < p.size) :
    Confined p (p.unify a b).1 (p.varsOf a b) :=
  unifyWithin_confined h ha hb _

/-! ## The variables a walk collects -/

theorem mem_freeVarsWithin (h : p.WF) {v : Nat} : ∀ {n : Nat} {acc : List Nat} {i : Idx},
    p.rank i < n → (v ∈ p.freeVarsWithin n acc i ↔ v ∈ acc ∨ v ∈ (p.term i).vars)
  | 0, _, _, hn => absurd hn (Nat.not_lt_zero _)
  | n + 1, acc, i, hn => by
    have ih : ∀ {acc : List Nat} {j : Idx}, p.Succ i j →
        (v ∈ p.freeVarsWithin n acc j ↔ v ∈ acc ∨ v ∈ (p.term j).vars) := fun hs =>
      mem_freeVarsWithin h (Nat.lt_of_lt_of_le (h.rank_lt_of_succ hs) (Nat.le_of_lt_succ hn))
    unfold freeVarsWithin
    split
    · next hf =>
      -- no variable item lies below `i`, so its type has no variable
      rw [Bool.not_eq_true'] at hf
      refine ⟨Or.inl, fun hv => hv.elim id fun hv => ?_⟩
      obtain ⟨j, hr, hj⟩ := occurs_of_mem_vars_term h hv
      have := (not_isVar_of_hasVars_false h hf hr).2
      rw [hj] at this
      cases this
    · cases hit : p.item i with
      | prim q =>
        rw [term_of_prim h hit]
        simp [Term.vars]
      | var w =>
        dsimp only
        cases ht : p.target? w with
        | some t =>
          rw [term_of_link h hit ht]
          exact ih ((succ_of_var hit).2 ht)
        | none =>
          rw [term_of_unbound h hit ht, VarSet.mem_insert]
          simp [Term.vars, or_comm]
      | fn a r =>
        dsimp only
        rw [ih ((succ_of_fn hit).2 (Or.inr rfl)), ih ((succ_of_fn hit).2 (Or.inl rfl)),
          term_of_fn h hit]
        simp [Term.vars, or_assoc]
      | user name args =>
        dsimp only
        rw [term_of_user h hit, Term.vars_user, Term.mem_varsList]
        have hfold : ∀ (as : List Idx), (∀ a ∈ as, a ∈ args) → ∀ acc : List Nat,
            (v ∈ as.foldl (fun acc a => p.freeVarsWithin n acc a) acc ↔
              v ∈ acc ∨ ∃ a ∈ as, v ∈ (p.term a).vars) := by
          intro as has
          induction as with
          | nil => simp
          | cons a as ih' =>
            intro acc
            rw [List.foldl_cons, ih' (fun b hb => has b (List.mem_cons_of_mem a hb)),
              ih ((succ_of_user hit).2 (has a List.mem_cons_self))]
            simp [or_assoc]
        rw [hfold args (fun _ ha => ha)]
        simp

/-- The free variables the walk collects are the variables of the type a handle stands for. -/
theorem mem_freeVars (h : p.WF) {v : Nat} (i : Idx) : v ∈ p.freeVars i ↔ v ∈ (p.term i).vars := by
  rw [freeVars, mem_freeVarsWithin h (h.rank_lt i)]
  simp

/-! ## Frozen variables -/

/-- Along `p` to `q` the variables of `Z` stay unbound, and no variable of `p` that was
unbound and outside `Z` comes to stand for a type mentioning one of them. -/
structure Frozen (Z : Set Nat) (p q : Pool) : Prop where
  unbound : ∀ z ∈ Z, q.target? z = none
  avoids : ∀ v < p.varCount, p.target? v = none → v ∉ Z → ∀ w ∈ (q.binding v).vars, w ∉ Z

namespace Frozen

variable {Z Z' : Set Nat}

protected theorem refl (h : p.WF) (hZ : ∀ z ∈ Z, p.target? z = none) : Frozen Z p p where
  unbound := hZ
  avoids v _ hv hvZ w hw := by
    rw [binding_of_unbound h hv, Term.mem_vars_var] at hw
    exact hw ▸ hvZ

theorem mono (hq : q.WF) (h : Frozen Z' p q) (hZ : Z ⊆ Z') : Frozen Z p q where
  unbound z hz := h.unbound z (hZ hz)
  avoids v hvc hv hvZ w hw := by
    by_cases hvZ' : v ∈ Z'
    · rw [binding_of_unbound hq (h.unbound v hvZ'), Term.mem_vars_var] at hw
      exact hw ▸ hvZ
    · exact fun hwZ => h.avoids v hvc hv hvZ' w hw (hZ hwZ)

theorem union (h₁ : Frozen Z p q) (h₂ : Frozen Z' p q) : Frozen (Z ∪ Z') p q where
  unbound z hz := hz.elim (h₁.unbound z) (h₂.unbound z)
  avoids v hvc hv hvZ w hw hwZ := by
    rw [Set.mem_union, not_or] at hvZ
    exact hwZ.elim (h₁.avoids v hvc hv hvZ.1 w hw) (h₂.avoids v hvc hv hvZ.2 w hw)

protected theorem trans (hq : q.WF) (hr : r.WF) (hpq : p.Extends q) (hqr : q.Extends r)
    (h₁ : Frozen Z p q) (h₂ : Frozen Z q r) : Frozen Z p r where
  unbound := h₂.unbound
  avoids v hvc hv hvZ w hw := by
    rw [hqr.binding_eq_subst hq hr, Term.mem_vars_subst] at hw
    obtain ⟨u, hu, hwu⟩ := hw
    have hvq := Nat.lt_of_lt_of_le hvc hpq.varCount_le
    exact h₂.avoids u (lt_varCount_of_mem_vars_binding hq hvq hu)
      (target?_of_mem_vars_binding hq hu) (h₁.avoids v hvc hv hvZ u hu) w hwu

/-- A type of `p` that mentions none of `Z` mentions none of them in `q`. -/
theorem avoids_term (hp : p.WF) (hq : q.WF) (he : p.Extends q) (h : Frozen Z p q) {i : Idx}
    (hi : i.raw < p.size) (hZ : ∀ w ∈ (p.term i).vars, w ∉ Z) : ∀ w ∈ (q.term i).vars, w ∉ Z := by
  intro w hw
  rw [he.term_eq_subst hp hq hi, Term.mem_vars_subst] at hw
  obtain ⟨u, hu, hwu⟩ := hw
  exact h.avoids u (lt_varCount_of_mem_vars_term hp hi hu) (target?_of_mem_vars_term hp hu)
    (hZ u hu) w hwu

/-- A type of `p` all of whose variables are frozen is the same type in `q`. -/
theorem term_eq (hp : p.WF) (hq : q.WF) (he : p.Extends q) (h : Frozen Z p q) {i : Idx}
    (hi : i.raw < p.size) (hZ : ∀ w ∈ (p.term i).vars, w ∈ Z) : q.term i = p.term i := by
  rw [he.term_eq_subst hp hq hi, subst_binding_of_unbound hq fun w hw => h.unbound w (hZ w hw)]

theorem of_confined (hq : q.WF) {V : Set Nat} (hc : Confined p q V)
    (hZ : ∀ z ∈ Z, z < p.varCount ∧ p.target? z = none) (hZV : ∀ z ∈ Z, z ∉ V) :
    Frozen Z p q where
  unbound z hz := hc.unbound z (hZ z hz).1 (hZ z hz).2 (hZV z hz)
  avoids v hvc hv hvZ w hw hwZ := by
    by_cases hvV : v ∈ V
    · exact hZV w hwZ (hc.vars_binding v hvc hvV hv w hw)
    · rw [binding_of_unbound hq (hc.unbound v hvc hv hvV), Term.mem_vars_var] at hw
      exact hvZ (hw ▸ hwZ)

/-- Building types links nothing, so it keeps any set of old unbound variables frozen. -/
theorem of_grows (hp : p.WF) (hq : q.WF) (hg : p.Grows q)
    (hZ : ∀ z ∈ Z, z < p.varCount ∧ p.target? z = none) : Frozen Z p q where
  unbound z hz := by
    rw [hg.target?_eq z (hZ z hz).1]
    exact (hZ z hz).2
  avoids v hvc hv hvZ w hw := by
    rw [hg.binding_eq hp hq hvc, binding_of_unbound hp hv, Term.mem_vars_var] at hw
    exact hw ▸ hvZ

end Frozen

/-- Unifying two types that mention no variable of `Z` keeps `Z` frozen, whether or not it
succeeds. -/
theorem unify_frozen (h : p.WF) {a b : Idx} (ha : a.raw < p.size) (hb : b.raw < p.size)
    {Z : Set Nat} (hZ : ∀ z ∈ Z, z < p.varCount ∧ p.target? z = none) (hza : ∀ w ∈ (p.term a).vars, w ∉ Z)
    (hzb : ∀ w ∈ (p.term b).vars, w ∉ Z) : Frozen Z p (p.unify a b).1 :=
  Frozen.of_confined (unify_wf h ha hb).1 (unify_confined h ha hb) hZ fun z hz hzV =>
    hzV.elim (fun hm => hza z hm hz) (fun hm => hzb z hm hz)

end Pool

end TagML
