import TagML.Proofs.Pool.Walk
import TagML.Proofs.Ty.Term

/-!
What a handle stands for, and which substitutions the links of a pool allow.

`term` writes a handle out in full, following links and copying shared parts; `raw` writes it
out as it was built, links ignored.  `Sat p σ` says that `σ` solves every link of `p`: each
linked variable's image is the instance of its target as built.  Two facts carry the
unification proofs.  Under a solving substitution the two readings agree
(`subst_term_of_sat`), so what a link-solving substitution makes of a handle does not depend on
the links at all; and the pool's own solution, `binding`, solves its links and turns each
handle as built into the handle written out (`raw_subst_binding`).  Adding links only adds
equations to `Sat`.

A handle with nothing linked at or below it is `Resolved`; two resolved handles that stand for
the same type are the same handle (`eq_of_term_eq`), since primitives, variables and hash-consed
compounds each have one item.
-/
namespace TagML

namespace Pool

/-- The type `i` stands for within a budget of levels: links followed, shared parts copied. -/
def termWithin (p : Pool) : Nat → Idx → Term
  | 0, _ => .prim .int
  | n + 1, i =>
    match p.item i with
    | .prim q => .prim q
    | .var w =>
      match p.target? w with
      | some t => p.termWithin n t
      | none => .var w
    | .fn a r => .fn (p.termWithin n a) (p.termWithin n r)
    | .user name args => .user name (args.map (p.termWithin n))

/-- The type `i` stands for. -/
def term (p : Pool) (i : Idx) : Term := p.termWithin p.size i

/-- The pool with every link removed: its items as built. -/
def unlinked (p : Pool) : Pool := { p with links := p.links.map (fun _ => none) }

/-- The type `i` was built as, links not followed. -/
def raw (p : Pool) (i : Idx) : Term := p.unlinked.term i

/-- What variable `v` stands for: the type its item stands for. -/
def binding (p : Pool) (v : Nat) : Term :=
  match p.varItem? v with
  | some i => p.term i
  | none => .var v

/-- `σ` solves every link of `p`. -/
def Sat (p : Pool) (σ : Nat → Term) : Prop :=
  ∀ v t, p.target? v = some t → σ v = (p.raw t).subst σ

/-- Every handle at or below `i` is settled: nothing below `i` is linked. -/
def Resolved (p : Pool) (i : Idx) : Prop :=
  ∀ j, Relation.ReflTransGen p.Succ i j → p.Settled j

variable {p : Pool}

/-! ## Writing a handle out -/

theorem termWithin_congr (h : p.WF) : ∀ {n m : Nat} {i : Idx}, p.rank i < n → p.rank i < m →
    p.termWithin n i = p.termWithin m i
  | 0, _, _, hn, _ => absurd hn (Nat.not_lt_zero _)
  | _ + 1, 0, _, _, hm => absurd hm (Nat.not_lt_zero _)
  | n + 1, m + 1, i, hn, hm => by
    have ih : ∀ k, p.Succ i k → p.termWithin n k = p.termWithin m k := fun k hk => by
      have := h.rank_lt_of_succ hk
      exact termWithin_congr h (by omega) (by omega)
    simp only [termWithin]
    split
    · rfl
    · next w hw =>
      split
      · next t ht => exact ih t (Or.inr ⟨w, hw, ht⟩)
      · rfl
    · next a r ha =>
      rw [ih a ((succ_of_fn ha).2 (Or.inl rfl)), ih r ((succ_of_fn ha).2 (Or.inr rfl))]
    · next name args ha =>
      rw [List.map_congr_left (fun a hmem => ih a ((succ_of_user ha).2 hmem))]

theorem termWithin_eq (h : p.WF) {n : Nat} {i : Idx} (hn : p.rank i < n) :
    p.termWithin n i = p.term i :=
  termWithin_congr h hn (h.rank_lt i)

/-- One level of `term`: the item decides, and the parts are written out in turn. -/
theorem term_eq (h : p.WF) (i : Idx) : p.term i =
    match p.item i with
    | .prim q => .prim q
    | .var w =>
      match p.target? w with
      | some t => p.term t
      | none => .var w
    | .fn a r => .fn (p.term a) (p.term r)
    | .user name args => .user name (args.map p.term) := by
  have hlt := h.rank_lt i
  obtain ⟨n, hn⟩ : ∃ n, p.size = n + 1 := ⟨p.size - 1, by omega⟩
  have ih : ∀ k, p.Succ i k → p.termWithin n k = p.term k := fun k hk => by
    have := h.rank_lt_of_succ hk
    exact termWithin_eq h (by omega)
  rw [term, hn, termWithin]
  split
  · rfl
  · next w hw =>
    split
    · next t ht => exact ih t (Or.inr ⟨w, hw, ht⟩)
    · rfl
  · next a r ha =>
    rw [ih a ((succ_of_fn ha).2 (Or.inl rfl)), ih r ((succ_of_fn ha).2 (Or.inr rfl))]
  · next name args ha =>
    rw [List.map_congr_left (fun a hmem => ih a ((succ_of_user ha).2 hmem))]

theorem term_of_prim (h : p.WF) {i : Idx} {q : Prim} (hi : p.item i = .prim q) :
    p.term i = .prim q := by
  rw [term_eq h, hi]

/-- A primitive's fixed handle stands for the primitive. -/
theorem WF.term_prim (h : p.WF) (q : Prim) : p.term q.idx = .prim q :=
  term_of_prim h (h.prim q).2

/-- A primitive mentions no variable. -/
theorem WF.not_mem_vars_prim (h : p.WF) (q : Prim) (w : Nat) : w ∉ (p.term q.idx).vars := by
  rw [h.term_prim q]
  simp [Term.vars]

theorem term_of_link (h : p.WF) {i t : Idx} {w : Nat} (hi : p.item i = .var w)
    (ht : p.target? w = some t) : p.term i = p.term t := by
  rw [term_eq h, hi]
  simp only [ht]

theorem term_of_unbound (h : p.WF) {i : Idx} {w : Nat} (hi : p.item i = .var w)
    (ht : p.target? w = none) : p.term i = .var w := by
  rw [term_eq h, hi]
  simp only [ht]

theorem term_of_fn (h : p.WF) {i a r : Idx} (hi : p.item i = .fn a r) :
    p.term i = .fn (p.term a) (p.term r) := by
  rw [term_eq h, hi]

theorem term_of_user (h : p.WF) {i : Idx} {name : String} {args : List Idx}
    (hi : p.item i = .user name args) : p.term i = .user name (args.map p.term) := by
  rw [term_eq h, hi]

/-- Following a link step does not change what a handle stands for. -/
theorem term_of_linkStep (h : p.WF) {i j : Idx} (hs : p.LinkStep i j) : p.term i = p.term j := by
  obtain ⟨w, hw, ht⟩ := hs
  exact term_of_link h hw ht

theorem term_of_chain (h : p.WF) {i r : Idx} (hc : Relation.ReflTransGen p.LinkStep i r) :
    p.term r = p.term i := by
  induction hc with
  | refl => rfl
  | tail _ hs ih => rw [← term_of_linkStep h hs, ih]

theorem term_resolve (h : p.WF) (i : Idx) : p.term (p.resolve i) = p.term i :=
  term_of_chain h (resolve_spec h i).1

/-! ## Handles as built -/

@[simp] theorem item_unlinked : p.unlinked.item = p.item := rfl

@[simp] theorem hasVars_unlinked : p.unlinked.hasVars = p.hasVars := rfl

@[simp] theorem size_unlinked : p.unlinked.size = p.size := rfl

@[simp] theorem varItem?_unlinked : p.unlinked.varItem? = p.varItem? := rfl

@[simp] theorem varCount_unlinked : p.unlinked.varCount = p.varCount := by
  simp [unlinked, varCount]

@[simp] theorem target?_unlinked (v : Nat) : p.unlinked.target? v = none := by
  simp only [unlinked, target?, Array.getElem?_map]
  cases p.links[v]? <;> rfl

theorem succ_unlinked {i j : Idx} (hs : p.unlinked.Succ i j) : j ∈ (p.item i).parts := by
  rcases hs with hp | ⟨w, _, ht⟩
  · exact hp
  · rw [target?_unlinked] at ht
    cases ht

theorem WF.unlinked (h : p.WF) : p.unlinked.WF where
  flags_size := h.flags_size
  varItems_size := by rw [varCount_unlinked]; exact h.varItems_size
  prim := h.prim
  prim_unique := h.prim_unique
  varItem := by simpa using h.varItem
  var_unique := h.var_unique
  parts_lt := h.parts_lt
  target_lt v t ht := by
    rw [target?_unlinked] at ht
    cases ht
  hasVars_eq := h.hasVars_eq
  interned := h.interned
  acyclic := h.acyclic.mono (fun _ _ hs => Or.inl (succ_unlinked hs))

theorem raw_of_prim (h : p.WF) {i : Idx} {q : Prim} (hi : p.item i = .prim q) :
    p.raw i = .prim q :=
  term_of_prim h.unlinked hi

theorem raw_of_var (h : p.WF) {i : Idx} {w : Nat} (hi : p.item i = .var w) : p.raw i = .var w :=
  term_of_unbound h.unlinked hi (target?_unlinked w)

theorem raw_of_fn (h : p.WF) {i a r : Idx} (hi : p.item i = .fn a r) :
    p.raw i = .fn (p.raw a) (p.raw r) :=
  term_of_fn h.unlinked hi

theorem raw_of_user (h : p.WF) {i : Idx} {name : String} {args : List Idx}
    (hi : p.item i = .user name args) : p.raw i = .user name (args.map p.raw) :=
  term_of_user h.unlinked hi

/-! ## Substitutions that solve the links -/

/-- Induction along the steps of a well-formed pool: its ranks drop at every step. -/
theorem WF.induction (h : p.WF) {motive : Idx → Prop}
    (step : ∀ i, (∀ j, p.Succ i j → motive j) → motive i) (i : Idx) : motive i := by
  suffices hn : ∀ n i, p.rank i < n → motive i from hn _ i (Nat.lt_succ_self _)
  intro n
  induction n with
  | zero => intro i hi; exact absurd hi (Nat.not_lt_zero _)
  | succ n ih =>
    intro i hi
    exact step i (fun j hj =>
      ih j (Nat.lt_of_lt_of_le (h.rank_lt_of_succ hj) (Nat.le_of_lt_succ hi)))

/-- Under a substitution that solves the links, a handle written out and the handle as built
have the same instance. -/
theorem subst_term_of_sat (h : p.WF) {σ : Nat → Term} (hs : p.Sat σ) (i : Idx) :
    (p.term i).subst σ = (p.raw i).subst σ := by
  revert i
  refine h.induction (fun i ih => ?_)
  cases hit : p.item i with
  | prim q => rw [term_of_prim h hit, raw_of_prim h hit]
  | var w =>
    rw [raw_of_var h hit]
    cases ht : p.target? w with
    | none => rw [term_of_unbound h hit ht]
    | some t =>
      rw [term_of_link h hit ht, ih t ((succ_of_var hit).2 ht), Term.subst_var, hs w t ht]
  | fn a r =>
    rw [term_of_fn h hit, raw_of_fn h hit, Term.subst_fn, Term.subst_fn,
      ih a ((succ_of_fn hit).2 (Or.inl rfl)), ih r ((succ_of_fn hit).2 (Or.inr rfl))]
  | user name args =>
    rw [term_of_user h hit, raw_of_user h hit, Term.subst_user, Term.subst_user, List.map_map,
      List.map_map]
    congr 1
    exact List.map_congr_left (fun a ha => ih a ((succ_of_user hit).2 ha))

/-- The pool's own solution turns each handle as built into the handle written out. -/
theorem raw_subst_binding (h : p.WF) (i : Idx) : (p.raw i).subst p.binding = p.term i := by
  revert i
  refine h.induction (fun i ih => ?_)
  cases hit : p.item i with
  | prim q => rw [term_of_prim h hit, raw_of_prim h hit, Term.subst_prim]
  | var w =>
    have hi : i.raw < p.size := lt_size_of_item p hit (by simp)
    rw [raw_of_var h hit, Term.subst_var, binding, h.var_unique i w hi hit]
  | fn a r =>
    rw [term_of_fn h hit, raw_of_fn h hit, Term.subst_fn,
      ih a ((succ_of_fn hit).2 (Or.inl rfl)), ih r ((succ_of_fn hit).2 (Or.inr rfl))]
  | user name args =>
    rw [term_of_user h hit, raw_of_user h hit, Term.subst_user, List.map_map]
    congr 1
    exact List.map_congr_left (fun a ha => ih a ((succ_of_user hit).2 ha))

/-- An unbound variable stands for itself. -/
theorem binding_of_unbound (h : p.WF) {v : Nat} (hv : p.target? v = none) :
    p.binding v = .var v := by
  unfold binding
  cases hx : p.varItem? v with
  | none => rfl
  | some x =>
    have hx' := Array.getElem?_eq_some_iff.1 hx
    obtain ⟨y, hy, -, hyv⟩ := h.varItem v (by rw [← h.varItems_size]; exact hx'.1)
    rw [hx] at hy
    cases hy
    exact term_of_unbound h hyv hv

/-- The pool's own solution solves its links. -/
theorem sat_binding (h : p.WF) : p.Sat p.binding := by
  intro v t ht
  have hv : v < p.varCount := by
    by_contra hle
    rw [target?_of_le p (Nat.le_of_not_lt hle)] at ht
    cases ht
  obtain ⟨x, hx, -, hxv⟩ := h.varItem v hv
  rw [raw_subst_binding h, binding, hx]
  exact term_of_link h hxv ht

/-- Solving the links survives any further substitution. -/
theorem Sat.comp {θ : Nat → Term} (hs : p.Sat θ) (τ : Nat → Term) :
    p.Sat (fun v => (θ v).subst τ) := by
  intro v t ht
  show (θ v).subst τ = _
  rw [hs v t ht, Term.subst_subst]

/-- A substitution solving the links sends each variable's solution where it sends the
variable. -/
theorem binding_subst_of_sat (h : p.WF) {σ : Nat → Term} (hs : p.Sat σ) (v : Nat) :
    (p.binding v).subst σ = σ v := by
  unfold binding
  cases hx : p.varItem? v with
  | none => rfl
  | some x =>
    rw [subst_term_of_sat h hs, raw_of_var h (h.varItem?_spec hx).2, Term.subst_var]

/-- The written-out handles are fixed by the pool's own solution. -/
theorem term_subst_binding (h : p.WF) (i : Idx) : (p.term i).subst p.binding = p.term i := by
  rw [subst_term_of_sat h (sat_binding h), raw_subst_binding h]

/-- An unbound variable whose item lies at or below a handle is a variable of what the handle
stands for. -/
theorem mem_vars_term_of_occurs (h : p.WF) {v : Nat} (hv : p.target? v = none) {i : Idx}
    (ho : p.Occurs v i) : v ∈ (p.term i).vars := by
  obtain ⟨j, hr, hj⟩ := ho
  induction hr using Relation.ReflTransGen.head_induction_on with
  | refl => rw [term_of_unbound h hj hv]; simp [Term.vars]
  | head hs _ ih =>
    rename_i i k _
    have hk := ih
    cases hit : p.item i with
    | prim q => exact absurd hs (not_succ_of_prim hit)
    | var w =>
      rw [term_of_link h hit ((succ_of_var hit).1 hs)]
      exact hk
    | fn a r =>
      rw [term_of_fn h hit]
      rcases (succ_of_fn hit).1 hs with rfl | rfl <;> simp [Term.vars, hk]
    | user name args =>
      rw [term_of_user h hit, Term.vars_user, Term.mem_varsList]
      exact ⟨p.term k, List.mem_map_of_mem ((succ_of_user hit).1 hs), hk⟩

/-- Every variable of what a handle stands for has its item at or below the handle. -/
theorem occurs_of_mem_vars_term (h : p.WF) {v : Nat} {i : Idx} (hv : v ∈ (p.term i).vars) :
    p.Occurs v i := by
  refine h.induction (motive := fun i => v ∈ (p.term i).vars → p.Occurs v i)
    (fun i ih hv => ?_) i hv
  have down : ∀ {k}, p.Succ i k → v ∈ (p.term k).vars → p.Occurs v i := fun hs hk =>
    occurs_step.2 (Or.inr ⟨_, hs, ih _ hs hk⟩)
  cases hit : p.item i with
  | prim q =>
    rw [term_of_prim h hit] at hv
    simp [Term.vars] at hv
  | var w =>
    cases ht : p.target? w with
    | none =>
      rw [term_of_unbound h hit ht, Term.mem_vars_var] at hv
      exact ⟨i, .refl, hv ▸ hit⟩
    | some t =>
      rw [term_of_link h hit ht] at hv
      exact down ((succ_of_var hit).2 ht) hv
  | fn a r =>
    rw [term_of_fn h hit] at hv
    simp only [Term.vars, List.mem_append] at hv
    rcases hv with hv | hv
    · exact down ((succ_of_fn hit).2 (Or.inl rfl)) hv
    · exact down ((succ_of_fn hit).2 (Or.inr rfl)) hv
  | user name args =>
    rw [term_of_user h hit, Term.vars_user, Term.mem_varsList] at hv
    obtain ⟨t, ht, hvt⟩ := hv
    obtain ⟨a, ha, rfl⟩ := List.mem_map.1 ht
    exact down ((succ_of_user hit).2 ha) hvt

/-- The variables of what a handle stands for are unbound. -/
theorem target?_of_mem_vars_term (h : p.WF) {v : Nat} {i : Idx} (hv : v ∈ (p.term i).vars) :
    p.target? v = none := by
  refine h.induction (motive := fun i => v ∈ (p.term i).vars → p.target? v = none)
    (fun i ih hv => ?_) i hv
  cases hit : p.item i with
  | prim q =>
    rw [term_of_prim h hit] at hv
    simp [Term.vars] at hv
  | var w =>
    cases ht : p.target? w with
    | none =>
      rw [term_of_unbound h hit ht, Term.mem_vars_var] at hv
      rwa [hv]
    | some t =>
      rw [term_of_link h hit ht] at hv
      exact ih _ ((succ_of_var hit).2 ht) hv
  | fn a r =>
    rw [term_of_fn h hit] at hv
    simp only [Term.vars, List.mem_append] at hv
    rcases hv with hv | hv
    · exact ih _ ((succ_of_fn hit).2 (Or.inl rfl)) hv
    · exact ih _ ((succ_of_fn hit).2 (Or.inr rfl)) hv
  | user name args =>
    rw [term_of_user h hit, Term.vars_user, Term.mem_varsList] at hv
    obtain ⟨t, ht, hvt⟩ := hv
    obtain ⟨a, ha, rfl⟩ := List.mem_map.1 ht
    exact ih _ ((succ_of_user hit).2 ha) hvt

/-- The variables of what a handle stands for have been allocated. -/
theorem lt_varCount_of_mem_vars_term (h : p.WF) {v : Nat} {i : Idx} (hi : i.raw < p.size)
    (hv : v ∈ (p.term i).vars) : v < p.varCount := by
  obtain ⟨j, hr, hj⟩ := occurs_of_mem_vars_term h hv
  exact h.varCount_of_item (lt_size_of_reach h hi hr) hj

/-- A type all of whose variables are unbound is fixed by the pool's solution. -/
theorem subst_binding_of_unbound (h : p.WF) {t : Term} (ht : ∀ v ∈ t.vars, p.target? v = none) :
    t.subst p.binding = t := by
  rw [Term.subst_congr t (fun v hv => binding_of_unbound h (ht v hv)), Term.subst_var_self]

/-- A handle with no variable item below it stands for a closed type, fixed by every
substitution, and nothing below it is linked. -/
theorem subst_term_of_hasVars_false (h : p.WF) {i : Idx} (hf : p.hasVars i = false)
    (τ : Nat → Term) : (p.term i).subst τ = p.term i := by
  conv_rhs => rw [← Term.subst_var_self (p.term i)]
  refine Term.subst_congr _ (fun v hv => ?_)
  obtain ⟨j, hr, hj⟩ := occurs_of_mem_vars_term h hv
  have := (not_isVar_of_hasVars_false h hf hr).2
  rw [hj] at this
  cases this

/-- One level of `raw`: the item decides, links are not followed. -/
theorem raw_eq (h : p.WF) (i : Idx) : p.raw i =
    match p.item i with
    | .prim q => .prim q
    | .var w => .var w
    | .fn a r => .fn (p.raw a) (p.raw r)
    | .user name args => .user name (args.map p.raw) := by
  cases hit : p.item i with
  | prim q => exact raw_of_prim h hit
  | var w => exact raw_of_var h hit
  | fn a r => exact raw_of_fn h hit
  | user name args => exact raw_of_user h hit

/-- A handle whose item is not a variable does not stand for a variable. -/
theorem term_ne_var (h : p.WF) {i : Idx} (hi : ∀ w, p.item i ≠ .var w) (w : Nat) :
    p.term i ≠ .var w := by
  cases hit : p.item i with
  | prim q => rw [term_of_prim h hit]; exact fun he => Term.noConfusion he
  | var v => exact absurd hit (hi v)
  | fn a r => rw [term_of_fn h hit]; exact fun he => Term.noConfusion he
  | user name args => rw [term_of_user h hit]; exact fun he => Term.noConfusion he

/-- Under a substitution solving the links, resolving a handle does not change its instance. -/
theorem raw_subst_resolve (h : p.WF) {σ : Nat → Term} (hs : p.Sat σ) (i : Idx) :
    (p.raw (p.resolve i)).subst σ = (p.raw i).subst σ := by
  rw [← subst_term_of_sat h hs, term_resolve h, subst_term_of_sat h hs]

/-! ## Resolved handles are canonical -/

theorem Resolved.settled {i : Idx} (hr : p.Resolved i) : p.Settled i :=
  hr i Relation.ReflTransGen.refl

theorem Resolved.of_succ {i j : Idx} (hr : p.Resolved i) (hs : p.Succ i j) : p.Resolved j :=
  fun k hk => hr k (Relation.ReflTransGen.head hs hk)

/-- A settled handle whose successors are all resolved is resolved. -/
theorem Resolved.of_forall_succ {i : Idx} (hs : p.Settled i)
    (hr : ∀ j, p.Succ i j → p.Resolved j) : p.Resolved i := by
  intro j hj
  rcases Relation.ReflTransGen.cases_head hj with rfl | ⟨k, hk, hkj⟩
  · exact hs
  · exact hr k hk j hkj

/-- Nothing is linked below a handle with no variable item below it. -/
theorem resolved_of_hasVars_false (h : p.WF) {i : Idx} (hf : p.hasVars i = false) :
    p.Resolved i := by
  intro j hr v hj
  have := (not_isVar_of_hasVars_false h hf hr).2
  rw [hj] at this
  cases this

/-- Two lists whose members are told apart by `f` are told apart by mapping `f`. -/
private theorem eq_of_map_eq {f : Idx → Term} :
    ∀ {l l' : List Idx}, (∀ a ∈ l, ∀ b ∈ l', f a = f b → a = b) → l.map f = l'.map f → l = l'
  | [], [], _, _ => rfl
  | [], _ :: _, _, he => by simp at he
  | _ :: _, [], _, he => by simp at he
  | a :: l, b :: l', hab, he => by
    simp only [List.map_cons, List.cons.injEq] at he
    rw [hab a List.mem_cons_self b List.mem_cons_self he.1,
      eq_of_map_eq (fun a' ha' b' hb' => hab a' (List.mem_cons_of_mem a ha') b'
        (List.mem_cons_of_mem b hb')) he.2]

/-- What a resolved handle stands for, read off its item. -/
theorem term_resolved_cases (h : p.WF) {i : Idx} (hr : p.Resolved i) :
    (∃ q, p.item i = .prim q ∧ p.term i = .prim q) ∨
    (∃ w, p.item i = .var w ∧ p.term i = .var w) ∨
    (∃ a r, p.item i = .fn a r ∧ p.term i = .fn (p.term a) (p.term r)) ∨
    (∃ name args, p.item i = .user name args ∧ p.term i = .user name (args.map p.term)) := by
  cases hit : p.item i with
  | prim q => exact Or.inl ⟨q, rfl, term_of_prim h hit⟩
  | var w => exact Or.inr (Or.inl ⟨w, rfl, term_of_unbound h hit (hr.settled w hit)⟩)
  | fn a r => exact Or.inr (Or.inr (Or.inl ⟨a, r, rfl, term_of_fn h hit⟩))
  | user name args => exact Or.inr (Or.inr (Or.inr ⟨name, args, rfl, term_of_user h hit⟩))

/-- Two resolved handles of a well-formed pool that stand for the same type are the same
handle: primitives and variables have one item each, and compounds are hash-consed. -/
theorem eq_of_term_eq (h : p.WF) {i j : Idx} (hi : i.raw < p.size) (hj : j.raw < p.size)
    (ri : p.Resolved i) (rj : p.Resolved j) (he : p.term i = p.term j) : i = j := by
  suffices H : ∀ i, i.raw < p.size → p.Resolved i → ∀ j, j.raw < p.size → p.Resolved j →
      p.term i = p.term j → i = j from H i hi ri j hj rj he
  refine h.induction (fun i ih => ?_)
  intro hi ri j hj rj he
  have compound : ∀ it, p.item i = it → p.item j = it → it.isCompound = true → i = j := by
    intro it hit hjt hc
    have h₁ := (h.interned it i).2 ⟨hi, hit, hc⟩
    rw [(h.interned it j).2 ⟨hj, hjt, hc⟩] at h₁
    exact (Option.some.inj h₁).symm
  rcases term_resolved_cases h ri with ⟨q, hit, ht⟩ | ⟨w, hit, ht⟩ | ⟨a, r, hit, ht⟩ |
      ⟨name, args, hit, ht⟩ <;>
    rcases term_resolved_cases h rj with ⟨q', hjt, ht'⟩ | ⟨w', hjt, ht'⟩ | ⟨a', r', hjt, ht'⟩ |
      ⟨name', args', hjt, ht'⟩ <;>
    rw [ht, ht'] at he <;> try cases he
  case inl.inl =>
    rw [h.prim_unique i q hi hit, h.prim_unique j q hj hjt]
  case inr.inl.inr.inl =>
    have h₁ := h.var_unique i w hi hit
    rw [h.var_unique j w hj hjt] at h₁
    exact (Option.some.inj h₁).symm
  case inr.inr.inl.inr.inr.inl =>
    obtain ⟨hea, her⟩ := Term.fn.inj he
    have hsa : p.Succ i a := (succ_of_fn hit).2 (Or.inl rfl)
    have hsr : p.Succ i r := (succ_of_fn hit).2 (Or.inr rfl)
    have hsa' : p.Succ j a' := (succ_of_fn hjt).2 (Or.inl rfl)
    have hsr' : p.Succ j r' := (succ_of_fn hjt).2 (Or.inr rfl)
    have ha := ih a hsa (h.closed _ _ hsa) (ri.of_succ hsa) a' (h.closed _ _ hsa')
      (rj.of_succ hsa') hea
    have hr := ih r hsr (h.closed _ _ hsr) (ri.of_succ hsr) r' (h.closed _ _ hsr')
      (rj.of_succ hsr') her
    subst ha hr
    exact compound _ hit hjt rfl
  case inr.inr.inr.inr.inr.inr =>
    obtain ⟨rfl, hea⟩ := Term.user.inj he
    have hargs : args = args' := eq_of_map_eq (fun a ha b hb hab => by
      have hsa : p.Succ i a := (succ_of_user hit).2 ha
      have hsb : p.Succ j b := (succ_of_user hjt).2 hb
      exact ih a hsa (h.closed _ _ hsa) (ri.of_succ hsa) b (h.closed _ _ hsb)
        (rj.of_succ hsb) hab) hea
    subst hargs
    exact compound _ hit hjt rfl

end Pool

end TagML
