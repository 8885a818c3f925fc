import Mathlib.Tactic.IntervalCases
import Std.Data.HashMap.Lemmas
import TagML.Proofs.Pool.Graph

/-!
The invariant every pool the checker builds keeps, and the three ways a pool changes.

A pool changes by pushing a fresh variable, by hash-consing a compound structure, and by
linking a variable.  `WF` collects what every later proof relies on: the primitives sit at
their fixed handles and nowhere else; each variable id has exactly one item; the parts of an
item are older than it and link targets are handles of the pool; each flag says whether a
variable item lies among the parts, transitively; the interning map knows exactly the compound
items, at their handles, so a compound structure has one handle; and the pool is acyclic.

`WF.fresh`, `WF.intern` and `WF.link` show the three changes keep it, the last under the
condition the occurs check establishes: the variable's item is not reachable from the target.
-/
namespace TagML

namespace Item

/-- Whether the item is a variable. -/
def isVar : Item → Bool
  | var _ => true
  | _ => false

/-- Whether the item is a function or user type, the items a pool hash-conses. -/
def isCompound : Item → Bool
  | fn _ _ => true
  | user _ _ => true
  | _ => false

@[simp] theorem parts_var (v : Nat) : (Item.var v).parts = [] := rfl

@[simp] theorem parts_prim (q : Prim) : (Item.prim q).parts = [] := rfl

end Item

namespace Pool

/-! ## What each change does to each field -/

section Fields

variable (p : Pool)

@[simp] theorem push_fst (it : Item) (f : Bool) : (p.push it f).1 = ⟨p.size⟩ := rfl

@[simp] theorem size_push (it : Item) (f : Bool) : (p.push it f).2.size = p.size + 1 := by
  cases p; simp [push, size]

theorem item_push (it : Item) (f : Bool) (j : Idx) :
    (p.push it f).2.item j = if j.raw = p.size then it else p.item j := by
  obtain ⟨items, flags, links, varItems, interned⟩ := p
  simp only [push, item, size, Array.getElem?_push]
  by_cases hj : j.raw = items.size <;> simp [hj]

theorem hasVars_push (it : Item) (f : Bool) (j : Idx) :
    (p.push it f).2.hasVars j = if j.raw = p.flags.size then f else p.hasVars j := by
  obtain ⟨items, flags, links, varItems, interned⟩ := p
  simp only [push, hasVars, Array.getElem?_push]
  by_cases hj : j.raw = flags.size <;> simp [hj]

@[simp] theorem target?_push (it : Item) (f : Bool) (v : Nat) :
    (p.push it f).2.target? v = p.target? v := by
  cases p; rfl

@[simp] theorem varItem?_push (it : Item) (f : Bool) (v : Nat) :
    (p.push it f).2.varItem? v = p.varItem? v := by
  cases p; rfl

@[simp] theorem varCount_push (it : Item) (f : Bool) : (p.push it f).2.varCount = p.varCount := by
  cases p; rfl

@[simp] theorem interned_push (it : Item) (f : Bool) :
    (p.push it f).2.interned = p.interned := by
  cases p; rfl

@[simp] theorem flags_size_push (it : Item) (f : Bool) :
    (p.push it f).2.flags.size = p.flags.size + 1 := by
  cases p; simp [push]

@[simp] theorem fresh_fst : p.fresh.1 = ⟨p.size⟩ := rfl

@[simp] theorem size_fresh : p.fresh.2.size = p.size + 1 := by
  cases p; simp [fresh, push, size]

theorem item_fresh (j : Idx) :
    p.fresh.2.item j = if j.raw = p.size then .var p.varCount else p.item j := by
  obtain ⟨items, flags, links, varItems, interned⟩ := p
  simp only [fresh, push, item, size, varCount, Array.getElem?_push]
  by_cases hj : j.raw = items.size <;> simp [hj]

theorem hasVars_fresh (j : Idx) :
    p.fresh.2.hasVars j = if j.raw = p.flags.size then true else p.hasVars j := by
  obtain ⟨items, flags, links, varItems, interned⟩ := p
  simp only [fresh, push, hasVars, Array.getElem?_push]
  by_cases hj : j.raw = flags.size <;> simp [hj]

@[simp] theorem target?_fresh (v : Nat) : p.fresh.2.target? v = p.target? v := by
  obtain ⟨items, flags, links, varItems, interned⟩ := p
  simp only [fresh, push, target?, Array.getElem?_push]
  by_cases hv : v = links.size
  · subst hv
    simp
  · simp [hv]

theorem varItem?_fresh (v : Nat) :
    p.fresh.2.varItem? v = if v = p.varItems.size then some ⟨p.size⟩ else p.varItem? v := by
  cases p
  simp only [fresh, push, varItem?, size, Array.getElem?_push]

@[simp] theorem varCount_fresh : p.fresh.2.varCount = p.varCount + 1 := by
  cases p; simp [fresh, push, varCount]

@[simp] theorem interned_fresh : p.fresh.2.interned = p.interned := by
  cases p; rfl

@[simp] theorem flags_size_fresh : p.fresh.2.flags.size = p.flags.size + 1 := by
  cases p; simp [fresh, push]

theorem intern_of_mem {it : Item} {i : Idx} (h : p.interned[it]? = some i) :
    p.intern it = (i, p) := by
  simp [intern, h]

theorem intern_of_not_mem {it : Item} (h : p.interned[it]? = none) :
    p.intern it = (⟨p.size⟩, { (p.push it (it.parts.any p.hasVars)).2 with
      interned := p.interned.insert it ⟨p.size⟩ }) := by
  cases p
  simp [intern, h, push, size]

theorem target?_link (v : Nat) (t : Idx) (w : Nat) :
    (p.link v t).target? w = if w = v ∧ v < p.varCount then some t else p.target? w := by
  obtain ⟨items, flags, links, varItems, interned⟩ := p
  simp only [link, target?, varCount, Array.getElem?_setIfInBounds]
  by_cases hw : w = v
  · subst hw
    by_cases hv : w < links.size <;> simp [hv]
  · simp [hw, Ne.symm hw]

@[simp] theorem item_link (v : Nat) (t : Idx) : (p.link v t).item = p.item := by
  cases p; rfl

@[simp] theorem hasVars_link (v : Nat) (t : Idx) : (p.link v t).hasVars = p.hasVars := by
  cases p; rfl

@[simp] theorem size_link (v : Nat) (t : Idx) : (p.link v t).size = p.size := by
  cases p; rfl

@[simp] theorem varItem?_link (v : Nat) (t : Idx) : (p.link v t).varItem? = p.varItem? := by
  cases p; rfl

@[simp] theorem varCount_link (v : Nat) (t : Idx) : (p.link v t).varCount = p.varCount := by
  cases p; simp [link, varCount]

@[simp] theorem interned_link (v : Nat) (t : Idx) : (p.link v t).interned = p.interned := by
  cases p; rfl

@[simp] theorem flags_link (v : Nat) (t : Idx) : (p.link v t).flags = p.flags := by
  cases p; rfl

/-- A handle the pool never issued reads as `Int`. -/
theorem item_of_le {j : Idx} (h : p.size ≤ j.raw) : p.item j = .prim .int := by
  simp only [item]
  rw [Array.getElem?_eq_none h]
  rfl

/-- A handle with an item other than `Int` was issued by the pool. -/
theorem lt_size_of_item {i : Idx} {it : Item} (hi : p.item i = it) (hne : it ≠ .prim .int) :
    i.raw < p.size := by
  by_contra hle
  exact hne (hi ▸ p.item_of_le (Nat.le_of_not_lt hle))

@[simp] theorem varItems_size_fresh : p.fresh.2.varItems.size = p.varItems.size + 1 := by
  cases p; simp [fresh, push]

@[simp] theorem varItems_link (v : Nat) (t : Idx) : (p.link v t).varItems = p.varItems := by
  cases p; rfl

/-- No variable id beyond those allocated is linked. -/
theorem target?_of_le {v : Nat} (h : p.varCount ≤ v) : p.target? v = none := by
  simp only [target?, varCount] at *
  rw [Array.getElem?_eq_none h]

end Fields

/-! ## The invariant -/

/-- The invariant of every pool the checker builds. -/
structure WF (p : Pool) : Prop where
  flags_size : p.flags.size = p.size
  varItems_size : p.varItems.size = p.varCount
  prim : ∀ q : Prim, q.index < p.size ∧ p.item q.idx = .prim q
  prim_unique : ∀ i q, i.raw < p.size → p.item i = .prim q → i = q.idx
  varItem : ∀ v, v < p.varCount → ∃ i, p.varItem? v = some i ∧ i.raw < p.size ∧ p.item i = .var v
  var_unique : ∀ i v, i.raw < p.size → p.item i = .var v → p.varItem? v = some i
  parts_lt : ∀ i, i.raw < p.size → ∀ j ∈ (p.item i).parts, j.raw < i.raw
  target_lt : ∀ v t, p.target? v = some t → t.raw < p.size
  hasVars_eq : ∀ i, i.raw < p.size →
    p.hasVars i = ((p.item i).isVar || (p.item i).parts.any p.hasVars)
  interned : ∀ it i, p.interned[it]? = some i ↔ (i.raw < p.size ∧ p.item i = it ∧ it.isCompound)
  acyclic : p.Acyclic

namespace WF

variable {p : Pool}

/-- Steps from a well-formed pool stay inside it. -/
theorem closed (h : p.WF) : p.Closed := by
  intro i j hs
  rcases hs with hp | ⟨v, _, ht⟩
  · by_cases hi : i.raw < p.size
    · exact Nat.lt_trans (h.parts_lt i hi j hp) hi
    · rw [p.item_of_le (Nat.le_of_not_lt hi)] at hp
      simp at hp
  · exact h.target_lt v j ht

/-- The argument and the result of a function item are handles of the pool. -/
theorem fn_parts_lt (h : p.WF) {i a r : Idx} (hi : p.item i = .fn a r) :
    a.raw < p.size ∧ r.raw < p.size :=
  ⟨h.closed _ _ ((succ_of_fn hi).2 (Or.inl rfl)), h.closed _ _ ((succ_of_fn hi).2 (Or.inr rfl))⟩

/-- The argument pairs of two user items, the fold unification runs over, are pairs of
handles of the pool. -/
theorem zip_args_lt (h : p.WF) {i j : Idx} {m m' : String} {xs ys : List Idx}
    (hi : p.item i = .user m xs) (hj : p.item j = .user m' ys) :
    ∀ pair ∈ xs.zip ys, pair.1.raw < p.size ∧ pair.2.raw < p.size := fun _ hpair =>
  ⟨h.closed _ _ ((succ_of_user hi).2 (List.of_mem_zip hpair).1),
    h.closed _ _ ((succ_of_user hj).2 (List.of_mem_zip hpair).2)⟩

theorem varCount_of_item (h : p.WF) {i : Idx} {v : Nat} (hi : i.raw < p.size)
    (hv : p.item i = .var v) : v < p.varCount := by
  have hs := h.var_unique i v hi hv
  rw [← h.varItems_size]
  exact (Array.getElem?_eq_some_iff.1 hs).1

theorem rank_lt_of_succ (h : p.WF) {i j : Idx} (hs : p.Succ i j) : p.rank j < p.rank i :=
  Pool.rank_lt_of_succ h.acyclic h.closed hs

theorem rank_lt_size (h : p.WF) {i : Idx} (hi : i.raw < p.size) : p.rank i < p.size :=
  Pool.rank_lt_size h.acyclic hi

/-- The item a variable id names is a variable item of the pool with that id. -/
theorem varItem?_spec (h : p.WF) {v : Nat} {x : Idx} (hx : p.varItem? v = some x) :
    x.raw < p.size ∧ p.item x = .var v := by
  have hv : v < p.varCount := by
    rw [← h.varItems_size]
    exact (Array.getElem?_eq_some_iff.1 hx).1
  obtain ⟨y, hy, hys, hyv⟩ := h.varItem v hv
  rw [hx] at hy
  cases hy
  exact ⟨hys, hyv⟩

/-- An item the pool does not hold is not interned, so interning it appends it. -/
theorem interned_eq_none (h : p.WF) {it : Item} (hnew : ∀ k < p.size, p.item ⟨k⟩ ≠ it) :
    p.interned[it]? = none := by
  cases hmem : p.interned[it]? with
  | none => rfl
  | some i =>
    obtain ⟨hi, hit, -⟩ := (h.interned it i).1 hmem
    exact absurd hit (hnew i.raw hi)

end WF

/-! ## The three changes keep the invariant -/

section Changes

variable {p : Pool}

/-- Two tests that agree on the members of a list agree on the list. -/
private theorem any_eq_any {l : List Idx} {f g : Idx → Bool} (h : ∀ a ∈ l, f a = g a) :
    l.any f = l.any g := by
  induction l with
  | nil => rfl
  | cons a l ih =>
    simp only [List.any_cons]
    rw [h a List.mem_cons_self, ih (fun b hb => h b (List.mem_cons_of_mem a hb))]

/-- The pool with only the primitives holds nothing but primitives. -/
theorem item_empty (i : Idx) : ∃ q, ({} : Pool).item i = .prim q := by
  obtain ⟨k⟩ := i
  by_cases hk : k < 6
  · interval_cases k <;> exact ⟨_, rfl⟩
  · exact ⟨.int, item_of_le _ (Nat.le_of_not_lt hk)⟩

theorem WF.empty : ({} : Pool).WF where
  flags_size := rfl
  varItems_size := rfl
  prim q := by cases q <;> exact ⟨by decide, rfl⟩
  prim_unique i q hi hq := by
    obtain ⟨k⟩ := i
    change k < 6 at hi
    revert hq
    interval_cases k <;> cases q <;> decide
  varItem v hv := absurd hv (Nat.not_lt_zero v)
  var_unique i v _ hv := by
    obtain ⟨q, hq⟩ := item_empty i
    rw [hq] at hv
    cases hv
  parts_lt i _ j hj := by
    obtain ⟨q, hq⟩ := item_empty i
    rw [hq] at hj
    simp at hj
  target_lt v t ht := by
    rw [target?_of_le _ (Nat.zero_le v)] at ht
    cases ht
  hasVars_eq i hi := by
    obtain ⟨q, hq⟩ := item_empty i
    obtain ⟨k⟩ := i
    change k < 6 at hi
    rw [hq]
    interval_cases k <;> rfl
  interned it i := by
    obtain ⟨q, hq⟩ := item_empty i
    simp only [Std.HashMap.getElem?_empty, reduceCtorEq, false_iff, not_and]
    intro _ hit
    rw [← hit, hq]
    simp [Item.isCompound]
  acyclic := by
    refine acyclic_of_rank (fun _ => 0) (fun i j hs => ?_)
    obtain ⟨q, hq⟩ := item_empty i
    rcases hs with hp | ⟨v, hv, _⟩
    · rw [hq] at hp
      simp at hp
    · rw [hq] at hv
      cases hv

/-- A fresh variable is an item of its own, with no parts and no link. -/
theorem WF.fresh (h : p.WF) : p.fresh.2.WF where
  flags_size := by simp [h.flags_size]
  varItems_size := by simp [h.varItems_size]
  prim q := by
    obtain ⟨hq, hi⟩ := h.prim q
    refine ⟨by simp; omega, ?_⟩
    rw [item_fresh, if_neg (show q.idx.raw ≠ p.size from Nat.ne_of_lt hq), hi]
  prim_unique i q hi hq := by
    rw [item_fresh] at hq
    split at hq
    · cases hq
    · exact h.prim_unique i q (by simp at hi; omega) hq
  varItem v hv := by
    rw [varCount_fresh] at hv
    by_cases hvc : v = p.varCount
    · subst hvc
      refine ⟨⟨p.size⟩, ?_, by simp, ?_⟩
      · rw [varItem?_fresh, if_pos h.varItems_size.symm]
      · rw [item_fresh, if_pos rfl]
    · obtain ⟨i, hs, hi, hit⟩ := h.varItem v (by omega)
      refine ⟨i, ?_, by simp; omega, ?_⟩
      · rw [varItem?_fresh, if_neg (by rw [h.varItems_size]; exact hvc), hs]
      · rw [item_fresh, if_neg (Nat.ne_of_lt hi), hit]
  var_unique i v hi hv := by
    rw [item_fresh] at hv
    rw [varItem?_fresh]
    split at hv
    · next hs =>
      cases hv
      rw [if_pos h.varItems_size.symm]
      obtain ⟨k⟩ := i
      cases hs
      rfl
    · next hs =>
      have hi' : i.raw < p.size := by simp at hi; omega
      have hvc : v < p.varCount := h.varCount_of_item hi' hv
      rw [if_neg (by rw [h.varItems_size]; omega)]
      exact h.var_unique i v hi' hv
  parts_lt i hi j hj := by
    rw [item_fresh] at hj
    split at hj
    · simp at hj
    · exact h.parts_lt i (by simp at hi; omega) j hj
  target_lt v t ht := by
    rw [target?_fresh] at ht
    simp only [size_fresh]
    exact Nat.lt_succ_of_lt (h.target_lt v t ht)
  hasVars_eq i hi := by
    rw [hasVars_fresh, item_fresh, h.flags_size]
    split
    · rfl
    · have hi' : i.raw < p.size := by simp at hi; omega
      rw [h.hasVars_eq i hi']
      congr 1
      refine any_eq_any (fun j hj => ?_)
      rw [hasVars_fresh, h.flags_size,
        if_neg (Nat.ne_of_lt (Nat.lt_trans (h.parts_lt i hi' j hj) hi'))]
  interned it i := by
    rw [interned_fresh, h.interned, item_fresh]
    constructor
    · rintro ⟨hi, hit, hc⟩
      exact ⟨by simp; omega, by rw [if_neg (Nat.ne_of_lt hi)]; exact hit, hc⟩
    · rintro ⟨hi, hit, hc⟩
      split at hit
      · subst hit
        simp [Item.isCompound] at hc
      · exact ⟨by simp at hi; omega, hit, hc⟩
  acyclic := by
    refine h.acyclic.mono (fun i j hs => ?_)
    rcases hs with hp | ⟨w, hw, ht⟩
    · rw [item_fresh] at hp
      split at hp
      · simp at hp
      · exact Or.inl hp
    · rw [item_fresh] at hw
      rw [target?_fresh] at ht
      split at hw
      · cases hw
        rw [target?_of_le _ (Nat.le_refl _)] at ht
        cases ht
      · exact Or.inr ⟨w, hw, ht⟩

/-- Interning a compound structure whose parts are handles of the pool: a known structure
leaves the pool as it is, a new one becomes an item after all its parts. -/
theorem WF.intern (h : p.WF) {it : Item} (hc : it.isCompound = true)
    (hparts : ∀ j ∈ it.parts, j.raw < p.size) : (p.intern it).2.WF := by
  cases hmem : p.interned[it]? with
  | some i => rw [p.intern_of_mem hmem]; exact h
  | none =>
    rw [p.intern_of_not_mem hmem]
    set q : Pool := { (p.push it (it.parts.any p.hasVars)).2 with
      interned := p.interned.insert it ⟨p.size⟩ } with hq
    have hsize : q.size = p.size + 1 := p.size_push it (it.parts.any p.hasVars)
    have hitem : ∀ j, q.item j = if j.raw = p.size then it else p.item j :=
      p.item_push it (it.parts.any p.hasVars)
    have hflags : ∀ j, q.hasVars j = if j.raw = p.size then it.parts.any p.hasVars
        else p.hasVars j := by
      intro j
      rw [← h.flags_size]
      exact p.hasVars_push it (it.parts.any p.hasVars) j
    have hvar : q.varItem? = p.varItem? := funext (p.varItem?_push it (it.parts.any p.hasVars))
    have hcount : q.varCount = p.varCount := p.varCount_push it (it.parts.any p.hasVars)
    have htarget : q.target? = p.target? := funext (p.target?_push it (it.parts.any p.hasVars))
    -- every part of an old item is an old handle, so its flag is unchanged
    have hold : ∀ i, i.raw < p.size → (p.item i).parts.any q.hasVars =
        (p.item i).parts.any p.hasVars := fun i hi => any_eq_any (fun j hj => by
      rw [hflags, if_neg (Nat.ne_of_lt (Nat.lt_trans (h.parts_lt i hi j hj) hi))])
    have hnew : it.parts.any q.hasVars = it.parts.any p.hasVars := any_eq_any (fun j hj => by
      rw [hflags, if_neg (Nat.ne_of_lt (hparts j hj))])
    have hnotvar : it.isVar = false := by cases it <;> simp_all [Item.isCompound, Item.isVar]
    show q.WF
    exact {
      flags_size := by
        rw [hsize]
        exact (p.flags_size_push it (it.parts.any p.hasVars)).trans (by rw [h.flags_size])
      varItems_size := by rw [hcount]; exact h.varItems_size
      prim := fun r => by
        obtain ⟨hr, hi⟩ := h.prim r
        refine ⟨by omega, ?_⟩
        rw [hitem, if_neg (show r.idx.raw ≠ p.size from Nat.ne_of_lt hr), hi]
      prim_unique := fun i r hi hr => by
        rw [hitem] at hr
        split at hr
        · subst hr
          simp [Item.isCompound] at hc
        · exact h.prim_unique i r (by omega) hr
      varItem := fun v hv => by
        obtain ⟨i, hs, hi, hit⟩ := h.varItem v (by omega)
        exact ⟨i, by rw [hvar]; exact hs, by omega, by rw [hitem, if_neg (Nat.ne_of_lt hi), hit]⟩
      var_unique := fun i v hi hv => by
        rw [hitem] at hv
        rw [hvar]
        split at hv
        · subst hv
          simp [Item.isCompound] at hc
        · exact h.var_unique i v (by omega) hv
      parts_lt := fun i hi j hj => by
        rw [hitem] at hj
        split at hj
        · next hs => rw [hs]; exact hparts j hj
        · exact h.parts_lt i (by omega) j hj
      target_lt := fun v t ht => by
        rw [htarget] at ht
        rw [hsize]
        exact Nat.lt_succ_of_lt (h.target_lt v t ht)
      hasVars_eq := fun i hi => by
        rw [hflags, hitem]
        split
        · rw [hnotvar, hnew, Bool.false_or]
        · next hs => rw [hold i (by omega), h.hasVars_eq i (by omega)]
      interned := fun it' i => by
        rw [hq, Std.HashMap.getElem?_insert]
        simp only [beq_iff_eq]
        rw [← hq, hitem]
        by_cases hit : it = it'
        · subst hit
          rw [if_pos rfl]
          constructor
          · rintro ⟨⟩
            exact ⟨by rw [hsize]; exact Nat.lt_succ_self _, if_pos rfl, hc⟩
          · rintro ⟨hi, hi', -⟩
            split at hi'
            · next hs => obtain ⟨k⟩ := i; cases hs; rfl
            · have := (h.interned it i).2 ⟨by omega, hi', hc⟩
              rw [hmem] at this
              cases this
        · rw [if_neg hit, h.interned]
          constructor
          · rintro ⟨hi, hi', hc'⟩
            exact ⟨by omega, by rw [if_neg (Nat.ne_of_lt hi)]; exact hi', hc'⟩
          · rintro ⟨hi, hi', hc'⟩
            split at hi'
            · exact absurd hi' hit
            · exact ⟨by omega, hi', hc'⟩
      acyclic := by
        -- the new item ranks above everything, each old handle keeps its rank
        refine acyclic_of_rank (fun i => if i.raw = p.size then p.size else p.rank i) ?_
        intro i j hs
        have hold_succ : i.raw ≠ p.size → p.Succ i j := by
          intro hi
          rcases hs with hp | ⟨w, hw, ht⟩
          · rw [hitem, if_neg hi] at hp
            exact Or.inl hp
          · rw [hitem, if_neg hi] at hw
            rw [htarget] at ht
            exact Or.inr ⟨w, hw, ht⟩
        by_cases hi : i.raw = p.size
        · have hj : j ∈ it.parts := by
            rcases hs with hp | ⟨w, hw, _⟩
            · rwa [hitem, if_pos hi] at hp
            · rw [hitem, if_pos hi] at hw
              subst hw
              simp [Item.isCompound] at hc
          have hjs := hparts j hj
          simp only [if_pos hi, if_neg (Nat.ne_of_lt hjs)]
          exact h.rank_lt_size hjs
        · have hs' := hold_succ hi
          simp only [if_neg hi, if_neg (Nat.ne_of_lt (h.closed i j hs'))]
          exact h.rank_lt_of_succ hs' }

/-- What interning returns: a handle of the new pool naming the structure. -/
theorem WF.intern_fst (h : p.WF) (it : Item) :
    (p.intern it).1.raw < (p.intern it).2.size ∧ (p.intern it).2.item (p.intern it).1 = it := by
  cases hmem : p.interned[it]? with
  | some i =>
    rw [p.intern_of_mem hmem]
    obtain ⟨hi, hit, -⟩ := (h.interned it i).1 hmem
    exact ⟨hi, hit⟩
  | none =>
    rw [p.intern_of_not_mem hmem]
    exact ⟨(p.size_push it (it.parts.any p.hasVars)).symm ▸ Nat.lt_succ_self p.size,
      (p.item_push it (it.parts.any p.hasVars) ⟨p.size⟩).trans (if_pos rfl)⟩

/-- Linking `v` to `t` adds one step, from the variable's item to `t`, and removes the step
`v` had before, if any. -/
theorem succ_link {v : Nat} {t : Idx} (h : p.WF) {i j : Idx} (hs : (p.link v t).Succ i j) :
    p.Succ i j ∨ (p.varItem? v = some i ∧ j = t) := by
  rcases hs with hp | ⟨w, hw, ht⟩
  · rw [item_link] at hp
    exact Or.inl (Or.inl hp)
  · rw [item_link] at hw
    rw [target?_link] at ht
    split at ht
    · next hwv =>
      obtain ⟨rfl, -⟩ := hwv
      cases ht
      exact Or.inr ⟨h.var_unique i w (lt_size_of_item p hw (by simp)) hw, rfl⟩
    · exact Or.inl (Or.inr ⟨w, hw, ht⟩)

/-- Linking a variable to a handle that does not reach it keeps the invariant. -/
theorem WF.link (h : p.WF) {v : Nat} {t : Idx} (ht : t.raw < p.size)
    (hocc : ∀ x, p.varItem? v = some x → ¬ Relation.ReflTransGen p.Succ t x) :
    (p.link v t).WF where
  flags_size := by simp [h.flags_size]
  varItems_size := by simp [h.varItems_size]
  prim := by simpa using h.prim
  prim_unique := by simpa using h.prim_unique
  varItem := by simpa using h.varItem
  var_unique := by simpa using h.var_unique
  parts_lt := by simpa using h.parts_lt
  target_lt w s hs := by
    rw [target?_link] at hs
    split at hs
    · cases hs
      simpa using ht
    · simpa using h.target_lt w s hs
  hasVars_eq := by simpa using h.hasVars_eq
  interned := by simpa using h.interned
  acyclic := by
    classical
    -- handles that reach the variable rise above the target's rank
    let reachesVar : Idx → Prop := fun i => ∃ x, p.varItem? v = some x ∧ Relation.ReflTransGen p.Succ i x
    refine acyclic_of_rank (fun i => p.rank i + if reachesVar i then p.rank t + 1 else 0) ?_
    intro i j hs
    rcases succ_link h hs with hs | ⟨hx, rfl⟩
    · have hlt := h.rank_lt_of_succ hs
      by_cases hj : reachesVar j
      · obtain ⟨x, hx, hjx⟩ := hj
        have hi : reachesVar i := ⟨x, hx, Relation.ReflTransGen.head hs hjx⟩
        simp only [if_pos hi, if_pos (show reachesVar j from ⟨x, hx, hjx⟩)]
        omega
      · simp only [if_neg hj]
        split <;> omega
    · have hi : reachesVar i := ⟨i, hx, Relation.ReflTransGen.refl⟩
      have hj : ¬ reachesVar j := by
        rintro ⟨x, hx', hjx⟩
        rw [hx] at hx'
        cases hx'
        exact hocc i hx hjx
      simp only [if_pos hi, if_neg hj]
      omega

end Changes

end Pool

end TagML
