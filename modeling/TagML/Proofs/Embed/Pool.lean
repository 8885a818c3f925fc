import TagML.Proofs.Frame

/-!
One pool sitting inside another, with its variables renamed.

Two runs of the checker that differ by one form, checked in one run and skipped in the other,
build pools that differ in three ways: the longer run holds the items the skipped form built,
the variables it allocated sit between the older ones and those of later forms, and a structure
the skipped form hash-consed is found in the longer run where the shorter one builds it anew.
`Pool.Embeds n k ε B A` says this: every handle `i` of `B` has a handle `ε i` of `A` holding the
same item, with its parts sent through `ε` and its variable renamed by `shiftFrom n k`, which
keeps the ids below `n` and moves the others up by `k`; distinct handles have distinct images;
and every variable of `B` is linked in `A` as in `B`.  `A` may hold more: items and variables
that no image reaches.

Every walk then computes from an image what it computes from the handle, renamed: the type it
stands for, its resolution, the occurs check and its free variables.  Each change the checker
makes (a fresh variable, a hash-consed structure, a link), made to both pools in step, keeps the
embedding, with `ε` extended by the handle the change returns.
-/
namespace TagML

/-- The renaming of variable ids around a block of `k` ids allocated from `n` on: the ids
below `n` stay, the others move up by `k`. -/
def shiftFrom (n k v : Nat) : Nat := if v < n then v else v + k

theorem strictMono_shiftFrom (n k : Nat) : StrictMono (shiftFrom n k) := by
  intro v w h
  unfold shiftFrom
  split <;> split <;> omega

theorem shiftFrom_of_le {n k v : Nat} (h : n ≤ v) : shiftFrom n k v = v + k := by
  unfold shiftFrom
  rw [if_neg (Nat.not_lt.2 h)]

/-- Inserting into an ascending list commutes with an order-preserving renaming. -/
theorem VarSet.insert_map {ψ : Nat → Nat} (hψ : StrictMono ψ) (v : Nat) :
    ∀ acc : List Nat, VarSet.insert (ψ v) (acc.map ψ) = (VarSet.insert v acc).map ψ
  | [] => rfl
  | w :: ws => by
    simp only [List.map_cons, VarSet.insert, hψ.lt_iff_lt, hψ.injective.eq_iff]
    split
    · rfl
    split
    · rfl
    rw [List.map_cons, VarSet.insert_map hψ v ws]

namespace Item

/-- An item with its parts sent through `ε` and its variable renamed by `ψ`. -/
def map (ε : Idx → Idx) (ψ : Nat → Nat) : Item → Item
  | prim q => prim q
  | var v => var (ψ v)
  | fn a r => fn (ε a) (ε r)
  | user name args => user name (args.map ε)

variable {ε ε' : Idx → Idx} {ψ : Nat → Nat}

@[simp] theorem parts_map (it : Item) : (it.map ε ψ).parts = it.parts.map ε := by
  cases it <;> rfl

@[simp] theorem isVar_map (it : Item) : (it.map ε ψ).isVar = it.isVar := by
  cases it <;> rfl

@[simp] theorem isCompound_map (it : Item) : (it.map ε ψ).isCompound = it.isCompound := by
  cases it <;> rfl

@[simp] theorem isFn_map (it : Item) : (it.map ε ψ).isFn = it.isFn := by
  cases it <;> rfl

/-- Only the images of an item's own parts matter. -/
theorem map_congr {it : Item} (h : ∀ j ∈ it.parts, ε' j = ε j) : it.map ε' ψ = it.map ε ψ := by
  cases it with
  | prim _ | var _ => rfl
  | fn a r => simp [map, h a (by simp [parts]), h r (by simp [parts])]
  | user name args => exact congrArg _ (List.map_inj_left.2 h)

/-- A list is determined by its image under a map injective on its members. -/
private theorem list_eq_of_map_eq {xs ys : List Idx} (hε : ∀ a ∈ xs, ∀ b ∈ ys, ε a = ε b → a = b)
    (h : xs.map ε = ys.map ε) : xs = ys := by
  induction xs generalizing ys with
  | nil => exact (List.map_eq_nil_iff.1 h.symm).symm
  | cons x xs ih =>
    cases ys with
    | nil => cases h
    | cons y ys =>
      simp only [List.map_cons, List.cons.injEq] at h
      rw [hε x List.mem_cons_self y List.mem_cons_self h.1,
        ih (fun a ha b hb => hε a (List.mem_cons_of_mem x ha) b (List.mem_cons_of_mem y hb)) h.2]

/-- Renaming is injective on items whose parts it keeps apart. -/
theorem eq_of_map_eq (hψ : ψ.Injective) {it it' : Item}
    (hε : ∀ a ∈ it.parts, ∀ b ∈ it'.parts, ε a = ε b → a = b) (h : it.map ε ψ = it'.map ε ψ) :
    it = it' := by
  cases it <;> cases it' <;> simp only [map, reduceCtorEq, prim.injEq, var.injEq, fn.injEq,
    user.injEq] at h ⊢
  · exact h
  · exact hψ h
  · exact ⟨hε _ (by simp [parts]) _ (by simp [parts]) h.1,
      hε _ (by simp [parts]) _ (by simp [parts]) h.2⟩
  · exact ⟨h.1, list_eq_of_map_eq hε h.2⟩

end Item

namespace Term

/-- A type with its variables renamed by `ψ`. -/
def rename (ψ : Nat → Nat) (t : Term) : Term := t.subst fun v => .var (ψ v)

variable (ψ : Nat → Nat)

@[simp] theorem rename_prim (q : Prim) : (prim q).rename ψ = prim q := rfl

@[simp] theorem rename_var (v : Nat) : (var v).rename ψ = var (ψ v) := rfl

@[simp] theorem rename_fn (a r : Term) : (fn a r).rename ψ = fn (a.rename ψ) (r.rename ψ) := rfl

@[simp] theorem rename_user (name : String) (args : List Term) :
    (user name args).rename ψ = user name (args.map (rename ψ)) := by
  simp [rename]

end Term

namespace Pool

/-- Pool `B` sits in pool `A` through `ε`, its variables renamed by `shiftFrom n k`: images of
handles of `B` are handles of `A`, distinct for distinct handles, holding the renamed items, and
every variable of `B` is linked in `A` to the image of its target.  `A` has `k` more variables,
and `B` has at least `n`. -/
structure Embeds (n k : Nat) (ε : Idx → Idx) (B A : Pool) : Prop where
  le : n ≤ B.varCount
  varCount : A.varCount = B.varCount + k
  lt : ∀ i : Idx, i.raw < B.size → (ε i).raw < A.size
  inj : ∀ i j : Idx, i.raw < B.size → j.raw < B.size → ε i = ε j → i = j
  item : ∀ i : Idx, i.raw < B.size → A.item (ε i) = (B.item i).map ε (shiftFrom n k)
  target : ∀ v, v < B.varCount → A.target? (shiftFrom n k v) = (B.target? v).map ε

/-- `ε'` sends the first `m` handles where `ε` does. -/
def SameBelow (m : Nat) (ε ε' : Idx → Idx) : Prop := ∀ i : Idx, i.raw < m → ε' i = ε i

theorem SameBelow.refl (m : Nat) (ε : Idx → Idx) : SameBelow m ε ε := fun _ _ => rfl

theorem SameBelow.trans {m m' : Nat} {ε ε' ε'' : Idx → Idx} (h₁ : SameBelow m ε ε')
    (h₂ : SameBelow m' ε' ε'') (hm : m ≤ m') : SameBelow m ε ε'' :=
  fun i hi => (h₂ i (Nat.lt_of_lt_of_le hi hm)).trans (h₁ i hi)

/-- Sending one more handle, past the first `m`, keeps the first `m` where they were. -/
theorem agrees_update (m : Nat) (ε : Idx → Idx) (x : Idx) :
    SameBelow m ε (Function.update ε ⟨m⟩ x) := fun _ hi =>
  Function.update_of_ne (fun h => Nat.lt_irrefl _ (h ▸ hi)) _ _

namespace Embeds

variable {n k : Nat} {ε ε' : Idx → Idx} {B A : Pool}

theorem shift_lt (he : Embeds n k ε B A) {v : Nat} (hv : v < B.varCount) :
    shiftFrom n k v < A.varCount := by
  rw [he.varCount]
  unfold shiftFrom
  split <;> omega

/-- `A` has at least as many handles as `B`: `ε` sends them to distinct handles of `A`. -/
theorem size_le (he : Embeds n k ε B A) : B.size ≤ A.size := by
  have hcard := Finset.card_le_card_of_injOn (s := Finset.range B.size) (t := Finset.range A.size)
    (fun j => (ε ⟨j⟩).raw) (fun j hj => Finset.mem_range.2 (he.lt ⟨j⟩ (Finset.mem_range.1 hj)))
    (fun i hi j hj h => congrArg Idx.raw (he.inj ⟨i⟩ ⟨j⟩ (Finset.mem_range.1 hi)
      (Finset.mem_range.1 hj) (congrArg Idx.mk h)))
  simpa using hcard

/-- An embedding only reads `ε` on the handles of `B`. -/
theorem congr (hB : B.WF) (he : Embeds n k ε B A) (hε : SameBelow B.size ε ε') :
    Embeds n k ε' B A where
  le := he.le
  varCount := he.varCount
  lt i hi := hε i hi ▸ he.lt i hi
  inj i j hi hj h := he.inj i j hi hj (by rw [← hε i hi, ← hε j hj, h])
  item i hi := by
    rw [hε i hi, he.item i hi]
    exact (Item.map_congr fun j hj => hε j (Nat.lt_trans (hB.parts_lt i hi j hj) hi)).symm
  target v hv := by
    rw [he.target v hv]
    cases ht : B.target? v with
    | none => rfl
    | some t => exact congrArg some (hε t (hB.target_lt v t ht)).symm

/-- The primitives sit at their own handles in both pools. -/
theorem prim (hB : B.WF) (hA : A.WF) (he : Embeds n k ε B A) (q : Prim) : ε q.idx = q.idx :=
  hA.prim_unique _ q (he.lt _ (hB.prim q).1) (by rw [he.item q.idx (hB.prim q).1, (hB.prim q).2]; rfl)

theorem item_var (he : Embeds n k ε B A) {i : Idx} (hi : i.raw < B.size) {v : Nat}
    (hv : B.item i = .var v) : A.item (ε i) = .var (shiftFrom n k v) := by
  rw [he.item i hi, hv]
  rfl

theorem target_some (he : Embeds n k ε B A) {v : Nat} (hv : v < B.varCount) {t : Idx}
    (ht : B.target? v = some t) : A.target? (shiftFrom n k v) = some (ε t) := by
  rw [he.target v hv, ht]
  rfl

/-! ## Walks read the same from an image -/

section Walks

variable (hB : B.WF) (hA : A.WF) (he : Embeds n k ε B A)
include hB he

theorem succ_image {i j : Idx} (hi : i.raw < B.size) (hs : B.Succ i j) : A.Succ (ε i) (ε j) := by
  rcases hs with hp | ⟨v, hv, ht⟩
  · left
    rw [he.item i hi, Item.parts_map]
    exact List.mem_map_of_mem hp
  · exact Or.inr ⟨_, he.item_var hi hv, he.target_some (hB.varCount_of_item hi hv) ht⟩

/-- A step from an image lands on an image. -/
theorem succ_of_image {i x : Idx} (hi : i.raw < B.size) (hs : A.Succ (ε i) x) :
    ∃ j, B.Succ i j ∧ x = ε j := by
  rcases hs with hp | ⟨w, hw, ht⟩
  · rw [he.item i hi, Item.parts_map] at hp
    obtain ⟨j, hj, rfl⟩ := List.mem_map.1 hp
    exact ⟨j, Or.inl hj, rfl⟩
  · cases hit : B.item i with
    | var v =>
      rw [he.item_var hi hit, Item.var.injEq] at hw
      subst hw
      rw [he.target v (hB.varCount_of_item hi hit)] at ht
      obtain ⟨j, hj, rfl⟩ := Option.map_eq_some_iff.1 ht
      exact ⟨j, Or.inr ⟨v, hit, hj⟩, rfl⟩
    | prim _ | fn _ _ | user _ _ => rw [he.item i hi, hit] at hw; cases hw

theorem reach_image {i j : Idx} (hi : i.raw < B.size) (hr : Relation.ReflTransGen B.Succ i j) :
    Relation.ReflTransGen A.Succ (ε i) (ε j) := by
  induction hr with
  | refl => exact .refl
  | tail hr hs ih => exact ih.tail (he.succ_image hB (lt_size_of_reach hB hi hr) hs)

theorem reach_of_image {i x : Idx} (hi : i.raw < B.size)
    (hr : Relation.ReflTransGen A.Succ (ε i) x) :
    ∃ j, Relation.ReflTransGen B.Succ i j ∧ x = ε j := by
  induction hr with
  | refl => exact ⟨i, .refl, rfl⟩
  | tail _ hs ih =>
    obtain ⟨j, hj, rfl⟩ := ih
    obtain ⟨j', hs', rfl⟩ := he.succ_of_image hB (lt_size_of_reach hB hi hj) hs
    exact ⟨j', hj.tail hs', rfl⟩

theorem below_of_image {i x : Idx} (hi : i.raw < B.size) (hb : A.Below (ε i) x) :
    ∃ j, B.Below i j ∧ x = ε j := by
  obtain ⟨y, hr, hs⟩ := Relation.TransGen.tail'_iff.1 hb
  obtain ⟨j, hj, rfl⟩ := he.reach_of_image hB hi hr
  obtain ⟨j', hs', rfl⟩ := he.succ_of_image hB (lt_size_of_reach hB hi hj) hs
  exact ⟨j', Relation.TransGen.tail'_iff.2 ⟨j, hj, hs'⟩, rfl⟩

/-- An image has no more below it than the handle: what lies below it is the image of what lies
below the handle. -/
theorem rank_le {i : Idx} (hi : i.raw < B.size) : A.rank (ε i) ≤ B.rank i := by
  classical
  unfold rank
  calc ((Finset.range A.size).filter fun j => A.Below (ε i) ⟨j⟩).card
      ≤ (((Finset.range B.size).filter fun j => B.Below i ⟨j⟩).image
          fun j => (ε ⟨j⟩).raw).card := by
        refine Finset.card_le_card fun x hx => ?_
        obtain ⟨j, hj, hxj⟩ := he.below_of_image hB hi (Finset.mem_filter.1 hx).2
        obtain ⟨y, -, hy⟩ := Relation.TransGen.tail'_iff.1 hj
        refine Finset.mem_image.2 ⟨j.raw, Finset.mem_filter.2
          ⟨Finset.mem_range.2 (hB.closed _ _ hy), hj⟩, ?_⟩
        rw [← hxj]
    _ ≤ _ := Finset.card_image_le

theorem rank_lt {i : Idx} (hi : i.raw < B.size) : A.rank (ε i) < B.size :=
  Nat.lt_of_le_of_lt (he.rank_le hB hi) (hB.rank_lt i)

theorem settled_iff {i : Idx} (hi : i.raw < B.size) : A.Settled (ε i) ↔ B.Settled i := by
  cases hit : B.item i with
  | var v =>
    unfold Settled
    rw [he.item_var hi hit, hit]
    simp only [Item.var.injEq, forall_eq', he.target v (hB.varCount_of_item hi hit),
      Option.map_eq_none_iff]
  | prim _ | fn _ _ | user _ _ =>
    unfold Settled
    rw [he.item i hi, hit]
    simp [Item.map]

/-- A chain of links from a handle is, through `ε`, a chain of links from its image. -/
theorem chain_image {i j : Idx} (hi : i.raw < B.size)
    (hc : Relation.ReflTransGen B.LinkStep i j) : Relation.ReflTransGen A.LinkStep (ε i) (ε j) := by
  induction hc with
  | refl => exact .refl
  | tail hc hstep ih =>
    have hj := lt_size_of_reach hB hi
      (Relation.ReflTransGen.mono (fun _ _ h => LinkStep.succ h) _ _ hc)
    obtain ⟨v, hv, ht⟩ := hstep
    exact ih.tail ⟨_, he.item_var hj hv, he.target_some (hB.varCount_of_item hj hv) ht⟩

include hA

/-- An image stands for the type of the handle, renamed. -/
theorem term {i : Idx} (hi : i.raw < B.size) :
    A.term (ε i) = (B.term i).rename (shiftFrom n k) := by
  refine hB.induction (motive := fun i => i.raw < B.size →
    A.term (ε i) = (B.term i).rename (shiftFrom n k)) (fun i ih hi => ?_) i hi
  have below : ∀ {j}, B.Succ i j → A.term (ε j) = (B.term j).rename (shiftFrom n k) :=
    fun hs => ih _ hs (hB.closed _ _ hs)
  cases hit : B.item i with
  | prim q =>
    rw [term_of_prim hB hit, term_of_prim hA (by rw [he.item i hi, hit]; rfl)]
    rfl
  | var v =>
    have hv := hB.varCount_of_item hi hit
    cases ht : B.target? v with
    | none =>
      rw [term_of_unbound hB hit ht, term_of_unbound hA (he.item_var hi hit)
        (by rw [he.target v hv, ht]; rfl)]
      rfl
    | some t =>
      rw [term_of_link hB hit ht, term_of_link hA (he.item_var hi hit)
        (he.target_some hv ht), below ((succ_of_var hit).2 ht)]
  | fn a r =>
    rw [term_of_fn hB hit, term_of_fn hA (by rw [he.item i hi, hit]; rfl),
      below ((succ_of_fn hit).2 (Or.inl rfl)), below ((succ_of_fn hit).2 (Or.inr rfl))]
    rfl
  | user name args =>
    rw [term_of_user hB hit, term_of_user hA (by rw [he.item i hi, hit]; rfl), Term.rename_user,
      List.map_map, List.map_map]
    exact congrArg _ (List.map_congr_left fun a ha => below ((succ_of_user hit).2 ha))

theorem hasVars {i : Idx} (hi : i.raw < B.size) : A.hasVars (ε i) = B.hasVars i := by
  refine hB.induction (motive := fun i => i.raw < B.size → A.hasVars (ε i) = B.hasVars i)
    (fun i ih hi => ?_) i hi
  rw [hA.hasVars_eq _ (he.lt i hi), hB.hasVars_eq i hi, he.item i hi, Item.isVar_map,
    Item.parts_map, List.any_map]
  congr 1
  apply Bool.eq_iff_iff.2
  simp only [List.any_eq_true, Function.comp]
  exact exists_congr fun j => and_congr_right fun hj => by
    rw [ih j (Or.inl hj) (Nat.lt_trans (hB.parts_lt i hi j hj) hi)]

/-- Resolving an image reaches the image of the handle's resolution. -/
theorem resolve {i : Idx} (hi : i.raw < B.size) : A.resolve (ε i) = ε (B.resolve i) :=
  resolve_eq_of hA (he.chain_image hB hi (resolve_spec hB i).1)
    ((he.settled_iff hB (resolve_lt_size hB hi)).2 (resolve_spec hB i).2)

theorem occurs (v : Nat) {i : Idx} (hi : i.raw < B.size) :
    A.occurs (shiftFrom n k v) (ε i) = B.occurs v i := by
  apply Bool.eq_iff_iff.2
  rw [occurs_iff hA, occurs_iff hB]
  constructor
  · rintro ⟨x, hr, hx⟩
    obtain ⟨j, hj, rfl⟩ := he.reach_of_image hB hi hr
    refine ⟨j, hj, Item.eq_of_map_eq (strictMono_shiftFrom n k).injective (ε := ε)
      (fun _ _ _ hb => absurd hb (by simp)) ?_⟩
    rw [← he.item j (lt_size_of_reach hB hi hj), hx]
    rfl
  · rintro ⟨j, hj, hx⟩
    exact ⟨ε j, he.reach_image hB hi hj, he.item_var (lt_size_of_reach hB hi hj) hx⟩

/-- Collecting free variables from an image collects the renamed ones, into the renamed
list. -/
theorem freeVarsWithin : ∀ (m : Nat) (acc : List Nat) {i : Idx}, i.raw < B.size →
    A.freeVarsWithin m (acc.map (shiftFrom n k)) (ε i) =
      (B.freeVarsWithin m acc i).map (shiftFrom n k)
  | 0, _, _, _ => rfl
  | m + 1, acc, i, hi => by
    have ih : ∀ (acc : List Nat) {j}, B.Succ i j →
        A.freeVarsWithin m (acc.map (shiftFrom n k)) (ε j) =
          (B.freeVarsWithin m acc j).map (shiftFrom n k) :=
      fun acc j hs => freeVarsWithin m acc (hB.closed _ _ hs)
    unfold Pool.freeVarsWithin
    rw [he.hasVars hB hA hi]
    cases B.hasVars i
    · rfl
    simp only [Bool.not_true, Bool.false_eq_true, ↓reduceIte]
    cases hit : B.item i with
    | prim q => rw [he.item i hi, hit]; rfl
    | var v =>
      have hv := hB.varCount_of_item hi hit
      rw [he.item_var hi hit]
      dsimp only
      cases ht : B.target? v with
      | none =>
        rw [he.target v hv, ht]
        exact VarSet.insert_map (strictMono_shiftFrom n k) v acc
      | some t =>
        rw [he.target_some hv ht]
        exact ih acc ((succ_of_var hit).2 ht)
    | fn a r =>
      rw [he.item i hi, hit]
      dsimp only [Item.map]
      rw [ih acc ((succ_of_fn hit).2 (Or.inl rfl)), ih _ ((succ_of_fn hit).2 (Or.inr rfl))]
    | user name args =>
      rw [he.item i hi, hit]
      dsimp only [Item.map]
      rw [List.foldl_map]
      -- the fold over the arguments is carried along, one argument at a time
      have hargs : ∀ a ∈ args, B.Succ i a := fun a ha => (succ_of_user hit).2 ha
      clear hit
      induction args generalizing acc with
      | nil => rfl
      | cons a args iha =>
        simp only [List.foldl_cons]
        rw [ih acc (hargs a List.mem_cons_self)]
        exact iha _ fun b hb => hargs b (List.mem_cons_of_mem a hb)

/-- The free variables of an image are the renamed free variables of the handle, in the same
ascending order. -/
theorem freeVars {i : Idx} (hi : i.raw < B.size) :
    A.freeVars (ε i) = (B.freeVars i).map (shiftFrom n k) := by
  rw [Pool.freeVars, freeVarsWithin_congr hA (hA.rank_lt _) (he.rank_lt hB hi)]
  exact he.freeVarsWithin hB hA B.size [] hi

end Walks

/-! ## Changes made in step -/

/-- Both pools grow, `B` by one handle: the embedding extends to it when its image in `A` holds
its item renamed and is no image yet. -/
theorem extend (hB : B.WF) (he : Embeds n k ε B A) {B' A' : Pool} {x : Idx}
    (hgB : B.Grows B') (hgA : A.Grows A') (hsB : B'.size = B.size + 1)
    (hvA : A'.varCount = B'.varCount + k)
    (hparts : ∀ j ∈ (B'.item ⟨B.size⟩).parts, j.raw < B.size)
    (hx : x.raw < A'.size) (hxi : A'.item x = (B'.item ⟨B.size⟩).map ε (shiftFrom n k))
    (hnew : ∀ j : Idx, j.raw < B.size → ε j ≠ x) :
    Embeds n k (Function.update ε ⟨B.size⟩ x) B' A' := by
  have hag := agrees_update B.size ε x
  have hold : ∀ j : Idx, j.raw < B.size →
      A'.item (Function.update ε ⟨B.size⟩ x j) =
        (B'.item j).map (Function.update ε ⟨B.size⟩ x) (shiftFrom n k) := fun j hj => by
    rw [hag j hj, hgA.item_eq _ (he.lt j hj), he.item j hj, hgB.item_eq j hj]
    exact (Item.map_congr fun a ha => hag a (Nat.lt_trans (hB.parts_lt j hj a ha) hj)).symm
  have hvalid : ∀ j : Idx, j.raw < B'.size → j.raw < B.size ∨ j = ⟨B.size⟩ := fun j hj => by
    rw [hsB] at hj
    rcases Nat.lt_succ_iff_lt_or_eq.1 hj with h | h
    · exact Or.inl h
    · exact Or.inr (by cases j; simp_all)
  refine ⟨Nat.le_trans he.le hgB.varCount_le, hvA, fun j hj => ?_, fun i j hi hj h => ?_,
    fun j hj => ?_, fun v hv => ?_⟩
  · rcases hvalid j hj with hj | rfl
    · rw [hag j hj]
      exact Nat.lt_of_lt_of_le (he.lt j hj) hgA.size_le
    · rwa [Function.update_self]
  · rcases hvalid i hi with hi | rfl <;> rcases hvalid j hj with hj | rfl
    · rw [hag i hi, hag j hj] at h
      exact he.inj i j hi hj h
    · rw [hag i hi, Function.update_self] at h
      exact absurd h (hnew i hi)
    · rw [hag j hj, Function.update_self] at h
      exact absurd h.symm (hnew j hj)
    · rfl
  · rcases hvalid j hj with hj | rfl
    · exact hold j hj
    · rw [Function.update_self, hxi]
      exact (Item.map_congr fun a ha => hag a (hparts a ha)).symm
  · rcases Nat.lt_or_ge v B.varCount with hv' | hv'
    · rw [hgA.target?_eq _ (he.shift_lt hv'), he.target v hv', hgB.target?_eq v hv']
      cases ht : B.target? v with
      | none => rfl
      | some t => exact congrArg some (hag t (hB.target_lt v t ht)).symm
    · rw [hgB.target?_new v hv', hgA.target?_new _
        (by rw [shiftFrom_of_le (Nat.le_trans he.le hv'), he.varCount]; omega)]
      rfl

/-- A fresh variable in both pools: the renaming sends the new id of `B` to the new id of
`A`. -/
theorem fresh (hB : B.WF) (hA : A.WF) (he : Embeds n k ε B A) :
    Embeds n k (Function.update ε ⟨B.size⟩ ⟨A.size⟩) B.fresh.2 A.fresh.2 := by
  have hBi : B.fresh.2.item ⟨B.size⟩ = .var B.varCount := by rw [item_fresh, if_pos rfl]
  refine he.extend hB (grows_fresh hB) (grows_fresh hA) (size_fresh B) ?_ ?_ (by simp) ?_ ?_
  · rw [varCount_fresh, varCount_fresh, he.varCount]
    omega
  · simp [hBi]
  · rw [item_fresh, if_pos rfl, hBi]
    simp [Item.map, shiftFrom_of_le he.le, he.varCount]
  · intro j hj h
    have := he.lt j hj
    rw [h] at this
    exact Nat.lt_irrefl _ this

/-- Hash-consing a structure of `B`, and its renamed copy in `A`, returns handles that match
under the extended `ε`, whether each pool finds the structure or builds it. -/
theorem intern (hB : B.WF) (hA : A.WF) (he : Embeds n k ε B A) {it : Item}
    (hc : it.isCompound = true) (hparts : ∀ j ∈ it.parts, j.raw < B.size) :
    ∃ ε', SameBelow B.size ε ε' ∧
      Embeds n k ε' (B.intern it).2 (A.intern (it.map ε (shiftFrom n k))).2 ∧
      (A.intern (it.map ε (shiftFrom n k))).1 = ε' (B.intern it).1 := by
  cases hmem : B.interned[it]? with
  | some j =>
    -- found in `B`: its image holds the renamed structure, so `A` finds it there
    obtain ⟨hj, hjit, -⟩ := (hB.interned it j).1 hmem
    have hfound : A.interned[it.map ε (shiftFrom n k)]? = some (ε j) :=
      (hA.interned _ _).2 ⟨he.lt j hj, by rw [he.item j hj, hjit], by rw [Item.isCompound_map, hc]⟩
    rw [B.intern_of_mem hmem, A.intern_of_mem hfound]
    exact ⟨ε, SameBelow.refl _ _, he, rfl⟩
  | none =>
    -- built in `B`: no image holds the renamed structure, or its handle would hold it in `B`
    have hnew : ∀ j : Idx, j.raw < B.size → A.item (ε j) ≠ it.map ε (shiftFrom n k) := by
      intro j hj h
      rw [he.item j hj] at h
      have hjit := Item.eq_of_map_eq (strictMono_shiftFrom n k).injective
        (fun a ha b hb hab => he.inj a b (Nat.lt_trans (hB.parts_lt j hj a ha) hj) (hparts b hb) hab) h
      have hfound := (hB.interned it j).2 ⟨hj, hjit, hc⟩
      rw [hmem] at hfound
      cases hfound
    have hfst : (B.intern it).1 = ⟨B.size⟩ := by rw [B.intern_of_not_mem hmem]
    have hBi : (B.intern it).2.item ⟨B.size⟩ = it := hfst ▸ (hB.intern_fst it).2
    have hsB : (B.intern it).2.size = B.size + 1 := by
      rw [B.intern_of_not_mem hmem]
      exact B.size_push it (it.parts.any B.hasVars)
    obtain ⟨hxA, hxi⟩ := hA.intern_fst (it.map ε (shiftFrom n k))
    have hgA := grows_intern hA (it.map ε (shiftFrom n k))
    refine ⟨_, agrees_update _ _ _, he.extend hB (grows_intern hB it) hgA hsB ?_ ?_ hxA ?_ ?_, ?_⟩
    · rw [varCount_intern, varCount_intern, he.varCount]
    · rwa [hBi]
    · rw [hxi, hBi]
    · intro j hj h
      apply hnew j hj
      rw [← hgA.item_eq _ (he.lt j hj), h, hxi]
    · rw [hfst, Function.update_self]

/-- Linking a variable of `B` to a handle, and its renamed id in `A` to the image. -/
theorem link (he : Embeds n k ε B A) {v : Nat} (hv : v < B.varCount) (t : Idx) :
    Embeds n k ε (B.link v t) (A.link (shiftFrom n k v) (ε t)) where
  le := by
    rw [varCount_link]
    exact he.le
  varCount := by rw [varCount_link, varCount_link, he.varCount]
  lt i hi := by
    rw [size_link] at hi ⊢
    exact he.lt i hi
  inj i j hi hj := he.inj i j (by simpa using hi) (by simpa using hj)
  item i hi := by
    rw [item_link, item_link]
    exact he.item i (by simpa using hi)
  target w hw := by
    rw [varCount_link] at hw
    rw [target?_link, target?_link]
    by_cases hwv : w = v
    · subst hwv
      simp [hv, he.shift_lt hv]
    · simp [hwv, (strictMono_shiftFrom n k).injective.ne hwv, he.target w hw]

end Embeds

end Pool

end TagML
