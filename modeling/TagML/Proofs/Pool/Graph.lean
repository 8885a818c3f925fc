import Mathlib.Data.Finset.Card
import Mathlib.Logic.Relation
import TagML.Ty.Pool

/-!
A pool seen as a graph: from each handle one step leads to every part of its item and, from
a linked variable, to the variable's target.  A pool is acyclic when no handle lies below
itself.

Every walk of the pool (resolution, the occurs check, free variables, printing, rewriting)
descends along these steps, one level of its budget per step.  The rank of a handle is the
number of handles below it; in an acyclic pool whose steps stay inside the pool, the rank
drops at every step and stays below the number of items, so a walk started with a budget of
the pool's size is never cut short.  The rank counts handles rather than measuring paths,
which makes its two properties one `Finset.card` argument each.
-/
namespace TagML

namespace Pool

/-- One step down from `i`: to a part of its item, or from a linked variable to its target. -/
def Succ (p : Pool) (i j : Idx) : Prop :=
  j ∈ (p.item i).parts ∨ ∃ v, p.item i = .var v ∧ p.target? v = some j

/-- `j` lies strictly below `i`: one step or more. -/
def Below (p : Pool) (i j : Idx) : Prop := Relation.TransGen p.Succ i j

/-- No handle lies below itself. -/
def Acyclic (p : Pool) : Prop := ∀ i, ¬ p.Below i i

/-- Every step lands on a handle of the pool. -/
def Closed (p : Pool) : Prop := ∀ i j, p.Succ i j → j.raw < p.size

open Classical in
/-- The number of handles of the pool below `i`. -/
noncomputable def rank (p : Pool) (i : Idx) : Nat :=
  ((Finset.range p.size).filter (fun j => p.Below i ⟨j⟩)).card

/-! ## Steps from each kind of item -/

section Steps

variable {p : Pool} {i j : Idx}

theorem succ_of_var {w : Nat} (hi : p.item i = .var w) : p.Succ i j ↔ p.target? w = some j := by
  constructor
  · rintro (hp | ⟨w', hw, ht⟩)
    · rw [hi] at hp
      simp [Item.parts] at hp
    · rw [hi] at hw
      cases hw
      exact ht
  · intro ht
    exact Or.inr ⟨w, hi, ht⟩

theorem succ_of_fn {a r : Idx} (hi : p.item i = .fn a r) : p.Succ i j ↔ j = a ∨ j = r := by
  constructor
  · rintro (hp | ⟨w, hw, _⟩)
    · rw [hi] at hp
      simpa [Item.parts] using hp
    · rw [hi] at hw
      cases hw
  · intro hj
    left
    rw [hi]
    rcases hj with rfl | rfl <;> simp [Item.parts]

theorem succ_of_user {name : String} {args : List Idx} (hi : p.item i = .user name args) :
    p.Succ i j ↔ j ∈ args := by
  constructor
  · rintro (hp | ⟨w, hw, _⟩)
    · rw [hi] at hp
      simpa [Item.parts] using hp
    · rw [hi] at hw
      cases hw
  · intro hj
    left
    rw [hi]
    simpa [Item.parts] using hj

theorem not_succ_of_prim {q : Prim} (hi : p.item i = .prim q) : ¬ p.Succ i j := by
  rintro (hp | ⟨w, hw, _⟩)
  · rw [hi] at hp
    simp [Item.parts] at hp
  · rw [hi] at hw
    cases hw

end Steps

section Rank

variable {p : Pool}

/-- A ranking that drops along every step rules out cycles. -/
theorem acyclic_of_rank (f : Idx → Nat) (hf : ∀ i j, p.Succ i j → f j < f i) : p.Acyclic := by
  have hlt : ∀ i j, p.Below i j → f j < f i := by
    intro i j h
    induction h with
    | single hs => exact hf _ _ hs
    | tail _ hs ih => exact Nat.lt_trans (hf _ _ hs) ih
  intro i h
  exact Nat.lt_irrefl _ (hlt i i h)

/-- Fewer steps, no new cycles. -/
theorem Acyclic.mono {q : Pool} (hq : q.Acyclic) (h : ∀ i j, p.Succ i j → q.Succ i j) :
    p.Acyclic := fun i hi => hq i (Relation.TransGen.mono h i i hi)

/-- In an acyclic closed pool, a step leads to a handle of strictly smaller rank: everything
below the step's target is below its source, and the target itself is below the source but
not below itself. -/
theorem rank_lt_of_succ (hac : p.Acyclic) (hcl : p.Closed) {i j : Idx} (h : p.Succ i j) :
    p.rank j < p.rank i := by
  classical
  unfold rank
  apply Finset.card_lt_card
  rw [Finset.ssubset_iff_of_subset]
  · refine ⟨j.raw, ?_, ?_⟩
    · exact Finset.mem_filter.2 ⟨Finset.mem_range.2 (hcl i j h), Relation.TransGen.single h⟩
    · intro hj
      exact hac j (Finset.mem_filter.1 hj).2
  · intro k hk
    obtain ⟨hk, hb⟩ := Finset.mem_filter.1 hk
    exact Finset.mem_filter.2 ⟨hk, Relation.TransGen.head h hb⟩

theorem rank_lt_of_below (hac : p.Acyclic) (hcl : p.Closed) {i j : Idx} (h : p.Below i j) :
    p.rank j < p.rank i := by
  induction h with
  | single hs => exact rank_lt_of_succ hac hcl hs
  | tail _ hs ih => exact Nat.lt_trans (rank_lt_of_succ hac hcl hs) ih

theorem rank_le_of_reach (hac : p.Acyclic) (hcl : p.Closed) {i j : Idx}
    (h : Relation.ReflTransGen p.Succ i j) : p.rank j ≤ p.rank i := by
  rcases Relation.reflTransGen_iff_eq_or_transGen.1 h with rfl | hb
  · exact Nat.le_refl _
  · exact Nat.le_of_lt (rank_lt_of_below hac hcl hb)

/-- The rank of a handle of an acyclic pool is below the number of items: the handle itself
is never counted. -/
theorem rank_lt_size (hac : p.Acyclic) {i : Idx} (hi : i.raw < p.size) : p.rank i < p.size := by
  classical
  unfold rank
  have hsub : (Finset.range p.size).filter (fun j => p.Below i ⟨j⟩) ⊆
      (Finset.range p.size).erase i.raw := by
    intro k hk
    obtain ⟨hk, hb⟩ := Finset.mem_filter.1 hk
    refine Finset.mem_erase.2 ⟨?_, hk⟩
    rintro rfl
    exact hac i hb
  calc ((Finset.range p.size).filter (fun j => p.Below i ⟨j⟩)).card
      ≤ ((Finset.range p.size).erase i.raw).card := Finset.card_le_card hsub
    _ = p.size - 1 := by rw [Finset.card_erase_of_mem (Finset.mem_range.2 hi), Finset.card_range]
    _ < p.size := by omega

/-- A pool with at least as many items, in which everything below `i` stays below it, gives
`i` at least the same rank. -/
theorem rank_le_rank {q : Pool} {i : Idx} (hs : p.size ≤ q.size)
    (hb : ∀ j, p.Below i j → q.Below i j) : p.rank i ≤ q.rank i := by
  classical
  unfold rank
  apply Finset.card_le_card
  intro k hk
  obtain ⟨hk, hbk⟩ := Finset.mem_filter.1 hk
  exact Finset.mem_filter.2
    ⟨Finset.mem_range.2 (Nat.lt_of_lt_of_le (Finset.mem_range.1 hk) hs), hb _ hbk⟩

end Rank

end Pool

end TagML
