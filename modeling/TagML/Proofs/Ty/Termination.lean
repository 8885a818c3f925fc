import Mathlib.Order.RelClasses
import TagML.Proofs.Reachable

/-!
Unification terminates.

Unification recurses on the argument pair of two function types, then on their result pair
once the arguments unified, and on each argument pair of two user types once the pairs before
it unified (`UnifyCall`).  Neither the size of the types nor the number of unbound variables
decreases alone: a link made while unifying the arguments of a function can make what its
result stands for larger.  What decreases is the pair of the two, compared lexicographically
(`unifyMeasure`).  A call made in the same pool compares parts of the caller's types, and a
part of a type is smaller.  A call made after an earlier call succeeded either finds that call
linked some variable, so fewer are unbound, or finds the links as they were, so its types stand
for what they stood for and are parts again.  Links are only ever written to unbound variables
(`AddsLinks`), which is what makes the first count drop and never grow.

Every call of every run from a reachable pool therefore decreases the measure, and the calls
form a well-founded relation below every starting call (`unify_terminates`).
-/
namespace TagML

namespace Term

theorem size_le_sizeList_of_mem {t : Term} {ts : List Term} (h : t ∈ ts) :
    t.size ≤ sizeList ts := by
  induction ts with
  | nil => exact absurd h List.not_mem_nil
  | cons s ts ih =>
    simp only [sizeList]
    rcases List.mem_cons.1 h with rfl | h
    · omega
    · have := ih h
      omega

/-- An argument of a user type is smaller than the type. -/
theorem size_lt_user_of_mem {t : Term} {ts : List Term} (h : t ∈ ts) (n : String) :
    t.size < (user n ts).size := by
  have := size_le_sizeList_of_mem h
  simp only [size]
  omega

end Term

namespace Pool

variable {p q : Pool}

/-! ## Unbound variables -/

/-- The variables of the pool that are allocated and not linked. -/
def unboundVars (p : Pool) : Finset Nat :=
  (Finset.range p.varCount).filter fun v => p.target? v = none

theorem mem_unboundVars {v : Nat} : v ∈ p.unboundVars ↔ v < p.varCount ∧ p.target? v = none := by
  simp [unboundVars]

/-- Linking an unbound variable removes it from the unbound ones and keeps the others. -/
theorem unboundVars_link {v : Nat} (hv : p.target? v = none) (t : Idx) :
    (p.link v t).unboundVars = p.unboundVars.erase v := by
  ext w
  rw [Finset.mem_erase, mem_unboundVars, mem_unboundVars, varCount_link, target?_link]
  by_cases hw : w = v
  · subst hw
    by_cases hwc : w < p.varCount <;> simp [hwc]
  · simp [hw]

/-- Two pools with the same items and links stand for the same types. -/
theorem termWithin_of_links {p q : Pool} (hi : q.item = p.item) (ht : q.target? = p.target?) :
    ∀ n, q.termWithin n = p.termWithin n
  | 0 => rfl
  | n + 1 => by
    funext i
    simp only [termWithin, hi, ht, termWithin_of_links hi ht n]

namespace AddsLinks

theorem varCount_eq (h : p.AddsLinks q) : q.varCount = p.varCount := by
  induction h with
  | refl => rfl
  | link t _ _ ih => rw [varCount_link, ih]

/-- Writing links never makes a variable unbound. -/
theorem unboundVars_subset (h : p.AddsLinks q) : q.unboundVars ⊆ p.unboundVars := by
  intro v hv
  rw [mem_unboundVars] at hv ⊢
  refine ⟨h.varCount_eq ▸ hv.1, ?_⟩
  cases ht : p.target? v with
  | none => rfl
  | some t => rw [h.target?_of ht] at hv; exact absurd hv.2 (by simp)

/-- Writing links either binds some variable that was unbound, or leaves every link as it
was. -/
theorem card_lt_or_links_eq (h : p.AddsLinks q) :
    q.unboundVars.card < p.unboundVars.card ∨ q.target? = p.target? := by
  induction h with
  | refl => exact Or.inr rfl
  | @link q v t hq hv ih =>
    by_cases hvc : v < q.varCount
    · -- an allocated unbound variable got its link
      have hmem : v ∈ q.unboundVars := mem_unboundVars.2 ⟨hvc, hv⟩
      have hlt := Finset.card_erase_lt_of_mem hmem
      have hle := Finset.card_le_card hq.unboundVars_subset
      rw [unboundVars_link hv t]
      exact Or.inl (Nat.lt_of_lt_of_le hlt hle)
    · -- a link to an id never allocated writes nothing
      have heq : (q.link v t).target? = q.target? := by
        funext w
        rw [target?_link, if_neg (fun hw => hvc hw.2)]
      have hun : (q.link v t).unboundVars = q.unboundVars := by
        simp only [unboundVars, varCount_link, heq]
      rw [heq, hun]
      exact ih

/-- With no link written, every handle stands for what it stood for. -/
theorem term_eq_of_links_eq (h : p.AddsLinks q) (ht : q.target? = p.target?) :
    q.term = p.term := by
  unfold term
  rw [h.size_eq, termWithin_of_links h.item_eq ht]

theorem unboundVars_eq_of_links_eq (h : p.AddsLinks q) (ht : q.target? = p.target?) :
    q.unboundVars = p.unboundVars := by
  simp only [unboundVars, h.varCount_eq, ht]

end AddsLinks

/-! ## The calls of unification -/

/-- `UnifyCall c' c`: unifying `c.2.1` with `c.2.2` in pool `c.1` calls unification on `c'`
directly.  With both sides resolved to different handles, it unifies the arguments of two
function types, then their results in the pool the first call left if that call succeeded;
and it unifies the argument pairs of two user types of one name and argument count left to
right, each in the pool the pairs before it left when they all succeeded. -/
inductive UnifyCall : Pool × Idx × Idx → Pool × Idx × Idx → Prop
  | fnArg {p : Pool} {a b x r y q : Idx} : p.resolve a ≠ p.resolve b →
      p.item (p.resolve a) = .fn x r → p.item (p.resolve b) = .fn y q →
      UnifyCall (p, x, y) (p, a, b)
  | fnRet {p p₁ : Pool} {a b x r y q : Idx} : p.resolve a ≠ p.resolve b →
      p.item (p.resolve a) = .fn x r → p.item (p.resolve b) = .fn y q →
      p.unify x y = (p₁, none) → UnifyCall (p₁, r, q) (p, a, b)
  | userArg {p p₁ : Pool} {a b x y : Idx} {m : String} {xs ys : List Idx}
      {before after : List (Idx × Idx)} : p.resolve a ≠ p.resolve b →
      p.item (p.resolve a) = .user m xs → p.item (p.resolve b) = .user m ys →
      xs.length = ys.length → xs.zip ys = before ++ (x, y) :: after →
      unifyPairs Pool.unify (p, none) before = (p₁, none) → UnifyCall (p₁, x, y) (p, a, b)

/-- What decreases from a unification to each call it makes: the number of unbound
variables, then the combined size of what the two sides stand for. -/
def unifyMeasure (c : Pool × Idx × Idx) : Nat × Nat :=
  (c.1.unboundVars.card, (c.1.term c.2.1).size + (c.1.term c.2.2).size)

/-- The handles of a pair met by a fold over argument pairs are parts of the two user
types. -/
private theorem mem_parts_of_zip {xs ys : List Idx} {before after : List (Idx × Idx)} {x y : Idx}
    (hz : xs.zip ys = before ++ (x, y) :: after) : x ∈ xs ∧ y ∈ ys :=
  List.of_mem_zip (hz ▸ List.mem_append_right before List.mem_cons_self)

/-- The pool a call starts from is a pool unification left from the caller's, so it is well
formed and only adds links. -/
theorem UnifyCall.addsLinks {c c' : Pool × Idx × Idx} (h : c.1.WF) (hc : UnifyCall c' c) :
    c'.1.WF ∧ c.1.AddsLinks c'.1 := by
  cases hc with
  | fnArg => exact ⟨h, .refl _⟩
  | @fnRet p p₁ a b x r y q _ hx _ hu =>
    have hxs := (h.fn_parts_lt hx).1
    have hys : y.raw < p.size := (h.fn_parts_lt (by assumption)).1
    have := unify_wf h hxs hys
    rw [hu] at this
    exact this
  | @userArg p p₁ a b x y m xs ys before after _ hx hy _ hz hpairs =>
    have hvalid := h.zip_args_lt hx hy
    have := unifyPairs_wf (fun p x y hp hx hy => unify_wf hp hx hy) before p h
      (fun pair hpair => hvalid pair (hz ▸ List.mem_append_left _ hpair))
    rw [hpairs] at this
    exact this

/-- The combined size of the types two handles stand for, once their resolved items are
compared part by part. -/
private theorem size_term_fn (h : p.WF) {a x r : Idx} (hx : p.item (p.resolve a) = .fn x r) :
    (p.term a).size = (p.term x).size + (p.term r).size + 1 := by
  rw [← term_resolve h a, term_of_fn h hx]
  rfl

private theorem size_term_user (h : p.WF) {a x : Idx} {m : String} {xs : List Idx}
    (hx : p.item (p.resolve a) = .user m xs) (hmem : x ∈ xs) :
    (p.term x).size < (p.term a).size := by
  rw [← term_resolve h a, term_of_user h hx]
  exact Term.size_lt_user_of_mem (List.mem_map_of_mem hmem) m

/-- A call made after others succeeded: fewer variables are unbound, or none was bound and
its types are smaller. -/
private theorem measure_lt_of_later {c : Pool × Idx × Idx} {p₁ : Pool} {x y : Idx}
    (hl : c.1.AddsLinks p₁)
    (hsize : (c.1.term x).size + (c.1.term y).size <
      (c.1.term c.2.1).size + (c.1.term c.2.2).size) :
    Prod.Lex (· < ·) (· < ·) (unifyMeasure (p₁, x, y)) (unifyMeasure c) := by
  rcases hl.card_lt_or_links_eq with hlt | heq
  · exact Prod.Lex.left _ _ hlt
  · simp only [unifyMeasure, hl.unboundVars_eq_of_links_eq heq, hl.term_eq_of_links_eq heq]
    exact Prod.Lex.right _ hsize

/-- Every call decreases the measure: the one step of the termination argument. -/
theorem UnifyCall.measure_lt {c c' : Pool × Idx × Idx} (h : c.1.WF) (hc : UnifyCall c' c) :
    Prod.Lex (· < ·) (· < ·) (unifyMeasure c') (unifyMeasure c) := by
  have hl := (hc.addsLinks h).2
  cases hc with
  | @fnArg p a b x r y q _ hx hy =>
    -- the same pool, and the arguments are parts of both sides
    dsimp only at h
    have ha := size_term_fn h hx
    have hb := size_term_fn h hy
    exact measure_lt_of_later hl (by dsimp only; omega)
  | @fnRet p p₁ a b x r y q _ hx hy _ =>
    dsimp only at h
    have ha := size_term_fn h hx
    have hb := size_term_fn h hy
    exact measure_lt_of_later hl (by dsimp only; omega)
  | @userArg p p₁ a b x y m xs ys before after _ hx hy _ hz _ =>
    dsimp only at h
    have hmem := mem_parts_of_zip hz
    have ha := size_term_user h hx hmem.1
    have hb := size_term_user h hy hmem.2
    exact measure_lt_of_later hl (by dsimp only; omega)

/-- Below a unification from a well-formed pool, every chain of calls ends. -/
theorem acc_unifyCall {c : Pool × Idx × Idx} (h : c.1.WF) : Acc UnifyCall c := by
  have hwf := InvImage.wf unifyMeasure (WellFounded.prod_lex wellFounded_lt wellFounded_lt)
  induction hwf.apply c with
  | intro c _ ih =>
    exact Acc.intro c fun c' hc => ih c' (hc.measure_lt h) (hc.addsLinks h).1

/-- Unification terminates from every reachable pool: below the call on `a` and `b`, every
chain of calls ends, and every call, however deep, decreases the number of unbound variables
or leaves it and decreases the combined size of what the two sides stand for. -/
theorem unify_terminates {p : Pool} (hp : p.Reachable) (a b : Idx) :
    Acc UnifyCall (p, a, b) ∧
      ∀ c c', Relation.ReflTransGen UnifyCall c' (p, a, b) → UnifyCall c c' →
        Prod.Lex (· < ·) (· < ·) (unifyMeasure c) (unifyMeasure c') := by
  have h := hp.wf
  -- every pool met along the calls is well formed
  have hchain : ∀ c', Relation.ReflTransGen UnifyCall c' (p, a, b) → c'.1.WF := by
    intro c' hc'
    induction hc' using Relation.ReflTransGen.head_induction_on with
    | refl => exact h
    | head hstep _ ih => exact (hstep.addsLinks ih).1
  exact ⟨acc_unifyCall h, fun c c' hc' hc => hc.measure_lt (hchain c' hc')⟩

/-- Unifying `a -> Int` with `Bool -> Int`, two function types built after a fresh variable
`a`: the call goes on to unify the arguments `a` and `Bool`, and every chain of calls below it
ends, each call decreasing the measure. -/
theorem unify_terminates_fn_pair :
    ((({} : Pool).fresh.2.fn ⟨6⟩ Prim.int.idx).2.fn Prim.bool.idx Prim.int.idx).2.Reachable ∧
      UnifyCall (((({} : Pool).fresh.2.fn ⟨6⟩ Prim.int.idx).2.fn Prim.bool.idx Prim.int.idx).2,
          ⟨6⟩, Prim.bool.idx)
        (((({} : Pool).fresh.2.fn ⟨6⟩ Prim.int.idx).2.fn Prim.bool.idx Prim.int.idx).2,
          (({} : Pool).fresh.2.fn ⟨6⟩ Prim.int.idx).1,
          ((({} : Pool).fresh.2.fn ⟨6⟩ Prim.int.idx).2.fn Prim.bool.idx Prim.int.idx).1) ∧
      (Acc UnifyCall (((({} : Pool).fresh.2.fn ⟨6⟩ Prim.int.idx).2.fn Prim.bool.idx Prim.int.idx).2,
          (({} : Pool).fresh.2.fn ⟨6⟩ Prim.int.idx).1,
          ((({} : Pool).fresh.2.fn ⟨6⟩ Prim.int.idx).2.fn Prim.bool.idx Prim.int.idx).1) ∧
        ∀ c c', Relation.ReflTransGen UnifyCall c'
            (((({} : Pool).fresh.2.fn ⟨6⟩ Prim.int.idx).2.fn Prim.bool.idx Prim.int.idx).2,
              (({} : Pool).fresh.2.fn ⟨6⟩ Prim.int.idx).1,
              ((({} : Pool).fresh.2.fn ⟨6⟩ Prim.int.idx).2.fn Prim.bool.idx Prim.int.idx).1) →
            UnifyCall c c' → Prod.Lex (· < ·) (· < ·) (unifyMeasure c) (unifyMeasure c')) := by
  have hp₀ : ({} : Pool).fresh.2.Reachable := .fresh .empty
  obtain ⟨-, hg₁, hf⟩ := fn_spec hp₀.wf (a := ⟨6⟩) (r := Prim.int.idx) (by decide) (by decide)
  have hp₁ := hp₀.fn (a := ⟨6⟩) (r := Prim.int.idx) (by decide) (by decide)
  have hb₁ : Prim.bool.idx.raw < (({} : Pool).fresh.2.fn ⟨6⟩ Prim.int.idx).2.size :=
    Nat.lt_of_lt_of_le (by decide) hg₁.size_le
  have hi₁ : Prim.int.idx.raw < (({} : Pool).fresh.2.fn ⟨6⟩ Prim.int.idx).2.size :=
    Nat.lt_of_lt_of_le (by decide) hg₁.size_le
  obtain ⟨-, hg₂, -⟩ := fn_spec hp₁.wf hb₁ hi₁
  have hp₂ := hp₁.fn hb₁ hi₁
  -- each handle names its function item and is its own resolution
  have hif : _ = Item.fn ⟨6⟩ Prim.int.idx := (hg₂.item_eq _ hf).trans (fn_item hp₀.wf _ _)
  have hig := fn_item hp₁.wf Prim.bool.idx Prim.int.idx
  rw [← resolve_of_fn hp₂.wf hif] at hif
  rw [← resolve_of_fn hp₂.wf hig] at hig
  refine ⟨hp₂, .fnArg (fun heq => ?_) hif hig, unify_terminates hp₂ _ _⟩
  -- equal resolutions would make `a -> Int` and `Bool -> Int` one item
  have hfg : Item.fn ⟨6⟩ Prim.int.idx = .fn Prim.bool.idx Prim.int.idx :=
    hif.symm.trans ((congrArg _ heq).trans hig)
  exact absurd (Item.fn.inj hfg).1 (by decide)

end Pool

end TagML
