import TagML.Proofs.Catalogue
import TagML.Proofs.Embed.Check

/-!
The tables a type definition adds to a context.

A context extended by a definition looks a name up in its own tables first, so a type or tag
it already has keeps its meaning.  A name it lacks is looked up in the definition's tables,
and there the two tables are built differently.  The tag table puts each item's tags behind
those of the items before it, and within an item a later declaration shadows an earlier one:
a tag is the last declaration of its name in the first item that declares it.  The arity
table binds the items in order, so of two items of one name the later is found.

The signature of a tag is written out here without reference to the pool it was built in
(`TypeItem.writtenTags`): the item's parameters are the variables allocated when its build
starts, a written type stands for itself with each bare parameter name replaced by its
variable (`TypeExpr.written`, the last parameter of a repeated name winning), and each `_`
is the next variable after those of the parameters and of the `_`s read before it.
-/
namespace TagML

open Pool

/-! ## Written types -/

mutual
/-- The number of `_`s in a written type. -/
def TypeExpr.holes : TypeExpr → Nat
  | .prim _ => 0
  | .infer => 1
  | .fn a r => a.holes + r.holes
  | .named _ args => TypeExpr.holesList args

def TypeExpr.holesList : List TypeExpr → Nat
  | [] => 0
  | t :: ts => t.holes + TypeExpr.holesList ts
end

mutual
/-- The type a written type stands for, with each bare parameter name standing for the type
`params` gives it, every other name taken literally, and the `_`s standing, left to right, for
the variables from `next` on. -/
def TypeExpr.written (params : Env Term) (next : Nat) : TypeExpr → Term
  | .prim q => .prim q
  | .infer => .var next
  | .fn a r => .fn (a.written params next) (r.written params (next + a.holes))
  | .named n args =>
    match args, params.lookup n with
    | [], some t => t
    | _, _ => .user n (TypeExpr.writtenList params next args)

def TypeExpr.writtenList (params : Env Term) (next : Nat) : List TypeExpr → List Term
  | [] => []
  | t :: ts => t.written params next :: TypeExpr.writtenList params (next + t.holes) ts
end

section Resolve

variable {params : Env Idx} {P : Env Term} {p q : Pool}

/-- The parameters in scope are handles of `p` standing for the types `P` gives their names. -/
def ParamsStand (params : Env Idx) (P : Env Term) (p : Pool) : Prop :=
  (∀ b ∈ params.bindings, b.2.raw < p.size) ∧ ∀ x, (params.lookup x).map p.term = P.lookup x

theorem ParamsStand.grows (h : ParamsStand params P p) (hp : p.WF) (hq : q.WF)
    (hg : p.Grows q) : ParamsStand params P q := by
  refine ⟨fun b hb => Nat.lt_of_lt_of_le (h.1 b hb) hg.size_le, fun x => ?_⟩
  rw [← h.2 x]
  cases hl : params.lookup x with
  | none => rfl
  | some v => exact congrArg some (hg.term_eq hp hq (h.1 _ (Env.mem_of_lookup hl)))

mutual
/-- Resolving a written type builds a handle standing for what the type is written to stand
for, and allocates one variable per `_`. -/
theorem TypeExpr.resolve_written : ∀ {p : Pool}, p.WF → ParamsStand params P p →
    ∀ t : TypeExpr, (t.resolve params p).2.term (t.resolve params p).1 = t.written P p.varCount ∧
      (t.resolve params p).2.varCount = p.varCount + t.holes
  | p, h, _, .prim q => by
    simp only [TypeExpr.resolve, TypeExpr.written, TypeExpr.holes]
    exact ⟨h.term_prim q, rfl⟩
  | p, h, _, .infer => by
    simp only [TypeExpr.resolve, TypeExpr.written, TypeExpr.holes]
    exact ⟨fresh_term h, varCount_fresh p⟩
  | p, h, hP, .fn a r => by
    simp only [TypeExpr.resolve, TypeExpr.written, TypeExpr.holes]
    obtain ⟨h₁, hg₁, ha⟩ := TypeExpr.resolve_spec h hP.1 a
    obtain ⟨hat, hac⟩ := TypeExpr.resolve_written h hP a
    generalize a.resolve params p = ra at h₁ hg₁ ha hat hac ⊢
    obtain ⟨a', p₁⟩ := ra
    dsimp only at *
    have hP₁ := hP.grows h h₁ hg₁
    obtain ⟨h₂, hg₂, hr⟩ := TypeExpr.resolve_spec h₁ hP₁.1 r
    obtain ⟨hrt, hrc⟩ := TypeExpr.resolve_written h₁ hP₁ r
    generalize r.resolve params p₁ = rr at h₂ hg₂ hr hrt hrc ⊢
    obtain ⟨r', p₂⟩ := rr
    dsimp only at *
    have ha₂ := Nat.lt_of_lt_of_le ha hg₂.size_le
    refine ⟨?_, by rw [Pool.fn, varCount_intern, hrc, hac, Nat.add_assoc]⟩
    rw [fn_term h₂ ha₂ hr, hg₂.term_eq h₁ h₂ ha, hat, hrt, hac]
  | p, h, hP, .named n [] => by
    simp only [TypeExpr.resolve, TypeExpr.written, TypeExpr.holes, TypeExpr.holesList]
    -- a bare name is its parameter's type when it names a parameter, else a user type
    cases hl : params.lookup n with
    | some v =>
      have hPl : P.lookup n = some (p.term v) := by rw [← hP.2 n, hl]; rfl
      simp [hPl]
    | none =>
      have hPl : P.lookup n = none := by rw [← hP.2 n, hl]; rfl
      simp only [hPl, TypeExpr.resolveList, TypeExpr.writtenList]
      refine ⟨?_, by rw [Pool.user, varCount_intern, Nat.add_zero]⟩
      rw [user_term h n fun _ ha => absurd ha List.not_mem_nil, List.map_nil]
  | p, h, hP, .named n (a :: as) => by
    simp only [TypeExpr.resolve, TypeExpr.written, TypeExpr.holes]
    obtain ⟨h₁, -, hargs⟩ := TypeExpr.resolveList_spec h hP.1 (a :: as)
    obtain ⟨hw, hc⟩ := TypeExpr.resolveList_written h hP (a :: as)
    generalize TypeExpr.resolveList params p (a :: as) = rl at h₁ hargs hw hc ⊢
    obtain ⟨args, p₁⟩ := rl
    dsimp only at *
    refine ⟨?_, by rw [Pool.user, varCount_intern, hc]⟩
    rw [user_term h₁ n hargs, hw]

/-- Resolving written types left to right builds handles standing for what they are written to
stand for, the `_`s of each taking the variables after those of the types before it. -/
theorem TypeExpr.resolveList_written : ∀ {p : Pool}, p.WF → ParamsStand params P p →
    ∀ ts : List TypeExpr,
      (TypeExpr.resolveList params p ts).1.map (TypeExpr.resolveList params p ts).2.term =
          TypeExpr.writtenList P p.varCount ts ∧
        (TypeExpr.resolveList params p ts).2.varCount = p.varCount + TypeExpr.holesList ts
  | p, _, _, [] => ⟨rfl, rfl⟩
  | p, h, hP, t :: ts => by
    simp only [TypeExpr.resolveList, TypeExpr.writtenList, TypeExpr.holesList]
    obtain ⟨h₁, hg₁, ht⟩ := TypeExpr.resolve_spec h hP.1 t
    obtain ⟨htt, htc⟩ := TypeExpr.resolve_written h hP t
    generalize t.resolve params p = rt at h₁ hg₁ ht htt htc ⊢
    obtain ⟨t', p₁⟩ := rt
    dsimp only at *
    have hP₁ := hP.grows h h₁ hg₁
    obtain ⟨h₂, hg₂, -⟩ := TypeExpr.resolveList_spec h₁ hP₁.1 ts
    obtain ⟨hts, htsc⟩ := TypeExpr.resolveList_written h₁ hP₁ ts
    generalize TypeExpr.resolveList params p₁ ts = rts at h₂ hg₂ hts htsc ⊢
    obtain ⟨ts', p₂⟩ := rts
    dsimp only at *
    refine ⟨?_, by rw [htsc, htc, Nat.add_assoc]⟩
    rw [List.map_cons, hg₂.term_eq h₁ h₂ ht, htt, hts, htc]
end

end Resolve

/-! ## One item -/

namespace TypeItem

/-- The variables an item's parameters get, as types, when the item is built from a pool with
`n` variables. -/
def paramTypes (item : TypeItem) (n : Nat) : List Term :=
  (List.range item.params.length).map fun i => .var (n + i)

/-- Each parameter name standing for its variable; of repeated names the last is found. -/
def paramEnv (item : TypeItem) (n : Nat) : Env Term :=
  Env.ofList (item.params.zip (item.paramTypes n))

/-- The signatures of the tags `ds` written out, numbered from `index`, with `next` the first
variable their `_`s take, for the item built from a pool with `n` variables. -/
def writtenTagsFrom (item : TypeItem) (n : Nat) : Nat → Nat → List TagDecl → List (String × TagType)
  | _, _, [] => []
  | index, next, d :: ds =>
    (d.name,
      { index
        bounded := (List.range item.params.length).map (n + ·) ++
          (List.range (TypeExpr.holesList d.args)).map (next + ·)
        args := TypeExpr.writtenList (item.paramEnv n) next d.args
        result := .user item.name (item.paramTypes n) }) ::
      item.writtenTagsFrom n (index + 1) (next + TypeExpr.holesList d.args) ds

/-- An item's tag signatures written out, for the item built from a pool with `n` variables:
its tags' `_`s take the variables after those of its parameters. -/
def writtenTags (item : TypeItem) (n : Nat) : List (String × TagType) :=
  item.writtenTagsFrom n 0 (n + item.params.length) item.tags

/-- The variables an item allocates: one per parameter and one per `_` of its tags. -/
def allocs (item : TypeItem) : Nat :=
  item.params.length + (item.tags.map fun d => TypeExpr.holesList d.args).sum

end TypeItem

/-- Allocating `k` variables returns handles standing for the next `k` variables, in order. -/
theorem Pool.freshMany_terms : ∀ {p : Pool} (k : Nat), p.WF →
    (p.freshMany k).1.map (p.freshMany k).2.term = (List.range k).map fun i => .var (p.varCount + i)
  | _, 0, _ => rfl
  | p, k + 1, h => by
    simp only [freshMany]
    obtain ⟨h₁, hg₁, ht₁, -⟩ := fresh_spec h
    have hterm₁ := fresh_term h
    have hc₁ : p.fresh.2.varCount = p.varCount + 1 := varCount_fresh p
    have hrest := Pool.freshMany_terms k h₁
    obtain ⟨h₂, hg₂, -⟩ := p.fresh.2.freshMany_spec k h₁
    generalize p.fresh = r₁ at h₁ hg₁ ht₁ hterm₁ hc₁ hrest h₂ hg₂ ⊢
    obtain ⟨t₁, p₁⟩ := r₁
    dsimp only at *
    rw [List.map_cons, hrest, hg₂.term_eq h₁ h₂ ht₁, hterm₁, List.range_succ_eq_map, List.map_cons,
      List.map_map, hc₁]
    refine congrArg _ (List.map_congr_left fun i _ => ?_)
    simp only [Function.comp_apply, Term.var.injEq]
    omega

theorem Env.lookup_ofList {α : Type} (pairs : List (String × α)) (x : String) :
    (Env.ofList pairs).lookup x = (pairs.reverse.find? fun b => b.1 == x).map (·.2) := by
  simp only [Env.lookup, Env.bindings_ofList]

/-- Reading the values of a table made from names and values through `f` is making it from
the values read through `f`. -/
theorem Env.lookup_ofList_zip_map {α β : Type} (names : List String) (vs : List α) (f : α → β)
    (x : String) :
    ((Env.ofList (names.zip vs)).lookup x).map f = (Env.ofList (names.zip (vs.map f))).lookup x := by
  rw [Env.lookup_ofList, Env.lookup_ofList, List.zip_map_right, ← List.map_reverse, List.find?_map,
    Option.map_map, Option.map_map]
  rfl

namespace TypeItem

variable (item : TypeItem) (n : Nat)

/-- The signatures of an item's tags, built from any pool where the parameters stand for the
item's variables and the result for the item's type, are the written ones. -/
theorem tagSigs_written {params : Env Idx} {result : Idx} :
    ∀ {s : Pool} (index : Nat) (ds : List TagDecl), s.WF → ParamsStand params (item.paramEnv n) s →
      result.raw < s.size → s.term result = .user item.name (item.paramTypes n) →
      let r := TypeItem.tagSigs params ((List.range item.params.length).map (n + ·)) result s
        index ds
      r.2.WF ∧ s.Grows r.2 ∧
        r.2.varCount = s.varCount + (ds.map fun d => TypeExpr.holesList d.args).sum ∧
        r.1.map (fun sig => (sig.name, r.2.tagType sig)) = item.writtenTagsFrom n index s.varCount ds
  | s, _, [], h, _, _, _ => ⟨h, Grows.refl s, rfl, rfl⟩
  | s, index, d :: ds, h, hP, hres, hrt => by
    simp only [TypeItem.tagSigs]
    obtain ⟨h₁, hg₁, hargs⟩ := TypeExpr.resolveList_spec h hP.1 d.args
    obtain ⟨hw, hc⟩ := TypeExpr.resolveList_written h hP d.args
    generalize TypeExpr.resolveList params s d.args = rl at h₁ hg₁ hargs hw hc ⊢
    obtain ⟨args, s₁⟩ := rl
    dsimp only at *
    have hres₁ := Nat.lt_of_lt_of_le hres hg₁.size_le
    have hrt₁ : s₁.term result = .user item.name (item.paramTypes n) := by
      rw [hg₁.term_eq h h₁ hres, hrt]
    obtain ⟨h₂, hg₂, hc₂, hrest⟩ :=
      tagSigs_written (index + 1) ds h₁ (hP.grows h h₁ hg₁) hres₁ hrt₁
    generalize TypeItem.tagSigs params ((List.range item.params.length).map (n + ·)) result s₁
      (index + 1) ds = rs at h₂ hg₂ hc₂ hrest ⊢
    obtain ⟨sigs, s₂⟩ := rs
    dsimp only at *
    refine ⟨h₂, hg₁.trans hg₂, by rw [hc₂, hc, List.map_cons, List.sum_cons, Nat.add_assoc], ?_⟩
    -- the tag's own variables are those its arguments allocated, and its types are read where
    -- they were built
    have hargs₂ : args.map s₂.term = args.map s₁.term :=
      List.map_congr_left fun a ha => hg₂.term_eq h₁ h₂ (hargs a ha)
    rw [List.map_cons, hrest, writtenTagsFrom, hc, Nat.add_sub_cancel_left]
    simp only [Pool.tagType, hargs₂, hw, hg₂.term_eq h₁ h₂ hres₁, hrt₁]

/-- An item's signatures, read in the pool its build leaves, are its written signatures, and
the build allocates the item's variables. -/
theorem build_written {s : Pool} (h : s.WF) :
    (item.build s).2.varCount = s.varCount + item.allocs ∧
      (item.build s).1.map (fun sig => (sig.name, (item.build s).2.tagType sig)) =
        item.writtenTags s.varCount := by
  simp only [TypeItem.build]
  obtain ⟨h₁, hg₁, hc₁, hvars⟩ := s.freshMany_spec item.params.length h
  have hterms := s.freshMany_terms item.params.length h
  generalize s.freshMany item.params.length = rv at h₁ hg₁ hc₁ hvars hterms ⊢
  obtain ⟨vars, s₁⟩ := rv
  dsimp only at *
  have hvalid : ∀ t ∈ vars, t.raw < s₁.size := fun t ht => (hvars t ht).1
  obtain ⟨h₂, hg₂, hres⟩ := user_spec h₁ item.name hvalid
  have hresv := user_term h₁ item.name hvalid
  have hc₂ : (s₁.user item.name vars).2.varCount = s₁.varCount := varCount_intern _ _
  generalize s₁.user item.name vars = ru at h₂ hg₂ hres hresv hc₂ ⊢
  obtain ⟨result, s₂⟩ := ru
  dsimp only at *
  -- the parameters stand for the item's variables, the last of a repeated name found first
  have hvars₂ : vars.map s₂.term = item.paramTypes s.varCount := by
    rw [paramTypes, ← hterms]
    exact List.map_congr_left fun t ht => hg₂.term_eq h₁ h₂ (hvalid t ht)
  have hP : ParamsStand (Env.ofList (item.params.zip vars)) (item.paramEnv s.varCount) s₂ := by
    refine ⟨fun b hb => ?_, fun x => ?_⟩
    · rw [Env.bindings_ofList, List.mem_reverse] at hb
      exact Nat.lt_of_lt_of_le (hvalid b.2 (List.of_mem_zip hb).2) hg₂.size_le
    · rw [Env.lookup_ofList_zip_map, hvars₂]
      rfl
  have hrt : s₂.term result = .user item.name (item.paramTypes s.varCount) := by
    rw [hresv, hterms]
    rfl
  obtain ⟨-, -, hc₃, hsigs⟩ := tagSigs_written item s.varCount 0 item.tags h₂ hP hres hrt
  refine ⟨by rw [hc₃, hc₂, hc₁, allocs, Nat.add_assoc], ?_⟩
  rw [hsigs, hc₂, hc₁]
  rfl

end TypeItem

/-! ## A definition -/

/-- A signature whose types are handles of `p` is read the same in every pool `p` grows into. -/
theorem Pool.tagType_grows {p q : Pool} {sig : TagSig} (hp : p.WF) (hq : q.WF) (hg : p.Grows q)
    (hs : sig.Closed p) : q.tagType sig = p.tagType sig := by
  unfold Pool.tagType
  rw [hg.term_eq hp hq hs.2.1, List.map_congr_left fun a ha => hg.term_eq hp hq (hs.1 a ha).1]

/-- The last entry keyed `x` of the first list that has an entry keyed `x`. -/
def lastOfFirst {β : Type} (key : β → String) (x : String) : List (List β) → Option β
  | [] => none
  | l :: ls => (l.reverse.find? fun b => key b == x).or (lastOfFirst key x ls)

/-- Sending every entry through a map that keeps keys commutes with the search. -/
theorem lastOfFirst_map {β γ : Type} {key : β → String} {key' : γ → String} {f : β → γ}
    (hkey : ∀ b, key' (f b) = key b) (x : String) :
    ∀ ls : List (List β), lastOfFirst key' x (ls.map (List.map f)) = (lastOfFirst key x ls).map f
  | [] => rfl
  | l :: ls => by
    have hp : ((fun b => key' b == x) ∘ f) = fun b => key b == x := funext fun b => by
      simp only [Function.comp_apply, hkey]
    rw [List.map_cons, lastOfFirst, lastOfFirst, lastOfFirst_map hkey x ls, ← List.map_reverse,
      List.find?_map, hp]
    cases l.reverse.find? fun b => key b == x <;> rfl

namespace Catalogue

/-- Each item's signatures, the items built one after another from `s`. -/
def itemSigs : List TypeItem → Pool → List (List TagSig)
  | [], _ => []
  | item :: items, s => (item.build s).1 :: itemSigs items (item.build s).2

/-- Each item's signatures written out, the items built one after another from a pool with `n`
variables. -/
def writtenTags : List TypeItem → Nat → List (List (String × TagType))
  | [], _ => []
  | item :: items, n => item.writtenTags n :: writtenTags items (n + item.allocs)

/-- The pool the items leave does not depend on the signatures gathered before them. -/
theorem foldl_addItem_snd : ∀ (items : List TypeItem) (acc acc' : Env TagSig) (s : Pool),
    (items.foldl addItem (acc, s)).2 = (items.foldl addItem (acc', s)).2
  | [], _, _, _ => rfl
  | _ :: items, _, _, _ => foldl_addItem_snd items _ _ _

/-- Gathering the items' signatures behind `acc` finds a name in `acc` first, and otherwise
as the last signature of its name in the first item that has one. -/
theorem lookup_foldl_addItem (x : String) : ∀ (items : List TypeItem) (acc : Env TagSig) (s : Pool),
    (items.foldl addItem (acc, s)).1.lookup x =
      (acc.lookup x).or (lastOfFirst TagSig.name x (itemSigs items s))
  | [], acc, _ => Option.or_none.symm
  | item :: items, acc, s => by
    -- an item's table finds the last of its signatures of a name
    have hE : (Env.ofList ((item.build s).1.map fun t => (t.name, t))).lookup x =
        (item.build s).1.reverse.find? fun t => t.name == x := by
      rw [Env.lookup_ofList, ← List.map_reverse, List.find?_map, Option.map_map]
      exact Option.map_id'
    rw [List.foldl_cons, addItem, lookup_foldl_addItem x items]
    dsimp only
    rw [Env.lookup_append, Option.or_assoc, hE, itemSigs, lastOfFirst]

theorem build_tags_lookup (items : List TypeItem) (s : Pool) (x : String) :
    (Catalogue.build items s).1.tags.lookup x = lastOfFirst TagSig.name x (itemSigs items s) := by
  rw [build_eq]
  exact (lookup_foldl_addItem x items {} s).trans Option.none_or

theorem build_cons_snd (item : TypeItem) (items : List TypeItem) (s : Pool) :
    (Catalogue.build (item :: items) s).2 = (Catalogue.build items (item.build s).2).2 := by
  rw [build_eq, build_eq]
  exact foldl_addItem_snd items _ _ _

/-- A type's arity in a definition is the parameter count of the last item of its name. -/
theorem build_arities_lookup (items : List TypeItem) (s : Pool) (x : String) :
    (Catalogue.build items s).1.arities.lookup x =
      (items.reverse.find? (·.name == x)).map (·.params.length) := by
  rw [build_eq, Env.lookup_ofList, ← List.map_reverse, List.find?_map, Option.map_map]
  rfl

/-- Each item's signatures, read in the pool the whole definition leaves, are its written
signatures. -/
theorem itemSigs_written : ∀ (items : List TypeItem) {s : Pool}, s.WF →
    (itemSigs items s).map (List.map fun sig => (sig.name, (Catalogue.build items s).2.tagType sig)) =
      writtenTags items s.varCount
  | [], _, _ => rfl
  | item :: items, s, h => by
    obtain ⟨hc, hw⟩ := item.build_written h
    have hb := item.build_spec h
    have hrest := Catalogue.build_spec items hb.wf
    rw [itemSigs, List.map_cons, writtenTags, build_cons_snd, itemSigs_written items hb.wf, hc,
      ← hw]
    -- the item's signatures are read in the pool the later items leave, which only grew
    refine congrArg (· :: _) (List.map_congr_left fun sig hsig => ?_)
    rw [tagType_grows hb.wf hrest.wf hrest.grows (hb.closed sig hsig)]

end Catalogue

namespace Context

theorem lookupTag_withCatalogue (ctx : Context) (c : Catalogue) (x : String) :
    (ctx.withCatalogue c).lookupTag x = (ctx.lookupTag x).or (c.tags.lookup x) :=
  Env.lookup_append _ _ _

theorem arity_withCatalogue (ctx : Context) (c : Catalogue) (x : String) :
    (ctx.withCatalogue c).arities.lookup x = (ctx.arities.lookup x).or (c.arities.lookup x) :=
  Env.lookup_append _ _ _

/-- The tables of a context extended by a type definition.  A tag or type the context has keeps
its meaning.  A new tag is the last declaration of its name in the first item that declares it,
written out as `TypeItem.writtenTags` says: numbered by its position among the item's tags, its
arguments the written types with each bare parameter name standing for the parameter's
variable, its result the item applied to its parameters' variables, and quantifying those
variables and exactly the ones its own `_`s took.  A new type's arity is the parameter count
of the last item of its name, so it agrees with the first item's exactly when the two items
have as many parameters. -/
theorem withCatalogue_tables (ctx : Context) (items : List TypeItem) {s : Pool} (hs : s.WF)
    (x : String) :
    (∀ sig, ctx.lookupTag x = some sig →
      (ctx.withCatalogue (Catalogue.build items s).1).lookupTag x = some sig) ∧
    (ctx.lookupTag x = none →
      ((ctx.withCatalogue (Catalogue.build items s).1).lookupTag x).map
          (fun sig => (sig.name, (Catalogue.build items s).2.tagType sig)) =
        lastOfFirst Prod.fst x (Catalogue.writtenTags items s.varCount)) ∧
    (∀ k, ctx.arities.lookup x = some k →
      (ctx.withCatalogue (Catalogue.build items s).1).arities.lookup x = some k) ∧
    (ctx.arities.lookup x = none →
      (ctx.withCatalogue (Catalogue.build items s).1).arities.lookup x =
        (items.reverse.find? (·.name == x)).map (·.params.length)) ∧
    ((ctx.withCatalogue (Catalogue.build items s).1).arities.lookup x =
        (ctx.arities.lookup x).or ((items.find? (·.name == x)).map (·.params.length)) ↔
      (ctx.arities.lookup x).isSome ∨
        (items.find? (·.name == x)).map (·.params.length) =
          (items.reverse.find? (·.name == x)).map (·.params.length)) := by
  refine ⟨fun sig hsig => ?_, fun hnone => ?_, fun k hk => ?_, fun hnone => ?_, ?_⟩
  · rw [lookupTag_withCatalogue, hsig]
    rfl
  · rw [lookupTag_withCatalogue, hnone, Option.none_or, Catalogue.build_tags_lookup,
      ← Catalogue.itemSigs_written items hs, lastOfFirst_map fun _ => rfl]
  · rw [arity_withCatalogue, hk]
    rfl
  · rw [arity_withCatalogue, hnone, Option.none_or, Catalogue.build_arities_lookup]
  · rw [arity_withCatalogue, Catalogue.build_arities_lookup]
    -- an arity the context has decides both sides; otherwise the two items are compared
    cases ctx.arities.lookup x with
    | some k => simp
    | none => simp only [Option.none_or, Option.isSome_none, Bool.false_eq_true, false_or, eq_comm]

theorem withCatalogue_tables_repeated_type :
    ({} : Pool).WF ∧
    ((∀ sig, ({} : Context).lookupTag "T" = some sig →
      (({} : Context).withCatalogue
        (Catalogue.build [{ name := "T" }, { name := "T", params := ["a"] }] {}).1).lookupTag "T" =
          some sig) ∧
    (({} : Context).lookupTag "T" = none →
      ((({} : Context).withCatalogue
        (Catalogue.build [{ name := "T" }, { name := "T", params := ["a"] }] {}).1).lookupTag "T").map
          (fun sig => (sig.name,
            (Catalogue.build [{ name := "T" }, { name := "T", params := ["a"] }] {}).2.tagType sig)) =
        lastOfFirst Prod.fst "T"
          (Catalogue.writtenTags [{ name := "T" }, { name := "T", params := ["a"] }]
            ({} : Pool).varCount)) ∧
    (∀ k, ({} : Context).arities.lookup "T" = some k →
      (({} : Context).withCatalogue
        (Catalogue.build [{ name := "T" }, { name := "T", params := ["a"] }] {}).1).arities.lookup
          "T" = some k) ∧
    (({} : Context).arities.lookup "T" = none →
      (({} : Context).withCatalogue
        (Catalogue.build [{ name := "T" }, { name := "T", params := ["a"] }] {}).1).arities.lookup
          "T" =
        (([{ name := "T" }, { name := "T", params := ["a"] }] : List TypeItem).reverse.find?
          (·.name == "T")).map (·.params.length)) ∧
    ((({} : Context).withCatalogue
        (Catalogue.build [{ name := "T" }, { name := "T", params := ["a"] }] {}).1).arities.lookup
          "T" =
        (({} : Context).arities.lookup "T").or
          ((([{ name := "T" }, { name := "T", params := ["a"] }] : List TypeItem).find?
            (·.name == "T")).map (·.params.length)) ↔
      (({} : Context).arities.lookup "T").isSome ∨
        (([{ name := "T" }, { name := "T", params := ["a"] }] : List TypeItem).find?
            (·.name == "T")).map (·.params.length) =
          (([{ name := "T" }, { name := "T", params := ["a"] }] : List TypeItem).reverse.find?
            (·.name == "T")).map (·.params.length))) :=
  ⟨WF.empty, withCatalogue_tables {} [{ name := "T" }, { name := "T", params := ["a"] }] WF.empty "T"⟩

/-- Of two items named `T`, the first with no parameter and the second with one, the extended
context gives `T` the second item's arity. -/
theorem withCatalogue_arity_of_repeated_type :
    (({} : Context).withCatalogue
        (Catalogue.build [{ name := "T" }, { name := "T", params := ["a"] }] {}).1).arities.lookup
          "T" = some 1 ∧
      (([{ name := "T" }, { name := "T", params := ["a"] }] : List TypeItem).find?
        (·.name == "T")).map (·.params.length) = some 0 := by
  refine ⟨?_, by decide⟩
  rw [arity_withCatalogue, Catalogue.build_arities_lookup]
  decide

end Context

end TagML
