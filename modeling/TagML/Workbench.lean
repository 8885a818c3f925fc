import TagML.Ty.Unify
import TagML.Ty.Scheme
import TagML.Diagnostic

/-!
A workbench for the type pool: a script of steps, each building types from a written form and
calling one operation of the pool, with named slots to keep results for later steps.

The bench answers with the pool's size among other things: one item per primitive, one per
variable and one per distinct compound type ever built, whether written in a step or rebuilt
by deep resolution or instantiation.

A step may be written wrongly in part.  Types are built left to right, so a step stops at the
first part written wrongly and the types built before it stay built; a result that was to be
kept under a malformed name is computed in full and then not kept.
-/
namespace TagML

/-- A type written in a step. -/
inductive TypeTerm where
  | prim (p : Prim)
  | fn (arg ret : TypeTerm)
  | user (name : String) (args : List TypeTerm)
  /-- An already allocated variable. -/
  | var (v : Nat)
  /-- A type kept by an earlier step. -/
  | ref (name : String)
  /-- `a₁ -> … -> aₙ -> ret`. -/
  | curried (args : List TypeTerm) (ret : TypeTerm)
  /-- A part written wrongly, with the complaint about it. -/
  | invalid (reason : String)

/-- A scheme written in a step: quantified ids (none for a scheme that quantifies nothing) and
a body, or a scheme kept by an earlier step. -/
inductive SchemeTerm where
  | written (bounded : List Nat) (body : TypeTerm)
  | ref (name : String)
  /-- A scheme written wrongly, with the complaint about it. -/
  | invalid (reason : String)

/-- Where a step that produces a type or scheme keeps it: nowhere (`none`), under a name, or,
when the name itself was written wrongly, nowhere, with the complaint as the step's answer once
the step has run. -/
abbrev Keep := Except String (Option String)

/-- One step of a script. -/
inductive Step where
  | fresh (n : Nat)
  | unify (expected found : TypeTerm)
  | resolve (t : TypeTerm) (keep : Keep)
  | resolveDeep (t : TypeTerm) (keep : Keep)
  | occurs (v : Nat) (t : TypeTerm)
  | freeVars (t : TypeTerm)
  | freeVarsScheme (s : SchemeTerm)
  | freeVarsEnv (env : List (String × SchemeTerm))
  | generalize (env : List (String × SchemeTerm)) (t : TypeTerm) (keep : Keep)
  | instantiate (s : SchemeTerm) (keep : Keep)
  | format (t : TypeTerm)
  | formatScheme (s : SchemeTerm)
  | varState (v : Nat)
  | keepType (name : String) (t : TypeTerm)
  | keepScheme (name : String) (s : SchemeTerm)
  | unifyDiagnosed (expected found : TypeTerm)
  | stats
  | kindOf (t : TypeTerm)
  | schemeInfo (s : SchemeTerm)

/-- Why a step could not run. -/
inductive BenchError where
  | noVar (v : Nat)
  | noType (name : String)
  | noScheme (name : String)
  /-- A part of the step was written wrongly. -/
  | malformed (reason : String)
  /-- More fresh variables asked for at once than `freshLimit`. -/
  | tooManyFresh

/-- The text of a step's failure. -/
def BenchError.message : BenchError → String
  | .noVar v => "no type variable " ++ varName v
  | .noType n => "no stored type `" ++ n ++ "`"
  | .noScheme n => "no stored scheme `" ++ n ++ "`"
  | .malformed reason => reason
  | .tooManyFresh => "fresh count too large"

/-- What a step answers; types are given as their text at the time of the step. -/
inductive Answer where
  | vars (ids : List Nat)
  | unified (expected found : String)
  | mismatch (expected found text : String)
  | infinite (v : Nat) (containing text : String)
  | resolved (kind : Kind) (type : String) (unbound : Option Nat) (hasVars : Bool)
  | deepResolved (type : String) (hasVars : Bool) (free : List Nat)
  | occurs (b : Bool)
  | generalized (scheme : String) (bounded : List Nat)
  | instance (type : String) (varCount : Nat)
  | type (text : String)
  | scheme (text : String)
  | unbound
  | linked (target : String)
  | diagnosedOk
  | diagnosed (err : CheckError) (d : Diagnostic)
  | stats (size varCount : Nat)
  /-- A type's root shape, the primitive it is (if it is one), its variable flag, and the shape
  it resolves to. -/
  | kind (kind : Kind) (primitive : Option Prim) (hasVars : Bool) (resolved : Kind)
  | schemeInfo (isMono : Bool) (bounded : List Nat) (body scheme : String)

/-- The most fresh variables one step may ask for. -/
def freshLimit : Nat := 10000

/-- The pool, and the kept types and schemes. -/
structure Workbench where
  pool : Pool := {}
  types : List (String × Idx) := []
  schemes : List (String × Scheme) := []

namespace Workbench

/-- Run a pool operation on the bench's pool.  The bench is taken apart first, so that the
pool is updated in place. -/
def withPool {α : Type} (w : Workbench) (f : Pool → α × Pool) : Workbench × α :=
  match w with
  | ⟨pool, types, schemes⟩ =>
    match f pool with
    | (a, pool) => (⟨pool, types, schemes⟩, a)

/-- Build a compound type with a pool operation, as a successful build. -/
def construct (w : Workbench) (f : Pool → Idx × Pool) : Workbench × Except BenchError Idx :=
  match w.withPool f with
  | (w, t) => (w, .ok t)

mutual
/-- Build a written type; parts are built left to right, so a failure keeps the parts built
before it. -/
def build (w : Workbench) : TypeTerm → Workbench × Except BenchError Idx
  | .prim p => (w, .ok p.idx)
  | .var v =>
    match w.pool.varItem? v with
    | some i => (w, .ok i)
    | none => (w, .error (.noVar v))
  | .ref n =>
    match w.types.lookup n with
    | some t => (w, .ok t)
    | none => (w, .error (.noType n))
  | .invalid reason => (w, .error (.malformed reason))
  | .fn a r =>
    match w.build a with
    | (w, .ok a) =>
      match w.build r with
      | (w, .ok r) => w.construct (·.fn a r)
      | (w, .error e) => (w, .error e)
    | (w, .error e) => (w, .error e)
  | .user n args =>
    match w.buildList args with
    | (w, .ok args) => w.construct (·.user n args)
    | (w, .error e) => (w, .error e)
  | .curried args ret =>
    match w.buildList args with
    | (w, .ok args) =>
      match w.build ret with
      | (w, .ok ret) => w.construct (·.curried args ret)
      | (w, .error e) => (w, .error e)
    | (w, .error e) => (w, .error e)

/-- Build written types left to right. -/
def buildList (w : Workbench) : List TypeTerm → Workbench × Except BenchError (List Idx)
  | [] => (w, .ok [])
  | t :: ts =>
    match w.build t with
    | (w, .ok t) =>
      match w.buildList ts with
      | (w, .ok ts) => (w, .ok (t :: ts))
      | (w, .error e) => (w, .error e)
    | (w, .error e) => (w, .error e)
end

/-- Build a written scheme. -/
def buildScheme (w : Workbench) : SchemeTerm → Workbench × Except BenchError Scheme
  | .written bounded body =>
    match w.build body with
    | (w, .ok t) => (w, .ok (Scheme.ofVars bounded t))
    | (w, .error e) => (w, .error e)
  | .ref n =>
    match w.schemes.lookup n with
    | some σ => (w, .ok σ)
    | none => (w, .error (.noScheme n))
  | .invalid reason => (w, .error (.malformed reason))

/-- Build a written environment: the pairs bound in order, so the last is innermost. -/
def buildEnv (w : Workbench) : List (String × SchemeTerm) → Workbench × Except BenchError (Env Scheme)
  | [] => (w, .ok {})
  | (n, s) :: rest =>
    match w.buildScheme s with
    | (w, .ok σ) =>
      match w.buildEnv rest with
      | (w, .ok env) => (w, .ok { bindings := env.bindings ++ [(n, σ)], len := env.len + 1 })
      | (w, .error e) => (w, .error e)
    | (w, .error e) => (w, .error e)

/-- Keep a type under a name. -/
def keepType (w : Workbench) (name : String) (t : Idx) : Workbench :=
  { w with types := (name, t) :: w.types }

/-- Keep a scheme under a name. -/
def keepScheme (w : Workbench) (name : String) (σ : Scheme) : Workbench :=
  { w with schemes := (name, σ) :: w.schemes }

/-- End a step that has run and produced an answer: keep its result as asked, or answer the
complaint about how the name to keep it under was written. -/
def finish (w : Workbench) (keep : Keep) (kept : String → Workbench) (a : Answer) :
    Workbench × Except BenchError Answer :=
  match keep with
  | .ok none => (w, .ok a)
  | .ok (some n) => (kept n, .ok a)
  | .error reason => (w, .error (.malformed reason))

/-- The answer to a unification, with the pool after it. -/
def unifyAnswer (p : Pool) (a b : Idx) : Answer × Pool :=
  match p.unify a b with
  | (p, none) => (.unified (p.render a) (p.render b), p)
  | (p, some err) =>
    match err with
    | .mismatch e f => (.mismatch (p.render e) (p.render f) err.text, p)
    | .infinite v t => (.infinite v (p.render t) err.text, p)

/-- The answer to a unification reported as a diagnostic, with the pool after it. -/
def diagnosedAnswer (p : Pool) (a b : Idx) : Answer × Pool :=
  match p.unify a b with
  | (p, none) => (.diagnosedOk, p)
  | (p, some err) =>
    let err : CheckError := { cause := .unify err }
    (.diagnosed err (err.diagnostic p), p)

/-- Run one step. -/
def step (w : Workbench) : Step → Workbench × Except BenchError Answer
  | .fresh n =>
    if n > freshLimit then (w, .error .tooManyFresh) else
    let first := w.pool.varCount
    let (w, _) := w.withPool (·.freshMany n)
    (w, .ok (.vars ((List.range n).map (first + ·))))
  | .unify a b =>
    match w.build a with
    | (w, .error e) => (w, .error e)
    | (w, .ok a) =>
      match w.build b with
      | (w, .error e) => (w, .error e)
      | (w, .ok b) =>
        let (w, ans) := w.withPool (unifyAnswer · a b)
        (w, .ok ans)
  | .resolve t keep =>
    match w.build t with
    | (w, .error e) => (w, .error e)
    | (w, .ok t) =>
      let p := w.pool
      let r := p.resolve t
      w.finish keep (w.keepType · r)
        (.resolved (p.kind r) (p.render r) (p.unboundVar? t) (p.hasVars r))
  | .resolveDeep t keep =>
    match w.build t with
    | (w, .error e) => (w, .error e)
    | (w, .ok t) =>
      let (w, r) := w.withPool (·.resolveDeep t)
      let p := w.pool
      w.finish keep (w.keepType · r) (.deepResolved (p.render r) (p.hasVars r) (p.freeVars r))
  | .occurs v t =>
    match w.build t with
    | (w, .error e) => (w, .error e)
    | (w, .ok t) => (w, .ok (.occurs (w.pool.occurs v t)))
  | .freeVars t =>
    match w.build t with
    | (w, .error e) => (w, .error e)
    | (w, .ok t) => (w, .ok (.vars (w.pool.freeVars t)))
  | .freeVarsScheme s =>
    match w.buildScheme s with
    | (w, .error e) => (w, .error e)
    | (w, .ok σ) => (w, .ok (.vars (w.pool.freeVarsScheme σ)))
  | .freeVarsEnv env =>
    match w.buildEnv env with
    | (w, .error e) => (w, .error e)
    | (w, .ok env) => (w, .ok (.vars (w.pool.freeVarsEnv env)))
  | .generalize env t keep =>
    match w.buildEnv env with
    | (w, .error e) => (w, .error e)
    | (w, .ok env) =>
      match w.build t with
      | (w, .error e) => (w, .error e)
      | (w, .ok t) =>
        let σ := w.pool.generalize env t
        w.finish keep (w.keepScheme · σ) (.generalized (w.pool.renderScheme σ) σ.bounded)
  | .instantiate s keep =>
    match w.buildScheme s with
    | (w, .error e) => (w, .error e)
    | (w, .ok σ) =>
      let (w, t) := w.withPool (·.instantiate σ)
      w.finish keep (w.keepType · t) (.instance (w.pool.render t) w.pool.varCount)
  | .format t =>
    match w.build t with
    | (w, .error e) => (w, .error e)
    | (w, .ok t) => (w, .ok (.type (w.pool.render t)))
  | .formatScheme s =>
    match w.buildScheme s with
    | (w, .error e) => (w, .error e)
    | (w, .ok σ) => (w, .ok (.scheme (w.pool.renderScheme σ)))
  | .varState v =>
    if v < w.pool.varCount then
      match w.pool.target? v with
      | some t => (w, .ok (.linked (w.pool.render t)))
      | none => (w, .ok .unbound)
    else (w, .error (.noVar v))
  | .keepType n t =>
    match w.build t with
    | (w, .error e) => (w, .error e)
    | (w, .ok t) => (w.keepType n t, .ok (.type (w.pool.render t)))
  | .keepScheme n s =>
    match w.buildScheme s with
    | (w, .error e) => (w, .error e)
    | (w, .ok σ) => (w.keepScheme n σ, .ok (.scheme (w.pool.renderScheme σ)))
  | .unifyDiagnosed a b =>
    match w.build a with
    | (w, .error e) => (w, .error e)
    | (w, .ok a) =>
      match w.build b with
      | (w, .error e) => (w, .error e)
      | (w, .ok b) =>
        let (w, ans) := w.withPool (diagnosedAnswer · a b)
        (w, .ok ans)
  | .stats => (w, .ok (.stats w.pool.size w.pool.varCount))
  | .kindOf t =>
    match w.build t with
    | (w, .error e) => (w, .error e)
    | (w, .ok t) =>
      let p := w.pool
      (w, .ok (.kind (p.kind t) (Prim.all[t.raw]?) (p.hasVars t) (p.kind (p.resolve t))))
  | .schemeInfo s =>
    match w.buildScheme s with
    | (w, .error e) => (w, .error e)
    | (w, .ok σ) =>
      (w, .ok (.schemeInfo σ.isMono σ.bounded (w.pool.render σ.body) (w.pool.renderScheme σ)))

/-- Run a script, answering each step; a step that cannot run answers its error and the
script goes on. -/
def run (w : Workbench) : List Step → Workbench × List (Except BenchError Answer)
  | [] => (w, [])
  | s :: ss =>
    let (w, a) := w.step s
    let (w, rest) := w.run ss
    (w, a :: rest)

end Workbench

end TagML
