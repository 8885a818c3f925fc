import TagML.Proofs.Embed.Skip

/-!
What the error policy changes in a session.

A session checks a program's forms one after another; the policy only decides what happens
after a form fails.  Under `proceed` the report has one line per form, in form order
(`Session.run_proceed`).  Under `halt` the session stops right after the first failure: its
report is the proceeding report cut just after its first failed line, and the session ends in
the checker reached by checking only the forms reported on (`Session.run_halt`).  Both runs
start from the same checker and take the same steps up to that failure, which is why one
report is a prefix of the other (`Session.halt_prefix_of_proceed`).

A report has errors exactly when one of its lines failed, and its diagnostics are those of the
failed lines in order (`Report.hasErrors_iff`, `Report.diagnostics_failed`).
-/
namespace TagML

namespace Entry

@[simp] theorem diagnostic?_describe (s : Pool) (f : Form) (o : Outcome) :
    (Session.describe s f o).diagnostic? = none := by
  cases o <;> rfl

@[simp] theorem diagnostic?_ofResult_ok (f : Form) (done : Checked) (s : Pool) :
    (Entry.ofResult f (.ok done, s)).diagnostic? = none :=
  diagnostic?_describe s f done.outcome

@[simp] theorem diagnostic?_ofResult_error (f : Form) (err : CheckError) (s : Pool) :
    (Entry.ofResult f (.error err, s)).diagnostic? = some (err.diagnostic s) := rfl

theorem diagnostic?_eq_some {e : Entry} {d : Diagnostic} :
    e.diagnostic? = some d ↔ e = .failed d := by
  cases e <;> simp [diagnostic?]

end Entry

/-- Checking forms one after another gives one result per form. -/
theorem Checker.length_checkEach (c : Checker) (fs : List Form) :
    (c.checkEach fs).1.length = fs.length := by
  induction fs generalizing c with
  | nil => rfl
  | cons f fs ih => simp [Checker.checkEach, ih]

namespace Report

/-- The position of the first failed line, or the number of lines when none failed. -/
def firstFailure (r : Report) : Nat := r.entries.findIdx (·.diagnostic?.isSome)

/-- The report cut just after its first failed line: the whole report when no line failed. -/
def untilFailure (r : Report) : Report := ⟨r.entries.take (r.firstFailure + 1)⟩

theorem untilFailure_nil : (⟨[]⟩ : Report).untilFailure = ⟨[]⟩ := rfl

theorem untilFailure_cons_of_none {e : Entry} (he : e.diagnostic? = none) (es : List Entry) :
    (⟨e :: es⟩ : Report).untilFailure = ⟨e :: (⟨es⟩ : Report).untilFailure.entries⟩ := by
  simp [untilFailure, firstFailure, List.findIdx_cons, he]

theorem untilFailure_cons_of_some {e : Entry} {d : Diagnostic} (he : e.diagnostic? = some d)
    (es : List Entry) : (⟨e :: es⟩ : Report).untilFailure = ⟨[e]⟩ := by
  simp [untilFailure, firstFailure, List.findIdx_cons, he]

theorem hasErrors_iff (r : Report) : r.hasErrors = true ↔ ∃ d, Entry.failed d ∈ r.entries := by
  simp only [hasErrors, List.any_eq_true, Option.isSome_iff_exists, Entry.diagnostic?_eq_some]
  constructor
  · rintro ⟨e, he, d, rfl⟩
    exact ⟨d, he⟩
  · rintro ⟨d, hd⟩
    exact ⟨_, hd, d, rfl⟩

/-- The diagnostics are those of the failed lines, in the order of the lines. -/
theorem diagnostics_failed (r : Report) :
    r.diagnostics.map Entry.failed = r.entries.filter (·.diagnostic?.isSome) := by
  obtain ⟨es⟩ := r
  simp only [diagnostics]
  induction es with
  | nil => rfl
  | cons e es ih =>
    cases he : e.diagnostic? with
    | none => rw [List.filterMap_cons_none he, List.filter_cons_of_neg (by simp [he]), ih]
    | some d =>
      rw [List.filterMap_cons_some he, List.map_cons, List.filter_cons_of_pos (by simp [he]), ih,
        Entry.diagnostic?_eq_some.1 he]

end Report

namespace Session

/-- The session with its error policy replaced. -/
def withPolicy (ses : Session) (policy : ErrorPolicy) : Session :=
  { ses with config := { ses.config with errorPolicy := policy } }

/-- Under the `halt` policy a session reports the forms up to and including the first that
fails, as checking them one after another does, and ends in the checker those forms reach. -/
theorem run_halt (ses : Session) (hp : ses.config.errorPolicy = .halt) (fs : List Form) :
    (ses.run fs).2 =
        (⟨List.zipWith Entry.ofResult fs (ses.checker.checkEach fs).1⟩ : Report).untilFailure ∧
      (ses.run fs).1 =
        { ses with checker := (ses.checker.checkEach (fs.take (ses.run fs).2.entries.length)).2 } := by
  induction fs generalizing ses with
  | nil => exact ⟨rfl, rfl⟩
  | cons f fs ih =>
    simp only [Session.run, Checker.checkEach, List.zipWith_cons_cons]
    generalize hr : ses.checker.checkForm f = r
    obtain ⟨c, res⟩ := r
    cases res with
    | ok done =>
      -- a checked form is reported and the rest of the program is run from its checker
      obtain ⟨hrep, hses⟩ := ih { ses with checker := c } hp
      generalize ({ ses with checker := c } : Session).run fs = out at hrep hses
      obtain ⟨ses', rest⟩ := out
      refine ⟨?_, ?_⟩
      · rw [Report.untilFailure_cons_of_none (Entry.diagnostic?_ofResult_ok f done c.pool), ← hrep]
        rfl
      · simpa [Checker.checkEach, hr] using hses
    | error err =>
      -- the first failure is the last line
      simp only [hp, if_true]
      exact ⟨(Report.untilFailure_cons_of_some
        (Entry.diagnostic?_ofResult_error f err c.pool) _).symm, by simp [Checker.checkEach, hr]⟩

/-- Halting is proceeding cut short.  From one session, the `halt` policy reports exactly the
lines the `proceed` policy reports up to and including the first failed one (all of them when no
form fails), and leaves the session in the state reached by checking only the forms it reported
on; the `proceed` policy reports one line per form, in form order.  In every report, errors are
present exactly when a line failed, and the diagnostics are the failed lines' in order. -/
theorem halt_prefix_of_proceed (ses : Session) (fs : List Form) :
    ((ses.withPolicy .halt).run fs).2 = ((ses.withPolicy .proceed).run fs).2.untilFailure ∧
      ((ses.withPolicy .halt).run fs).1 =
        { ses.withPolicy .halt with
          checker := (ses.checker.checkEach
            (fs.take ((ses.withPolicy .halt).run fs).2.entries.length)).2 } ∧
      ((ses.withPolicy .proceed).run fs).2.entries =
        List.zipWith Entry.ofResult fs (ses.checker.checkEach fs).1 ∧
      ((ses.withPolicy .proceed).run fs).2.entries.length = fs.length ∧
      ∀ r : Report, (r.hasErrors = true ↔ ∃ d, Entry.failed d ∈ r.entries) ∧
        r.diagnostics.map Entry.failed = r.entries.filter (·.diagnostic?.isSome) := by
  obtain ⟨hH, hHs⟩ := (ses.withPolicy .halt).run_halt rfl fs
  obtain ⟨-, hC⟩ := (ses.withPolicy .proceed).run_proceed rfl fs
  refine ⟨?_, hHs, hC, ?_, fun r => ⟨r.hasErrors_iff, r.diagnostics_failed⟩⟩
  · rw [hH]
    exact congrArg Report.untilFailure (congrArg Report.mk hC).symm
  · rw [hC, List.length_zipWith, Checker.length_checkEach, Nat.min_self]

end Session

end TagML
