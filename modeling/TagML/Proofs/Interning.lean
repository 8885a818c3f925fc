import TagML.SymbolTable
import Mathlib.Data.Finset.Card

/-!
Interning numbers texts densely and without clashes.

A table keeps its texts twice, in a map from text to number and in a list where the number is
the position, and the two stay inverse to each other (`SymbolTable.Inverse`): the map numbers a
text `n` exactly when the list holds it at `n`.  The blank table is so, and interning keeps it
so (`Inverse.intern`): a text the map lacks is nowhere in the list, and goes in at the end
under the list's length.

Over a run of interning from `new`, the list holds the texts met in order of first appearance,
the empty text first (`texts_internAll`), and each text's number is its position there
(`names_internAll`).  The main statement, `internAll_numbering`, draws the consequences: equal
texts get equal numbers and distinct texts distinct ones, a number looks up to its text,
`get?` answers exactly for the texts met, and the size counts the distinct texts met.
-/
namespace TagML

/-- Putting one more item after a list keeps its first occurrences, and adds the item if it is
new. -/
theorem List.eraseDups_append_singleton {α : Type} [BEq α] [LawfulBEq α] (M : List α) (s : α) :
    (M ++ [s]).eraseDups = if s ∈ M then M.eraseDups else M.eraseDups ++ [s] := by
  rw [List.eraseDups_append]
  by_cases hs : s ∈ M
  · have hnil : [s].removeAll M = [] := by simp [List.removeAll, hs]
    rw [hnil, if_pos hs, List.eraseDups_nil, List.append_nil]
  · have hone : [s].removeAll M = [s] := by simp [List.removeAll, hs]
    rw [hone, if_neg hs, List.eraseDups_cons, List.filter_nil, List.eraseDups_nil]

namespace SymbolTable

/-- The map and the list of a table are inverse to each other: the map numbers a text `n`
exactly when the list holds it at position `n`. -/
def Inverse (t : SymbolTable) : Prop :=
  ∀ s n, t.get? s = some n ↔ t.texts[n]? = some s

variable {t : SymbolTable} {s : String}

/-- Interning a text the map has leaves the table as it was. -/
theorem intern_of_get? {n : Nat} (h : t.get? s = some n) : t.intern s = (n, t) := by
  simp [intern, h]

/-- A text the map lacks goes in at the end of the list, numbered by the list's length. -/
theorem intern_of_get?_none (h : t.get? s = none) :
    t.intern s = (t.texts.size, ⟨t.numbers.insert s t.texts.size, t.texts.push s⟩) := by
  simp [intern, h]

theorem inverse_blank : blank.Inverse := by
  intro s n
  simp [blank, get?]

/-- Interning keeps the map and the list inverse. -/
theorem Inverse.intern (h : t.Inverse) (s : String) : (t.intern s).2.Inverse := by
  cases hs : t.get? s with
  | some n => rw [intern_of_get? hs]; exact h
  | none =>
    rw [intern_of_get?_none hs]
    intro s' n
    simp only [get?, Std.HashMap.getElem?_insert, Array.getElem?_push, beq_iff_eq]
    -- the new text is nowhere in the old list, and nothing is numbered by the list's length
    have hfree : ∀ m, t.texts[m]? ≠ some s := fun m hm => by
      rw [← h] at hm
      rw [hs] at hm
      cases hm
    have hend : t.texts[t.texts.size]? = none := by simp
    by_cases hss : s = s'
    · subst hss
      by_cases hn : n = t.texts.size
      · simp [hn]
      · simp [hn, Ne.symm hn, hfree n]
    · by_cases hn : n = t.texts.size
      · subst hn
        have := h s' t.texts.size
        simp only [get?, hend] at this
        simp [hss, this]
      · simpa [hss, hn, get?] using h s' n

theorem inverse_new : new.Inverse := inverse_blank.intern ""

variable (h : t.Inverse)
include h

/-- A number the map gives a text looks up to that text. -/
theorem Inverse.lookup_of_get? {n : Nat} (hs : t.get? s = some n) : t.lookup n = s := by
  simp [lookup, (h s n).1 hs]

/-- No text stands twice in the list. -/
theorem Inverse.nodup : t.texts.toList.Nodup := by
  refine List.nodup_iff_getElem?_ne_getElem?.2 fun i j hij hj heq => ?_
  obtain ⟨u, hu⟩ : ∃ u, t.texts.toList[j]? = some u := ⟨_, List.getElem?_eq_getElem hj⟩
  have hi : t.get? u = some i := (h u i).2 (by rw [← Array.getElem?_toList, heq, hu])
  have hj' : t.get? u = some j := (h u j).2 (by rw [← Array.getElem?_toList, hu])
  rw [hi] at hj'
  cases hj'
  omega

/-- The map numbers a text of the list by its position. -/
theorem Inverse.get?_of_mem (hs : s ∈ t.texts.toList) :
    t.get? s = some (t.texts.toList.idxOf s) :=
  (h s _).2 (by
    rw [← Array.getElem?_toList, List.getElem?_eq_getElem (List.idxOf_lt_length_of_mem hs),
      List.getElem_idxOf])

/-- The map has no number for a text outside the list. -/
theorem Inverse.get?_of_not_mem (hs : s ∉ t.texts.toList) : t.get? s = none := by
  cases hg : t.get? s with
  | none => rfl
  | some n =>
    have hn := (h s n).1 hg
    rw [← Array.getElem?_toList] at hn
    exact absurd (List.mem_of_getElem? hn) hs

/-- Interning puts a text after the list only when it is not there yet. -/
theorem Inverse.texts_intern :
    (t.intern s).2.texts.toList =
      if s ∈ t.texts.toList then t.texts.toList else t.texts.toList ++ [s] := by
  by_cases hs : s ∈ t.texts.toList
  · rw [intern_of_get? (h.get?_of_mem hs), if_pos hs]
  · rw [intern_of_get?_none (h.get?_of_not_mem hs), if_neg hs, Array.toList_push]

/-- The number interning hands out is the text's position in the list after it. -/
theorem Inverse.fst_intern : (t.intern s).1 = (t.intern s).2.texts.toList.idxOf s := by
  by_cases hs : s ∈ t.texts.toList
  · rw [intern_of_get? (h.get?_of_mem hs)]
  · rw [intern_of_get?_none (h.get?_of_not_mem hs), Array.toList_push,
      List.idxOf_append_of_notMem hs, List.idxOf_cons_self, Nat.add_zero, Array.length_toList]

/-- `get?` answers for exactly the texts of the list. -/
theorem Inverse.get?_eq_none_iff : t.get? s = none ↔ s ∉ t.texts.toList := by
  refine ⟨fun hg hs => ?_, h.get?_of_not_mem⟩
  rw [h.get?_of_mem hs] at hg
  cases hg

/-- What `get?` answers for a text of the list is the number interning it gives, and it answers
nothing for any other text. -/
theorem Inverse.get?_eq_intern_iff : t.get? s = some (t.intern s).1 ↔ s ∈ t.texts.toList := by
  by_cases hs : s ∈ t.texts.toList
  · rw [intern_of_get? (h.get?_of_mem hs)]
    exact ⟨fun _ => hs, fun _ => h.get?_of_mem hs⟩
  · rw [h.get?_of_not_mem hs]
    exact ⟨fun hg => (by cases hg), fun hm => absurd hm hs⟩

/-- Interning after a list of first appearances gives the first appearances with one more
text. -/
theorem Inverse.texts_intern_of_eq {M : List String} (hM : t.texts.toList = M.eraseDups) :
    (t.intern s).2.texts.toList = (M ++ [s]).eraseDups := by
  rw [h.texts_intern, List.eraseDups_append_singleton]
  simp only [hM, List.mem_eraseDups]

omit h

/-- A run of interning keeps the map and the list inverse, and puts the texts after the list in
order of first appearance: a list holding the first appearances in `M` ends up holding those
of `M ++ ss`. -/
theorem Inverse.texts_internAll (ss : List String) :
    ∀ {t : SymbolTable} {M : List String}, t.Inverse → t.texts.toList = M.eraseDups →
      (t.internAll ss).2.Inverse ∧ (t.internAll ss).2.texts.toList = (M ++ ss).eraseDups := by
  induction ss with
  | nil => intro t M h hM; exact ⟨h, by rw [List.append_nil]; exact hM⟩
  | cons s ss ih =>
    intro t M h hM
    have hsplit : M ++ s :: ss = (M ++ [s]) ++ ss := by simp
    rw [internAll_cons, hsplit]
    exact ih (h.intern s) (h.texts_intern_of_eq hM)

/-- Each text of a run is numbered by its position among the first appearances. -/
theorem Inverse.names_internAll (ss : List String) :
    ∀ {t : SymbolTable} {M : List String}, t.Inverse → t.texts.toList = M.eraseDups →
      (t.internAll ss).1 = ss.map fun s => (M ++ ss).eraseDups.idxOf s := by
  induction ss with
  | nil => intro t M _ _; rfl
  | cons s ss ih =>
    intro t M h hM
    have hstep := h.texts_intern_of_eq (s := s) hM
    -- the number of `s` is its position among the first appearances up to `s`, which the
    -- rest of the run only extends
    have hs : s ∈ (M ++ [s]).eraseDups := by simp
    have hsplit : M ++ s :: ss = (M ++ [s]) ++ ss := by simp
    have hfirst : (t.intern s).1 = (M ++ s :: ss).eraseDups.idxOf s := by
      rw [h.fst_intern, hstep, hsplit, @List.eraseDups_append String _ _ (M ++ [s]) ss,
        List.idxOf_append_of_mem hs]
    rw [internAll_cons, List.map_cons, hfirst, ih (h.intern s) hstep, hsplit]

/-- A number looks up to the text at its position in the list, and past the list to
`<unknown>`. -/
theorem lookup_eq_getD (t : SymbolTable) (k : Nat) :
    t.lookup k = t.texts.toList.getD k "<unknown>" := by
  rw [lookup, List.getD_eq_getElem?_getD, Array.getElem?_toList]

/-- From `new`, a run of interning leaves the map and the list inverse, with the list holding
the texts met in order of first appearance after the empty text, and numbers each text by its
position there. -/
theorem new_internAll (ss : List String) :
    (new.internAll ss).2.Inverse ∧ (new.internAll ss).2.texts.toList = ("" :: ss).eraseDups ∧
      (new.internAll ss).1 = ss.map fun s => ("" :: ss).eraseDups.idxOf s := by
  have hstart : new.texts.toList = [""].eraseDups := by
    rw [new_eq_default]
    rfl
  obtain ⟨hinv, htexts⟩ := Inverse.texts_internAll ss inverse_new hstart
  exact ⟨hinv, htexts, Inverse.names_internAll ss inverse_new hstart⟩

/-- The number of distinct texts of a list headed by the empty text is one more than the number
of distinct non-empty texts in the rest. -/
theorem length_eraseDups_empty_cons {ss : List String} (hnd : ("" :: ss).eraseDups.Nodup) :
    ("" :: ss).eraseDups.length = (ss.toFinset.erase "").card + 1 := by
  have hset : ("" :: ss).eraseDups.toFinset = insert "" ss.toFinset := by
    ext u
    simp
  rw [← List.toFinset_card_of_nodup hnd, hset,
    ← Finset.card_erase_add_one (Finset.mem_insert_self _ _),
    Finset.erase_insert_eq_erase]

/-- Each text of a run from `new` stands beside its position among the first appearances. -/
theorem mem_zip_internAll {ss : List String} {p : String × Nat}
    (hp : p ∈ ss.zip (new.internAll ss).1) :
    p.1 ∈ ("" :: ss).eraseDups ∧ p.2 = ("" :: ss).eraseDups.idxOf p.1 := by
  have hzip := List.zip_map' (f := id) (g := fun s => ("" :: ss).eraseDups.idxOf s) (l := ss)
  rw [List.map_id] at hzip
  rw [(new_internAll ss).2.2, hzip] at hp
  obtain ⟨a, ha, rfl⟩ := List.mem_map.1 hp
  exact ⟨by simp [ha], rfl⟩

/-- Each number a run from `new` hands out looks up to the text it was handed out for. -/
theorem lookup_of_mem_zip_internAll {ss : List String} {p : String × Nat}
    (hp : p ∈ ss.zip (new.internAll ss).1) : (new.internAll ss).2.lookup p.2 = p.1 := by
  obtain ⟨hinv, htexts, -⟩ := new_internAll ss
  obtain ⟨hmem, hnum⟩ := mem_zip_internAll hp
  rw [← htexts] at hmem hnum
  exact hinv.lookup_of_get? (hnum ▸ hinv.get?_of_mem hmem)

/-- Interning a run of texts from `new` numbers them densely in order of first appearance, the
empty text first as `0`.  The numbers handed out are the texts' positions among their first
appearances, so equal texts get equal numbers and distinct texts distinct ones; each number
looks up to its text, and a number never handed out to `<unknown>`; `get?` gives what interning
would give for exactly the texts met and the empty text, and nothing for any other; and the size
counts the distinct non-empty texts met, plus one for the empty text. -/
theorem internAll_numbering (ss : List String) :
    (new.internAll ss).1 = ss.map (fun s => ("" :: ss).eraseDups.idxOf s) ∧
    (∀ k, (new.internAll ss).2.lookup k = ("" :: ss).eraseDups.getD k "<unknown>") ∧
    (∀ p ∈ ss.zip (new.internAll ss).1, ∀ q ∈ ss.zip (new.internAll ss).1,
      p.2 = q.2 ↔ p.1 = q.1) ∧
    (∀ p ∈ ss.zip (new.internAll ss).1, (new.internAll ss).2.lookup p.2 = p.1) ∧
    (∀ s, (new.internAll ss).2.get? s = some ((new.internAll ss).2.intern s).1 ↔
      s ∈ "" :: ss) ∧
    (∀ s, (new.internAll ss).2.get? s = none ↔ s ∉ "" :: ss) ∧
    ((new.internAll ss).2.intern "").1 = 0 ∧
    (new.internAll ss).2.size = (ss.toFinset.erase "").card + 1 := by
  obtain ⟨hinv, htexts, hnames⟩ := new_internAll ss
  have hmem : ∀ s, s ∈ (new.internAll ss).2.texts.toList ↔ s ∈ "" :: ss := fun s => by
    rw [htexts, List.mem_eraseDups]
  -- numbers agree exactly when texts do: a number looks up to its text, and a text has one
  -- position among the first appearances
  have hsame : ∀ p ∈ ss.zip (new.internAll ss).1, ∀ q ∈ ss.zip (new.internAll ss).1,
      p.2 = q.2 ↔ p.1 = q.1 := fun p hp q hq => by
    constructor
    · intro heq
      rw [← lookup_of_mem_zip_internAll hp, ← lookup_of_mem_zip_internAll hq, heq]
    · intro heq
      rw [(mem_zip_internAll hp).2, (mem_zip_internAll hq).2, heq]
  have hempty : ((new.internAll ss).2.intern "").1 = 0 := by
    rw [intern_of_get? (hinv.get?_of_mem ((hmem "").2 List.mem_cons_self)), htexts,
      List.eraseDups_cons, List.idxOf_cons_self]
  have hsize : (new.internAll ss).2.size = (ss.toFinset.erase "").card + 1 := by
    rw [size, ← Array.length_toList, htexts]
    exact length_eraseDups_empty_cons (htexts ▸ hinv.nodup)
  exact ⟨hnames, fun k => by rw [lookup_eq_getD, htexts], hsame,
    fun _ hp => lookup_of_mem_zip_internAll hp, fun s => hinv.get?_eq_intern_iff.trans (hmem s),
    fun s => hinv.get?_eq_none_iff.trans (not_congr (hmem s)), hempty, hsize⟩

end SymbolTable

end TagML
