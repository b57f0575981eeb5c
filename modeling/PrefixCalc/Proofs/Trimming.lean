import Mathlib.Data.List.TakeWhile
import Mathlib.Tactic.Lemma
import PrefixCalc.Session.Basic

/-! Blanks around a text do not change its words, and a line that begins with the word `=` is told
by its words alone to define an expression or to be malformed. -/
namespace PrefixCalc
namespace Text

lemma wordsOf_blank_append {bs : List Char} (hb : ∀ c ∈ bs, isBlank c = true) (cs : List Char) :
    wordsOf (bs ++ cs) = wordsOf cs := by
  induction bs with
  | nil => rfl
  | cons b bs ih =>
    rw [List.cons_append, wordsOf_cons_of_blank (hb b List.mem_cons_self)]
    exact ih fun c hc => hb c (List.mem_cons_of_mem b hc)

lemma wordsOf_of_blank {bs : List Char} (hb : ∀ c ∈ bs, isBlank c = true) : wordsOf bs = [] := by
  simpa using wordsOf_blank_append hb []

lemma scan_of_blank {bs : List Char} (hb : ∀ c ∈ bs, isBlank c = true) : scan bs = ([], []) := by
  cases bs with
  | nil => rfl
  | cons b bs =>
    rw [scan_cons_of_blank (hb b List.mem_cons_self),
      wordsOf_of_blank fun c hc => hb c (List.mem_cons_of_mem b hc)]

lemma wordsOf_append_of_blank {bs : List Char} (hb : ∀ c ∈ bs, isBlank c = true) (cs : List Char) :
    wordsOf (cs ++ bs) = wordsOf cs := by
  have hscan : scan (cs ++ bs) = scan cs := by
    have hbs := scan_of_blank hb
    unfold scan at *
    rw [List.foldr_append, hbs]
  rw [wordsOf, hscan, wordsOf]

lemma wordsOf_eq_nil_iff {cs : List Char} : wordsOf cs = [] ↔ ∀ c ∈ cs, isBlank c = true := by
  constructor
  · intro h c hc
    induction cs with
    | nil => simp at hc
    | cons d cs ih =>
      cases hd : isBlank d with
      | false => simp [wordsOf_cons_of_not_blank hd] at h
      | true =>
        rw [wordsOf_cons_of_blank hd] at h
        rcases List.mem_cons.1 hc with rfl | hc
        · exact hd
        · exact ih h hc
  · exact wordsOf_of_blank

/-- Trimming takes blanks away, in front and behind, and nothing else. -/
lemma exists_trimmed (cs : List Char) : ∃ pre post, cs = pre ++ (trimmed cs ++ post) ∧
    (∀ c ∈ pre, isBlank c = true) ∧ ∀ c ∈ post, isBlank c = true := by
  refine ⟨cs.takeWhile isBlank, ((cs.dropWhile isBlank).reverse.takeWhile isBlank).reverse,
    ?_, ?_, ?_⟩
  · rw [trimmed, ← List.reverse_append, List.takeWhile_append_dropWhile, List.reverse_reverse,
      List.takeWhile_append_dropWhile]
  · exact fun c hc => List.mem_takeWhile_imp hc
  · exact fun c hc => List.mem_takeWhile_imp (List.mem_reverse.1 hc)

lemma not_blank_of_dropWhile_eq_cons {cs w : List Char} {c : Char}
    (h : cs.dropWhile isBlank = c :: w) : isBlank c = false := by
  have hhead := List.head?_dropWhile_not isBlank cs
  rw [h] at hhead
  simpa using hhead

lemma not_blank_of_trimmed_eq_cons {cs w : List Char} {c : Char} (h : trimmed cs = c :: w) :
    isBlank c = false := by
  have hprefix : trimmed cs <+: cs.dropWhile isBlank :=
    List.reverse_suffix.1 (by simpa [trimmed] using List.dropWhile_suffix isBlank)
  obtain ⟨post, hpost⟩ := hprefix
  rw [h, List.cons_append] at hpost
  exact not_blank_of_dropWhile_eq_cons hpost.symm

lemma not_blank_of_trimmed_eq_concat {cs w : List Char} {c : Char} (h : trimmed cs = w ++ [c]) :
    isBlank c = false := by
  have hreverse : (cs.dropWhile isBlank).reverse.dropWhile isBlank = c :: w.reverse := by
    rw [← List.reverse_reverse (List.dropWhile _ _), ← trimmed, h]
    simp
  exact not_blank_of_dropWhile_eq_cons hreverse

/-- A trimmed text does not end in blanks only. -/
lemma wordsOf_ne_nil_of_trimmed_eq_append {cs u v : List Char} (h : trimmed cs = u ++ v)
    (hv : v ≠ []) : wordsOf v ≠ [] := by
  obtain ⟨w, c, rfl⟩ := (List.eq_nil_or_concat v).resolve_left hv
  rw [List.concat_eq_append, ← List.append_assoc] at h
  have hc := not_blank_of_trimmed_eq_concat h
  intro hblank
  have := wordsOf_eq_nil_iff.1 hblank c (by simp)
  simp [hc] at this

theorem wordsOf_trimmed (cs : List Char) : wordsOf (trimmed cs) = wordsOf cs := by
  obtain ⟨pre, post, hcs, hpre, hpost⟩ := exists_trimmed cs
  have h : wordsOf cs = wordsOf (pre ++ (trimmed cs ++ post)) := congrArg wordsOf hcs
  rw [h, wordsOf_blank_append hpre, wordsOf_append_of_blank hpost]

theorem words_trim (s : String) : words (trim s) = words s := by
  simp [words_eq, trim, wordsOf_trimmed]

/-- What is scanned first ends with the text or with a blank. -/
lemma scan_cases (cs : List Char) :
    (cs = (scan cs).1 ∧ (scan cs).2 = []) ∨
      ∃ b rest, isBlank b = true ∧ cs = (scan cs).1 ++ b :: rest ∧ (scan cs).2 = wordsOf rest := by
  induction cs with
  | nil => exact .inl ⟨rfl, rfl⟩
  | cons c cs ih =>
    cases hc : isBlank c with
    | true => exact .inr ⟨c, cs, hc, by simp [scan_cons_of_blank hc]⟩
    | false =>
      rw [scan_cons_of_not_blank hc]
      obtain ⟨hcs, hws⟩ | ⟨b, rest, hb, hcs, hws⟩ := ih
      · exact .inl ⟨congrArg (c :: ·) hcs, hws⟩
      · exact .inr ⟨b, rest, hb, congrArg (c :: ·) hcs, hws⟩

/-- A trimmed text is its first word alone, or that word, a blank and the other words. -/
theorem trimmed_cases {cs w : List Char} {ws : List (List Char)}
    (h : wordsOf (trimmed cs) = w :: ws) :
    (ws = [] ∧ trimmed cs = w) ∨
      (ws ≠ [] ∧ ∃ b rest, isBlank b = true ∧ trimmed cs = w ++ b :: rest ∧ wordsOf rest = ws) := by
  have hscan : scan (trimmed cs) = (w, ws) := by
    cases htrim : trimmed cs with
    | nil => simp [htrim] at h
    | cons c t =>
      have hc := not_blank_of_trimmed_eq_cons htrim
      rw [htrim, wordsOf_cons_of_not_blank hc] at h
      obtain ⟨rfl, rfl⟩ := List.cons.inj h
      exact scan_cons_of_not_blank hc t
  have hcases := scan_cases (trimmed cs)
  rw [hscan] at hcases
  obtain ⟨hcs, hws⟩ | ⟨b, rest, hb, hcs, hws⟩ := hcases
  · exact .inl ⟨hws, hcs⟩
  · have hne := wordsOf_ne_nil_of_trimmed_eq_append hcs (List.cons_ne_nil b rest)
    rw [wordsOf_cons_of_blank hb, ← hws] at hne
    exact .inr ⟨hne, b, rest, hb, hcs, hws.symm⟩

/-- A blank after a word ends it. -/
lemma words_append_blank {w : List Char} (hw : ∀ c ∈ w, isBlank c = false) (hne : w ≠ [])
    {b : Char} (hb : isBlank b = true) (s : String) :
    words (String.ofList (w ++ [b]) ++ s) = String.ofList w :: words s := by
  simp [words_eq, wordsOf_append_blank hw hne hb]

end Text

namespace Command

lemma ofTrimmed_equals_blank {b : Char} (hb : Text.isBlank b = true) (cs : List Char) :
    ofTrimmed (String.ofList ('=' :: b :: cs)) = .define (String.ofList (b :: cs)) := by
  have hempty : String.ofList ('=' :: b :: cs) ≠ "" := by simp
  have hend : String.ofList ('=' :: b :: cs) ≠ "end" := by
    intro h
    simpa using congrArg String.toList h
  rw [ofTrimmed, if_neg hempty, if_neg hend, String.toList_ofList]
  exact if_pos hb

/-- A line whose first word is `=` defines what its other words spell, if it has any. -/
theorem ofLine_of_words_eq_cons {line : String} {tokens : List String}
    (h : Text.words line = "=" :: tokens) :
    (tokens = [] ∧ ofLine line = .unknown) ∨
      (tokens ≠ [] ∧ ∃ text, ofLine line = .define text ∧ Text.words text = tokens) := by
  rw [← Text.words_trim, Text.words_eq, Text.trim, String.toList_ofList] at h
  obtain ⟨w, ws, hwords, hw, rfl⟩ := List.map_eq_cons_iff.1 h
  obtain rfl : w = ['='] := by simpa using congrArg String.toList hw
  obtain ⟨rfl, htrim⟩ | ⟨hne, b, rest, hb, htrim, hrest⟩ := Text.trimmed_cases hwords
  · refine .inl ⟨rfl, ?_⟩
    rw [ofLine, Text.trim, htrim]
    decide
  · refine .inr ⟨by simpa using hne, String.ofList (b :: rest), ?_, ?_⟩
    · rw [ofLine, Text.trim, htrim]
      exact ofTrimmed_equals_blank hb rest
    · rw [Text.words_eq, String.toList_ofList, Text.wordsOf_cons_of_blank hb, hrest]

end Command
end PrefixCalc
