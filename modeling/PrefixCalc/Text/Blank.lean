/-! Blank characters, and the words of a text: its longest runs of characters that are not blank. -/
namespace PrefixCalc.Text

/-- The code points with the Unicode property White_Space, as closed ranges. -/
def blankRanges : List (Nat × Nat) :=
  [(0x0009, 0x000D), (0x0020, 0x0020), (0x0085, 0x0085), (0x00A0, 0x00A0), (0x1680, 0x1680),
   (0x2000, 0x200A), (0x2028, 0x2029), (0x202F, 0x202F), (0x205F, 0x205F), (0x3000, 0x3000)]

def isBlank (c : Char) : Bool :=
  blankRanges.any fun range => range.1 ≤ c.toNat && c.toNat ≤ range.2

theorem isBlank_eq_false_of_graph {c : Char} (h : 0x21 ≤ c.toNat) (h' : c.toNat ≤ 0x7E) :
    isBlank c = false := by
  simp only [isBlank, blankRanges, List.any_cons, List.any_nil, Bool.or_false, Bool.or_eq_false_iff,
    Bool.and_eq_false_iff, decide_eq_false_iff_not]
  omega

/-- Puts a word in front of others unless it is empty. -/
def flush (word : List Char) (words : List (List Char)) : List (List Char) :=
  if word.isEmpty then words else word :: words

/-- The run of characters up to the first blank, and the words after that blank. -/
def scan (cs : List Char) : List Char × List (List Char) :=
  cs.foldr (fun c s => if isBlank c then ([], flush s.1 s.2) else (c :: s.1, s.2)) ([], [])

def wordsOf (cs : List Char) : List (List Char) := flush (scan cs).1 (scan cs).2

def words (s : String) : List String :=
  let (first, rest) := scan s.toList
  (flush first rest).map String.ofList

theorem words_eq (s : String) : words s = (wordsOf s.toList).map String.ofList := rfl

@[simp] theorem flush_nil (words : List (List Char)) : flush [] words = words := rfl
@[simp] theorem flush_cons (c : Char) (cs : List Char) (words : List (List Char)) :
    flush (c :: cs) words = (c :: cs) :: words := rfl

@[simp] theorem scan_nil : scan [] = ([], []) := rfl

theorem scan_cons_of_blank {c : Char} (h : isBlank c = true) (cs : List Char) :
    scan (c :: cs) = ([], wordsOf cs) := by simp [scan, wordsOf, h]

theorem scan_cons_of_not_blank {c : Char} (h : isBlank c = false) (cs : List Char) :
    scan (c :: cs) = (c :: (scan cs).1, (scan cs).2) := by simp [scan, h]

@[simp] theorem wordsOf_nil : wordsOf [] = [] := rfl

theorem wordsOf_cons_of_blank {c : Char} (h : isBlank c = true) (cs : List Char) :
    wordsOf (c :: cs) = wordsOf cs := by simp [wordsOf, scan_cons_of_blank h]

theorem wordsOf_cons_of_not_blank {c : Char} (h : isBlank c = false) (cs : List Char) :
    wordsOf (c :: cs) = (c :: (scan cs).1) :: (scan cs).2 := by
  simp [wordsOf, scan_cons_of_not_blank h]

theorem flush_append (word : List Char) (a b : List (List Char)) :
    flush word (a ++ b) = flush word a ++ b := by cases word <;> rfl

/-- No word reaches over a blank. -/
theorem scan_around_blank {b : Char} (hb : isBlank b = true) (a cs : List Char) :
    scan (a ++ b :: cs) = ((scan a).1, (scan a).2 ++ wordsOf cs) := by
  induction a with
  | nil => exact scan_cons_of_blank hb cs
  | cons c a ih =>
    cases hc : isBlank c with
    | false => simp [scan_cons_of_not_blank hc, ih]
    | true => simp [scan_cons_of_blank hc, wordsOf, ih, flush_append]

theorem wordsOf_around_blank {b : Char} (hb : isBlank b = true) (a cs : List Char) :
    wordsOf (a ++ b :: cs) = wordsOf a ++ wordsOf cs := by
  rw [wordsOf, scan_around_blank hb, flush_append, ← wordsOf]

theorem scan_of_not_blank {w : List Char} (hw : ∀ c ∈ w, isBlank c = false) : scan w = (w, []) := by
  induction w with
  | nil => rfl
  | cons c w ih =>
    have := ih fun d hd => hw d (List.mem_cons_of_mem c hd)
    simp [scan_cons_of_not_blank (hw c List.mem_cons_self), this]

theorem wordsOf_of_not_blank {w : List Char} (hw : ∀ c ∈ w, isBlank c = false) (hne : w ≠ []) :
    wordsOf w = [w] := by
  obtain ⟨c, w, rfl⟩ := List.exists_cons_of_ne_nil hne
  rw [wordsOf, scan_of_not_blank hw, flush_cons]

theorem wordsOf_append_blank {w : List Char} (hw : ∀ c ∈ w, isBlank c = false) (hne : w ≠ [])
    {b : Char} (hb : isBlank b = true) (cs : List Char) :
    wordsOf (w ++ b :: cs) = w :: wordsOf cs := by
  rw [wordsOf_around_blank hb, wordsOf_of_not_blank hw hne, List.singleton_append]

/-- A text without blanks at either end. -/
def trimmed (cs : List Char) : List Char :=
  ((cs.dropWhile isBlank).reverse.dropWhile isBlank).reverse

def trim (s : String) : String := String.ofList (trimmed s.toList)

end PrefixCalc.Text
