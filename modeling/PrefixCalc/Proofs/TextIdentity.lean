import PrefixCalc.Proofs.RoundTrip

/-! The text in the manner of constructors and the text in prefix order each tell an expression from
all others, negative leaves included. In the former the name in front of a bracket says what was
applied, and the marks between the arguments end every numeral; in the latter the blanks do. -/
namespace PrefixCalc

namespace Operator

lemma name_injective {op op' : Operator} (h : op.name = op'.name) : op = op' := by
  cases op with
  | binary op =>
    cases op' with
    | binary op' => exact congrArg binary (BinaryOp.name_injective h)
    | negate => cases op <;> simp [name, BinaryOp.name] at h
  | negate =>
    cases op' with
    | binary op' => cases op' <;> simp [name, BinaryOp.name] at h
    | negate => rfl

lemma notMem_name (op : Operator) : '(' ∉ op.name.toList := by
  cases op with
  | binary op => cases op <;> decide
  | negate => decide

lemma exists_name_eq_cons (op : Operator) :
    ∃ c cs, op.name.toList = c :: cs ∧ c.isDigit = false ∧ c ≠ '-' := by
  cases op with
  | binary op => cases op <;> exact ⟨_, _, rfl, by decide, by decide⟩
  | negate => exact ⟨_, _, rfl, by decide, by decide⟩

/-- A name ends at the first bracket. -/
lemma name_append_inj {op op' : Operator} {cs cs' : List Char}
    (h : op.name.toList ++ '(' :: cs = op'.name.toList ++ '(' :: cs') : op = op' ∧ cs = cs' := by
  obtain ⟨hname, hrest⟩ := Text.append_mark_inj op.notMem_name op'.notMem_name h
  exact ⟨name_injective (String.toList_inj.1 hname), hrest⟩

lemma spelling_append_ne_name (n : Int) (op : Operator) (rest cs : List Char) :
    (Text.spelling n).toList ++ rest ≠ op.name.toList ++ cs := by
  obtain ⟨c, name, hname, hdigit, hminus⟩ := op.exists_name_eq_cons
  rw [hname, List.cons_append]
  exact Text.spelling_append_ne_cons hdigit hminus rest (name ++ cs)

end Operator

namespace Expr

lemma toList_constructorText_binary (op : BinaryOp) (l r : Expr) (rest : List Char) :
    (binary op l r).constructorText.toList ++ rest =
      (Operator.binary op).name.toList ++ '(' :: (l.constructorText.toList ++
        ',' :: ' ' :: (r.constructorText.toList ++ ')' :: rest)) := by
  simp [constructorText, Operator.name]

lemma toList_constructorText_negate (x : Expr) (rest : List Char) :
    (negate x).constructorText.toList ++ rest =
      Operator.negate.name.toList ++ '(' :: (x.constructorText.toList ++ ')' :: rest) := by
  simp [constructorText]

/-- Every text ends at a place of its own, as long as no digit follows. -/
theorem constructorText_append_inj {e e' : Expr} {rest rest' : List Char} (hr : Text.NoDigit rest)
    (hr' : Text.NoDigit rest')
    (h : e.constructorText.toList ++ rest = e'.constructorText.toList ++ rest') :
    e = e' ∧ rest = rest' := by
  induction e generalizing e' rest rest' with
  | operand v =>
    cases e' with
    | operand w =>
      obtain ⟨hvalue, hrest⟩ := Text.spelling_append_inj hr hr' h
      exact ⟨congrArg operand (Int32.toInt_inj.1 hvalue), hrest⟩
    | binary op l r =>
      rw [toList_constructorText_binary] at h
      exact absurd h (Operator.spelling_append_ne_name _ _ _ _)
    | negate x =>
      rw [toList_constructorText_negate] at h
      exact absurd h (Operator.spelling_append_ne_name _ _ _ _)
  | binary op l r ihl ihr =>
    rw [toList_constructorText_binary] at h
    cases e' with
    | operand w => exact absurd h.symm (Operator.spelling_append_ne_name _ _ _ _)
    | binary op' l' r' =>
      rw [toList_constructorText_binary] at h
      obtain ⟨hop, harguments⟩ := Operator.name_append_inj h
      have hcomma : ∀ cs, Text.NoDigit (',' :: cs) := fun cs => Text.noDigit_cons.2 rfl
      have hclose : ∀ cs, Text.NoDigit (')' :: cs) := fun cs => Text.noDigit_cons.2 rfl
      obtain ⟨hleft, hsecond⟩ := ihl (hcomma _) (hcomma _) harguments
      obtain ⟨hright, hend⟩ := ihr (hclose _) (hclose _) (List.cons.inj (List.cons.inj hsecond).2).2
      rw [Operator.binary.inj hop, hleft, hright]
      exact ⟨rfl, (List.cons.inj hend).2⟩
    | negate x =>
      rw [toList_constructorText_negate] at h
      exact absurd (Operator.name_append_inj h).1 Operator.noConfusion
  | negate x ih =>
    rw [toList_constructorText_negate] at h
    cases e' with
    | operand w => exact absurd h.symm (Operator.spelling_append_ne_name _ _ _ _)
    | binary op l r =>
      rw [toList_constructorText_binary] at h
      exact absurd (Operator.name_append_inj h).1 Operator.noConfusion
    | negate y =>
      rw [toList_constructorText_negate] at h
      have hclose : ∀ cs, Text.NoDigit (')' :: cs) := fun cs => Text.noDigit_cons.2 rfl
      obtain ⟨hpart, hend⟩ := ih (hclose _) (hclose _) (Operator.name_append_inj h).2
      rw [hpart]
      exact ⟨rfl, (List.cons.inj hend).2⟩

theorem constructorText_injective {e e' : Expr} (h : e.constructorText = e'.constructorText) :
    e = e' :=
  (constructorText_append_inj Text.noDigit_nil Text.noDigit_nil (by rw [h])).1

/-- The words of the text are the tokens, and these fix the expression, a negative leaf being one
token and a minus in front of a leaf another. -/
theorem prefixText_injective {e e' : Expr} (h : e.prefixText = e'.prefixText) : e = e' := by
  apply tokens_injective
  rw [← words_prefixText, h, words_prefixText]

/-- No two expressions share either text. -/
theorem texts_tell_apart (e e' : Expr) :
    (e.constructorText = e'.constructorText ↔ e = e') ∧ (e.prefixText = e'.prefixText ↔ e = e') := by
  constructor
  · exact ⟨constructorText_injective, congrArg constructorText⟩
  · exact ⟨prefixText_injective, congrArg prefixText⟩

/-- A minus, a negative leaf, and the least word. -/
example : (binary .sub (operand (-5)) (operand (-2147483648))).prefixText = "- -5 -2147483648" ∧
    (binary .sub (operand (-5)) (operand (-2147483648))).constructorText =
      "Subtract(-5, -2147483648)" := by
  decide +kernel

end Expr
end PrefixCalc
