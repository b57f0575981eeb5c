/-! The range of signed 32-bit words. -/
namespace PrefixCalc

def leastWord : Int := -2147483648
def greatestWord : Int := 2147483647

def IsWord (n : Int) : Prop := leastWord ≤ n ∧ n ≤ greatestWord

instance : DecidablePred IsWord := fun _ => inferInstanceAs (Decidable (_ ∧ _))

theorem isWord_toInt (v : Int32) : IsWord v.toInt := by
  have h := v.le_toInt
  have h' := v.toInt_lt
  unfold IsWord leastWord greatestWord
  omega

theorem toInt_ofInt_of_isWord {n : Int} (h : IsWord n) : (Int32.ofInt n).toInt = n := by
  unfold IsWord leastWord greatestWord at h
  apply Int32.toInt_ofInt_of_le <;> omega

/-- The word with this value, if there is one. -/
def wordOf? (n : Int) : Option Int32 := if IsWord n then some (Int32.ofInt n) else none

theorem wordOf?_eq_some_iff {n : Int} {v : Int32} : wordOf? n = some v ↔ v.toInt = n := by
  constructor
  · intro h
    obtain ⟨hn, hv⟩ := Option.ite_none_right_eq_some.1 h
    rw [← Option.some.inj hv, toInt_ofInt_of_isWord hn]
  · rintro rfl
    exact (if_pos (isWord_toInt v)).trans (congrArg some (Int32.ofInt_toInt v))

theorem wordOf?_eq_none_iff {n : Int} : wordOf? n = none ↔ ¬ IsWord n := by simp [wordOf?]

theorem nonneg_iff_toInt_nonneg {v : Int32} : 0 ≤ v ↔ 0 ≤ v.toInt := by
  rw [Int32.le_iff_toInt_le, Int32.toInt_zero]

/-- Negation of a word; the least word is its own negation. -/
def negateWrapping (x : Int32) : Int32 := -x

theorem toInt_negateWrapping (v : Int32) :
    (negateWrapping v).toInt = if v.toInt = leastWord then leastWord else -v.toInt := by
  have h := v.le_toInt
  have h' := v.toInt_lt
  rw [negateWrapping, Int32.toInt_neg]
  unfold leastWord
  split
  · rename_i hv
    rw [hv]
    decide
  · exact Int.bmod_eq_of_le (by omega) (by omega)

end PrefixCalc
