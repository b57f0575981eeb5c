/-! Round brackets in a text: what is left without them, and whether they match. -/
namespace PrefixCalc.Text

def isBracket (c : Char) : Bool := c = '(' || c = ')'

def withoutBrackets (cs : List Char) : List Char := cs.filter fun c => !isBracket c

/-- How many brackets are open after a text that began with this many; nothing where one more was
closed than opened. -/
def openAfter : Nat → List Char → Option Nat
  | n, [] => some n
  | n, c :: cs =>
    if c = '(' then openAfter (n + 1) cs
    else if c = ')' then
      match n with
      | 0 => none
      | n + 1 => openAfter n cs
    else openAfter n cs

def Balanced (cs : List Char) : Prop := openAfter 0 cs = some 0

instance : DecidablePred Balanced := fun _ => inferInstanceAs (Decidable (_ = _))

/-- The first text is the second one with some of its brackets left out. -/
inductive Thinned : List Char → List Char → Prop
  | nil : Thinned [] []
  | keep (c : Char) {a b : List Char} (rest : Thinned a b) : Thinned (c :: a) (c :: b)
  | drop {c : Char} {a b : List Char} (bracket : isBracket c = true) (rest : Thinned a b) :
      Thinned a (c :: b)

theorem openAfter_open (n : Nat) (cs : List Char) :
    openAfter n ('(' :: cs) = openAfter (n + 1) cs := by cases n <;> simp [openAfter]

theorem openAfter_close (n : Nat) (cs : List Char) :
    openAfter (n + 1) (')' :: cs) = openAfter n cs := by simp [openAfter]

theorem openAfter_cons_of_not_bracket {c : Char} (h : isBracket c = false) (n : Nat)
    (cs : List Char) : openAfter n (c :: cs) = openAfter n cs := by
  simp only [isBracket, Bool.or_eq_false_iff, decide_eq_false_iff_not] at h
  cases n <;> simp [openAfter, h.1, h.2]

theorem openAfter_append (n : Nat) (a b : List Char) :
    openAfter n (a ++ b) = (openAfter n a).bind fun m => openAfter m b := by
  induction a generalizing n with
  | nil => rfl
  | cons c a ih =>
    by_cases ho : c = '('
    · subst ho
      simp [openAfter_open, ih]
    by_cases hc : c = ')'
    · subst hc
      cases n with
      | zero => simp [openAfter]
      | succ n => simp [openAfter_close, ih]
    · have h : isBracket c = false := by simp [isBracket, ho, hc]
      simp [openAfter_cons_of_not_bracket h, ih]

end PrefixCalc.Text
