import PrefixCalc.Reducer
import PrefixCalc.Text.Blank

/-! Reading an expression from its tokens or from a text. The tokens go through a reducer from the
last to the first, so that operands arrive before the operator in front of them. -/
namespace PrefixCalc.Expr

def ofTokens (tokens : List String) : Logged (Except Fault Expr) := do
  let s ← Reducer.empty.acceptAll tokens.reverse
  if s.1 then
    match s.2.takeRoot.1 with
    | some e => return .ok e
    | none => return .error .format
  else return .error .format

/-- The expression that a list of tokens spells. -/
def parse? (tokens : List String) : Option Expr := (ofTokens tokens).value.toOption

def ofText (text : String) : Logged (Except Failure Expr) := do
  match ← ofTokens (Text.words text) with
  | .ok e =>
    Logged.emit (.built e.prefixText)
    return .ok e
  | .error fault => return .error ⟨.fault fault, [s!"could not build a tree from '{text}'"]⟩

theorem ofTokens_eq_ok_iff {tokens : List String} {e : Expr} :
    (ofTokens tokens).value = .ok e ↔ parse? tokens = some e := by
  rw [parse?]
  cases (ofTokens tokens).value <;> simp [Except.toOption]

end PrefixCalc.Expr
