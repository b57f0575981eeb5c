import PrefixCalc.Expr.Printing
import PrefixCalc.Expr.Reading

/-! A current expression that may be missing, a saved copy of it, and one growing list of faults
that all prints share. -/
namespace PrefixCalc

structure Workspace where
  current : Option Expr
  saved : Option Expr
  reports : List Fault
  deriving DecidableEq, Repr

namespace Workspace

def empty : Workspace := ⟨none, none, []⟩

inductive Action where
  | replace (text : String)
  | clear
  | save
  | compare
  | print (letter : String)
  deriving DecidableEq, Repr

inductive Answer where
  | done
  | failed (failure : Failure)
  | unknownMode (fault : Fault)
  | same (equal : Bool)
  | printed (text : Option String)
  deriving DecidableEq, Repr

def Answer.ofPrint : Except Failure (Option String) → Answer
  | .ok text => printed text
  | .error failure => failed failure

variable {β : Type}

/-- A text that spells no expression, an unknown letter and every print leave the current
expression as it was. -/
def act (kit : Assembly.Kit β) (w : Workspace) : Action → Logged (Answer × Workspace)
  | .replace text => do
    match ← Expr.ofText text with
    | .ok e => return (.done, { w with current := some e })
    | .error failure => return (.failed failure, w)
  | .clear => return (.done, { w with current := none })
  | .save => return (.done, { w with saved := w.current })
  | .compare => return (.same (w.current = w.saved), w)
  | .print letter =>
    match PrintMode.ofLetter letter with
    | .error fault => return (.unknownMode fault, w)
    | .ok mode => do
      let printout ← Expr.printCurrent kit w.current mode w.reports
      return (.ofPrint printout.text, { w with reports := printout.reports })

/-- Every answer with the workspace after it. -/
def perform (kit : Assembly.Kit β) (w : Workspace) :
    List Action → Logged (List (Answer × Workspace))
  | [] => return []
  | action :: actions => do
    let s ← w.act kit action
    let rest ← s.2.perform kit actions
    return s :: rest

end Workspace
end PrefixCalc
