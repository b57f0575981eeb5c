import PrefixCalc.Expr.Evaluation
import PrefixCalc.Expr.Infix
import PrefixCalc.FixedPoint

/-! The four ways of printing an expression. Only the integer way can report faults, and then it
has no text. Only the infix ways can fail, and then the builder of their texts has failed. -/
namespace PrefixCalc

inductive PrintMode where
  | integer | double | full | minimal
  deriving DecidableEq, Repr

namespace PrintMode

def all : List PrintMode := [integer, double, full, minimal]

def letter : PrintMode → String
  | integer => "i"
  | double => "d"
  | full => "p"
  | minimal => "P"

def ofLetter (text : String) : Except Fault PrintMode :=
  match all.find? (·.letter = text) with
  | some mode => .ok mode
  | none => .error .format

theorem ofLetter_letter (mode : PrintMode) : ofLetter mode.letter = .ok mode := by
  cases mode <;> rfl

theorem ofLetter_eq_ok_iff {text : String} {mode : PrintMode} :
    ofLetter text = .ok mode ↔ text = mode.letter := by
  constructor
  · intro h
    unfold ofLetter at h
    split at h
    · rename_i m hm
      obtain rfl := Except.ok.inj h
      simpa [eq_comm] using List.find?_some hm
    · simp at h
  · rintro rfl
    exact ofLetter_letter mode

end PrintMode

/-- The text of a print, or why it failed, with all faults reported so far. -/
structure Printout where
  text : Except Failure (Option String)
  reports : List Fault

namespace Expr

variable {β : Type}

def print (kit : Assembly.Kit β) (e : Expr) (reports : List Fault) : PrintMode → Logged Printout
  | .integer => do
    let r ← e.evaluate reports
    return ⟨.ok (r.1.map fun v => Text.spelling v.toInt), r.2⟩
  | .double => return ⟨.ok (some (FixedPoint.ofFloat e.double)), reports⟩
  | .full => return ⟨(e.renderFull kit).map some, reports⟩
  | .minimal => return ⟨(e.renderMinimal kit).map some, reports⟩

/-- Prints an expression that may be missing. -/
def printCurrent (kit : Assembly.Kit β) (current : Option Expr) (mode : PrintMode)
    (reports : List Fault) : Logged Printout :=
  match current with
  | some e => e.print kit reports mode
  | none => return ⟨.error ⟨.fault .missing, []⟩, reports⟩

section Lawful

variable {kit : Assembly.Kit β} (lawful : kit.Lawful) (e : Expr) (reports : List Fault)
include lawful

theorem value_print_full :
    (e.print kit reports .full).value = ⟨.ok (some e.fullText), reports⟩ := by
  simp [print, renderFull_eq lawful, Except.map]

theorem value_print_minimal :
    (e.print kit reports .minimal).value = ⟨.ok (some e.minimalText), reports⟩ := by
  simp [print, renderMinimal_eq lawful, Except.map]

/-- Printing an expression cannot fail but by the builder. -/
theorem exists_text_print (mode : PrintMode) :
    ∃ text, (e.print kit reports mode).value.text = .ok text := by
  cases mode with
  | integer | double => exact ⟨_, rfl⟩
  | full => exact ⟨_, congrArg Printout.text (value_print_full lawful e reports)⟩
  | minimal => exact ⟨_, congrArg Printout.text (value_print_minimal lawful e reports)⟩

end Lawful

end Expr
end PrefixCalc
