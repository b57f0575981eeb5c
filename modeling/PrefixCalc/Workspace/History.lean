import PrefixCalc.Workspace

/-! A workspace told by the actions on it: what was installed, what was saved, and which expressions
were evaluated on words. -/
namespace PrefixCalc.Workspace

/-- The expression that an action puts in the place of the current one. -/
def Action.installed? : Action → Option Expr
  | replace text => (Expr.ofText text).value.toOption
  | _ => none

variable {β : Type}

/-- The workspace after actions on a new one. -/
def after (kit : Assembly.Kit β) (actions : List Action) : Workspace :=
  actions.foldl (fun w action => (w.act kit action).value.2) empty

/-- The expression was installed, and later nothing was cleared and no other one installed. -/
def Installed (actions : List Action) (e : Expr) : Prop :=
  ∃ before action later, actions = before ++ action :: later ∧ action.installed? = some e ∧
    ∀ a ∈ later, a ≠ .clear ∧ a.installed? = none

/-- The expression that an action evaluates on words. -/
def evaluated? (w : Workspace) (action : Action) : Option Expr :=
  if action = .print PrintMode.integer.letter then w.current else none

/-- The expressions that were evaluated on words, each as it was current then. -/
def evaluated (kit : Assembly.Kit β) (actions : List Action) : List Expr :=
  (List.range actions.length).filterMap fun i =>
    actions[i]?.bind (after kit (actions.take i)).evaluated?

variable (kit : Assembly.Kit β)

@[simp] theorem after_nil : after kit [] = empty := rfl

theorem after_concat (actions : List Action) (action : Action) :
    after kit (actions ++ [action]) = ((after kit actions).act kit action).value.2 := by
  simp [after]

end PrefixCalc.Workspace
