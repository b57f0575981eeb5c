import PrefixCalc.Reducer

/-! What a reducer has taken in since it was last emptied. -/
namespace PrefixCalc.Reducer

/-- A reducer together with the accepted tokens, the latest first. -/
structure Account where
  reducer : Reducer
  accepted : List String
  deriving DecidableEq, Repr

namespace Account

def empty : Account := ⟨Reducer.empty, []⟩

def recorded (accepted : List String) : Action → Answer → List String
  | .process token, .decided true => token :: accepted
  | .process _, _ => accepted
  | .clear, _ => []
  | .takeRoot, _ => []

def act (a : Account) (action : Action) : Account :=
  let s := (a.reducer.act action).value
  ⟨s.2, recorded a.accepted action s.1⟩

def after (actions : List Action) : Account := actions.foldl act empty

theorem after_concat (actions : List Action) (action : Action) :
    after (actions ++ [action]) = (after actions).act action := by simp [after]

/-- The account keeps the reducer that the actions lead to. -/
theorem reducer_foldl (actions : List Action) (a : Account) :
    (actions.foldl act a).reducer =
      actions.foldl (fun r action => (r.act action).value.2) a.reducer := by
  induction actions generalizing a with
  | nil => rfl
  | cons action actions ih => exact ih (a.act action)

end Account
end PrefixCalc.Reducer
