import PrefixCalc.Expr.Basic
import PrefixCalc.Text.Assembly

/-! Infix text of an expression, once with brackets around every operation and once with few. The
few are kept by a local rule on an operator and the operand under it, so a quotient of quotients
or a difference of differences may read back with another shape. An expression hands its text to a
builder piece by piece, and what the pieces come to is told by recursion. -/
namespace PrefixCalc.Expr
open Assembly (Kit)

/-- Under a product or quotient only a number or an operation of the same kind stands bare. -/
def barePart (op : BinaryOp) (part : Expr) : Bool := part.isOperand || part.isBinary op

def wrapsLeft (op : BinaryOp) (left : Expr) : Bool :=
  match op with
  | .add | .sub => false
  | .mul | .div => !barePart op left

/-- A sum keeps its brackets behind a minus; a difference does not. -/
def wrapsRight (op : BinaryOp) (right : Expr) : Bool :=
  match op with
  | .add => false
  | .sub => right.isBinary .add
  | .mul | .div => !barePart op right

def wrapsNegated (part : Expr) : Bool := !(part.isOperand || part.isNegation)

section Renderers

variable {β : Type}

/-- Appends an expression with brackets around every operation. -/
def writeFull (kit : Kit β) : Expr → β → β
  | operand v, b => kit.append b (Text.spelling v.toInt)
  | binary op l r, b =>
    let b := l.writeFull kit (kit.append b "(")
    let b := r.writeFull kit (kit.append b op.symbol)
    kit.append b ")"
  | negate x, b =>
    let b := kit.append (kit.append b "(") Operator.negate.symbol
    kit.append (x.writeFull kit b) ")"

/-- Appends brackets around what is written, if there should be any. -/
def writeBracketIf (kit : Kit β) (wrap : Bool) (write : β → β) (b : β) : β :=
  let b := write (if wrap then kit.append b "(" else b)
  if wrap then kit.append b ")" else b

def writeMinimal (kit : Kit β) : Expr → β → β
  | operand v, b => kit.append b (Text.spelling v.toInt)
  | binary op l r, b =>
    let b := writeBracketIf kit (wrapsLeft op l) (l.writeMinimal kit) b
    writeBracketIf kit (wrapsRight op r) (r.writeMinimal kit) (kit.append b op.symbol)
  | negate x, b =>
    writeBracketIf kit (wrapsNegated x) (x.writeMinimal kit)
      (kit.append b Operator.negate.symbol)

def renderFull (kit : Kit β) (e : Expr) : Except Failure String :=
  kit.finish "Failed to build fully parenthesized expression" (e.writeFull kit kit.start)

def renderMinimal (kit : Kit β) (e : Expr) : Except Failure String :=
  kit.finish "Failed to build minimally parenthesized expression" (e.writeMinimal kit kit.start)

end Renderers

def bracketed (text : String) : String := "(" ++ text ++ ")"

def bracketIf (wrap : Bool) (text : String) : String := if wrap then bracketed text else text

@[simp] theorem bracketIf_true (text : String) : bracketIf true text = bracketed text := rfl
@[simp] theorem bracketIf_false (text : String) : bracketIf false text = text := rfl

/-- All that is appended to the builder with brackets around every operation. -/
def fullText : Expr → String
  | operand v => Text.spelling v.toInt
  | binary op l r => bracketed (l.fullText ++ op.symbol ++ r.fullText)
  | negate x => bracketed (Operator.negate.symbol ++ x.fullText)

/-- All that is appended to the builder with few brackets. -/
def minimalText : Expr → String
  | operand v => Text.spelling v.toInt
  | binary op l r =>
    bracketIf (wrapsLeft op l) l.minimalText ++ op.symbol ++ bracketIf (wrapsRight op r) r.minimalText
  | negate x => Operator.negate.symbol ++ bracketIf (wrapsNegated x) x.minimalText

section Renderers

variable {β : Type} {kit : Kit β}

theorem appends_bracketIf {write : β → β} {text : String} (h : kit.Appends write text)
    (wrap : Bool) : kit.Appends (writeBracketIf kit wrap write) (bracketIf wrap text) := by
  cases wrap with
  | false => exact h
  | true => exact ((Kit.Appends.piece kit "(").comp h).comp (.piece kit ")")

theorem appends_full (kit : Kit β) (e : Expr) : kit.Appends (e.writeFull kit) e.fullText := by
  induction e with
  | operand v => exact .piece kit _
  | binary op l r ihl ihr =>
    exact appends_bracketIf ((ihl.comp (.piece kit op.symbol)).comp ihr) true
  | negate x ih =>
    exact appends_bracketIf ((Kit.Appends.piece kit Operator.negate.symbol).comp ih) true

theorem appends_minimal (kit : Kit β) (e : Expr) :
    kit.Appends (e.writeMinimal kit) e.minimalText := by
  induction e with
  | operand v => exact .piece kit _
  | binary op l r ihl ihr =>
    have hleft := (appends_bracketIf ihl (wrapsLeft op l)).comp (.piece kit op.symbol)
    exact hleft.comp (appends_bracketIf ihr (wrapsRight op r))
  | negate x ih =>
    have hsign := Kit.Appends.piece kit Operator.negate.symbol
    exact hsign.comp (appends_bracketIf ih (wrapsNegated x))

/-- The builder gives a text for every expression, and this is the one. -/
theorem renderFull_eq (lawful : kit.Lawful) (e : Expr) : e.renderFull kit = .ok e.fullText :=
  lawful.finish_eq (appends_full kit e) _

theorem renderMinimal_eq (lawful : kit.Lawful) (e : Expr) :
    e.renderMinimal kit = .ok e.minimalText := lawful.finish_eq (appends_minimal kit e) _

end Renderers

theorem toList_bracketed (text : String) :
    (bracketed text).toList = '(' :: (text.toList ++ [')']) := by simp [bracketed]

/-- What holds of numerals and signs, and is kept by joining texts and by bracketing one, holds of
both infix texts. -/
theorem infixTexts_induction {holds : String → Prop} (hspelling : ∀ n, holds (Text.spelling n))
    (hsymbol : ∀ op : Operator, holds op.symbol)
    (happend : ∀ {a b}, holds a → holds b → holds (a ++ b))
    (hbracketed : ∀ {a}, holds a → holds (bracketed a)) (e : Expr) :
    holds e.fullText ∧ holds e.minimalText := by
  have hbracketIf : ∀ wrap {a}, holds a → holds (bracketIf wrap a) := by
    intro wrap a ha
    cases wrap with
    | false => exact ha
    | true => exact hbracketed ha
  induction e with
  | operand v => exact ⟨hspelling _, hspelling _⟩
  | binary op l r ihl ihr =>
    have hop : holds op.symbol := hsymbol (.binary op)
    exact ⟨hbracketed (happend (happend ihl.1 hop) ihr.1),
      happend (happend (hbracketIf _ ihl.2) hop) (hbracketIf _ ihr.2)⟩
  | negate x ih =>
    exact ⟨hbracketed (happend (hsymbol .negate) ih.1),
      happend (hsymbol .negate) (hbracketIf _ ih.2)⟩

end PrefixCalc.Expr
