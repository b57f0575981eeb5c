import PrefixCalc.Expr.Basic
import PrefixCalc.Text.Lines

/-! An expression drawn as a tree. The expression is walked with a builder at hand, which is told
where an item begins and where it ends; the item that was built is then written line by line. A
line begins with a column for every item above it and a connector; a column is blank once the item
above has no younger sibling left. -/
namespace PrefixCalc

namespace Drawing

/-- A text with items hung below it. -/
inductive Item where
  | node (text : String) (children : List Item)

/-- The item with one more child, after the others. -/
def Item.add (child : Item) : Item → Item
  | node text children => node text (children ++ [child])

def column (last : Bool) : String := if last then "   " else "│  "

def connector (last : Bool) : String := if last then "└─ " else "├─ "

mutual

/-- The lines of an item whose ancestors left this indentation. -/
def Item.branch (indent : String) (last : Bool) : Item → List String
  | .node text children =>
    (indent ++ connector last ++ text) :: Item.branches (indent ++ column last) children

def Item.branches (indent : String) : List Item → List String
  | [] => []
  | child :: rest => child.branch indent rest.isEmpty ++ Item.branches indent rest

end

/-- The outermost item has a line without a connector, and leaves no column. -/
def Item.lines : Item → List String
  | node text children => text :: branches "" children

def Item.drawn (item : Item) : String := String.join (item.lines.map (· ++ "\n"))

/-- The calls that a drawing is made with. -/
structure Kit (β : Type) where
  start : String → β
  beginChild : β → String → β
  endChild : β → β
  addEmptyChild : β → String → β
  build : β → Item
  /-- The bytes of the drawn item, or why they could not be written. -/
  draw : Item → Except String ByteArray

/-- What the calls do, told by the items that have not ended yet: the current one first, and then
the one around it and so on. -/
structure Kit.Lawful {β : Type} (kit : Kit β) (unended : β → List Item) : Prop where
  unended_start (text : String) : unended (kit.start text) = [.node text []]
  unended_beginChild (b : β) (text : String) :
    unended (kit.beginChild b text) = .node text [] :: unended b
  unended_endChild {b : β} {child parent : Item} {around : List Item}
    (h : unended b = child :: parent :: around) :
    unended (kit.endChild b) = child.add parent :: around
  unended_addEmptyChild {b : β} {current : Item} {around : List Item}
    (h : unended b = current :: around) (text : String) :
    unended (kit.addEmptyChild b text) = (Item.node text []).add current :: around
  build_eq {b : β} {item : Item} (h : unended b = [item]) : kit.build b = item
  draw_eq (item : Item) : kit.draw item = .ok item.drawn.toUTF8

/-- The current item, and those around it that have not ended either. -/
structure Builder where
  current : Item
  around : List Item

namespace Builder

def beginChild (b : Builder) (text : String) : Builder :=
  ⟨.node text [], b.current :: b.around⟩

def endChild (b : Builder) : Builder :=
  match b.around with
  | [] => b
  | parent :: around => ⟨b.current.add parent, around⟩

/-- Whatever has not ended ends here. -/
def build (b : Builder) : Item := b.around.foldl Item.add b.current

def unended (b : Builder) : List Item := b.current :: b.around

def kit : Kit Builder where
  start text := ⟨.node text [], []⟩
  beginChild := beginChild
  endChild := endChild
  addEmptyChild b text := (b.beginChild text).endChild
  build := build
  draw item := .ok item.drawn.toUTF8

theorem lawful_kit : kit.Lawful unended where
  unended_start _ := rfl
  unended_beginChild _ _ := rfl
  unended_endChild := by
    rintro ⟨child, around⟩ _ _ _ h
    obtain ⟨rfl, rfl⟩ := List.cons.inj h
    rfl
  unended_addEmptyChild := by
    rintro ⟨current, around⟩ _ _ h _
    obtain ⟨rfl, rfl⟩ := List.cons.inj h
    rfl
  build_eq := by
    rintro ⟨current, around⟩ _ h
    obtain ⟨rfl, rfl⟩ := List.cons.inj h
    rfl
  draw_eq _ := rfl

end Builder
end Drawing

namespace Expr
open Drawing

variable {β : Type}

/-- Walks an expression from the left: an operand is an item without children, and an operator one
that ends after its operands. -/
def sketch (kit : Kit β) : Expr → β → β
  | operand v, b => kit.addEmptyChild b (Text.spelling v.toInt)
  | binary op l r, b =>
    kit.endChild (r.sketch kit (l.sketch kit (kit.beginChild b op.token)))
  | negate x, b => kit.endChild (x.sketch kit (kit.beginChild b Operator.negate.token))

/-- The drawing hangs below a line of its own. It fails when it cannot be written or what was
written is not a text, and does not tell why. -/
def drawingWith (kit : Kit β) (e : Expr) : Except Unit String :=
  match kit.draw (kit.build (e.sketch kit (kit.start "expression"))) with
  | .error _ => .error ()
  | .ok buffer =>
    match String.fromUTF8? buffer with
    | none => .error ()
    | some text => .ok text

def drawing (e : Expr) : Except Unit String := e.drawingWith Builder.kit

end Expr
end PrefixCalc
