import PrefixCalc.Expr.Address
import PrefixCalc.Expr.Drawing
import PrefixCalc.Proofs.RoundTrip

/-! A drawing has a line for every address of the expression, in order, and the line tells where
the address lies: the walk with the builder adds one item for the expression, whose lines are
followed down from the root. Read backwards, the labels are the tokens of the expression, so that a
drawing draws nothing else. -/
namespace PrefixCalc

namespace Text

/-- Lines that are ended by line feeds come apart again. -/
theorem join_lines_injective {as bs : List String} (ha : ∀ a ∈ as, '\n' ∉ a.toList)
    (hb : ∀ b ∈ bs, '\n' ∉ b.toList)
    (h : String.join (as.map (· ++ "\n")) = String.join (bs.map (· ++ "\n"))) : as = bs := by
  induction as generalizing bs with
  | nil =>
    cases bs with
    | nil => rfl
    | cons b bs => simp at h
  | cons a as ih =>
    cases bs with
    | nil => simp at h
    | cons b bs =>
      have hlist : a.toList ++ '\n' :: (String.join (as.map (· ++ "\n"))).toList =
          b.toList ++ '\n' :: (String.join (bs.map (· ++ "\n"))).toList := by
        simpa using congrArg String.toList h
      obtain ⟨hfirst, hrest⟩ :=
        append_mark_inj (ha a List.mem_cons_self) (hb b List.mem_cons_self) hlist
      rw [String.toList_inj.1 hfirst, ih (fun c hc => ha c (List.mem_cons_of_mem _ hc))
        (fun c hc => hb c (List.mem_cons_of_mem _ hc)) (String.toList_inj.1 hrest)]

/-- Whatever stands before the last blank, the last word is what follows it. -/
lemma getLast?_words_append {pre : String} {a : List Char} {b : Char} (hb : isBlank b = true)
    (hpre : pre.toList = a ++ [b]) {w : String} (hw : ∀ c ∈ w.toList, isBlank c = false)
    (hne : w ≠ "") : (words (pre ++ w)).getLast? = some w := by
  have hlist : (pre ++ w).toList = a ++ b :: w.toList := by simp [hpre]
  have hw' : w.toList ≠ [] := by simpa using hne
  rw [words_eq, hlist, wordsOf_around_blank hb, wordsOf_of_not_blank hw hw']
  simp

end Text

namespace Drawing

/-- What stands before the label of a line: a column for every address above, from the root down,
and the connector. The flags tell where nothing is left to come at the side. -/
def margin (last : Expr.Address → Bool) (path : Expr.Address) : String :=
  String.join ((List.range path.length).map fun n => column (last (path.take n))) ++
    connector (last path)

variable (last : Expr.Address → Bool)

@[simp] lemma margin_nil : margin last [] = connector (last []) := by simp [margin]

lemma margin_cons (i : Nat) (path : Expr.Address) :
    margin last (i :: path) = column (last []) ++ margin (fun p => last (i :: p)) path := by
  simp [margin, List.range_succ_eq_map, Function.comp_def, String.append_assoc]

/-- All columns and connectors are three characters wide. -/
theorem length_margin (path : Expr.Address) :
    (margin last path).length = 3 * (path.length + 1) := by
  have hcolumn : ∀ flag, (column flag).length = 3 := by decide
  have hconnector : ∀ flag, (connector flag).length = 3 := by decide
  induction path generalizing last with
  | nil => simp [hconnector]
  | cons i path ih =>
    rw [margin_cons, String.length_append, hcolumn, ih, List.length_cons]
    omega

lemma feed_notMem_margin (path : Expr.Address) : '\n' ∉ (margin last path).toList := by
  have hcolumn : ∀ flag, '\n' ∉ (column flag).toList := by decide
  have hconnector : ∀ flag, '\n' ∉ (connector flag).toList := by decide
  induction path generalizing last with
  | nil => simp [hconnector]
  | cons i path ih => simp [margin_cons, hcolumn, ih]

lemma exists_margin_eq_concat (path : Expr.Address) :
    ∃ a, (margin last path).toList = a ++ [' '] := by
  have hconnector : ∀ flag, (connector flag).toList = (connector flag).toList.dropLast ++ [' '] := by
    decide
  rw [margin, String.toList_append, hconnector, ← List.append_assoc]
  exact ⟨_, rfl⟩

end Drawing

namespace Expr
open Drawing

/-- The item that is added for an expression. -/
def item : Expr → Item
  | operand v => .node (Text.spelling v.toInt) []
  | binary op l r => .node op.token [l.item, r.item]
  | negate x => .node Operator.negate.token [x.item]

section Walk

variable {β : Type} {kit : Kit β} {unended : β → List Item}

/-- A walk ends whatever it begins: the current item has one more child, and the items around it
are as they were. -/
theorem unended_sketch (lawful : kit.Lawful unended) (e : Expr) {b : β} {current : Item}
    {around : List Item} (h : unended b = current :: around) :
    unended (e.sketch kit b) = e.item.add current :: around := by
  induction e generalizing b current around with
  | operand v => exact lawful.unended_addEmptyChild h _
  | binary op l r ihl ihr =>
    have hbegun : unended (kit.beginChild b op.token) = .node op.token [] :: current :: around := by
      rw [lawful.unended_beginChild, h]
    exact lawful.unended_endChild (ihr (ihl hbegun))
  | negate x ih =>
    have hbegun : unended (kit.beginChild b Operator.negate.token) =
        .node Operator.negate.token [] :: current :: around := by
      rw [lawful.unended_beginChild, h]
    exact lawful.unended_endChild (ih hbegun)

/-- Neither the writing nor the reading of the bytes fails. -/
theorem drawingWith_eq (lawful : kit.Lawful unended) (e : Expr) :
    e.drawingWith kit =
      .ok ("expression\n" ++ String.join ((e.item.branch "" true).map (· ++ "\n"))) := by
  have hbuilt := e.unended_sketch lawful (lawful.unended_start "expression")
  simp only [drawingWith, lawful.build_eq hbuilt, lawful.draw_eq, Text.fromUTF8?_toUTF8]
  simp [Item.add, Item.drawn, Item.lines, Item.branches]

end Walk

/-- Flags that agree with those of an expression below its root do so for its parts. -/
lemma isLast_below {e child : Expr} {i : Nat} (hchild : e.children[i]? = some child)
    {last : Address → Bool} (hlast : ∀ path, path ≠ [] → last path = e.isLast path)
    (path : Address) (hne : path ≠ []) : last (i :: path) = child.isLast path := by
  rw [hlast _ (List.cons_ne_nil i path)]
  cases path with
  | nil => exact absurd rfl hne
  | cons j path => simp [isLast, hchild]

/-- A line shows the expression at an address, below this indentation. -/
def ShownBelow (e : Expr) (indent : String) (last : Address → Bool) (path : Address)
    (line : String) : Prop :=
  ∃ s, e.at? path = some s ∧ line = indent ++ margin last path ++ s.label

section Branches

variable {e child : Expr} {i : Nat} {indent : String} {last : Address → Bool}

lemma ShownBelow.of_child (hchild : e.children[i]? = some child) {path : Address} {line : String}
    (h : child.ShownBelow (indent ++ column (last [])) (fun p => last (i :: p)) path line) :
    e.ShownBelow indent last (i :: path) line := by
  obtain ⟨s, hs, rfl⟩ := h
  exact ⟨s, by simp [at?, hchild, hs], by simp [margin_cons, String.append_assoc]⟩

lemma forall₂_shownBelow_of_child (hchild : e.children[i]? = some child) {paths : List Address}
    {lines : List String}
    (h : List.Forall₂ (child.ShownBelow (indent ++ column (last [])) fun p => last (i :: p))
      paths lines) :
    List.Forall₂ (e.ShownBelow indent last) (paths.map (i :: ·)) lines :=
  List.forall₂_map_left_iff.2 (h.imp fun _ _ => ShownBelow.of_child hchild)

end Branches

/-- The lines below an indentation. Only the flag of the expression itself depends on what it hangs
from; below it the flags are its own. -/
theorem forall₂_shownBelow (e : Expr) (indent : String) {last : Address → Bool}
    (hlast : ∀ path, path ≠ [] → last path = e.isLast path) :
    List.Forall₂ (e.ShownBelow indent last) e.addresses (e.item.branch indent (last [])) := by
  induction e generalizing indent last with
  | operand v => exact .cons ⟨_, rfl, by simp [label]⟩ .nil
  | binary op l r ihl ihr =>
    have hleft : (binary op l r).children[0]? = some l := rfl
    have hright : (binary op l r).children[1]? = some r := rfl
    have hl := ihl (indent ++ column (last [])) (isLast_below hleft hlast)
    have hr := ihr (indent ++ column (last [])) (isLast_below hright hlast)
    rw [hlast [0] (List.cons_ne_nil _ _)] at hl
    rw [hlast [1] (List.cons_ne_nil _ _)] at hr
    rw [item, Item.branch, Item.branches, Item.branches, Item.branches, List.append_nil]
    refine .cons ⟨_, rfl, by simp [label]⟩ ?_
    exact List.rel_append (forall₂_shownBelow_of_child hleft hl)
      (forall₂_shownBelow_of_child hright hr)
  | negate x ih =>
    have hpart : (negate x).children[0]? = some x := rfl
    have hx := ih (indent ++ column (last [])) (isLast_below hpart hlast)
    rw [hlast [0] (List.cons_ne_nil _ _)] at hx
    rw [item, Item.branch, Item.branches, Item.branches, List.append_nil]
    exact .cons ⟨_, rfl, by simp [label]⟩ (forall₂_shownBelow_of_child hpart hx)

/-- A line shows the expression at an address: a margin that tells where the address lies, and the
label. -/
def ShownAt (e : Expr) (path : Address) (line : String) : Prop :=
  ∃ s, e.at? path = some s ∧ line = margin e.isLast path ++ s.label

theorem forall₂_shownAt (e : Expr) :
    List.Forall₂ e.ShownAt e.addresses (e.item.branch "" true) := by
  refine (e.forall₂_shownBelow "" fun _ _ => rfl).imp fun path line => ?_
  rintro ⟨s, hs, rfl⟩
  exact ⟨s, hs, by rw [String.empty_append]⟩

/-- The last word of a line. -/
def labelOf? (line : String) : Option String := (Text.words line).getLast?

lemma labelOf?_margin (last : Address → Bool) (path : Address) (s : Expr) :
    labelOf? (margin last path ++ s.label) = some s.label := by
  obtain ⟨a, ha⟩ := exists_margin_eq_concat last path
  exact Text.getLast?_words_append rfl ha s.not_blank_of_mem_label s.label_ne_empty

lemma map_labelOf? {e : Expr} {paths : List Address} {lines : List String}
    (h : List.Forall₂ e.ShownAt paths lines) :
    lines.map labelOf? = ((paths.filterMap e.at?).map label).map some := by
  induction h with
  | nil => rfl
  | cons first _ ih =>
    obtain ⟨s, hs, rfl⟩ := first
    rw [List.map_cons, ih, labelOf?_margin, List.filterMap_cons_some hs]
    rfl

lemma feed_notMem_of_shownAt {e : Expr} {paths : List Address} {lines : List String}
    (h : List.Forall₂ e.ShownAt paths lines) : ∀ line ∈ lines, '\n' ∉ line.toList := by
  induction h with
  | nil => simp
  | cons first _ ih =>
    obtain ⟨s, -, rfl⟩ := first
    intro line hline
    rcases List.mem_cons.1 hline with rfl | hline
    · have hlabel : '\n' ∉ s.label.toList := fun hmem =>
        Bool.noConfusion (s.not_blank_of_mem_label '\n' hmem)
      rw [String.toList_append, List.mem_append]
      exact fun hmem => hmem.elim (feed_notMem_margin _ _) hlabel
    · exact ih line hline

lemma branch_injective {e e' : Expr} (h : e.item.branch "" true = e'.item.branch "" true) :
    e = e' := by
  have hlabels : e.tokens.map some = e'.tokens.map some := by
    rw [tokens_eq_map_label, tokens_eq_map_label, ← filterMap_at?_addresses,
      ← filterMap_at?_addresses, ← map_labelOf? e.forall₂_shownAt, ← map_labelOf? e'.forall₂_shownAt,
      h]
  exact tokens_injective ((List.map_inj_right fun _ _ => Option.some.inj).1 hlabels)

/-- Every drawing succeeds. Below its first line it has one line for each address of the expression,
an address before those below it and the left side before the right. Every line tells its address
by the margin, the labels are the tokens, and no other expression is drawn alike. -/
theorem drawing_shows_every_node {β : Type} {kit : Kit β} {unended : β → List Item}
    (lawful : kit.Lawful unended) (e : Expr) :
    (∃ lines : List String,
      e.drawingWith kit = .ok ("expression\n" ++ String.join (lines.map (· ++ "\n"))) ∧
      (∀ line ∈ lines, '\n' ∉ line.toList) ∧
      List.Forall₂ e.ShownAt e.addresses lines ∧
      lines.map labelOf? = e.tokens.map some) ∧
    (∀ path, path ∈ e.addresses ↔ (e.at? path).isSome = true) ∧
    e.addresses.Nodup ∧ e.addresses.Pairwise Precedes ∧
    (∀ path, (margin e.isLast path).length = 3 * (path.length + 1)) ∧
    ∀ e' : Expr, e.drawingWith kit = e'.drawingWith kit ↔ e = e' := by
  refine ⟨⟨e.item.branch "" true, drawingWith_eq lawful e, ?_, e.forall₂_shownAt, ?_⟩,
    fun path => mem_addresses_iff, ?_, e.pairwise_addresses, length_margin e.isLast,
    fun e' => ⟨fun h => ?_, fun h => by rw [h]⟩⟩
  · exact feed_notMem_of_shownAt e.forall₂_shownAt
  · rw [map_labelOf? e.forall₂_shownAt, filterMap_at?_addresses, ← tokens_eq_map_label]
  · exact e.pairwise_addresses.imp Precedes.ne
  · rw [drawingWith_eq lawful, drawingWith_eq lawful] at h
    have hlines := Text.join_lines_injective (feed_notMem_of_shownAt e.forall₂_shownAt)
      (feed_notMem_of_shownAt e'.forall₂_shownAt) ((String.append_right_inj _).1 (Except.ok.inj h))
    exact branch_injective hlines

/-- A negative leaf next to a negation: nothing else is drawn like this. -/
theorem drawing_of_product_of_negative :
    (binary .mul (operand (-2)) (negate (operand 4))).drawing =
      .ok "expression\n└─ *\n   ├─ -2\n   └─ ~\n      └─ 4\n" ∧
    ∀ e' : Expr, (binary .mul (operand (-2)) (negate (operand 4))).drawing = e'.drawing ↔
      binary .mul (operand (-2)) (negate (operand 4)) = e' := by
  refine ⟨by decide +kernel, ?_⟩
  exact (drawing_shows_every_node Builder.lawful_kit _).2.2.2.2.2

end Expr
end PrefixCalc
