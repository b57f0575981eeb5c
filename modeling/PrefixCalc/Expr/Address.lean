import PrefixCalc.Expr.Basic

/-! Addresses of sub-expressions: the child numbers on the way down from the root. -/
namespace PrefixCalc.Expr

abbrev Address := List Nat

def children : Expr → List Expr
  | operand _ => []
  | binary _ l r => [l, r]
  | negate x => [x]

def at? (e : Expr) : Address → Option Expr
  | [] => some e
  | i :: path => do (← e.children[i]?).at? path

/-- All addresses inside an expression, every one before those below it. -/
def addresses : Expr → List Address
  | operand _ => [[]]
  | binary _ l r => [] :: (l.addresses.map (0 :: ·) ++ r.addresses.map (1 :: ·))
  | negate x => [] :: x.addresses.map (0 :: ·)

/-- The same addresses in the order of `postorder`. -/
def walk : Expr → List Address
  | operand _ => [[]]
  | binary _ l r => l.walk.map (0 :: ·) ++ r.walk.map (1 :: ·) ++ [[]]
  | negate x => x.walk.map (0 :: ·) ++ [[]]

/-- The first address leads into the left operand of an operation whose right operand the second
one leads into. -/
def LeftOf (p q : Address) : Prop := ∃ c p' q', p = c ++ 0 :: p' ∧ q = c ++ 1 :: q'

/-- The order of the walk: below comes before above, and left before right. -/
def WalkedBefore (p q : Address) : Prop := (q <+: p ∧ q ≠ p) ∨ LeftOf p q

/-- The order of `addresses`: above comes before below, and left before right. -/
def Precedes (p q : Address) : Prop := (p <+: q ∧ p ≠ q) ∨ LeftOf p q

/-- Whether no sibling comes after the expression at an address; the root has none. -/
def isLast (e : Expr) : Address → Bool
  | [] => true
  | [i] => i + 1 = e.children.length
  | i :: path =>
    match e.children[i]? with
    | some child => child.isLast path
    | none => false

theorem filterMap_at?_addresses (e : Expr) : e.addresses.filterMap e.at? = e.preorder := by
  induction e with
  | operand v => rfl
  | binary op l r ihl ihr =>
    rw [preorder, ← ihl, ← ihr]
    simp [addresses, at?, List.filterMap_append, List.filterMap_map,
      Function.comp_def, children]
  | negate x ih =>
    rw [preorder, ← ih]
    simp [addresses, at?, List.filterMap_map, Function.comp_def, children]

theorem filterMap_at?_walk (e : Expr) : e.walk.filterMap e.at? = e.postorder := by
  induction e with
  | operand v => rfl
  | binary op l r ihl ihr =>
    rw [postorder, ← ihl, ← ihr]
    simp [walk, at?, List.filterMap_append, List.filterMap_map, Function.comp_def, children]
  | negate x ih =>
    rw [postorder, ← ih]
    simp [walk, at?, List.filterMap_append, List.filterMap_map, Function.comp_def, children]

theorem filterMap_walk {β : Type} (e : Expr) (own : Expr → Option β) :
    (e.walk.filterMap fun path => (e.at? path).bind own) = e.postorder.filterMap own := by
  rw [← filterMap_at?_walk, List.filterMap_filterMap]

theorem at?_append (e : Expr) (p q : Address) : e.at? (p ++ q) = (e.at? p).bind (·.at? q) := by
  induction p generalizing e with
  | nil => rfl
  | cons i p ih =>
    cases h : e.children[i]? with
    | none => simp [at?, h]
    | some child => simp [at?, h, ih]

theorem mem_walk_iff {e : Expr} {path : Address} : path ∈ e.walk ↔ (e.at? path).isSome = true := by
  induction e generalizing path with
  | operand v =>
    rcases path with _ | ⟨i, path⟩
    · simp [walk, at?]
    · simp [walk, at?, children]
  | binary op l r ihl ihr =>
    rcases path with _ | ⟨i, path⟩
    · simp [walk, at?]
    · rcases i with _ | _ | i
      · simp [walk, at?, children, ihl]
      · simp [walk, at?, children, ihr]
      · simp [walk, at?, children]
  | negate x ih =>
    rcases path with _ | ⟨i, path⟩
    · simp [walk, at?]
    · rcases i with _ | i
      · simp [walk, at?, children, ih]
      · simp [walk, at?, children]

theorem mem_addresses_iff {e : Expr} {path : Address} :
    path ∈ e.addresses ↔ (e.at? path).isSome = true := by
  induction e generalizing path with
  | operand v => rcases path with _ | ⟨i, path⟩ <;> simp [addresses, at?, children]
  | binary op l r ihl ihr =>
    rcases path with _ | ⟨_ | _ | i, path⟩ <;> simp [addresses, at?, children, ihl, ihr]
  | negate x ih => rcases path with _ | ⟨_ | i, path⟩ <;> simp [addresses, at?, children, ih]

theorem LeftOf.cons {p q : Address} (h : LeftOf p q) (i : Nat) : LeftOf (i :: p) (i :: q) := by
  obtain ⟨c, p', q', rfl, rfl⟩ := h
  exact ⟨i :: c, p', q', rfl, rfl⟩

theorem WalkedBefore.cons {p q : Address} (h : WalkedBefore p q) (i : Nat) :
    WalkedBefore (i :: p) (i :: q) := by
  rcases h with ⟨hpre, hne⟩ | hleft
  · exact .inl ⟨List.cons_prefix_cons.2 ⟨rfl, hpre⟩, by simpa using hne⟩
  · exact .inr (hleft.cons i)

theorem walkedBefore_nil (i : Nat) (p : Address) : WalkedBefore (i :: p) [] :=
  .inl ⟨List.nil_prefix, List.cons_ne_nil i p |>.symm⟩

theorem pairwise_map_cons {before : Address → Address → Prop}
    (hcons : ∀ {p q} i, before p q → before (i :: p) (i :: q)) {paths : List Address}
    (h : paths.Pairwise before) (i : Nat) : (paths.map (i :: ·)).Pairwise before :=
  List.pairwise_map.2 (h.imp fun hpq => hcons i hpq)

theorem pairwise_walk (e : Expr) : e.walk.Pairwise WalkedBefore := by
  induction e with
  | operand v => exact List.pairwise_singleton _ _
  | binary op l r ihl ihr =>
    rw [walk, List.pairwise_append, List.pairwise_append]
    refine ⟨⟨pairwise_map_cons (fun i h => h.cons i) ihl 0,
      pairwise_map_cons (fun i h => h.cons i) ihr 1, ?_⟩, List.pairwise_singleton _ _, ?_⟩
    · simp only [List.mem_map]
      rintro _ ⟨p, -, rfl⟩ _ ⟨q, -, rfl⟩
      exact .inr ⟨[], p, q, rfl, rfl⟩
    · simp only [List.mem_append, List.mem_map, List.mem_singleton]
      rintro _ (⟨p, -, rfl⟩ | ⟨p, -, rfl⟩) _ rfl
      · exact walkedBefore_nil 0 p
      · exact walkedBefore_nil 1 p
  | negate x ih =>
    rw [walk, List.pairwise_append]
    refine ⟨pairwise_map_cons (fun i h => h.cons i) ih 0, List.pairwise_singleton _ _, ?_⟩
    simp only [List.mem_map, List.mem_singleton]
    rintro _ ⟨p, -, rfl⟩ _ rfl
    exact walkedBefore_nil 0 p

theorem Precedes.cons {p q : Address} (h : Precedes p q) (i : Nat) :
    Precedes (i :: p) (i :: q) := by
  rcases h with ⟨hpre, hne⟩ | hleft
  · exact .inl ⟨List.cons_prefix_cons.2 ⟨rfl, hpre⟩, by simpa using hne⟩
  · exact .inr (hleft.cons i)

theorem Precedes.ne {p q : Address} (h : Precedes p q) : p ≠ q := by
  rcases h with ⟨-, hne⟩ | ⟨c, p', q', rfl, rfl⟩
  · exact hne
  · simp

theorem nil_precedes (i : Nat) (p : Address) : Precedes [] (i :: p) :=
  .inl ⟨List.nil_prefix, (List.cons_ne_nil i p).symm⟩

theorem pairwise_addresses (e : Expr) : e.addresses.Pairwise Precedes := by
  induction e with
  | operand v => exact List.pairwise_singleton _ _
  | binary op l r ihl ihr =>
    rw [addresses, List.pairwise_cons, List.pairwise_append]
    refine ⟨?_, pairwise_map_cons (fun i h => h.cons i) ihl 0,
      pairwise_map_cons (fun i h => h.cons i) ihr 1, ?_⟩
    · simp only [List.mem_append, List.mem_map]
      rintro _ (⟨p, -, rfl⟩ | ⟨p, -, rfl⟩)
      · exact nil_precedes 0 p
      · exact nil_precedes 1 p
    · simp only [List.mem_map]
      rintro _ ⟨p, -, rfl⟩ _ ⟨q, -, rfl⟩
      exact .inr ⟨[], p, q, rfl, rfl⟩
  | negate x ih =>
    rw [addresses, List.pairwise_cons]
    refine ⟨?_, pairwise_map_cons (fun i h => h.cons i) ih 0⟩
    simp only [List.mem_map]
    rintro _ ⟨p, -, rfl⟩
    exact nil_precedes 0 p

end PrefixCalc.Expr
