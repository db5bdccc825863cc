import Reckon.Expr
/-!
# The height of a tree

`Expr.height` walks a tree with a list of pending subtrees.  Here it is tied to the recursion over
the tree: a pending subtree whose root stands at level `l` reaches down to level
`l + longestPath - 1`, and the walk returns the lowest level that any pending subtree reaches.

Which pending subtree is taken next, and where its operands are put, makes no difference to that, so
a turn of the walk allows every order.  The list of a walk that takes the last one that came in is
one, and the one of `Expr.deepest` another.

* `Walk.Turn`, `Walk.Turns` — the walk, in any order;
* `Walk.Turns.within_iff` — what a run keeps: the levels that the pending subtrees reach;
* `Expr.height_eq_longestPath` — the walk returns the structural height;
* `height_binary` and its siblings — the height of a node from the heights of its operands;
* `OperatorsWithin` — every binary operator of a tree stands on a subtree of bounded height.
-/

namespace Reckon

namespace Expr

/-! ### The structural height -/

mutual

/-- The number of nodes on the longest way from the root down, by recursion on the tree. -/
def longestPath : Expr → Nat
  | literal _ _ | var _ _ => 1
  | unary _ operand _ => operand.longestPath + 1
  | binary _ left right _ => max left.longestPath right.longestPath + 1
  | conditional condition yes no _ =>
    max condition.longestPath (max yes.longestPath no.longestPath) + 1
  | call _ args _ => longestPathAll args + 1

/-- The greatest structural height of several trees, `0` if there is none. -/
def longestPathAll : List Expr → Nat
  | [] => 0
  | e :: es => max e.longestPath (longestPathAll es)

end

theorem longestPathAll_le_iff (es : List Expr) (n : Nat) :
    longestPathAll es ≤ n ↔ ∀ e ∈ es, e.longestPath ≤ n := by
  induction es with
  | nil => simp [longestPathAll]
  | cons e es ih => rw [longestPathAll, Nat.max_le, ih, List.forall_mem_cons]

theorem longestPath_eq (e : Expr) : e.longestPath = longestPathAll e.children + 1 := by
  cases e <;> simp [longestPath, children, longestPathAll]

/-- A tree fits into `n + 1` levels iff its operands fit into `n`. -/
theorem longestPath_le_iff (e : Expr) (n : Nat) :
    e.longestPath ≤ n + 1 ↔ ∀ c ∈ e.children, c.longestPath ≤ n := by
  rw [longestPath_eq, Nat.add_le_add_iff_right, longestPathAll_le_iff]

theorem longestPath_pos (e : Expr) : 1 ≤ e.longestPath := by
  rw [longestPath_eq]
  exact Nat.succ_pos _

/-- A tree whose root stands at a level stays within `n` levels iff its root does and its operands
do, which start on the next level. -/
theorem level_add_longestPath_le_iff (e : Expr) (level n : Nat) :
    level + e.longestPath ≤ n + 1 ↔
      level ≤ n ∧ ∀ c ∈ e.children, level + 1 + c.longestPath ≤ n + 1 := by
  constructor
  · intro h
    have hpos := e.longestPath_pos
    refine ⟨by omega, fun c hc => ?_⟩
    have hle := (e.longestPath_le_iff (n - level)).mp (by omega) c hc
    omega
  · intro h
    obtain ⟨hlevel, hbelow⟩ := h
    have hle : e.longestPath ≤ n - level + 1 :=
      (e.longestPath_le_iff (n - level)).mpr
        (fun c hc => by have := hbelow c hc; omega)
    omega

/-- The order of the trees makes no difference to the number of their nodes. -/
theorem sizeAll_perm {as bs : List Expr} (h : as.Perm bs) : sizeAll as = sizeAll bs := by
  induction h with
  | nil => rfl
  | cons a _ ih => rw [sizeAll, sizeAll, ih]
  | swap a b as => simp only [sizeAll]; omega
  | trans _ _ ih₁ ih₂ => exact ih₁.trans ih₂

end Expr

/-! ### The walk over a tree -/

/-- A walk over a tree: the lowest level that it has come to, and the subtrees that are pending,
each with the level of its root. -/
structure Walk where
  best : Nat
  pending : List (Expr × Nat)

namespace Walk

/-- A walk that has still to begin. -/
def start (e : Expr) : Walk := ⟨0, [(e, 1)]⟩

/-- The number of nodes that are pending. -/
def nodes (w : Walk) : Nat := Expr.sizeAll (w.pending.map Prod.fst)

/-- What has been seen, and what the pending subtrees reach, stays within `n` levels. -/
def Within (n : Nat) (w : Walk) : Prop :=
  w.best ≤ n ∧ ∀ p ∈ w.pending, p.2 + p.1.longestPath ≤ n + 1

/-- One turn of the walk: a pending subtree is taken, whichever it is, and its operands are put
among the others, wherever that is. -/
inductive Turn : Walk → Walk → Prop
  | visit {best level : Nat} {e : Expr} {pending others after : List (Expr × Nat)}
      (htaken : pending.Perm ((e, level) :: others))
      (hput : after.Perm (e.children.map (·, level + 1) ++ others)) :
      Turn ⟨best, pending⟩ ⟨max best level, after⟩

/-- As many turns, one after the other. -/
inductive Turns : Nat → Walk → Walk → Prop
  | done (w : Walk) : Turns 0 w w
  | turn {n : Nat} {w v u : Walk} (first : Turn w v) (others : Turns n v u) : Turns (n + 1) w u

/-- The one that came in last may be taken first, and its operands put at the end. -/
theorem turn_last (best level : Nat) (e : Expr) (pending : List (Expr × Nat)) :
    Turn ⟨best, pending ++ [(e, level)]⟩
      ⟨max best level, pending ++ e.children.map (·, level + 1)⟩ :=
  .visit (List.perm_append_singleton _ _) List.perm_append_comm

/-- There is a turn as long as something is pending. -/
theorem exists_turn {w : Walk} (h : w.pending ≠ []) : ∃ v, Turn w v := by
  obtain ⟨best, pending⟩ := w
  obtain ⟨others, ⟨e, level⟩, rfl⟩ : ∃ others last, pending = others ++ [last] :=
    ⟨_, _, (List.dropLast_concat_getLast h).symm⟩
  exact ⟨_, turn_last best level e others⟩

/-! ### What turns keep -/

variable {w v : Walk} {n : Nat}

/-- **One turn.**  Nothing that is pending reaches further down than before, and the lowest reaches
as far. -/
theorem Turn.within_iff (h : Turn w v) (n : Nat) : v.Within n ↔ w.Within n := by
  cases h with
  | @visit best level e pending others after htaken hput =>
      simp only [Within, hput.mem_iff, htaken.mem_iff, List.forall_mem_append, List.forall_mem_map,
        List.forall_mem_cons, Expr.level_add_longestPath_le_iff e level n, Nat.max_le, and_assoc]

/-- The node that a turn takes is pending no more, and all others still are. -/
theorem Turn.nodes_eq (h : Turn w v) : v.nodes + 1 = w.nodes := by
  cases h with
  | @visit best level e pending others after htaken hput =>
      have hoperands : (e.children.map (·, level + 1)).map Prod.fst = e.children := by
        simp [Function.comp_def]
      rw [nodes, nodes, Expr.sizeAll_perm (htaken.map _), Expr.sizeAll_perm (hput.map _),
        List.map_append, hoperands, Expr.sizeAll_append, List.map_cons, Expr.sizeAll,
        Expr.size_eq e]
      omega

/-- **A run.**  The walk stays within the levels that its pending subtrees reach. -/
theorem Turns.within_iff (h : Turns n w v) (k : Nat) : v.Within k ↔ w.Within k := by
  induction h with
  | done => rfl
  | turn first _ ih => rw [ih, first.within_iff]

/-- A run takes one node with each turn. -/
theorem Turns.nodes_eq (h : Turns n w v) : n + v.nodes = w.nodes := by
  induction h with
  | done => exact Nat.zero_add _
  | turn first _ ih =>
      have hfirst := first.nodes_eq
      omega

/-! ### Where a walk ends -/

/-- `Expr.deepest` is a walk until nothing is pending. -/
theorem turns_deepest (best : Nat) (pending : List (Expr × Nat)) :
    Turns (nodes ⟨best, pending⟩) ⟨best, pending⟩ ⟨Expr.deepest best pending, []⟩ := by
  fun_induction Expr.deepest best pending with
  | case1 best => exact .done _
  | case2 best e level pending ih =>
      have hturn : Turn ⟨best, (e, level) :: pending⟩
          ⟨max best level, e.children.map (·, level + 1) ++ pending⟩ := .visit (.refl _) (.refl _)
      rw [← hturn.nodes_eq]
      exact .turn hturn ih

/-- A walk over a tree has to come to all its nodes. -/
theorem nodes_start (e : Expr) : (start e).nodes = e.size := by
  simp [start, nodes, Expr.sizeAll]

/-- Before it begins, a walk stays within the levels that the tree has. -/
theorem within_start_iff (e : Expr) (n : Nat) : (start e).Within n ↔ e.longestPath ≤ n := by
  simp [start, Within, Nat.add_comm 1]

/-- **A walk that has ended has come to the structural height.** -/
theorem best_eq_of_turns {e : Expr} (h : Turns n (start e) w) (hend : w.pending = []) :
    w.best = e.longestPath := by
  have hle (k : Nat) : w.best ≤ k ↔ e.longestPath ≤ k := by
    rw [← within_start_iff, ← h.within_iff, Within, hend]
    simp
  exact Nat.le_antisymm ((hle _).mpr (Nat.le_refl _)) ((hle _).mp (Nat.le_refl _))

end Walk

namespace Expr

/-- The walk with pending subtrees returns the structural height. -/
theorem height_eq_longestPath (e : Expr) : e.height = e.longestPath :=
  Walk.best_eq_of_turns (Walk.turns_deepest 0 [(e, 1)]) rfl

/-! ### The height of each sort of node -/

@[simp] theorem height_literal (v : Value) (p : Position) : (literal v p).height = 1 := by
  simp [height_eq_longestPath, longestPath]

@[simp] theorem height_var (name : String) (p : Position) : (var name p).height = 1 := by
  simp [height_eq_longestPath, longestPath]

@[simp] theorem height_unary (op : UnaryOp) (a : Expr) (p : Position) :
    (unary op a p).height = a.height + 1 := by
  simp [height_eq_longestPath, longestPath]

@[simp] theorem height_binary (op : BinaryOp) (a b : Expr) (p : Position) :
    (binary op a b p).height = max a.height b.height + 1 := by
  simp [height_eq_longestPath, longestPath]

@[simp] theorem height_conditional (c y n : Expr) (p : Position) :
    (conditional c y n p).height = max c.height (max y.height n.height) + 1 := by
  simp [height_eq_longestPath, longestPath]

theorem height_pos (e : Expr) : 1 ≤ e.height :=
  e.height_eq_longestPath ▸ e.longestPath_pos

/-! ### Operators on bounded subtrees -/

/-- A tree contains itself and what its operands contain. -/
inductive Contains : Expr → Expr → Prop
  | root (e : Expr) : Contains e e
  | operand {e c s : Expr} (hchild : c ∈ e.children) (h : Contains c s) : Contains e s

/-- Every binary operator inside the tree is the root of a subtree of at most the given height. -/
def OperatorsWithin (limit : Nat) (e : Expr) : Prop :=
  ∀ op a b p, e.Contains (binary op a b p) → (binary op a b p).height ≤ limit

variable {limit : Nat}

/-- Only the root and the operands decide whether all operators are within the limit. -/
theorem operatorsWithin_iff (e : Expr) :
    e.OperatorsWithin limit ↔
      (∀ op a b p, e = binary op a b p → e.height ≤ limit) ∧
        ∀ c ∈ e.children, c.OperatorsWithin limit := by
  constructor
  · intro h
    refine ⟨?_, fun c hc op a b p hin => h op a b p (.operand hc hin)⟩
    intro op a b p he
    subst he
    exact h op a b p (.root _)
  · intro h op a b p hin
    obtain ⟨hroot, hbelow⟩ := h
    cases hin with
    | root => exact hroot op a b p rfl
    | operand hchild hin => exact hbelow _ hchild op a b p hin

@[simp] theorem operatorsWithin_literal (v : Value) (p : Position) :
    (literal v p).OperatorsWithin limit := by
  simp [operatorsWithin_iff (literal v p), children]

@[simp] theorem operatorsWithin_var (name : String) (p : Position) :
    (var name p).OperatorsWithin limit := by
  simp [operatorsWithin_iff (var name p), children]

@[simp] theorem operatorsWithin_unary (op : UnaryOp) (a : Expr) (p : Position) :
    (unary op a p).OperatorsWithin limit ↔ a.OperatorsWithin limit := by
  simp [operatorsWithin_iff (unary op a p), children]

@[simp] theorem operatorsWithin_binary (op : BinaryOp) (a b : Expr) (p : Position) :
    (binary op a b p).OperatorsWithin limit ↔
      max a.height b.height + 1 ≤ limit ∧
        a.OperatorsWithin limit ∧ b.OperatorsWithin limit := by
  rw [operatorsWithin_iff]
  simp only [children, List.forall_mem_cons, List.not_mem_nil, false_implies, implies_true,
    and_true, height_binary]
  exact and_congr_left fun _ => ⟨fun h => h op a b p rfl, fun h _ _ _ _ _ => h⟩

@[simp] theorem operatorsWithin_conditional (c y n : Expr) (p : Position) :
    (conditional c y n p).OperatorsWithin limit ↔
      c.OperatorsWithin limit ∧ y.OperatorsWithin limit ∧ n.OperatorsWithin limit := by
  simp [operatorsWithin_iff (conditional c y n p), children]

@[simp] theorem operatorsWithin_call (name : String) (args : List Expr) (p : Position) :
    (call name args p).OperatorsWithin limit ↔ ∀ a ∈ args, a.OperatorsWithin limit := by
  simp [operatorsWithin_iff (call name args p), children]

end Expr

end Reckon
