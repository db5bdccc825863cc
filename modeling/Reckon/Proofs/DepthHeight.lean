import Reckon.Proofs.EvaluationOrder
import Reckon.Proofs.TallTrees
/-!
# How high a tree can be at a nesting depth

At a nesting depth, an expression is read with the nesting levels that are left.  Each of them can
put two nodes above the operators of a tree, a call and a conditional with the call in its
condition, and the towers put two on every level.  So the bound at a depth is exact.

An evaluation goes down a tree one node at a time.  For what was read from a source, no way that it
takes has more nodes than a tree at depth zero can have on one, whatever the source is.

* `height_le_of_read` — the bound on the trees that a budget allows;
* `conditionTower_read` — the towers are read and attain it;
* `tree_height_at_depth` — the height at each depth, and what it means for an evaluation.
-/

namespace Reckon

open Reckon.Parser

/-! ### Results at a depth -/

/-- A result without its bound is one with a bound. -/
theorem map_pair_eq_ok_iff {α : Type} {n : Nat} {r : Except SyntaxError (Parsed α n)}
    {a : α} {rest : List Placed} :
    r.map Parsed.pair = .ok (a, rest) ↔ ∃ parsed, r = .ok parsed ∧ parsed.pair = (a, rest) := by
  cases r <;> simp [Except.map]

/-- An expression at a depth is read with the nesting levels that are left. -/
theorem expression_eq_read (depth : Nat) (xs : List Placed) :
    (Parser.expression depth xs).map Parsed.pair =
      Phrase.expression.read (maxNesting - depth) xs :=
  rfl

/-! ### The bound -/

/-- Each nesting level of a derivation puts at most two nodes above the operators. -/
theorem Derives.height_le {xs : List Placed} {e : Expr} {n : Nat} (h : Derives .expression xs e n)
    (hwithin : e.OperatorsWithin maxTreeHeight) : e.height ≤ maxTreeHeight + 2 * n := by
  obtain ⟨hheight, hconditions⟩ : e.WithinNesting maxTreeHeight n n :=
    h.heightClaim (by decide) hwithin
  omega

/-- So does each nesting level of a budget. -/
theorem height_le_of_read {b : Nat} {xs rest : List Placed} {e : Expr}
    (h : Phrase.expression.read b xs = .ok (e, rest)) :
    e.OperatorsWithin maxTreeHeight ∧ e.height ≤ maxTreeHeight + 2 * b := by
  obtain ⟨w, n, -, hspan⟩ := Phrase.spans_of_read h
  have hwithin := hspan.within trivial
  have hheight := hspan.derives.height_le hwithin
  have hnesting := hspan.nesting_le
  exact ⟨hwithin, by omega⟩

/-- A tower is read with a budget of as many levels as it has conditionals. -/
theorem conditionTower_read (b : Nat) :
    ∃ e, Phrase.expression.read b (loneLexemes 0 (conditionTower b)) = .ok (e, []) ∧
      e.height = maxTreeHeight + 2 * b := by
  obtain ⟨e, hderives, hheight, hwithin⟩ := conditionTower_derives b 0
  have hread := hderives.reads b [] trivial Phrase.ends_nil
  rw [List.append_nil] at hread
  rcases hread with hok | ⟨hexceeds | hexceeds, -⟩
  · exact ⟨e, hok, hheight⟩
  · exact absurd hexceeds (Nat.lt_irrefl b)
  · exact absurd hwithin hexceeds

/-! ### Ways down a tree -/

namespace Expr

theorem height_lt_of_mem_children {e a : Expr} (ha : a ∈ e.children) : a.height < e.height := by
  rw [height_eq_longestPath, height_eq_longestPath]
  have hpos := e.longestPath_pos
  have hle := (e.longestPath_le_iff (e.longestPath - 1)).mp (by omega) a ha
  omega

/-- A way leads down a tree at most as far as the tree is high. -/
theorem length_add_height_le {e s : Expr} {path : Path} (h : e.at? path = some s) :
    path.length + s.height ≤ e.height := by
  induction path generalizing e with
  | nil =>
      cases h
      simp
  | cons i path ih =>
      obtain ⟨a, hat, hpath⟩ := Option.bind_eq_some_iff.mp h
      have hbelow := ih hpath
      have hlt := height_lt_of_mem_children (List.mem_of_getElem? hat)
      rw [List.length_cons]
      omega

end Expr

/-! ### Every depth -/

/-- **The height of a tree at a nesting depth.**  All binary operators of a tree that is read at a
depth keep their limit, the tree has at most two more nodes on a way for each nesting level that is
left, and some tree has as many.  So an evaluation of a source, at any host, goes down at most 384
nodes. -/
theorem tree_height_at_depth :
    (∀ depth : Nat,
      (∀ xs parsed, Parser.expression depth xs = .ok parsed →
        parsed.value.OperatorsWithin 256 ∧
          parsed.value.height ≤ 256 + 2 * (64 - min depth 64)) ∧
        ∃ xs parsed, Parser.expression depth xs = .ok parsed ∧
          parsed.value.height = 256 + 2 * (64 - min depth 64)) ∧
      ∀ source collect c, compile source collect = .ok c →
        ∀ host path s h, Reached host c.expr [] path s h → path.length + s.height ≤ 384 := by
  refine ⟨fun depth => ⟨fun xs parsed hparsed => ?bound, ?attained⟩, ?evaluation⟩
  case bound =>
    have hread := expression_eq_read depth xs
    rw [hparsed] at hread
    obtain ⟨hwithin, hheight⟩ := height_le_of_read hread.symm
    refine ⟨hwithin, ?_⟩
    simp only [maxTreeHeight, maxNesting] at hheight
    omega
  case attained =>
    obtain ⟨e, hread, hheight⟩ := conditionTower_read (maxNesting - depth)
    rw [← expression_eq_read, map_pair_eq_ok_iff] at hread
    obtain ⟨parsed, hparsed, hpair⟩ := hread
    obtain ⟨hvalue, -⟩ := Prod.mk.inj hpair
    refine ⟨_, parsed, hparsed, ?_⟩
    rw [hvalue, hheight]
    simp only [maxTreeHeight, maxNesting]
    omega
  case evaluation =>
    intro source collect c hcompile host path s h hreached
    obtain ⟨-, hparse, -⟩ := compile_eq_ok_iff.mp hcompile
    obtain ⟨n, hderives, hnesting, hwithin⟩ := derives_of_parseLexemes hparse
    have hheight := hderives.height_le hwithin
    have hway := Expr.length_add_height_le hreached.at?
    simp only [maxTreeHeight, maxNesting] at hheight hnesting
    omega

/-- With one level left, a prefix operator is read, and its operand is one node down. -/
theorem height_of_negation_at_depth_63 :
    (∃ parsed, Parser.expression 63 [⟨.symbol .minus, 0⟩, ⟨.identifier "a", 1⟩] = .ok parsed ∧
      parsed.value.OperatorsWithin 256 ∧ parsed.value.height ≤ 258) ∧
      ∃ c, compile "-a" false = .ok c ∧ ∀ host : Host,
        Reached host c.expr [] [0] (.var "a" (.byte 1)) [] ∧
          1 + (Expr.var "a" (.byte 1)).height ≤ 384 := by
  have hcompile : compile "-a" false =
      .ok ⟨.unary .negate (.var "a" (.byte 1)) (.byte 0), none⟩ := by cbv
  have hread : Parser.expression 63 [⟨.symbol .minus, 0⟩, ⟨.identifier "a", 1⟩] =
      .ok ⟨.unary .negate (.var "a" (.byte 1)) (.byte 0), [], by decide⟩ := by cbv
  refine ⟨⟨_, hread, (tree_height_at_depth.1 63).1 _ _ hread⟩, _, hcompile, fun host => ?_⟩
  have hreached : Reached host (.unary .negate (.var "a" (.byte 1)) (.byte 0)) [] [0]
      (.var "a" (.byte 1)) [] := .step .operand (.root _ _)
  exact ⟨hreached, tree_height_at_depth.2 _ _ _ hcompile host _ _ _ hreached⟩

end Reckon
