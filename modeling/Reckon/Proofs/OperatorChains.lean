import Mathlib.Data.List.Infix
import Reckon.Proofs.ParserLocality
import Reckon.Proofs.RoundTrip
/-!
# Chains of operators

A chain of one level is a first operand and links, each of them an operator of the level with its
right operand.  The parser folds the chain from the left, one link after the other, and looks at the
height of each tree on the way.  Here a whole chain is read at once: an operand that is read by
itself is read in the chain as well, since the operator behind it belongs to a looser level.  So the
outcome depends on the heights of the operands alone.

* `Link.fold`, `Link.foldHeight` — the tree of a chain and its height;
* `Link.read_append` — links that keep the limit are folded;
* `parseLexemes_chain`, `parseLexemes_chain_error` — a chain is accepted, or refused at the first
  link that breaks the limit.
-/

namespace Reckon

theorem Level.andTighter_suffix_loosestFirst (level : Level) :
    level.andTighter <:+ Level.loosestFirst :=
  List.dropWhile_suffix _

/-- The operands of a chain are read at the tighter levels. -/
theorem Level.fit_tail_andTighter (level : Level) :
    level.andTighter.tail <:+ Level.loosestFirst ∧ level ∉ level.andTighter.tail := by
  refine Phrase.fit_tighter ?_
  rw [← Level.andTighter_eq_cons]
  exact level.andTighter_suffix_loosestFirst

/-- An operator of a chain with its right operand: what is written and what it stands for. -/
structure Link where
  operator : Placed
  op : BinaryOp
  lexemes : List Placed
  operand : Expr

namespace Link

/-- The link belongs to a chain of the level: its operator does, and its operand is read by itself
at the tighter levels, within a budget of nesting levels. -/
structure Of (b : Nat) (level : Level) (k : Link) : Prop where
  spelled : (k.operator.lexeme, k.op) ∈ level.spellings
  reads : (Phrase.levels level.andTighter.tail).read b k.lexemes = .ok (k.operand, [])

/-- What is written of several links. -/
def written (links : List Link) : List Placed := links.flatMap fun k => k.operator :: k.lexemes

/-- The tree of a first operand and several links, from the left. -/
def fold (first : Expr) (links : List Link) : Expr :=
  links.foldl (fun left k => .binary k.op left k.operand k.operator.position) first

/-- The height of the tree, from the heights of the operands. -/
def foldHeight (first : Nat) (links : List Link) : Nat :=
  links.foldl (fun height k => 1 + max height k.operand.height) first

theorem height_fold (first : Expr) (links : List Link) :
    (fold first links).height = foldHeight first.height links := by
  induction links generalizing first with
  | nil => rfl
  | cons k links ih =>
      rw [fold, List.foldl_cons, foldHeight, List.foldl_cons, Nat.add_comm 1,
        ← Expr.height_binary k.op first k.operand k.operator.position]
      exact ih _

/-- All trees on the way to the tree of the links keep the limit on heights. -/
def Low (first : Nat) (links : List Link) : Prop :=
  ∀ front, front <+: links → front ≠ [] → foldHeight first front ≤ maxTreeHeight

theorem low_cons {first : Nat} {k : Link} {links : List Link} (h : Low first (k :: links)) :
    1 + max first k.operand.height ≤ maxTreeHeight ∧
      Low (1 + max first k.operand.height) links := by
  refine ⟨h [k] (List.prefix_iff_eq_append.mpr rfl) (by simp), ?_⟩
  intro front hfront hne
  exact h (k :: front) (List.cons_prefix_cons.mpr ⟨rfl, hfront⟩) (by simp)

/-- Either all trees on the way keep the limit, or there is a first one that breaks it. -/
theorem low_or_tall (first : Nat) (links : List Link) :
    Low first links ∨ ∃ front k back, links = front ++ k :: back ∧ Low first front ∧
      maxTreeHeight < foldHeight first (front ++ [k]) := by
  induction links using List.reverseRecOn with
  | nil => exact .inl fun front hfront hne => absurd (List.prefix_nil.mp hfront) hne
  | append_singleton links k ih =>
      rcases ih with hlow | ⟨front, j, back, rfl, hlow, htall⟩
      · by_cases htall : maxTreeHeight < foldHeight first (links ++ [k])
        · exact .inr ⟨links, k, [], rfl, hlow, htall⟩
        · refine .inl fun front hfront hne => ?_
          rcases List.prefix_concat_iff.mp hfront with rfl | hfront
          · exact Nat.le_of_not_lt htall
          · exact hlow front hfront hne
      · exact .inr ⟨front, j, back ++ [k], by simp, hlow, htall⟩

section Reading

variable {b : Nat} {level : Level} {links : List Link} {w : List Placed} {first : Expr}

/-- What is read by itself as an operand of the chain is read in front of links. -/
theorem read_operand_append (hlinks : ∀ k ∈ links, k.Of b level)
    (hfirst : (Phrase.levels level.andTighter.tail).read b w = .ok (first, [])) :
    (Phrase.levels level.andTighter.tail).read b (w ++ written links) =
      .ok (first, written links) := by
  obtain ⟨hfit, hlevel⟩ := level.fit_tail_andTighter
  obtain ⟨v, n, hw, hspan⟩ := Phrase.spans_of_read hfirst
  obtain rfl : w = v := by simpa using hw
  refine hspan.read hfit ?_
  cases links with
  | nil => exact Phrase.ends_nil
  | cons k links => exact Phrase.ends_operator (hlinks k (by simp)).spelled hlevel

/-- **Links that keep the limit are folded.** -/
theorem read_append {front back : List Link} (hlinks : ∀ k ∈ front ++ back, k.Of b level)
    (hlow : Low first.height front) :
    (Phrase.chain level level.andTighter.tail first).read b (written (front ++ back)) =
      (Phrase.chain level level.andTighter.tail (fold first front)).read b (written back) := by
  induction front generalizing first with
  | nil => rfl
  | cons k front ih =>
      rw [List.cons_append] at hlinks ⊢
      obtain ⟨hk, hrest⟩ := List.forall_mem_cons.mp hlinks
      obtain ⟨hheight, hlow⟩ := low_cons hlow
      have hbinary : (Expr.binary k.op first k.operand k.operator.position).height =
          1 + max first.height k.operand.height := by
        rw [Expr.height_binary, Nat.add_comm]
      have hsplit : written (k :: (front ++ back)) =
          k.operator :: (k.lexemes ++ written (front ++ back)) := rfl
      rw [hsplit, Phrase.read_chain_operator hk.spelled, read_operand_append hrest hk.reads,
        ok_bind, if_neg (by rw [hbinary]; omega)]
      exact ih hrest (by rwa [hbinary])

/-- A chain that keeps the limit is read as its tree. -/
theorem read_chain (hlinks : ∀ k ∈ links, k.Of b level)
    (hfirst : (Phrase.levels level.andTighter.tail).read b w = .ok (first, []))
    (hlow : Low first.height links) :
    (Phrase.levels level.andTighter).read b (w ++ written links) = .ok (fold first links, []) := by
  rw [← List.append_nil links] at hlinks
  have hfold := read_append hlinks hlow
  rw [List.append_nil] at hlinks hfold
  rw [Level.andTighter_eq_cons, Phrase.read_level, read_operand_append hlinks hfirst, ok_bind,
    hfold]
  exact Phrase.read_chain_nil b level _ _

/-- A chain is refused at a link that breaks the limit, if the ones before it keep it. -/
theorem read_chain_error {front back : List Link} {k : Link}
    (hlinks : ∀ j ∈ front ++ k :: back, j.Of b level)
    (hfirst : (Phrase.levels level.andTighter.tail).read b w = .ok (first, []))
    (hlow : Low first.height front)
    (htall : maxTreeHeight < foldHeight first.height (front ++ [k])) :
    (Phrase.levels level.andTighter).read b (w ++ written (front ++ k :: back)) =
      .error (.located .nestingTooDeep k.operator.position) := by
  have hback := fun j hj => hlinks j (List.mem_append_right front hj)
  obtain ⟨hk, hrest⟩ := List.forall_mem_cons.mp hback
  have hheight : (Expr.binary k.op (fold first front) k.operand k.operator.position).height =
      foldHeight first.height (front ++ [k]) := by
    rw [← height_fold, fold, fold, List.foldl_append]
    rfl
  have hsplit : written (k :: back) = k.operator :: (k.lexemes ++ written back) := rfl
  rw [Level.andTighter_eq_cons, Phrase.read_level, read_operand_append hlinks hfirst, ok_bind,
    read_append hlinks hlow, hsplit, Phrase.read_chain_operator hk.spelled,
    read_operand_append hrest hk.reads, ok_bind, if_pos (by rwa [hheight])]

end Reading

end Link

/-! ### Whole lists of lexemes -/

theorem Phrase.ne_nil_of_read_levels {b : Nat} {ls : List Level} {xs rest : List Placed} {e : Expr}
    (h : (Phrase.levels ls).read b xs = .ok (e, rest)) : xs ≠ [] := by
  have hlt := (Phrase.read_rest_length h).2 id
  exact List.ne_nil_of_length_pos (Nat.zero_lt_of_lt hlt)

/-- What some levels read up to the end is not touched by looser ones. -/
theorem read_levels_of_suffix {b : Nat} {ls looser : List Level} {xs : List Placed}
    (hls : ls <:+ looser)
    (hend : ∀ e rest, (Phrase.levels ls).read b xs = .ok (e, rest) → rest = []) :
    (Phrase.levels looser).read b xs = (Phrase.levels ls).read b xs := by
  obtain ⟨before, rfl⟩ := hls
  induction before with
  | nil => rfl
  | cons level before ih =>
      rw [List.cons_append, Phrase.read_level, ih]
      cases hread : (Phrase.levels ls).read b xs with
      | error => rfl
      | ok a =>
          obtain ⟨e, rest⟩ := a
          obtain rfl := hend e rest hread
          exact Phrase.read_chain_nil b level _ e

/-- A list of lexemes that a level reads up to the end is parsed as what the level makes of it. -/
theorem parseLexemes_of_level {level : Level} {xs : List Placed} (hne : xs ≠ [])
    (hend : ∀ e rest, (Phrase.levels level.andTighter).read maxNesting xs = .ok (e, rest) →
      rest = []) :
    parseLexemes xs = ((Phrase.levels level.andTighter).read maxNesting xs).map Prod.fst := by
  rw [parseLexemes_eq hne, Phrase.read_expression,
    read_levels_of_suffix level.andTighter_suffix_loosestFirst hend]
  cases hread : (Phrase.levels level.andTighter).read maxNesting xs with
  | error => rfl
  | ok a =>
      obtain ⟨e, rest⟩ := a
      obtain rfl := hend e rest hread
      rfl

section Chains

variable {level : Level} {w : List Placed} {first : Expr}

theorem parseLexemes_chain {links : List Link} (hlinks : ∀ k ∈ links, k.Of maxNesting level)
    (hfirst : (Phrase.levels level.andTighter.tail).read maxNesting w = .ok (first, []))
    (hlow : Link.Low first.height links) :
    parseLexemes (w ++ Link.written links) = .ok (Link.fold first links) := by
  have hread := Link.read_chain hlinks hfirst hlow
  rw [parseLexemes_of_level (by simp [Phrase.ne_nil_of_read_levels hfirst]), hread]
  · rfl
  · intro e rest hok
    cases hread.symm.trans hok
    rfl

theorem parseLexemes_chain_error {front back : List Link} {k : Link}
    (hlinks : ∀ j ∈ front ++ k :: back, j.Of maxNesting level)
    (hfirst : (Phrase.levels level.andTighter.tail).read maxNesting w = .ok (first, []))
    (hlow : Link.Low first.height front)
    (htall : maxTreeHeight < Link.foldHeight first.height (front ++ [k])) :
    parseLexemes (w ++ Link.written (front ++ k :: back)) =
      .error (.located .nestingTooDeep k.operator.position) := by
  have hread := Link.read_chain_error hlinks hfirst hlow htall
  rw [parseLexemes_of_level (by simp [Phrase.ne_nil_of_read_levels hfirst]), hread]
  · rfl
  · intro e rest hok
    cases hread.symm.trans hok

/-- A chain is accepted iff all trees on the way to its tree keep the limit. -/
theorem parseLexemes_chain_iff {links : List Link} (hlinks : ∀ k ∈ links, k.Of maxNesting level)
    (hfirst : (Phrase.levels level.andTighter.tail).read maxNesting w = .ok (first, [])) :
    (∃ e, parseLexemes (w ++ Link.written links) = .ok e) ↔ Link.Low first.height links := by
  refine ⟨fun haccepted => ?_, fun hlow => ⟨_, parseLexemes_chain hlinks hfirst hlow⟩⟩
  obtain ⟨e, hok⟩ := haccepted
  rcases Link.low_or_tall first.height links with hlow | ⟨front, k, back, rfl, hlow, htall⟩
  · exact hlow
  · cases (parseLexemes_chain_error hlinks hfirst hlow htall).symm.trans hok

end Chains

end Reckon
