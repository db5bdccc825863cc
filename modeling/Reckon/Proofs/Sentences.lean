import Reckon.Proofs.ViablePrefix
/-!
# Sentences and their places

Whether lexemes are an expression does not depend on where they stand: a derivation can be moved to
any other places.  Along the way the trees that a phrase carries change with the places, so that what
continues a chain or a call has to be derivable after all trees.

* `sentence_iff` — a sentence has a derivation at any places;
* `viable_iff` — so has the beginning of one.
-/

namespace Reckon

/-- The lexemes of `xs` are a phrase at all places. -/
def DerivesAnywhere (g : Phrase) (xs : List Placed) (n : Nat) : Prop :=
  ∀ ys : List Placed, ys.map Placed.lexeme = xs.map Placed.lexeme → ∃ e, Derives g ys e n

/-- The lexemes of `xs` are a phrase at all places and with all trees that it may carry. -/
def Phrase.Movable : Phrase → List Placed → Nat → Prop
  | chain level tighter _, xs, n => ∀ left, DerivesAnywhere (chain level tighter left) xs n
  | arguments _ _ _, xs, n => ∀ name p given, DerivesAnywhere (arguments name p given) xs n
  | g, xs, n => DerivesAnywhere g xs n

theorem eq_cons_of_map_lexeme {xs : List Placed} {l : Lexeme} {w : List Lexeme}
    (h : xs.map Placed.lexeme = l :: w) :
    ∃ p ys, xs = ⟨l, p⟩ :: ys ∧ ys.map Placed.lexeme = w := by
  obtain ⟨⟨l', p⟩, ys, rfl, hl, hys⟩ := List.map_eq_cons_iff.mp h
  exact ⟨p, ys, by rw [← hl], hys⟩

theorem eq_append_of_map_lexeme {xs v w : List Placed}
    (h : xs.map Placed.lexeme = (v ++ w).map Placed.lexeme) :
    ∃ ys zs, xs = ys ++ zs ∧ ys.map Placed.lexeme = v.map Placed.lexeme ∧
      zs.map Placed.lexeme = w.map Placed.lexeme := by
  rw [List.map_append] at h
  exact List.map_eq_append_iff.mp h

theorem eq_singleton_of_map_lexeme {xs : List Placed} {x : Placed}
    (h : xs.map Placed.lexeme = [x].map Placed.lexeme) : ∃ p, xs = [⟨x.lexeme, p⟩] := by
  obtain ⟨p, ys, rfl, hys⟩ := eq_cons_of_map_lexeme h
  exact ⟨p, by rw [List.map_eq_nil_iff.mp hys]⟩

/-- **A derivation can be moved.** -/
theorem Derives.movable {g : Phrase} {xs : List Placed} {e : Expr} {n : Nat}
    (h : Derives g xs e n) : g.Movable xs n := by
  induction h with
  | plain _ ih =>
      intro ys hys
      obtain ⟨e, hderives⟩ := ih ys hys
      exact ⟨e, .plain hderives⟩
  | conditional _ _ _ ihc ihy ihn =>
      intro zs hzs
      obtain ⟨cs, branches, rfl, hcs, hbranches⟩ := eq_append_of_map_lexeme hzs
      obtain ⟨p, inside, rfl, hinside⟩ := eq_cons_of_map_lexeme hbranches
      obtain ⟨ys, others, rfl, hys, hothers⟩ := eq_append_of_map_lexeme hinside
      obtain ⟨q, ns, rfl, hns⟩ := eq_cons_of_map_lexeme hothers
      obtain ⟨c, hc⟩ := ihc cs hcs
      obtain ⟨y, hy⟩ := ihy ys hys
      obtain ⟨n, hn⟩ := ihn ns hns
      exact ⟨_, .conditional hc hy hn⟩
  | operand _ ih =>
      intro ys hys
      obtain ⟨e, hderives⟩ := ih ys hys
      exact ⟨e, .operand hderives⟩
  | @prefixed x xs op e n hop _ ih =>
      intro ys hys
      obtain ⟨p, zs, rfl, hzs⟩ := eq_cons_of_map_lexeme hys
      obtain ⟨e, hderives⟩ := ih zs hzs
      exact ⟨_, .prefixed (x := ⟨x.lexeme, p⟩) hop hderives⟩
  | level _ _ ihf iho =>
      intro zs hzs
      obtain ⟨xs, ys, rfl, hxs, hys⟩ := eq_append_of_map_lexeme hzs
      obtain ⟨left, hleft⟩ := ihf xs hxs
      obtain ⟨e, hderives⟩ := iho left ys hys
      exact ⟨e, .level hleft hderives⟩
  | done =>
      intro left ys hys
      obtain rfl := List.map_eq_nil_iff.mp hys
      exact ⟨left, .done⟩
  | @operator level tighter left right e x op xs ys m n hop _ _ iho ihr =>
      intro left zs hzs
      obtain ⟨p, inside, rfl, hinside⟩ := eq_cons_of_map_lexeme hzs
      obtain ⟨vs, ws, rfl, hvs, hws⟩ := eq_append_of_map_lexeme hinside
      obtain ⟨right, hright⟩ := iho vs hvs
      obtain ⟨e, hderives⟩ := ihr (.binary op left right (.byte p)) ws hws
      exact ⟨e, .operator (x := ⟨x.lexeme, p⟩) hop hright hderives⟩
  | @literal x v hvalue =>
      intro ys hys
      obtain ⟨p, rfl⟩ := eq_singleton_of_map_lexeme hys
      exact ⟨_, .literal (x := ⟨x.lexeme, p⟩) hvalue⟩
  | var =>
      intro ys hys
      obtain ⟨p, rfl⟩ := eq_singleton_of_map_lexeme hys
      exact ⟨_, .var⟩
  | emptyCall =>
      intro ys hys
      obtain ⟨p, zs, rfl, hzs⟩ := eq_cons_of_map_lexeme hys
      obtain ⟨q, ws, rfl, hws⟩ := eq_cons_of_map_lexeme hzs
      obtain ⟨r, rfl⟩ := eq_singleton_of_map_lexeme hws
      exact ⟨_, .emptyCall⟩
  | call _ ih =>
      intro ys hys
      obtain ⟨p, zs, rfl, hzs⟩ := eq_cons_of_map_lexeme hys
      obtain ⟨q, ws, rfl, hws⟩ := eq_cons_of_map_lexeme hzs
      obtain ⟨e, hderives⟩ := ih _ (.byte p) [] ws hws
      exact ⟨e, .call hderives⟩
  | group _ ih =>
      intro ys hys
      obtain ⟨p, inside, rfl, hinside⟩ := eq_cons_of_map_lexeme hys
      obtain ⟨zs, close, rfl, hzs, hclose⟩ := eq_append_of_map_lexeme hinside
      obtain ⟨q, rfl⟩ := eq_singleton_of_map_lexeme hclose
      obtain ⟨e, hderives⟩ := ih zs hzs
      exact ⟨e, .group hderives⟩
  | lastArgument _ ih =>
      intro name p given ys hys
      obtain ⟨zs, close, rfl, hzs, hclose⟩ := eq_append_of_map_lexeme hys
      obtain ⟨q, rfl⟩ := eq_singleton_of_map_lexeme hclose
      obtain ⟨a, hderives⟩ := ih zs hzs
      exact ⟨_, .lastArgument hderives⟩
  | argument _ _ ih iho =>
      intro name p given ys hys
      obtain ⟨zs, others, rfl, hzs, hothers⟩ := eq_append_of_map_lexeme hys
      obtain ⟨q, ws, rfl, hws⟩ := eq_cons_of_map_lexeme hothers
      obtain ⟨a, ha⟩ := ih zs hzs
      obtain ⟨e, hderives⟩ := iho name p (given ++ [a]) ws hws
      exact ⟨e, .argument ha hderives⟩

/-! ### Sentences -/

/-- A sentence has a derivation at any places. -/
theorem sentence_iff {xs : List Placed} :
    Sentence (xs.map Placed.lexeme) ↔ ∃ e n, Derives .expression xs e n := by
  constructor
  · intro h
    obtain ⟨ys, hys, e, n, hderives⟩ := h
    obtain ⟨e', hderives'⟩ := hderives.movable xs hys.symm
    exact ⟨e', n, hderives'⟩
  · intro h
    exact ⟨xs, rfl, h⟩

/-- The lexemes are the beginning of a sentence. -/
def Viable (lexemes : List Lexeme) : Prop := ∃ more, Sentence (lexemes ++ more)

/-- The beginning of a sentence can be completed at any places. -/
theorem viable_iff {w : List Placed} :
    Viable (w.map Placed.lexeme) ↔ Phrase.expression.Begins w := by
  constructor
  · intro h
    obtain ⟨more, hsentence⟩ := h
    have hmore : (more.map (Placed.mk · 0)).map Placed.lexeme = more := by simp [Function.comp_def]
    rw [← hmore, ← List.map_append, sentence_iff] at hsentence
    exact ⟨_, hsentence⟩
  · intro h
    obtain ⟨more, e, n, hderives⟩ := h
    refine ⟨more.map Placed.lexeme, ?_⟩
    rw [← List.map_append, sentence_iff]
    exact ⟨e, n, hderives⟩

end Reckon
