import Reckon.Proofs.ParserSoundness
/-!
# The parser accepts exactly the grammar within its limits

A phrase that is written down, followed by something that does not continue it, is read with the
tree of its derivation, unless a limit is in the way: then the only error is that the nesting is
too deep, and the derivation nests deeper than the budget or the tree breaks the limit on operators.
The proof is an induction on the derivation.  Together with soundness this settles which lists of
lexemes are accepted, and with which tree.

* `Derives.reads` — a phrase is read, or a limit that it exceeds is reported;
* `parseLexemes_eq_ok_iff` — the lists of lexemes that are accepted, and their trees.
-/

namespace Reckon

open Reckon.Parser

/-! ### Reading up to a limit -/

/-- The result is `a`, unless a limit is exceeded and reported. -/
def OkUnless {α : Type} (exceeded : Prop) (r : Except SyntaxError α) (a : α) : Prop :=
  r = .ok a ∨ exceeded ∧ ∃ p, r = .error (.located .nestingTooDeep p)

theorem okUnless_ok {α : Type} {exceeded : Prop} {a : α} : OkUnless exceeded (.ok a) a :=
  .inl rfl

/-- A step that a limit may stop passes the report on. -/
theorem OkUnless.bind {α β : Type} {exceeded exceeded' : Prop} {r : Except SyntaxError α} {a : α}
    {f : α → Except SyntaxError β} {c : β} (h : OkUnless exceeded r a)
    (hexceeded : exceeded → exceeded') (hf : r = .ok a → OkUnless exceeded' (f a) c) :
    OkUnless exceeded' (r >>= f) c := by
  rcases h with rfl | ⟨he, p, rfl⟩
  · exact hf rfl
  · exact .inr ⟨hexceeded he, p, rfl⟩

/-- Entering a nesting level fails only without a budget. -/
theorem OkUnless.within {α : Type} {exceeded : Prop} {b : Nat} {p : Position}
    {f : Nat → Except SyntaxError α} {a : α} (hzero : b = 0 → exceeded)
    (hf : ∀ inner, b = inner + 1 → OkUnless exceeded (f inner) a) :
    OkUnless exceeded (Reckon.within b p >>= f) a := by
  cases b with
  | zero => exact .inr ⟨hzero rfl, p, rfl⟩
  | succ inner => exact hf inner rfl

/-- A derivation of this nesting and with this tree does not fit the limits. -/
def Exceeds (b n : Nat) (e : Expr) : Prop := b < n ∨ ¬ e.OperatorsWithin maxTreeHeight

theorem Exceeds.mono {b c m n : Nat} {a e : Expr} (h : Exceeds b m a)
    (hnesting : b < m → c < n)
    (htree : e.OperatorsWithin maxTreeHeight → a.OperatorsWithin maxTreeHeight) :
    Exceeds c n e :=
  h.imp hnesting (mt htree)

namespace Phrase

variable {b : Nat}

/-- What does not continue a condition leaves it as it is. -/
theorem readBranches_of_ends {c : Expr} {w rest : List Placed} (hend : expression.Ends w rest) :
    readBranches b c rest = .ok (c, rest) :=
  readBranches_of_ne fun x hx hquestion => (hend x hx).1 (.inr ⟨rfl, hquestion⟩)

/-- What does not open the arguments of a call leaves a name as it is. -/
theorem readNamed_of_ends {name : String} {p : Nat} {rest : List Placed}
    (hend : primary.Ends [⟨.identifier name, p⟩] rest) :
    readNamed b name (.byte p) rest = .ok (.var name (.byte p), rest) :=
  readNamed_of_ne fun x hx hparen => (hend x hx).2 hparen ⟨.identifier name, p⟩ rfl name rfl

/-- What does not continue a chain leaves it as it is. -/
theorem read_chain_of_ends {level : Level} {tighter : List Level} {left : Expr}
    {w rest : List Placed} (hend : (chain level tighter left).Ends w rest) :
    (chain level tighter left).read b rest = .ok (left, rest) := by
  cases rest with
  | nil => exact read_chain_nil b level tighter left
  | cons x rest =>
      rw [read_chain_cons]
      split
      · rfl
      · next op hop =>
        have hcont : (chain level tighter left).Continues x.lexeme :=
          .inl ⟨level, List.mem_cons_self, op, operatorOf?_eq_some_iff.mp hop⟩
        exact absurd hcont (hend x rfl).1

/-- A literal is read as its value. -/
theorem read_literal {x : Placed} {v : Value} (hvalue : x.lexeme.literal? = some v)
    (xs : List Placed) : primary.read b (x :: xs) = .ok (.literal v x.position, xs) := by
  rw [read_primary_cons]
  split
  · next hx => simp [hx, Lexeme.literal?] at hvalue
  · next hx => simp [hx, Lexeme.literal?] at hvalue
  · rw [hvalue]

/-- What starts a primary phrase is no prefix operator. -/
theorem read_operand_of_primary {w rest : List Placed} {e : Expr} {n : Nat}
    (h : Derives .primary w e n) :
    (levels []).read b (w ++ rest) = primary.read b (w ++ rest) := by
  refine read_operand_of_none ?_
  rw [List.head?_append_of_ne_nil _ (h.ne_nil (by simp))]
  cases h with
  | @literal x v hvalue =>
      intro y hy
      obtain rfl := Option.some.inj hy
      revert hvalue
      cases x.lexeme <;> simp [Lexeme.literal?, Lexeme.unary?]
  | _ => simp [Lexeme.unary?]

end Phrase

/-- A phrase does not start with a closing parenthesis. -/
theorem Derives.head_ne_closeParen {g : Phrase} {w : List Placed} {e : Expr} {n : Nat}
    (h : Derives g w e n) (hg : ∀ l ls a, g ≠ .chain l ls a) :
    ∀ x ∈ w.head?, x.lexeme ≠ .symbol .closeParen := by
  induction h with
  | plain _ ih | operand _ ih => exact ih (by simp)
  | conditional condition _ _ ih | level condition _ ih | lastArgument condition ih
  | argument condition _ ih =>
      have hne := condition.ne_nil (by simp)
      simpa [List.head?_append_of_ne_nil _ hne] using ih (by simp)
  | prefixed hop _ =>
      intro x hx
      obtain rfl := Option.some.inj hx
      intro hclose
      simp [UnaryOp.spellings, hclose] at hop
  | done | operator => exact absurd rfl (hg _ _ _)
  | literal hvalue =>
      intro x hx
      obtain rfl := Option.some.inj hx
      intro hclose
      simp [Lexeme.literal?, hclose] at hvalue
  | _ => simp

/-! ### The induction on derivations -/

/-- A phrase with this derivation is read, whatever follows that does not continue it. -/
def Derives.Reads (g : Phrase) (w : List Placed) (e : Expr) (n : Nat) : Prop :=
  ∀ b rest, g.Fit → g.Ends w rest → OkUnless (Exceeds b n e) (g.read b (w ++ rest)) (e, rest)

theorem reads_conditional {cs ys ns : List Placed} {c y n : Expr} {k l m p q : Nat}
    (ihc : Derives.Reads (.levels Level.loosestFirst) cs c k)
    (ihy : Derives.Reads .expression ys y l) (ihn : Derives.Reads .expression ns n m) :
    Derives.Reads .expression (cs ++ ⟨.symbol .question, p⟩ :: (ys ++ ⟨.symbol .colon, q⟩ :: ns))
      (.conditional c y n (.byte p)) (max k (1 + max l m)) := by
  intro b rest _ hend
  have hend : Phrase.expression.Ends ns rest :=
    hend.of_append_left (v := cs ++ ⟨.symbol .question, p⟩ :: ys ++ [⟨.symbol .colon, q⟩])
      (by simp)
  have htree := (@Expr.operatorsWithin_conditional maxTreeHeight c y n (.byte p)).mp
  simp only [List.append_assoc, List.cons_append]
  rw [Phrase.read_expression]
  refine (ihc b _ (List.suffix_refl _) (Phrase.ends_symbol rfl (by simp) (by simp))).bind
    (fun hlimit => hlimit.mono (by omega) (fun he => (htree he).1)) fun _ => ?_
  simp only [Phrase.readBranches]
  refine OkUnless.within (fun hb => .inl (by omega)) fun inner hb => ?_
  refine (ihy inner _ trivial (Phrase.ends_symbol rfl (by simp) (by simp))).bind
    (fun hlimit => hlimit.mono (by omega) (fun he => (htree he).2.1)) fun _ => ?_
  simp only [after, ↓reduceIte, ok_bind]
  exact (ihn inner rest trivial hend).bind
    (fun hlimit => hlimit.mono (by omega) (fun he => (htree he).2.2)) fun _ => okUnless_ok

theorem reads_level {level : Level} {tighter : List Level} {xs ys : List Placed}
    {left e : Expr} {m n : Nat} (others : Derives (.chain level tighter left) ys e n)
    (ihf : Derives.Reads (.levels tighter) xs left m)
    (iho : Derives.Reads (.chain level tighter left) ys e n) :
    Derives.Reads (.levels (level :: tighter)) (xs ++ ys) e (max m n) := by
  intro b rest hfit hend
  have hend : (Phrase.chain level tighter left).Ends (xs ++ ys) rest :=
    hend.of_openLevels (fun _ hl => hl) (by simp)
  have hfirst := (Phrase.fit_tighter hfit).1
  rw [List.append_assoc, Phrase.read_level]
  refine (ihf b _ hfirst (others.ends_operand hfit hend)).bind
    (fun hlimit => hlimit.mono (by omega) others.within_left) fun hread => ?_
  obtain ⟨_, _, _, hspan⟩ := Phrase.spans_of_read hread
  have hlimit := iho b rest ⟨hfit, hspan.within hfirst⟩ (hend.of_append_left rfl)
  exact hlimit.imp id (And.imp_left fun hlimit => hlimit.mono (by omega) id)

theorem reads_operator {level : Level} {tighter : List Level} {left right e : Expr} {x : Placed}
    {op : BinaryOp} {xs ys : List Placed} {m n : Nat} (hop : (x.lexeme, op) ∈ level.spellings)
    (others : Derives (.chain level tighter (.binary op left right x.position)) ys e n)
    (iho : Derives.Reads (.levels tighter) xs right m)
    (ihr : Derives.Reads (.chain level tighter (.binary op left right x.position)) ys e n) :
    Derives.Reads (.chain level tighter left) (x :: (xs ++ ys)) e (max m n) := by
  intro b rest hfit hend
  obtain ⟨hlevels, hleft⟩ := hfit
  have hend : (Phrase.chain level tighter (.binary op left right x.position)).Ends (xs ++ ys) rest :=
    (hend.of_append_left (v := [x]) rfl).of_openLevels (fun _ hl => hl) (by simp)
  have hfirst := (Phrase.fit_tighter hlevels).1
  rw [List.cons_append, List.append_assoc, Phrase.read_chain_operator hop]
  refine (iho b _ hfirst (others.ends_operand hlevels hend)).bind
    (fun hlimit => hlimit.mono (by omega) fun he => ?_) fun hread => ?_
  · exact ((Expr.operatorsWithin_binary _ _ _ _).mp (others.within_left he)).2.2
  · dsimp only
    split
    · next htall =>
      refine .inr ⟨.inr fun he => ?_, x.position, rfl⟩
      have hlow := ((Expr.operatorsWithin_binary _ _ _ _).mp (others.within_left he)).1
      rw [Expr.height_binary] at htall
      omega
    · next hlow =>
      obtain ⟨_, _, _, hspan⟩ := Phrase.spans_of_read hread
      have hlow := Nat.le_of_not_lt hlow
      rw [Expr.height_binary] at hlow
      have hfit := (Expr.operatorsWithin_binary op left right x.position).mpr
        ⟨hlow, hleft, hspan.within hfirst⟩
      have hlimit := ihr b rest ⟨hlevels, hfit⟩ (hend.of_append_left rfl)
      exact hlimit.imp id (And.imp_left fun hlimit => hlimit.mono (by omega) id)

theorem reads_operand {xs : List Placed} {e : Expr} {n : Nat} (whole : Derives .primary xs e n)
    (ih : Derives.Reads .primary xs e n) : Derives.Reads (.levels []) xs e n := by
  intro b rest _ hend
  rw [Phrase.read_operand_of_primary whole]
  exact ih b rest trivial (hend.of_openLevels (fun _ hl => hl) (by simp))

theorem reads_prefixed {x : Placed} {xs : List Placed} {op : UnaryOp} {e : Expr} {n : Nat}
    (hop : (x.lexeme, op) ∈ UnaryOp.spellings) (ih : Derives.Reads (.levels []) xs e n) :
    Derives.Reads (.levels []) (x :: xs) (.unary op e x.position) (1 + n) := by
  intro b rest _ hend
  rw [List.cons_append, Phrase.read_prefixed hop]
  refine OkUnless.within (fun hb => .inl (by omega)) fun inner hb => ?_
  exact (ih inner rest List.nil_suffix (hend.of_append_left (v := [x]) rfl)).bind
    (fun hlimit => hlimit.mono (by omega) (by simp)) fun _ => okUnless_ok

theorem reads_call {name : String} {p q : Nat} {xs : List Placed} {e : Expr} {n : Nat}
    (args : Derives (.arguments name (.byte p) []) xs e n)
    (ih : Derives.Reads (.arguments name (.byte p) []) xs e n) :
    Derives.Reads .primary (⟨.identifier name, p⟩ :: ⟨.symbol .openParen, q⟩ :: xs) e (1 + n) := by
  intro b rest _ hend
  have hend : (Phrase.arguments name (.byte p) []).Ends xs rest :=
    (hend.of_append_left (v := [⟨.identifier name, p⟩, ⟨.symbol .openParen, q⟩]) rfl).of_openLevels
      (fun _ hl => hl) (by simp)
  simp only [List.cons_append, Phrase.read_primary_cons, Phrase.readNamed]
  refine OkUnless.within (fun hb => .inl (by omega)) fun inner hb => ?_
  rw [Phrase.readArguments_of_ne]
  · have hlimit := ih inner rest (by simp [Phrase.Fit]) hend
    exact hlimit.imp id (And.imp_left fun hlimit => hlimit.mono (by omega) id)
  · rw [List.head?_append_of_ne_nil _ (args.ne_nil (by simp))]
    exact args.head_ne_closeParen (by simp)

theorem reads_group {p q : Nat} {xs : List Placed} {e : Expr} {n : Nat}
    (ih : Derives.Reads .expression xs e n) :
    Derives.Reads .primary (⟨.symbol .openParen, p⟩ :: (xs ++ [⟨.symbol .closeParen, q⟩])) e
      (1 + n) := by
  intro b rest _ _
  simp only [List.cons_append, List.append_assoc, List.nil_append, Phrase.read_primary_cons]
  refine OkUnless.within (fun hb => .inl (by omega)) fun inner hb => ?_
  refine (ih inner _ trivial (Phrase.ends_symbol rfl (by simp) (by simp))).bind
    (fun hlimit => hlimit.mono (by omega) id) fun _ => ?_
  simp only [after, ↓reduceIte, ok_bind]
  exact okUnless_ok

theorem reads_lastArgument {name : String} {p : Position} {given : List Expr} {q : Nat}
    {xs : List Placed} {a : Expr} {n : Nat} (ih : Derives.Reads .expression xs a n) :
    Derives.Reads (.arguments name p given) (xs ++ [⟨.symbol .closeParen, q⟩])
      (.call name (given ++ [a]) p) n := by
  intro b rest _ _
  rw [List.append_assoc, Phrase.read_arguments]
  refine (ih b _ trivial (Phrase.ends_symbol rfl (by simp) (by simp))).bind
    (fun hlimit => hlimit.mono id fun he => ?_) fun _ => ?_
  · exact (Expr.operatorsWithin_call _ _ _).mp he a (by simp)
  · exact okUnless_ok

theorem reads_argument {name : String} {p : Position} {given : List Expr} {q : Nat}
    {xs ys : List Placed} {a e : Expr} {m n : Nat}
    (others : Derives (.arguments name p (given ++ [a])) ys e n)
    (ih : Derives.Reads .expression xs a m)
    (iho : Derives.Reads (.arguments name p (given ++ [a])) ys e n) :
    Derives.Reads (.arguments name p given) (xs ++ ⟨.symbol .comma, q⟩ :: ys) e (max m n) := by
  intro b rest hfit hend
  have hend : (Phrase.arguments name p (given ++ [a])).Ends ys rest :=
    (hend.of_append_left (v := xs ++ [⟨.symbol .comma, q⟩]) (by simp)).of_openLevels
      (fun _ hl => hl) (by simp)
  rw [List.append_assoc, Phrase.read_arguments]
  refine (ih b _ trivial (Phrase.ends_symbol rfl (by simp) (by simp))).bind
    (fun hlimit => hlimit.mono (by omega) fun he => ?_) fun hread => ?_
  · exact others.within_given he a (by simp)
  · obtain ⟨_, _, _, hspan⟩ := Phrase.spans_of_read hread
    have hfit : ∀ c ∈ given ++ [a], c.OperatorsWithin maxTreeHeight := by
      simpa [or_imp, forall_and] using ⟨hfit, hspan.within trivial⟩
    have hlimit := iho b rest hfit hend
    exact hlimit.imp id (And.imp_left fun hlimit => hlimit.mono (by omega) id)

/-- **Completeness.**  A phrase is read with the tree of its derivation, unless a limit that it
exceeds is reported. -/
theorem Derives.reads {g : Phrase} {w : List Placed} {e : Expr} {n : Nat} (h : Derives g w e n) :
    Derives.Reads g w e n := by
  induction h with
  | plain _ ih =>
      intro b rest _ hend
      rw [Phrase.read_expression]
      refine (ih b rest (List.suffix_refl _) (hend.of_openLevels (fun _ hl => hl) (by simp))).bind
        id fun _ => ?_
      rw [Phrase.readBranches_of_ends hend]
      exact okUnless_ok
  | conditional _ _ _ ihc ihy ihn => exact reads_conditional ihc ihy ihn
  | operand whole ih => exact reads_operand whole ih
  | prefixed hop _ ih => exact reads_prefixed hop ih
  | level _ others ihf iho => exact reads_level others ihf iho
  | done => exact fun b rest _ hend => .inl (Phrase.read_chain_of_ends hend)
  | operator hop _ others iho ihr => exact reads_operator hop others iho ihr
  | literal hvalue => exact fun b rest _ _ => .inl (Phrase.read_literal hvalue rest)
  | var =>
      intro b rest _ hend
      rw [List.cons_append, Phrase.read_primary_cons]
      exact .inl (Phrase.readNamed_of_ends hend)
  | emptyCall =>
      intro b rest _ _
      simp only [List.cons_append, List.nil_append, Phrase.read_primary_cons, Phrase.readNamed]
      exact OkUnless.within (fun hb => .inl (by omega)) fun inner hb => okUnless_ok
  | call args ih => exact reads_call args ih
  | group _ ih => exact reads_group ih
  | lastArgument _ ih => exact reads_lastArgument ih
  | argument _ others ih iho => exact reads_argument others ih iho

/-! ### Whole lists of lexemes -/

/-- The tree of an accepted list of lexemes has a derivation within the limits. -/
theorem derives_of_parseLexemes {xs : List Placed} {e : Expr} (h : parseLexemes xs = .ok e) :
    ∃ n, Derives .expression xs e n ∧ n ≤ maxNesting ∧ e.OperatorsWithin maxTreeHeight := by
  have hne : xs ≠ [] := by
    intro hnil
    subst hnil
    cases h
  rw [parseLexemes_eq hne, bind_eq_ok_iff] at h
  obtain ⟨⟨tree, rest⟩, hread, hend⟩ := h
  obtain ⟨w, n, rfl, hspan⟩ := Phrase.spans_of_read hread
  cases rest with
  | nil =>
      cases hend
      rw [List.append_nil]
      exact ⟨n, hspan.derives, hspan.nesting_le, hspan.within trivial⟩
  | cons x rest => cases hend

/-- A derivation is accepted with its tree, unless a limit that it exceeds is reported. -/
theorem Derives.parseLexemes_okUnless {xs : List Placed} {e : Expr} {n : Nat}
    (h : Derives .expression xs e n) :
    OkUnless (Exceeds maxNesting n e) (parseLexemes xs) e := by
  rw [parseLexemes_eq (h.ne_nil (by simp))]
  have hread := h.reads maxNesting [] trivial Phrase.ends_nil
  rw [List.append_nil] at hread
  exact hread.bind id fun _ => okUnless_ok

/-- **Exactness.**  The parser accepts a list of lexemes with a tree iff the list derives the tree
in the documented grammar, nests at most 64 levels, and every binary operator of the tree has a
height of at most 256. -/
theorem parseLexemes_eq_ok_iff (xs : List Placed) (e : Expr) :
    parseLexemes xs = .ok e ↔
      ∃ n, Derives .expression xs e n ∧ n ≤ 64 ∧ e.OperatorsWithin 256 := by
  refine ⟨derives_of_parseLexemes, ?_⟩
  intro h
  obtain ⟨n, hderives, hnesting, htree⟩ := h
  rcases hderives.parseLexemes_okUnless with hok | ⟨hexceeds | hexceeds, _⟩
  · exact hok
  · exact absurd hnesting (Nat.not_le_of_lt hexceeds)
  · exact absurd htree hexceeds

end Reckon
