import Reckon.Proofs.ParserExactness
import Reckon.Proofs.Sentences
import Reckon.Proofs.WrittenForm
/-!
# Writing a tree down and reading it again

What is written for a tree derives the tree, up to positions, and nests exactly as much as
`Expr.nesting` says.  No other derivation of the tree nests less: parentheses that are needed are in
every text of the tree, and `written` has no others.  So a tree that was read is written down
within the limits that its text kept.

* `Expr.writable` — the written form derives its tree;
* `Derives.nesting_le` — the written form of a tree nests no deeper than any derivation of it;
* `parseLexemes_written` — the round trip.
-/

namespace Reckon

/-! ### Composed derivations -/

/-- A chain of some levels is a chain of looser ones as well. -/
theorem Derives.of_suffix {ls looser : List Level} {xs : List Placed} {e : Expr} {n : Nat}
    (h : Derives (.levels ls) xs e n) (hls : ls <:+ looser) : Derives (.levels looser) xs e n := by
  obtain ⟨before, rfl⟩ := hls
  induction before with
  | nil => exact h
  | cons level before ih => simpa using ih.level .done

/-- A chain goes on with one more operator and its operand. -/
theorem Derives.snoc {level : Level} {tighter : List Level} {left e right : Expr} {x : Placed}
    {op : BinaryOp} {ys zs : List Placed} {m n : Nat}
    (h : Derives (.chain level tighter left) ys e n) (hop : (x.lexeme, op) ∈ level.spellings)
    (operand : Derives (.levels tighter) zs right m) :
    Derives (.chain level tighter left) (ys ++ x :: zs) (.binary op e right x.position)
      (max n m) := by
  generalize hg : Phrase.chain level tighter left = g at h
  induction h generalizing left with
  | done =>
      cases hg
      simpa using Derives.operator hop operand .done
  | operator hop' operand' _ _ ih =>
      cases hg
      simpa [Nat.max_assoc] using Derives.operator hop' operand' (ih rfl)
  | _ => cases hg

/-- An operator between a chain of its level and an operand of the tighter levels. -/
theorem Derives.binary {level : Level} {tighter : List Level} {left right : Expr} {x : Placed}
    {op : BinaryOp} {ys zs : List Placed} {m n : Nat} (hop : (x.lexeme, op) ∈ level.spellings)
    (first : Derives (.levels (level :: tighter)) ys left n)
    (second : Derives (.levels tighter) zs right m) :
    Derives (.levels (level :: tighter)) (ys ++ x :: zs) (.binary op left right x.position)
      (max n m) := by
  cases first with
  | level first others =>
      simpa [Nat.max_assoc] using first.level (others.snoc hop second)

/-! ### The written form derives its tree -/

/-- The lexemes derive a tree that is equal to `e` up to positions. -/
def DerivesShape (g : Phrase) (xs : List Placed) (e : Expr) (n : Nat) : Prop :=
  ∃ e', e'.SameShape e ∧ Derives g xs e' n

/-- The written form of a tree derives the tree, as an expression and at every place where it
fits. -/
structure Expr.Writable (s : Spelling) (e : Expr) : Prop where
  whole : ∀ xs : List Placed, xs.map Placed.lexeme = e.written s →
    DerivesShape .expression xs e e.nesting
  fitting : ∀ (ls : List Level) (xs : List Placed), ls <:+ Level.loosestFirst →
    e.fits ls = true → xs.map Placed.lexeme = e.written s →
      DerivesShape (.levels ls) xs e e.nesting

namespace Expr

variable {s : Spelling}

/-- What fits among all levels is an expression. -/
theorem Writable.of_fitting {e : Expr} (hfits : e.fits Level.loosestFirst = true)
    (h : ∀ (ls : List Level) (xs : List Placed), ls <:+ Level.loosestFirst →
      e.fits ls = true → xs.map Placed.lexeme = e.written s →
        DerivesShape (.levels ls) xs e e.nesting) : e.Writable s := by
  refine ⟨fun xs hxs => ?_, h⟩
  obtain ⟨e', hshape, hderives⟩ := h _ xs (List.suffix_refl _) hfits hxs
  exact ⟨e', hshape, .plain hderives⟩

/-- A primary phrase fits everywhere. -/
theorem Writable.of_primary {e : Expr} (hfits : ∀ ls, e.fits ls = true)
    (h : ∀ xs : List Placed, xs.map Placed.lexeme = e.written s →
      DerivesShape .primary xs e e.nesting) : e.Writable s := by
  refine .of_fitting (hfits _) fun ls xs _ _ hxs => ?_
  obtain ⟨e', hshape, hderives⟩ := h xs hxs
  exact ⟨e', hshape, hderives.of_primary ls⟩

/-- With the parentheses that it needs, the written form stands at any place. -/
theorem Writable.enclosed {e : Expr} (h : e.Writable s) {ls : List Level} {xs : List Placed}
    (hls : ls <:+ Level.loosestFirst)
    (hxs : xs.map Placed.lexeme = enclose (e.fits ls) (e.written s)) :
    DerivesShape (.levels ls) xs e (e.nestingAt ls) := by
  by_cases hfits : e.fits ls = true
  · rw [nestingAt_eq_of_fits hfits]
    exact h.fitting ls xs hls hfits (by simpa [enclose, hfits] using hxs)
  · simp only [enclose, hfits] at hxs
    obtain ⟨p, ys, rfl, hys⟩ := eq_cons_of_map_lexeme hxs
    obtain ⟨inside, close, rfl, hinside, hclose⟩ := List.map_eq_append_iff.mp hys
    obtain ⟨q, zs, rfl, hzs⟩ := eq_cons_of_map_lexeme hclose
    obtain rfl := List.map_eq_nil_iff.mp hzs
    obtain ⟨e', hshape, hderives⟩ := h.whole inside hinside
    have hnesting : e.nestingAt ls = 1 + e.nesting := by simp [nestingAt, encloseNesting, hfits]
    exact ⟨e', hshape, hnesting ▸ (Derives.group hderives).of_primary ls⟩

theorem writable_unary (op : UnaryOp) {a : Expr} (p : Position) (ha : a.Writable s) :
    (unary op a p).Writable s := by
  refine .of_fitting rfl fun ls xs hls _ hxs => ?_
  obtain ⟨q, ys, rfl, hys⟩ := eq_cons_of_map_lexeme hxs
  obtain ⟨a', hshape, hderives⟩ := ha.enclosed List.nil_suffix hys
  have hprefixed := Derives.prefixed (x := ⟨s.prefixed op, q⟩) (s.prefixed_mem op) hderives
  refine ⟨_, ?_, hprefixed.of_suffix List.nil_suffix⟩
  exact congrArg (unary op · .endOfInput) hshape

theorem writable_binary (op : BinaryOp) {a b : Expr} (p : Position) (ha : a.Writable s)
    (hb : b.Writable s) : (binary op a b p).Writable s := by
  refine .of_fitting (by simp [fits, Level.mem_loosestFirst]) fun ls xs hls hfits hxs => ?_
  have hlevel := Level.andTighter_suffix hls (by simpa [fits] using hfits)
  have htail := (List.tail_suffix op.level.andTighter).trans (hlevel.trans hls)
  obtain ⟨ys, rest, rfl, hys, hrest⟩ := List.map_eq_append_iff.mp hxs
  obtain ⟨q, zs, rfl, hzs⟩ := eq_cons_of_map_lexeme hrest
  obtain ⟨a', hashape, haderives⟩ := ha.enclosed (hlevel.trans hls) hys
  obtain ⟨b', hbshape, hbderives⟩ := hb.enclosed htail hzs
  rw [Level.andTighter_eq_cons] at haderives
  have hbinary := Derives.binary (x := ⟨s.binary op, q⟩) (s.binary_mem op) haderives hbderives
  rw [← Level.andTighter_eq_cons] at hbinary
  refine ⟨_, ?_, hbinary.of_suffix hlevel⟩
  exact congrArg₂ (binary op · · .endOfInput) hashape hbshape

theorem writable_conditional {c y n : Expr} (p : Position) (hc : c.Writable s)
    (hy : y.Writable s) (hn : n.Writable s) : (conditional c y n p).Writable s := by
  refine ⟨fun xs hxs => ?_, fun ls xs _ hfits => absurd hfits (by simp [fits])⟩
  obtain ⟨cs, branches, rfl, hcs, hbranches⟩ := List.map_eq_append_iff.mp hxs
  obtain ⟨q, inside, rfl, hinside⟩ := eq_cons_of_map_lexeme hbranches
  obtain ⟨ys, others, rfl, hys, hothers⟩ := List.map_eq_append_iff.mp hinside
  obtain ⟨r, ns, rfl, hns⟩ := eq_cons_of_map_lexeme hothers
  obtain ⟨c', hcshape, hcderives⟩ := hc.enclosed (List.suffix_refl _) hcs
  obtain ⟨y', hyshape, hyderives⟩ := hy.whole ys hys
  obtain ⟨n', hnshape, hnderives⟩ := hn.whole ns hns
  refine ⟨_, ?_, .conditional hcderives hyderives hnderives⟩
  unfold SameShape unplaced
  rw [hcshape, hyshape, hnshape]

/-- The arguments of a call are derived one by one, after the ones that are given. -/
theorem derives_arguments {args : List Expr} (hargs : ∀ a ∈ args, a.Writable s) (hne : args ≠ [])
    {xs : List Placed} (hxs : xs.map Placed.lexeme = writtenAll s args ++ [.symbol .closeParen])
    (name : String) (p : Position) (given : List Expr) :
    ∃ args', args'.map unplaced = args.map unplaced ∧
      Derives (.arguments name p given) xs (.call name (given ++ args') p) (nestingAll args) := by
  induction args generalizing xs given with
  | nil => exact absurd rfl hne
  | cons a args ih =>
      have ha := hargs a (by simp)
      cases args with
      | nil =>
          obtain ⟨ys, close, rfl, hys, hclose⟩ := List.map_eq_append_iff.mp hxs
          obtain ⟨q, zs, rfl, hzs⟩ := eq_cons_of_map_lexeme hclose
          obtain rfl := List.map_eq_nil_iff.mp hzs
          obtain ⟨a', hshape, hderives⟩ := ha.whole ys hys
          have hshape : a'.unplaced = a.unplaced := hshape
          exact ⟨[a'], by simp [hshape], by simpa [nestingAll] using hderives.lastArgument⟩
      | cons b args =>
          simp only [writtenAll, List.append_assoc, List.cons_append] at hxs
          obtain ⟨ys, others, rfl, hys, hothers⟩ := List.map_eq_append_iff.mp hxs
          obtain ⟨q, zs, rfl, hzs⟩ := eq_cons_of_map_lexeme hothers
          obtain ⟨a', hshape, hderives⟩ := ha.whole ys hys
          obtain ⟨args', hshapes, hrest⟩ := ih (fun c hc => hargs c (List.mem_cons_of_mem _ hc))
            (by simp) hzs (given ++ [a'])
          have hshape : a'.unplaced = a.unplaced := hshape
          refine ⟨a' :: args', by simp [hshape, hshapes], ?_⟩
          simpa [nestingAll] using Derives.argument (q := q) hderives hrest

theorem writable_call (name : String) {args : List Expr} (p : Position)
    (hargs : ∀ a ∈ args, a.Writable s) : (call name args p).Writable s := by
  refine .of_primary (fun _ => rfl) fun xs hxs => ?_
  obtain ⟨q, ys, rfl, hys⟩ := eq_cons_of_map_lexeme hxs
  obtain ⟨r, zs, rfl, hzs⟩ := eq_cons_of_map_lexeme hys
  by_cases hne : args = []
  · subst hne
    obtain ⟨t, ws, rfl, hws⟩ := eq_cons_of_map_lexeme hzs
    obtain rfl := List.map_eq_nil_iff.mp hws
    exact ⟨.call name [] (.byte q), rfl, .emptyCall⟩
  · obtain ⟨args', hshapes, hderives⟩ := derives_arguments hargs hne hzs name (.byte q) []
    refine ⟨_, ?_, .call hderives⟩
    simp [SameShape, unplaced, hshapes]

/-- **What is written derives its tree.** -/
theorem writable (s : Spelling) (e : Expr) : e.Writable s := by
  induction e using induction with
  | literal v p =>
      refine .of_primary (fun _ => rfl) fun xs hxs => ?_
      obtain ⟨q, ys, rfl, hys⟩ := eq_cons_of_map_lexeme hxs
      obtain rfl := List.map_eq_nil_iff.mp hys
      exact ⟨.literal v (.byte q), rfl, .literal (x := ⟨v.lexeme, q⟩) v.literal?_lexeme⟩
  | var name p =>
      refine .of_primary (fun _ => rfl) fun xs hxs => ?_
      obtain ⟨q, ys, rfl, hys⟩ := eq_cons_of_map_lexeme hxs
      obtain rfl := List.map_eq_nil_iff.mp hys
      exact ⟨.var name (.byte q), rfl, .var⟩
  | unary op a p ha => exact writable_unary op p ha
  | binary op a b p ha hb => exact writable_binary op p ha hb
  | conditional c y n p hc hy hn => exact writable_conditional p hc hy hn
  | call name args p hargs => exact writable_call name p hargs

end Expr

/-! ### The written form nests least -/

/-- How deep the written form of the tree of a phrase may nest, when the phrase nests `n` levels. -/
def Phrase.WrittenWithin : Phrase → Expr → Nat → Prop
  | expression, e, n => e.nesting ≤ n
  | levels ls, e, n => ls <:+ Level.loosestFirst → e.nestingAt ls ≤ n
  | chain level tighter left, e, n =>
    level :: tighter <:+ Level.loosestFirst →
      e.nestingAt (level :: tighter) ≤ max (left.nestingAt (level :: tighter)) n
  | primary, e, n => e.nestingAt [] ≤ n
  | arguments _ _ given, e, n => e.nestingAt [] ≤ 1 + max (Expr.nestingAll given) n

/-- The operands of an operator stand at the places of its level. -/
theorem nestingAt_binary {level : Level} {tighter : List Level}
    (hls : level :: tighter <:+ Level.loosestFirst) {op : BinaryOp} (hop : op.level = level)
    (left right : Expr) (p : Position) :
    (Expr.binary op left right p).nestingAt (level :: tighter) =
      max (left.nestingAt (level :: tighter)) (right.nestingAt tighter) := by
  subst hop
  have hlevels := Level.eq_andTighter hls
  have hfits : (Expr.binary op left right p).fits (op.level :: tighter) = true := by
    simp [Expr.fits]
  rw [Expr.nestingAt_eq_of_fits hfits, Expr.nesting, ← hlevels]
  rfl

/-- **No text of a tree nests less than its written form.** -/
theorem Derives.writtenWithin {g : Phrase} {xs : List Placed} {e : Expr} {n : Nat}
    (h : Derives g xs e n) : g.WrittenWithin e n := by
  induction h with
  | @plain xs e n whole ih =>
      have hle : e.nestingAt Level.loosestFirst ≤ n := ih (List.suffix_refl _)
      exact Nat.le_trans (e.nesting_le_nestingAt _) hle
  | @conditional cs ys ns c y n k l m p q _ _ _ ihc ihy ihn =>
      have hc : c.nestingAt Level.loosestFirst ≤ k := ihc (List.suffix_refl _)
      have hy : y.nesting ≤ l := ihy
      have hn : n.nesting ≤ m := ihn
      change max (c.nestingAt Level.loosestFirst) (1 + max y.nesting n.nesting) ≤ _
      omega
  | operand _ ih => exact fun _ => ih
  | @prefixed x xs op e n _ _ ih =>
      intro _
      have he : e.nestingAt [] ≤ n := ih List.nil_suffix
      change 1 + e.nestingAt [] ≤ 1 + n
      omega
  | @level level tighter xs ys left e m n _ _ ihf iho =>
      intro hls
      have hleft : left.nestingAt tighter ≤ m := ihf (Phrase.fit_tighter hls).1
      have hothers : e.nestingAt (level :: tighter) ≤
          max (left.nestingAt (level :: tighter)) n := iho hls
      have hlooser := Expr.nestingAt_antitone (List.subset_cons_self level tighter) left
      omega
  | done => exact fun _ => Nat.le_max_left _ _
  | @operator level tighter left right e x op xs ys m n hop _ _ iho ihr =>
      intro hls
      have hright : right.nestingAt tighter ≤ m := iho (Phrase.fit_tighter hls).1
      have hothers : e.nestingAt (level :: tighter) ≤
        max ((Expr.binary op left right x.position).nestingAt (level :: tighter)) n := ihr hls
      rw [nestingAt_binary hls (level_of_mem_spellings hop)] at hothers
      omega
  | literal | var => exact Nat.le_refl _
  | emptyCall => exact Nat.le_refl _
  | @call name p q xs e n _ ih =>
      have he : e.nestingAt [] ≤ 1 + max (Expr.nestingAll []) n := ih
      simpa [Phrase.WrittenWithin, Expr.nestingAll] using he
  | @group p q xs e n _ ih =>
      have he : e.nesting ≤ n := ih
      have hle := e.nestingAt_le_succ []
      change e.nestingAt [] ≤ 1 + n
      omega
  | @lastArgument name p given q xs a n _ ih =>
      have ha : a.nesting ≤ n := ih
      change 1 + Expr.nestingAll (given ++ [a]) ≤ 1 + max (Expr.nestingAll given) n
      rw [Expr.nestingAll_append]
      simp only [Expr.nestingAll]
      omega
  | @argument name p given q xs ys a e m n _ _ ih iho =>
      have ha : a.nesting ≤ m := ih
      have he : e.nestingAt [] ≤ 1 + max (Expr.nestingAll (given ++ [a])) n := iho
      rw [Expr.nestingAll_append] at he
      simp only [Expr.nestingAll] at he
      change e.nestingAt [] ≤ 1 + max (Expr.nestingAll given) (max m n)
      omega

/-! ### The round trip -/

/-- What is written for a tree within the limits is read as the tree. -/
theorem parseLexemes_of_written {s : Spelling} {e : Expr} {xs : List Placed}
    (hxs : xs.map Placed.lexeme = e.written s) (htree : e.OperatorsWithin maxTreeHeight)
    (hnesting : e.nesting ≤ maxNesting) : ∃ e', parseLexemes xs = .ok e' ∧ e'.SameShape e := by
  obtain ⟨e', hshape, hderives⟩ := (e.writable s).whole xs hxs
  rcases hderives.parseLexemes_okUnless with hok | ⟨hexceeds | hexceeds, _⟩
  · exact ⟨e', hok, hshape⟩
  · exact absurd hnesting (Nat.not_le_of_lt hexceeds)
  · exact absurd (hshape.operatorsWithin_iff.mpr htree) hexceeds

/-- **The round trip.**  A tree whose operators have a height of at most 256, and which is written
with at most 64 levels of nesting, is read from what is written, up to positions.  And every tree
that was read is read again from what is written for it. -/
theorem parseLexemes_written (s : Spelling) :
    (∀ (e : Expr) (xs : List Placed), xs.map Placed.lexeme = e.written s →
        e.OperatorsWithin 256 → e.nesting ≤ 64 →
          ∃ e', parseLexemes xs = .ok e' ∧ e'.SameShape e) ∧
      ∀ (xs ys : List Placed) (e : Expr), parseLexemes xs = .ok e →
        ys.map Placed.lexeme = e.written s →
          ∃ e', parseLexemes ys = .ok e' ∧ e'.SameShape e := by
  refine ⟨fun e xs hxs htree hnesting => parseLexemes_of_written hxs htree hnesting, ?_⟩
  intro xs ys e hread hys
  obtain ⟨n, hderives, hle, htree⟩ := derives_of_parseLexemes hread
  have hwritten : e.nesting ≤ n := hderives.writtenWithin
  exact parseLexemes_of_written hys htree (Nat.le_trans hwritten hle)

/-- A sum under a product keeps its parentheses, and a variable loses them. -/
theorem product_of_sum_and_group_read_back :
    (∃ e', parseLexemes
        [⟨.identifier "a", 0⟩, ⟨.symbol .star, 2⟩, ⟨.symbol .openParen, 4⟩, ⟨.identifier "b", 5⟩,
          ⟨.symbol .plus, 7⟩, ⟨.identifier "c", 9⟩, ⟨.symbol .closeParen, 10⟩] = .ok e' ∧
      e'.SameShape
        (.binary .multiply (.var "a" (.byte 0))
          (.binary .add (.var "b" (.byte 5)) (.var "c" (.byte 9)) (.byte 7)) (.byte 2))) ∧
      ∃ e', parseLexemes [⟨.identifier "a", 0⟩] = .ok e' ∧ e'.SameShape (.var "a" (.byte 1)) := by
  refine ⟨(parseLexemes_written .marks).1 _ _ rfl (by simp) (by decide), ?_⟩
  exact (parseLexemes_written .marks).2
    [⟨.symbol .openParen, 0⟩, ⟨.identifier "a", 1⟩, ⟨.symbol .closeParen, 2⟩] _ _ (by cbv) rfl

end Reckon
