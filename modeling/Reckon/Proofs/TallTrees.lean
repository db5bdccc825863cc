import Mathlib.Data.List.Chain
import Reckon.Proofs.HeightBound
import Reckon.Proofs.RoundTrip
/-!
# Trees that are as high as they can be

The height of a parsed tree is bounded by the limit on operators, the nesting, and one node for each
condition that a way down enters.  There are texts for which all of these come together: a sum of
the greatest height is the argument of a call, the call is the condition of a conditional, and this
one is the argument of the next call.  Each round takes one nesting level and makes the tree two nodes
higher.

* `conditionTower` — the texts;
* `scanFrom_of_separated` — each of their characters is a lexeme;
* `conditionTower_compiles` — the heights of their trees.
-/

namespace Reckon

/-! ### The texts -/

/-- The sum of `n + 1` variables. -/
def sumText : Nat → List Char
  | 0 => ['a']
  | n + 1 => sumText n ++ ['+', 'a']

/-- Conditionals `n` deep, each in a call in the condition of the next one, around the longest sum
that is accepted. -/
def conditionTower : Nat → List Char
  | 0 => sumText 255
  | n + 1 => 'f' :: '(' :: (conditionTower n ++ [')', '?', 'a', ':', 'a'])

/-! ### Characters that are lexemes -/

/-- What a character is by itself: a symbol, or else a word. -/
def loneLexeme (c : Char) : Lexeme :=
  match symbolOfOne? c with
  | some s => .symbol s
  | none => readWord [c]

/-- A text of which every character is a lexeme. -/
def loneLexemes (start : Nat) (text : List Char) : List Placed :=
  (text.zipIdx start).map fun (c, i) => ⟨loneLexeme c, i⟩

/-- A text over the characters of the towers in which no two letters meet. -/
structure Separated (text : List Char) : Prop where
  plain : ∀ c ∈ text, c ∈ ['a', 'f', '+', '(', ')', '?', ':']
  apart : text.IsChain fun c d => startsWord c = false ∨ continuesWord d = false

/-- A symbol of one character that begins no longer one is a lexeme, whatever follows it. -/
theorem munch_lone_symbol {c : Char} {s : Symbol} (hone : symbolOfOne? c = some s)
    (htwo : ∀ d, symbolOfTwo? c d = none) (cs : List Char) :
    munch c cs = ⟨.lexeme (.symbol s), [c], cs⟩ := by
  have hclass : isLayout c = false ∧ isNumeric c = false ∧ startsWord c = false ∧ c ≠ '"' := by
    unfold symbolOfOne? at hone
    split at hone <;> first | decide | cases hone
  obtain ⟨hlayout, hnumeric, hword, hquote⟩ := hclass
  have hnone : cs.head?.bind (symbolOfTwo? c) = none := by
    cases cs with
    | nil => rfl
    | cons d ds => exact htwo d
  simp [munch, munchSymbol, hlayout, hnumeric, hword, hquote, hnone, hone]

/-- A letter is a word if nothing continues it. -/
theorem munch_lone_letter {c : Char} {cs : List Char} (hlayout : isLayout c = false)
    (hnumeric : isNumeric c = false) (hword : startsWord c = true)
    (hend : ∀ d ∈ cs.head?, continuesWord d = false) :
    munch c cs = ⟨.lexeme (readWord [c]), [c], cs⟩ := by
  have hrun : cs.takeWhile continuesWord = [] ∧ cs.dropWhile continuesWord = cs := by
    cases cs with
    | nil => simp
    | cons d ds => simp [hend d (by simp)]
  simp [munch, munchRun, hlayout, hnumeric, hword, hrun]

/-- The first character of a separated text is a lexeme by itself. -/
theorem munch_of_separated {c : Char} {cs : List Char} (h : Separated (c :: cs)) :
    munch c cs = ⟨.lexeme (loneLexeme c), [c], cs⟩ ∧ c.utf8Size = 1 := by
  have hend (hword : startsWord c = true) : ∀ d ∈ cs.head?, continuesWord d = false := by
    cases cs with
    | nil => simp
    | cons d ds => simpa [hword] using (List.isChain_cons_cons.mp h.apart).1
  have hc := h.plain c (by simp)
  simp only [List.mem_cons, List.not_mem_nil, or_false] at hc
  rcases hc with rfl | rfl | rfl | rfl | rfl | rfl | rfl
  · exact ⟨munch_lone_letter rfl rfl rfl (hend rfl), rfl⟩
  · exact ⟨munch_lone_letter rfl rfl rfl (hend rfl), rfl⟩
  all_goals exact ⟨munch_lone_symbol rfl (by simp [symbolOfTwo?]) cs, rfl⟩

theorem scanFrom_of_separated {text : List Char} (h : Separated text) (start : Nat) :
    scanFrom false start text = ⟨loneLexemes start text, none, none⟩ := by
  induction text generalizing start with
  | nil => simp [scanFrom, loneLexemes]
  | cons c cs ih =>
      obtain ⟨hmunch, hsize⟩ := munch_of_separated h
      have hrest : Separated cs :=
        ⟨fun d hd => h.plain d (List.mem_cons_of_mem _ hd), h.apart.of_cons⟩
      have hstop : (String.ofList [c]).utf8ByteSize = 1 := by
        rw [← String.singleton_eq_ofList, String.utf8ByteSize_singleton, hsize]
      rw [scanFrom, hmunch]
      simp only [hstop, ih hrest]
      rfl

theorem separated_sumText (n : Nat) : Separated (sumText n) := by
  induction n with
  | zero => exact ⟨by simp [sumText], by simp [sumText]⟩
  | succ n ih =>
      constructor
      · simpa [sumText, or_imp, forall_and] using ih.plain
      · refine List.isChain_append.mpr ⟨ih.apart, by simp [startsWord], ?_⟩
        simp [continuesWord]

theorem separated_conditionTower (n : Nat) : Separated (conditionTower n) := by
  induction n with
  | zero => exact separated_sumText 255
  | succ n ih =>
      have hinner : (conditionTower n ++ [')', '?', 'a', ':', 'a']).IsChain
          fun c d => startsWord c = false ∨ continuesWord d = false := by
        refine List.isChain_append.mpr ⟨ih.apart, by simp [startsWord, continuesWord], ?_⟩
        simp [continuesWord]
      constructor
      · simpa [conditionTower, or_imp, forall_and] using ih.plain
      · refine List.isChain_cons_cons.mpr ⟨by simp [continuesWord], ?_⟩
        exact List.isChain_cons.mpr ⟨by simp [startsWord], hinner⟩

/-! ### Their trees -/

theorem loneLexemes_append (start : Nat) (s t : List Char) :
    loneLexemes start (s ++ t) = loneLexemes start s ++ loneLexemes (start + s.length) t := by
  simp [loneLexemes, List.zipIdx_append]

theorem derives_variable (ls : List Level) (p : Nat) :
    Derives (.levels ls) (loneLexemes p ['a']) (.var "a" (.byte p)) 0 :=
  Derives.var.of_primary ls

theorem sumText_derives (n : Nat) (hn : n < maxTreeHeight) (start : Nat) :
    ∃ e, Derives (.levels [.additive, .multiplicative]) (loneLexemes start (sumText n)) e 0 ∧
      e.height = n + 1 ∧ e.OperatorsWithin maxTreeHeight := by
  induction n with
  | zero => exact ⟨_, derives_variable _ start, by simp, by simp⟩
  | succ n ih =>
      obtain ⟨left, hleft, hheight, hwithin⟩ := ih (by omega)
      have hop : (Lexeme.symbol .plus, BinaryOp.add) ∈ Level.additive.spellings := by decide
      obtain ⟨p, hp⟩ : ∃ p, p = start + (sumText n).length := ⟨_, rfl⟩
      refine ⟨.binary .add left (.var "a" (.byte (p + 1))) (.byte p), ?_, ?_, ?_⟩
      · rw [sumText, loneLexemes_append, ← hp]
        exact Derives.binary (x := ⟨.symbol .plus, p⟩) hop hleft (derives_variable _ (p + 1))
      · simp [hheight]
      · simp [hheight, hwithin]
        omega

/-- Each conditional makes the tree of a tower two nodes higher. -/
theorem conditionTower_derives (n start : Nat) :
    ∃ e, Derives .expression (loneLexemes start (conditionTower n)) e n ∧
      e.height = maxTreeHeight + 2 * n ∧ e.OperatorsWithin maxTreeHeight := by
  induction n generalizing start with
  | zero =>
      obtain ⟨e, hderives, hheight, hwithin⟩ := sumText_derives 255 (by decide) start
      exact ⟨e, .plain (hderives.of_suffix (by decide)), hheight, hwithin⟩
  | succ n ih =>
      obtain ⟨inner, hinner, hheight, hwithin⟩ := ih (start + 2)
      obtain ⟨p, hp⟩ : ∃ p, p = start + 2 + (conditionTower n).length := ⟨_, rfl⟩
      have hcall : Derives .primary
          (⟨.identifier "f", start⟩ :: ⟨.symbol .openParen, start + 1⟩ ::
            (loneLexemes (start + 2) (conditionTower n) ++ [⟨.symbol .closeParen, p⟩]))
          (.call "f" [inner] (.byte start)) (1 + n) :=
        .call (.lastArgument hinner)
      have hwhole := Derives.conditional (p := p + 1) (q := p + 3) (hcall.of_primary _)
        (.plain (derives_variable _ (p + 2))) (.plain (derives_variable _ (p + 4)))
      have htext : loneLexemes start (conditionTower (n + 1)) =
          (⟨.identifier "f", start⟩ :: ⟨.symbol .openParen, start + 1⟩ ::
            (loneLexemes (start + 2) (conditionTower n) ++ [⟨.symbol .closeParen, p⟩])) ++
          ⟨.symbol .question, p + 1⟩ :: (loneLexemes (p + 2) ['a'] ++
            ⟨.symbol .colon, p + 3⟩ :: loneLexemes (p + 4) ['a']) := by
        have hfront (text : List Char) : loneLexemes start ('f' :: '(' :: text) =
            ⟨.identifier "f", start⟩ :: ⟨.symbol .openParen, start + 1⟩ ::
              loneLexemes (start + 2) text := rfl
        rw [conditionTower, hfront, loneLexemes_append, ← hp, List.cons_append, List.cons_append,
          List.append_assoc]
        rfl
      have hnesting : max (1 + n) (1 + max 0 0) = n + 1 := by omega
      rw [← htext, hnesting] at hwhole
      refine ⟨_, hwhole, ?_, by simp [hwithin]⟩
      have hcallHeight : (Expr.call "f" [inner] (.byte start)).height = inner.height + 1 := by
        simp [Expr.height_eq_longestPath, Expr.longestPath, Expr.longestPathAll]
      simp only [Expr.height_conditional, Expr.height_var, hcallHeight, hheight]
      omega

/-- **The bound is attained.** -/
theorem conditionTower_compiles (n : Nat) (hn : n ≤ maxNesting) :
    ∃ c, compile (String.ofList (conditionTower n)) false = .ok c ∧
      c.expr.height = maxTreeHeight + 2 * n := by
  obtain ⟨e, hderives, hheight, hwithin⟩ := conditionTower_derives n 0
  have hscan : scan (String.ofList (conditionTower n)) false =
      ⟨loneLexemes 0 (conditionTower n), none, none⟩ := by
    rw [scan, String.toList_ofList]
    exact scanFrom_of_separated (separated_conditionTower n) 0
  refine ⟨⟨e, none⟩, compile_eq_ok_iff.mpr ?_, hheight⟩
  rw [hscan]
  exact ⟨rfl, (parseLexemes_eq_ok_iff _ _).mpr ⟨n, hderives, hn, hwithin⟩, rfl⟩

/-- **Conditions are not counted.**  A tree can be higher than the two limits and one more node, here
with 33 conditions on one way. -/
theorem tower_of_33_conditions_above_both_limits :
    ∃ c, compile (String.ofList (conditionTower 33)) false = .ok c ∧
      ¬ c.expr.height ≤ maxTreeHeight + maxNesting + 1 := by
  obtain ⟨c, hcompile, hheight⟩ := conditionTower_compiles 33 (by decide)
  refine ⟨c, hcompile, ?_⟩
  rw [hheight]
  decide

end Reckon
