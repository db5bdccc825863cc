import Mathlib.Data.List.Basic
import Reckon.Proofs.Grammar
/-!
# Where a phrase ends

The parser looks one lexeme ahead.  A phrase ends before a lexeme that does not continue it: an
operator continues the levels that are open in the phrase, a question mark continues an expression,
and an opening parenthesis turns a name before it into a call.  `Phrase.Ends` says that a list of
lexemes read as a phrase ends before what follows; only the first lexeme that follows matters.
-/

namespace Reckon

namespace Phrase

/-- The levels of which another operator would continue the phrase. -/
def openLevels : Phrase → List Level
  | expression => Level.loosestFirst
  | levels ls => ls
  | chain level tighter _ => level :: tighter
  | primary | arguments _ _ _ => []

/-- The lexeme continues a phrase that could end before it. -/
def Continues (g : Phrase) (l : Lexeme) : Prop :=
  (∃ level ∈ g.openLevels, ∃ op, (l, op) ∈ level.spellings) ∨
    (g = expression ∧ l = .symbol .question)

/-- The lexemes `w`, read as a phrase, end before `rest`. -/
def Ends (g : Phrase) (w rest : List Placed) : Prop :=
  ∀ x ∈ rest.head?, ¬ g.Continues x.lexeme ∧
    (x.lexeme = .symbol .openParen → ∀ y ∈ w.getLast?, ∀ name, y.lexeme ≠ .identifier name)

variable {g h : Phrase} {v w rest : List Placed}

@[simp] theorem ends_nil : g.Ends w [] := by
  simp [Ends]

/-- Only the last lexeme of the phrase matters. -/
theorem Ends.of_getLast? (hend : g.Ends w rest) (hlast : v.getLast? = w.getLast?) :
    g.Ends v rest := by
  intro x hx
  rw [hlast]
  exact hend x hx

theorem Ends.append_left (hend : g.Ends w rest) (hne : w ≠ []) : g.Ends (v ++ w) rest :=
  hend.of_getLast? (List.getLast?_append_of_ne_nil v hne)

theorem Ends.cons_left {x : Placed} (hend : g.Ends w rest) (hne : w ≠ []) :
    g.Ends (x :: w) rest :=
  hend.append_left (v := [x]) hne

/-- The last part of a phrase ends where the phrase does; an empty part ends there as well. -/
theorem Ends.of_append_left {u : List Placed} (hend : g.Ends u rest) (hu : u = v ++ w) :
    g.Ends w rest := by
  intro x hx
  refine ⟨(hend x hx).1, fun hparen y hy => (hend x hx).2 hparen y ?_⟩
  have hne : w ≠ [] := by
    intro hnil
    subst hnil
    cases hy
  rwa [hu, List.getLast?_append_of_ne_nil v hne]

/-- A phrase ends wherever one ends that more lexemes continue. -/
theorem Ends.of_continues (hend : g.Ends w rest)
    (hsub : ∀ x ∈ rest.head?, h.Continues x.lexeme → g.Continues x.lexeme) : h.Ends w rest :=
  fun x hx => ⟨fun hcont => (hend x hx).1 (hsub x hx hcont), (hend x hx).2⟩

/-- A phrase with fewer open levels ends wherever one with more of them does. -/
theorem Ends.of_openLevels (hend : g.Ends w rest)
    (hopen : ∀ level ∈ h.openLevels, level ∈ g.openLevels) (hexpr : h ≠ expression) :
    h.Ends w rest := by
  refine hend.of_continues fun x _ hcont => ?_
  rcases hcont with ⟨level, hlevel, hop⟩ | ⟨hh, _⟩
  · exact .inl ⟨level, hopen level hlevel, hop⟩
  · exact absurd hh hexpr

/-- An operand ends wherever a chain of its operands does. -/
theorem Ends.tighter {level : Level} {tighter : List Level} {left : Expr}
    (hend : (chain level tighter left).Ends w rest) : (levels tighter).Ends w rest :=
  hend.of_openLevels (fun _ hl => List.mem_cons_of_mem _ hl) (by simp)

/-- An operand ends before an operator of a level that is not its own. -/
theorem ends_operator {level : Level} {tighter : List Level} {x : Placed} {op : BinaryOp}
    (hop : (x.lexeme, op) ∈ level.spellings) (hlevel : level ∉ tighter) :
    (levels tighter).Ends w (x :: rest) := by
  intro y hy
  obtain rfl : x = y := by simpa using hy
  constructor
  · intro hcont
    rcases hcont with ⟨l, hl, f, hf⟩ | ⟨hexpr, _⟩
    · exact hlevel (level_unique hop hf ▸ hl)
    · cases hexpr
  · intro hparen
    rw [hparen] at hop
    exact absurd hop (not_binary_of_symbol rfl)

/-- A phrase ends before a symbol that is no operator and opens nothing. -/
theorem ends_symbol {s : Symbol} {p : Nat} (hbinary : s.binary? = none)
    (hparen : s ≠ .openParen) (hquestion : g = expression → s ≠ .question) :
    g.Ends w (⟨.symbol s, p⟩ :: rest) := by
  intro y hy
  obtain rfl : ⟨.symbol s, p⟩ = y := by simpa using hy
  refine ⟨?_, fun h => absurd (Lexeme.symbol.inj h) hparen⟩
  intro hcont
  rcases hcont with ⟨l, _, op, hop⟩ | ⟨hexpr, hs⟩
  · exact not_binary_of_symbol hbinary hop
  · exact hquestion hexpr (Lexeme.symbol.inj hs)

/-- A phrase that no lexeme continues ends everywhere, unless it ends in a name. -/
theorem ends_of_not_name (hcont : ∀ l, ¬ g.Continues l)
    (hname : ∀ y ∈ w.getLast?, ∀ name, y.lexeme ≠ .identifier name) : g.Ends w rest :=
  fun _ _ => ⟨hcont _, fun _ => hname⟩

theorem not_continues_of_openLevels {l : Lexeme} (hopen : g.openLevels = [])
    (hexpr : g ≠ expression) : ¬ g.Continues l := by
  simp [Continues, hopen, hexpr]

/-! ### What a phrase carries -/

/-- The levels of a phrase are all levels from some level on, and the trees that it carries keep
the limit on operators. -/
def Fit : Phrase → Prop
  | expression | primary => True
  | levels ls => ls <:+ Level.loosestFirst
  | chain level tighter left =>
    level :: tighter <:+ Level.loosestFirst ∧ left.OperatorsWithin maxTreeHeight
  | arguments _ _ given => ∀ e ∈ given, e.OperatorsWithin maxTreeHeight

theorem fit_tighter {level : Level} {tighter : List Level}
    (h : level :: tighter <:+ Level.loosestFirst) :
    tighter <:+ Level.loosestFirst ∧ level ∉ tighter := by
  have hnodup : (level :: tighter).Nodup := h.sublist.nodup (by decide)
  exact ⟨(List.suffix_cons level tighter).trans h, (List.nodup_cons.mp hnodup).1⟩

end Phrase

/-! ### Derivations and boundaries -/

section Derivations

variable {w : List Placed} {e : Expr} {n : Nat}

/-- Only what continues a chain may be empty. -/
theorem Derives.ne_nil {g : Phrase} (h : Derives g w e n) (hg : ∀ l ls a, g ≠ .chain l ls a) :
    w ≠ [] := by
  induction h with
  | plain _ ih | operand _ ih => exact ih (by simp)
  | level _ _ ih _ => simp [ih (by simp)]
  | done => exact absurd rfl (hg _ _ _)
  | _ => simp

/-- What continues a chain is empty or starts with an operator of its level. -/
theorem Derives.chain_cases {level : Level} {tighter : List Level} {left : Expr}
    (h : Derives (.chain level tighter left) w e n) :
    w = [] ∨ ∃ x xs op, w = x :: xs ∧ (x.lexeme, op) ∈ level.spellings := by
  cases h with
  | done => exact .inl rfl
  | operator hop _ _ => exact .inr ⟨_, _, _, rfl, hop⟩

/-- The tree of a chain contains the tree that it continues. -/
theorem Derives.within_left {level : Level} {tighter : List Level} {left : Expr} {limit : Nat}
    (h : Derives (.chain level tighter left) w e n) (he : e.OperatorsWithin limit) :
    left.OperatorsWithin limit := by
  generalize hg : Phrase.chain level tighter left = g at h
  induction h generalizing left with
  | done => cases hg; exact he
  | operator _ _ _ _ ih =>
      cases hg
      exact ((Expr.operatorsWithin_binary _ _ _ _).mp (ih he rfl)).2.1
  | _ => cases hg

/-- The tree of a call contains the arguments that are carried. -/
theorem Derives.within_given {name : String} {p : Position} {given : List Expr} {limit : Nat}
    (h : Derives (.arguments name p given) w e n) (he : e.OperatorsWithin limit) :
    ∀ a ∈ given, a.OperatorsWithin limit := by
  generalize hg : Phrase.arguments name p given = g at h
  induction h generalizing given with
  | lastArgument =>
      cases hg
      rw [Expr.operatorsWithin_call] at he
      exact fun a ha => he a (List.mem_append_left _ ha)
  | argument _ _ _ ih =>
      cases hg
      exact fun a ha => ih he rfl a (List.mem_append_left _ ha)
  | _ => cases hg

/-- An operand of a chain ends before the rest of the chain. -/
theorem Derives.ends_operand {level : Level} {tighter : List Level} {left right : Expr}
    {xs rest : List Placed} (h : Derives (.chain level tighter left) w e n)
    (hfit : level :: tighter <:+ Level.loosestFirst)
    (hend : (Phrase.chain level tighter right).Ends (xs ++ w) rest) :
    (Phrase.levels tighter).Ends xs (w ++ rest) := by
  rcases h.chain_cases with rfl | ⟨x, ys, op, rfl, hop⟩
  · simpa using hend.tighter
  · exact Phrase.ends_operator hop (Phrase.fit_tighter hfit).2

end Derivations

end Reckon
