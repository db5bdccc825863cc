import Reckon.Proofs.Enclosures
import Reckon.Proofs.OperatorChains
/-!
# Where a limit is crossed

The parser has a budget of nesting levels and no record of what it stands inside of, and it compares
heights while it reads.  Both are tied here to the lexemes before a stop.  At every goal, the budget
and the constructs that are open before it make up the limit on nesting; and the left operand of a
chain is what the lexemes from the start of the chain are read as.  So a stop at a limit is at a
lexeme that opens one construct too many, or at an operator whose operands are complete, keep the
limit on heights, and break it together.

* `OperandPlace` — where a chain of some levels may start, and how many constructs are open there;
* `Goal.Leads.stands` — one step of the parser keeps the account;
* `Goal.Halts.opens`, `Goal.Halts.breaks` — a stop at either limit;
* `nestingTooDeep_crosses_limit` — the error of a list of lexemes.
-/

namespace Reckon

open Enclosure

/-! ### Places of operands -/

/-- Behind the first lexemes of an expression, an operand of the given levels starts, inside of
`depth` constructs.  No operator of these levels stands before it, so that a chain starts here. -/
structure OperandPlace (depth : Nat) (ls : List Level) (before : List Placed) : Prop where
  expecting : (around before).expecting = true
  length_eq : (around before).enclosing.length = depth
  /-- Only an operand without binary operators stands directly inside of a prefix operator. -/
  apart : ls ≠ [] → (around before).enclosing.head? ≠ some operand
  last : ∀ y ∈ before.getLast?, ∀ level ∈ ls, ∀ op, (y.lexeme, op) ∉ level.spellings

theorem around_append (xs ys : List Placed) :
    around (xs ++ ys) = (around xs).passAll ys :=
  Surroundings.passAll_append _ xs ys

theorem around_concat (xs : List Placed) (x : Placed) :
    around (xs ++ [x]) = (around xs).pass x.lexeme :=
  around_append xs [x]

namespace OperandPlace

variable {depth : Nat} {ls : List Level} {before w : List Placed} {e : Expr} {n : Nat}

/-- The surroundings of the place. -/
theorem around_eq (h : OperandPlace depth ls before) :
    around before = ⟨(around before).enclosing, true⟩ := by
  rw [← h.expecting]

/-- Behind a symbol that is no operator, a new chain of any levels starts. -/
theorem of_symbol (ls : List Level) {xs : List Placed} {s : Symbol} {p : Nat} {es : List Enclosure}
    (hs : s.binary? = none) (haround : around (xs ++ [⟨.symbol s, p⟩]) = ⟨es, true⟩)
    (hhead : es.head? ≠ some operand) :
    OperandPlace es.length ls (xs ++ [⟨.symbol s, p⟩]) := by
  refine ⟨by rw [haround], by rw [haround], fun _ => by rwa [haround], ?_⟩
  intro y hy level _ op hop
  obtain rfl : ⟨.symbol s, p⟩ = y := by simpa using hy
  exact not_binary_of_symbol hs hop

/-- Inside of a prefix operator, an operand without binary operators starts. -/
theorem inside_prefix (h : OperandPlace depth [] before) {x : Placed} {op : UnaryOp}
    (hop : (x.lexeme, op) ∈ UnaryOp.spellings) : OperandPlace (depth + 1) [] (before ++ [x]) := by
  have haround : around (before ++ [x]) = ⟨operand :: (around before).enclosing, true⟩ := by
    rw [around_concat, h.around_eq, Surroundings.pass_prefix hop]
  exact ⟨by rw [haround], by rw [haround, List.length_cons, h.length_eq], by simp, by simp⟩

/-- A name may be a whole operand or have arguments behind it, and so it leaves everything open. -/
theorem around_name (h : OperandPlace depth ls before) (name : String) (p : Nat) :
    around (before ++ [⟨.identifier name, p⟩]) = ⟨(around before).enclosing, false⟩ := by
  rw [around_concat, h.around_eq]
  rfl

/-- The arguments of a call start inside of its parentheses. -/
theorem inside_call (h : OperandPlace depth ls before) (name : String) (p q : Nat) :
    OperandPlace (depth + 1) Level.loosestFirst
        (before ++ [⟨.identifier name, p⟩] ++ [⟨.symbol .openParen, q⟩]) ∧
      (around (before ++ [⟨.identifier name, p⟩] ++ [⟨.symbol .openParen, q⟩])).enclosing.head? =
        some parentheses := by
  have hopen : around (before ++ [⟨.identifier name, p⟩] ++ [⟨.symbol .openParen, q⟩]) =
      ⟨parentheses :: (around before).enclosing, true⟩ := by
    rw [around_concat, h.around_name]
    rfl
  have hinside := of_symbol Level.loosestFirst rfl hopen (by simp)
  rw [List.length_cons, h.length_eq] at hinside
  exact ⟨hinside, by rw [hopen]; rfl⟩

theorem tighter {level : Level} {ls : List Level} (h : OperandPlace depth (level :: ls) before) :
    OperandPlace depth ls before :=
  ⟨h.expecting, h.length_eq, fun _ => h.apart (by simp),
    fun y hy l hl => h.last y hy l (List.mem_cons_of_mem level hl)⟩

/-- Behind a chain, prefix operators may be open. -/
theorem around_levels (h : OperandPlace depth ls before) (hw : Derives (.levels ls) w e n) :
    ∃ k, around (before ++ w) =
      ⟨List.replicate k operand ++ (around before).enclosing, false⟩ := by
  obtain ⟨k, hk⟩ := hw.leaves _ h.apart
  exact ⟨k, by rw [around_append, h.around_eq, hk]⟩

/-- They are over at a question mark, which opens the first branch of a conditional. -/
theorem around_question (h : OperandPlace depth Level.loosestFirst before)
    (hw : Derives (.levels Level.loosestFirst) w e n) (p : Nat) :
    around (before ++ w ++ [⟨.symbol .question, p⟩]) =
      ⟨yes :: (around before).enclosing, true⟩ := by
  obtain ⟨k, hk⟩ := h.around_levels hw
  rw [around_concat, hk]
  simp only [Surroundings.pass]
  rw [beyondOperands_append k (h.apart (by decide))]

/-- They are over at an operator, too. -/
theorem around_operator {level : Level} {tighter : List Level} {x : Placed} {op : BinaryOp}
    (h : OperandPlace depth (level :: tighter) before)
    (hw : Derives (.levels (level :: tighter)) w e n) (hop : (x.lexeme, op) ∈ level.spellings) :
    around (before ++ w ++ [x]) = ⟨(around before).enclosing, true⟩ := by
  obtain ⟨k, hk⟩ := h.around_levels hw
  rw [around_concat, hk, Surroundings.pass_binary hop,
    beyondOperands_append k (h.apart (by simp))]

/-- The right operand of an operator starts a chain of the tighter levels. -/
theorem right {level : Level} {tighter : List Level} {x : Placed} {op : BinaryOp}
    (h : OperandPlace depth (level :: tighter) before)
    (hw : Derives (.levels (level :: tighter)) w e n) (hop : (x.lexeme, op) ∈ level.spellings)
    (hlevel : level ∉ tighter) : OperandPlace depth tighter (before ++ w ++ [x]) := by
  have haround := h.around_operator hw hop
  refine ⟨by rw [haround], by rw [haround, h.length_eq], fun _ => ?_, ?_⟩
  · rw [haround]
    exact h.apart (by simp)
  · intro y hy l hl f hf
    obtain rfl : x = y := by simpa using hy
    exact hlevel (level_unique hop hf ▸ hl)

/-- Behind an expression, second branches may be open as well. -/
theorem around_expression (h : OperandPlace depth Level.loosestFirst before)
    (hw : Derives .expression w e n) :
    ∃ t, (∀ c ∈ t, c = operand ∨ c = no) ∧
      around (before ++ w) = ⟨t ++ (around before).enclosing, false⟩ := by
  obtain ⟨t, ht, hexpr⟩ := hw.leaves _ (h.apart (by decide))
  exact ⟨t, ht, by rw [around_append, h.around_eq, hexpr]⟩

/-- They are over at a colon, which ends the first branch of a conditional and opens the second. -/
theorem around_colon {es : List Enclosure} (h : OperandPlace depth Level.loosestFirst before)
    (hyes : (around before).enclosing = yes :: es) (hw : Derives .expression w e n) (p : Nat) :
    around (before ++ w ++ [⟨.symbol .colon, p⟩]) = ⟨no :: es, true⟩ := by
  obtain ⟨t, ht, hexpr⟩ := h.around_expression hw
  rw [around_concat, hexpr, hyes]
  simp only [Surroundings.pass]
  rw [outward_append ht (.inr rfl), List.tail_cons]

/-- They are over at a comma, and the next argument starts as the one before it did. -/
theorem next_argument (h : OperandPlace depth Level.loosestFirst before)
    (hcall : (around before).enclosing.head? = some parentheses) (hw : Derives .expression w e n)
    (p : Nat) :
    OperandPlace depth Level.loosestFirst (before ++ w ++ [⟨.symbol .comma, p⟩]) ∧
      (around (before ++ w ++ [⟨.symbol .comma, p⟩])).enclosing.head? = some parentheses := by
  obtain ⟨es, hes⟩ := List.head?_eq_some_iff.mp hcall
  obtain ⟨t, ht, hexpr⟩ := h.around_expression hw
  have hcomma : around (before ++ w ++ [⟨.symbol .comma, p⟩]) =
      ⟨(around before).enclosing, true⟩ := by
    rw [around_concat, hexpr, hes]
    simp only [Surroundings.pass]
    rw [outward_append ht (.inl rfl)]
  have hnext := of_symbol Level.loosestFirst rfl hcomma (by rw [hcall]; decide)
  rw [h.length_eq] at hnext
  exact ⟨hnext, by rw [hcomma, hcall]⟩

end OperandPlace

/-! ### Places of phrases -/

/-- The phrase starts behind the first lexemes of an expression, inside of `depth` constructs.  What
continues a chain starts behind the left operand of the chain. -/
def Phrase.Stands (depth : Nat) : Phrase → List Placed → Prop
  | expression, before => OperandPlace depth Level.loosestFirst before
  | levels ls, before => OperandPlace depth ls before
  | chain level tighter left, before =>
    ∃ start w n, before = start ++ w ∧ OperandPlace depth (level :: tighter) start ∧
      Derives (.levels (level :: tighter)) w left n ∧ n + depth ≤ maxNesting
  | primary, before => OperandPlace depth [] before
  | arguments _ _ _, before =>
    OperandPlace depth Level.loosestFirst before ∧
      (around before).enclosing.head? = some parentheses

namespace Goal

/-- The goal starts behind the lexemes, and what is open there and its budget make up the limit. -/
def Stands (g : Goal) (before : List Placed) : Prop :=
  ∃ depth, g.phrase.Stands depth before ∧ g.budget + depth = maxNesting

/-- One more construct is open where one level less is left. -/
theorem account_inside {b depth : Nat} (h : b + 1 + depth = maxNesting) :
    b + (depth + 1) = maxNesting := by
  omega

/-- Behind a symbol that opens a construct, a goal is one nesting level further in. -/
theorem stands_inside {b depth p : Nat} {before xs : List Placed} {s : Symbol} {c : Enclosure}
    {es : List Enclosure} (hs : s.binary? = none) (hc : c ≠ operand)
    (haround : around (before ++ [⟨.symbol s, p⟩]) = ⟨c :: es, true⟩) (hlength : es.length = depth)
    (hbudget : b + 1 + depth = maxNesting) :
    Stands ⟨b, .expression, xs⟩ (before ++ [⟨.symbol s, p⟩]) := by
  refine ⟨(c :: es).length, .of_symbol _ hs haround (by simpa using hc), ?_⟩
  rw [List.length_cons, hlength]
  exact account_inside hbudget

/-- **One step of the parser keeps the account.** -/
theorem Leads.stands {g h : Goal} (hleads : g.Leads h) (hfit : g.phrase.Fit) {before : List Placed}
    (hstands : g.Stands before) : ∃ w, g.input = w ++ h.input ∧ h.Stands (before ++ w) := by
  obtain ⟨depth, hplace, hbudget⟩ := hstands
  cases hleads with
  | condition | operand => exact ⟨[], rfl, depth, by rwa [List.append_nil], hbudget⟩
  | @yes b p xs ys c hcondition =>
      obtain ⟨w, n, hw, hspan⟩ := Phrase.spans_of_read hcondition
      refine ⟨w ++ [⟨.symbol .question, p⟩], by simp [hw], ?_⟩
      rw [← List.append_assoc]
      exact stands_inside rfl (by decide) (hplace.around_question hspan.derives p)
        hplace.length_eq hbudget
  | @no b p q xs ys zs c y hcondition hyes =>
      obtain ⟨w, n, hw, hspan⟩ := Phrase.spans_of_read hcondition
      obtain ⟨v, m, hv, hspan'⟩ := Phrase.spans_of_read hyes
      have hquestion := hplace.around_question hspan.derives p
      have hinside := OperandPlace.of_symbol Level.loosestFirst rfl hquestion (by simp)
      refine ⟨w ++ [⟨.symbol .question, p⟩] ++ v ++ [⟨.symbol .colon, q⟩], by simp [hw, hv], ?_⟩
      simp only [← List.append_assoc]
      exact stands_inside rfl (by decide)
        (hinside.around_colon (by rw [hquestion]) hspan'.derives q) hplace.length_eq hbudget
  | @prefixed b x xs op hop =>
      exact ⟨[x], rfl, depth + 1, hplace.inside_prefix hop, account_inside hbudget⟩
  | first => exact ⟨[], rfl, depth, by rw [List.append_nil]; exact hplace.tighter, hbudget⟩
  | @others b level tighter xs rest left hfirst =>
      obtain ⟨w, n, hw, hspan⟩ := Phrase.spans_of_read hfirst
      have hnesting := hspan.nesting_le
      change b + depth = maxNesting at hbudget
      refine ⟨w, hw, depth, ⟨before, w, max n 0, rfl, hplace, ?_, by omega⟩, hbudget⟩
      have hchain : Derives (.chain level tighter left) [] left 0 := .done
      simpa using hspan.derives.level hchain
  | @right b level tighter left x op xs hop =>
      obtain ⟨start, w, n, rfl, hstart, hleft, -⟩ := hplace
      exact ⟨[x], rfl, depth, hstart.right hleft hop (Phrase.fit_tighter hfit.1).2, hbudget⟩
  | @next b level tighter left right x op xs rest hop hright hlow =>
      obtain ⟨start, w, n, rfl, hstart, hleft, hn⟩ := hplace
      obtain ⟨v, m, hv, hspan⟩ := Phrase.spans_of_read hright
      have hm := hspan.nesting_le
      change b + depth = maxNesting at hbudget
      refine ⟨x :: v, by simp [hv], depth, ⟨start, w ++ x :: v, max n m, by simp, hstart, ?_, ?_⟩,
        hbudget⟩
      · exact .binary hop hleft hspan.derives
      · omega
  | @group b p xs =>
      refine ⟨[⟨.symbol .openParen, p⟩], rfl, ?_⟩
      exact stands_inside rfl (by decide) (around_concat _ _) hplace.length_eq hbudget
  | @call b p q name xs hargs =>
      refine ⟨[⟨.identifier name, p⟩] ++ [⟨.symbol .openParen, q⟩], rfl, depth + 1, ?_,
        account_inside hbudget⟩
      rw [← List.append_assoc]
      exact hplace.inside_call name p q
  | argument => exact ⟨[], rfl, depth, by rw [List.append_nil]; exact hplace.1, hbudget⟩
  | @more b q name p given a xs ys hargument =>
      obtain ⟨w, n, hw, hspan⟩ := Phrase.spans_of_read hargument
      refine ⟨w ++ [⟨.symbol .comma, q⟩], by simp [hw], depth, ?_, hbudget⟩
      rw [← List.append_assoc]
      exact hplace.1.next_argument hplace.2 hspan.derives q

/-- The goals that the parser comes to stand behind the lexemes that are read. -/
theorem stands_of_path {g h : Goal} (hpath : Relation.ReflTransGen Leads g h) (hfit : g.phrase.Fit)
    {before : List Placed} (hstands : g.Stands before) :
    ∃ w, g.input = w ++ h.input ∧ h.Stands (before ++ w) := by
  induction hpath with
  | refl => exact ⟨[], rfl, by rwa [List.append_nil]⟩
  | tail hpath hleads ih =>
      obtain ⟨v, hv, hstands⟩ := ih
      obtain ⟨w, hw, hstands⟩ := hleads.stands (fit_of_path hpath hfit) hstands
      exact ⟨v ++ w, by rw [hv, hw, List.append_assoc], by rwa [← List.append_assoc]⟩

end Goal

/-! ### Limits -/

/-- The lexeme behind the first ones of an expression is a binary operator.  Its left operand is
what its level reads from the start of the chain on, its right operand is what the tighter levels
read behind it, both keep the limit on heights, and the operator would break it. -/
def BreaksHeight (before : List Placed) (x : Placed) (after : List Placed) : Prop :=
  ∃ (level : Level) (op : BinaryOp) (depth : Nat) (start w : List Placed) (left right : Expr)
      (rest : List Placed),
    (x.lexeme, op) ∈ level.spellings ∧ before = start ++ w ∧
      OperandPlace depth level.andTighter start ∧
      (Phrase.levels level.andTighter).read (64 - depth) w = .ok (left, []) ∧
      (Phrase.levels level.andTighter.tail).read (64 - depth) after = .ok (right, rest) ∧
      left.OperatorsWithin 256 ∧ right.OperatorsWithin 256 ∧
      256 < 1 + max left.height right.height

namespace Goal

/-- Without a budget, the parser stops at a lexeme that opens one construct too many. -/
theorem Halts.opens {g : Goal} {before rest : List Placed} (h : g.Halts .nesting rest)
    (hstands : g.Stands before) :
    ∃ w x after, rest = x :: after ∧ g.input = w ++ x :: after ∧
      Opens (before ++ w) x.lexeme ∧ (enclosures (before ++ w) x.lexeme).length = maxNesting := by
  obtain ⟨depth, hplace, hbudget⟩ := hstands
  have hzero : g.budget = 0 := by cases h <;> rfl
  rw [hzero, Nat.zero_add] at hbudget
  cases h with
  | @question p xs ys c hcondition =>
      have hplace : OperandPlace depth Level.loosestFirst before := hplace
      obtain ⟨w, n, hw, hspan⟩ := Phrase.spans_of_read hcondition
      obtain ⟨k, hk⟩ := hplace.around_levels hspan.derives
      refine ⟨w, _, ys, rfl, hw, by simp [Opens, hk], ?_⟩
      have henclosures : enclosures (before ++ w) (.symbol .question) =
          (around before).enclosing := by
        simp only [enclosures, hk]
        exact beyondOperands_append k (hplace.apart (by decide))
      rw [henclosures, hplace.length_eq, hbudget]
  | @prefixed x xs op hop =>
      have hplace : OperandPlace depth [] before := hplace
      refine ⟨[], x, xs, rfl, rfl, ?_, ?_⟩
      · simpa [Opens, hplace.expecting] using .inr ⟨op, hop⟩
      · simp [enclosures, hplace.expecting, hplace.length_eq, hbudget]
  | @openGroup p xs =>
      have hplace : OperandPlace depth [] before := hplace
      refine ⟨[], _, xs, rfl, rfl, ?_, ?_⟩
      · simp [Opens, hplace.expecting]
      · simp [enclosures, hplace.expecting, hplace.length_eq, hbudget]
  | @openCall p q name xs =>
      have hplace : OperandPlace depth [] before := hplace
      have hname := hplace.around_name name p
      refine ⟨[⟨.identifier name, p⟩], _, xs, rfl, rfl, ?_, ?_⟩
      · simp [Opens, hname]
      · simp [enclosures, hname, hplace.length_eq, hbudget]

/-- An operator at which the parser stops breaks the limit on heights. -/
theorem Halts.breaks {g : Goal} {before rest : List Placed} (h : g.Halts .height rest)
    (hfit : g.phrase.Fit) (hstands : g.Stands before) :
    ∃ x after, rest = x :: after ∧ g.input = x :: after ∧ BreaksHeight before x after := by
  obtain ⟨depth, hplace, hbudget⟩ := hstands
  cases h with
  | @tooHigh b level tighter left right x op xs rest hop hright htall =>
      obtain ⟨hsuffix, hwithin⟩ := hfit
      obtain ⟨start, w, n, rfl, hstart, hleft, hn⟩ := hplace
      have hlevels := Level.eq_andTighter hsuffix
      obtain rfl : b = 64 - depth := Nat.eq_sub_of_add_eq hbudget
      obtain ⟨v, m, hv, hspan⟩ := Phrase.spans_of_read hright
      have hread := hleft.reads (64 - depth) [] hsuffix Phrase.ends_nil
      rw [List.append_nil] at hread
      refine ⟨x, xs, rfl, rfl, level, op, depth, start, w, left, right, rest, hop, rfl, ?_, ?_, ?_,
        hwithin, hspan.within (Phrase.fit_tighter hsuffix).1, ?_⟩
      · rwa [← hlevels]
      · rw [← hlevels]
        rcases hread with hok | ⟨hexceeds | hexceeds, -⟩
        · exact hok
        · exact absurd (Nat.le_sub_of_add_le hn) (Nat.not_le_of_lt hexceeds)
        · exact absurd hwithin hexceeds
      · rwa [← hlevels]
      · rw [Expr.height_binary, Nat.add_comm] at htall
        exact htall

end Goal

/-! ### Rejected lists of lexemes -/

/-- **The lexeme at which a limit is reported crosses it.** -/
theorem crosses_of_nestingTooDeep {xs : List Placed} {p : Position}
    (h : parseLexemes xs = .error (.located .nestingTooDeep p)) :
    ∃ before x after, xs = before ++ x :: after ∧ p = x.position ∧
      (Opens before x.lexeme ∧ (enclosures before x.lexeme).length = 64 ∨
        BreaksHeight before x after) := by
  have hne : xs ≠ [] := by
    intro hnil
    subst hnil
    cases h
  obtain ⟨why, rest, hrejects, herror⟩ := (parseLexemes_eq_error_iff hne).mp h
  have hfault : why.fault rest = .nestingTooDeep := by
    cases rest <;> exact (SyntaxError.located.inj herror).1.symm
  have hstart : Goal.Stands ⟨maxNesting, .expression, xs⟩ [] :=
    ⟨0, ⟨rfl, rfl, by simp [around], by simp⟩, rfl⟩
  cases hrejects with
  | trailing =>
      rcases Stop.limit_of_fault hfault with hwhy | hwhy <;> cases hwhy
  | inside hfails =>
      obtain ⟨k, hpath, hhalts⟩ := hfails
      obtain ⟨u, hu, hstands⟩ := Goal.stands_of_path hpath trivial hstart
      rcases Stop.limit_of_fault hfault with rfl | rfl
      · obtain ⟨w, x, after, rfl, hinput, hopens, hlength⟩ := hhalts.opens hstands
        refine ⟨u ++ w, x, after, ?_, (SyntaxError.located.inj herror).2, .inl ⟨hopens, hlength⟩⟩
        rw [List.append_assoc, ← hinput]
        exact hu
      · obtain ⟨x, after, rfl, hinput, hbreaks⟩ :=
          hhalts.breaks (Goal.fit_of_path hpath trivial) hstands
        refine ⟨u, x, after, ?_, (SyntaxError.located.inj herror).2, .inr hbreaks⟩
        rw [← hinput]
        exact hu

/-- **The nesting is too deep only where a limit is crossed.**  The error is at a lexeme that opens
a construct inside of 64 others, or at a binary operator whose operands are complete and keep the
limit on heights, while the operator would break it.  In particular, a chain of operands that are
read by themselves is accepted iff no tree on the way from the left breaks the limit, and otherwise
the error is at the first operator that does. -/
theorem nestingTooDeep_crosses_limit :
    (∀ xs p, parseLexemes xs = .error (.located .nestingTooDeep p) →
      ∃ before x after, xs = before ++ x :: after ∧ p = x.position ∧
        (Opens before x.lexeme ∧ (enclosures before x.lexeme).length = 64 ∨
          BreaksHeight before x after)) ∧
      ∀ (level : Level) w first links,
        (Phrase.levels level.andTighter.tail).read 64 w = .ok (first, []) →
        (∀ k ∈ links, Link.Of 64 level k) →
          ((∃ e, parseLexemes (w ++ Link.written links) = .ok e) ↔
            ∀ front, front <+: links → front ≠ [] → Link.foldHeight first.height front ≤ 256) ∧
          ∀ front k back, links = front ++ k :: back →
            (∀ start, start <+: front → start ≠ [] → Link.foldHeight first.height start ≤ 256) →
            256 < Link.foldHeight first.height (front ++ [k]) →
              parseLexemes (w ++ Link.written links) =
                .error (.located .nestingTooDeep k.operator.position) := by
  refine ⟨fun xs p => crosses_of_nestingTooDeep, fun level w first links hfirst hlinks => ?_⟩
  refine ⟨parseLexemes_chain_iff hlinks hfirst, ?_⟩
  intro front k back hsplit hlow htall
  subst hsplit
  exact parseLexemes_chain_error hlinks hfirst hlow htall

set_option maxRecDepth 2000 in
/-- The last of 65 parentheses is inside of 64, and a short sum is accepted. -/
theorem sixty_five_parentheses_and_a_sum :
    (∃ before x after, List.replicate 65 ⟨.symbol .openParen, 0⟩ = before ++ x :: after ∧
      .byte 0 = x.position ∧
        (Opens before x.lexeme ∧ (enclosures before x.lexeme).length = 64 ∨
          BreaksHeight before x after)) ∧
      ∃ e, parseLexemes [⟨.identifier "a", 0⟩, ⟨.symbol .plus, 1⟩, ⟨.identifier "b", 2⟩] =
        .ok e := by
  refine ⟨nestingTooDeep_crosses_limit.1 _ _ (by cbv), ?_⟩
  have hoperand (name : String) (p : Nat) :
      (Phrase.levels Level.additive.andTighter.tail).read 64 [⟨.identifier name, p⟩] =
        .ok (.var name (.byte p), []) := by
    change (Phrase.levels [.multiplicative]).read 64 _ = _
    cbv
  have hsum := nestingTooDeep_crosses_limit.2 .additive [⟨.identifier "a", 0⟩] (.var "a" (.byte 0))
    [⟨⟨.symbol .plus, 1⟩, .add, [⟨.identifier "b", 2⟩], .var "b" (.byte 2)⟩] (hoperand _ _)
    (by simpa using ⟨by decide, hoperand _ _⟩)
  refine hsum.1.mpr fun front hfront hne => ?_
  rcases List.prefix_cons_iff.mp hfront with hnil | ⟨more, rfl, hmore⟩
  · exact absurd hnil hne
  · obtain rfl := List.prefix_nil.mp hmore
    simp [Link.foldHeight]

end Reckon
