import Mathlib
import Reckon.Compiled
import Reckon.Proofs.ParserExactness
import Reckon.Proofs.ScanOrder
import Reckon.Proofs.WrittenForm
/-!
# Walking a tree in the order of its source

A tree is walked in order: an operator between its operands, the question mark of a conditional
behind the condition, a prefix operator and the name of a call in front of what follows them.  The
nodes that are passed are the lexemes of the source, less the parentheses, the commas and the
colons, which leave no node.  Each node has the content of its lexeme and stands at its place.

* `Expr.inOrder` — the nodes of a tree in the order of the walk;
* `Derives.inOrder` — what a phrase adds to the walk of the trees that it carries;
* `compiled_in_order` — the walk of a compiled tree, against the lexemes of its source.
-/

namespace Reckon

/-! ### Nodes and their lexemes -/

namespace Lexeme

/-- The same operator by its mark, if the lexeme is a word that has one. -/
def asMark : Lexeme → Lexeme
  | keyword .and => symbol .ampAmp
  | keyword .or => symbol .barBar
  | keyword .not => symbol .bang
  | l => l

/-- Whether a node of the tree is made of the lexeme. -/
def leavesNode : Lexeme → Bool
  | symbol .openParen | symbol .closeParen | symbol .comma | symbol .colon => false
  | _ => true

theorem asMark_of_literal? {l : Lexeme} {v : Value} (h : l.literal? = some v) :
    l.asMark = v.lexeme ∧ l.leavesNode = true := by
  cases l with
  | number | boolean | string =>
    cases h
    exact ⟨rfl, rfl⟩
  | identifier | keyword | symbol => cases h

theorem asMark_of_unary {l : Lexeme} {op : UnaryOp} (h : (l, op) ∈ UnaryOp.spellings) :
    l.asMark = Spelling.marks.prefixed op ∧ l.leavesNode = true := by
  have hall : ∀ s ∈ UnaryOp.spellings,
      s.1.asMark = Spelling.marks.prefixed s.2 ∧ s.1.leavesNode = true := by
    simp [UnaryOp.spellings, asMark, leavesNode, Spelling.marks]
  exact hall _ h

theorem asMark_of_binary {l : Lexeme} {op : BinaryOp} {level : Level}
    (h : (l, op) ∈ level.spellings) :
    l.asMark = Spelling.marks.binary op ∧ l.leavesNode = true := by
  have hall : ∀ s ∈ level.spellings,
      s.1.asMark = Spelling.marks.binary s.2 ∧ s.1.leavesNode = true := by
    cases level <;> simp [Level.spellings, asMark, leavesNode, Spelling.marks]
  exact hall _ h

end Lexeme

/-- What a list of lexemes leaves in a tree: the content and the position of each lexeme of which a
node is made. -/
def traces (xs : List Placed) : List (Lexeme × Position) :=
  (xs.filter (·.lexeme.leavesNode)).map fun x => (x.lexeme.asMark, x.position)

@[simp] theorem traces_nil : traces [] = [] := rfl

@[simp] theorem traces_append (xs ys : List Placed) :
    traces (xs ++ ys) = traces xs ++ traces ys := by
  simp [traces]

theorem traces_cons_of_leavesNode {x : Placed} (h : x.lexeme.leavesNode = true)
    (xs : List Placed) :
    traces (x :: xs) = (x.lexeme.asMark, x.position) :: traces xs := by
  simp [traces, h]

theorem traces_cons_of_not_leavesNode {x : Placed} (h : x.lexeme.leavesNode = false)
    (xs : List Placed) : traces (x :: xs) = traces xs := by
  simp [traces, h]

namespace Expr

/-- The content of the root, as the lexeme that spells it, operators by their marks. -/
def mark : Expr → Lexeme
  | literal v _ => v.lexeme
  | var name _ | call name _ _ => .identifier name
  | unary op _ _ => Spelling.marks.prefixed op
  | binary op _ _ _ => Spelling.marks.binary op
  | conditional _ _ _ _ => .symbol .question

mutual

/-- The nodes of a tree in the order of the source, each as the subtree below it. -/
def inOrder : Expr → List Expr
  | literal v p => [literal v p]
  | var name p => [var name p]
  | unary op a p => unary op a p :: a.inOrder
  | binary op a b p => a.inOrder ++ binary op a b p :: b.inOrder
  | conditional c y n p => c.inOrder ++ conditional c y n p :: (y.inOrder ++ n.inOrder)
  | call name args p => call name args p :: inOrderAll args

/-- The nodes of several trees, one tree after the other. -/
def inOrderAll : List Expr → List Expr
  | [] => []
  | e :: es => e.inOrder ++ inOrderAll es

end

theorem inOrderAll_append (as bs : List Expr) :
    inOrderAll (as ++ bs) = inOrderAll as ++ inOrderAll bs := by
  induction as with
  | nil => rfl
  | cons a as ih => simp [inOrderAll, ih]

theorem length_inOrderAll {es : List Expr} (h : ∀ e ∈ es, e.inOrder.length = e.size) :
    (inOrderAll es).length = sizeAll es := by
  induction es with
  | nil => rfl
  | cons e es ih =>
    have hhead := h e List.mem_cons_self
    have htail := ih fun a ha => h a (List.mem_cons_of_mem e ha)
    simp [inOrderAll, sizeAll, hhead, htail]

/-- The walk passes every node once. -/
theorem length_inOrder (e : Expr) : e.inOrder.length = e.size := by
  induction e using induction with
  | literal | var => rfl
  | unary op a p ha => simp [inOrder, size, ha]
  | binary op a b p ha hb => simp [inOrder, size, ha, hb, Nat.add_assoc]
  | conditional c y n p hc hy hn =>
    simp only [inOrder, size, List.length_append, List.length_cons, hc, hy, hn]
    omega
  | call name args p hargs => simp [inOrder, size, length_inOrderAll hargs]

/-- The content and the position of the root. -/
def trace (e : Expr) : Lexeme × Position := (e.mark, e.position)

end Expr

/-! ### What is derived -/

/-- What the trees that a phrase carries, and the name of a call, have left. -/
def Phrase.carried : Phrase → List (Lexeme × Position)
  | chain _ _ left => left.inOrder.map Expr.trace
  | arguments name p given => (.identifier name, p) :: (Expr.inOrderAll given).map Expr.trace
  | _ => []

/-- **What a phrase adds to the walk.**  The walk of the tree of a phrase passes what is carried,
and then the lexemes of the phrase. -/
theorem Derives.inOrder {g : Phrase} {xs : List Placed} {e : Expr} {n : Nat}
    (h : Derives g xs e n) : e.inOrder.map Expr.trace = g.carried ++ traces xs := by
  induction h with
  | plain _ ih | operand _ ih => exact ih
  | conditional _ _ _ ihc ihy ihn =>
    simp only [Phrase.carried, List.nil_append] at ihc ihy ihn
    rw [traces_append, traces_cons_of_leavesNode rfl, traces_append,
      traces_cons_of_not_leavesNode rfl, ← ihc, ← ihy, ← ihn]
    simp [Expr.inOrder, Phrase.carried, Expr.trace, Expr.mark, Expr.position, Lexeme.asMark,
      Placed.position]
  | prefixed hop _ ih =>
    obtain ⟨hmark, hnode⟩ := Lexeme.asMark_of_unary hop
    simp only [Phrase.carried, List.nil_append] at ih
    rw [traces_cons_of_leavesNode hnode, hmark, ← ih]
    simp [Expr.inOrder, Phrase.carried, Expr.trace, Expr.mark, Expr.position]
  | level _ _ ihf iho =>
    simp only [Phrase.carried, List.nil_append] at ihf iho ⊢
    rw [iho, ihf, traces_append]
  | done => simp [Phrase.carried]
  | operator hop _ _ iho ihr =>
    -- the operator and its right operand go over to what the rest of the chain carries
    obtain ⟨hmark, hnode⟩ := Lexeme.asMark_of_binary hop
    simp only [Phrase.carried, List.nil_append] at iho ihr ⊢
    rw [ihr, traces_cons_of_leavesNode hnode, traces_append, hmark, ← iho]
    simp [Expr.inOrder, Expr.trace, Expr.mark, Expr.position]
  | literal hvalue =>
    obtain ⟨hmark, hnode⟩ := Lexeme.asMark_of_literal? hvalue
    rw [traces_cons_of_leavesNode hnode, hmark]
    simp [Expr.inOrder, Phrase.carried, Expr.trace, Expr.mark, Expr.position]
  | var => rfl
  | emptyCall => rfl
  | call _ ih =>
    rw [ih, traces_cons_of_leavesNode rfl, traces_cons_of_not_leavesNode rfl]
    simp [Phrase.carried, Expr.inOrderAll, Lexeme.asMark, Placed.position]
  | group _ ih =>
    rw [ih, traces_cons_of_not_leavesNode rfl, traces_append, traces_cons_of_not_leavesNode rfl]
    simp [Phrase.carried]
  | lastArgument _ ih =>
    simp only [Phrase.carried, List.nil_append] at ih ⊢
    rw [traces_append, traces_cons_of_not_leavesNode rfl, ← ih]
    simp [Expr.inOrder, Expr.inOrderAll_append, Expr.inOrderAll, Expr.trace, Expr.mark,
      Expr.position]
  | argument _ _ ih iho =>
    simp only [Phrase.carried, List.nil_append] at ih iho ⊢
    rw [iho, traces_append, traces_cons_of_not_leavesNode rfl, ← ih]
    simp [Expr.inOrderAll_append, Expr.inOrderAll]

/-! ### Compiled trees -/

/-- What lexemes in increasing order leave stands in increasing order. -/
theorem traces_increasing {xs : List Placed} (h : xs.Pairwise (·.start < ·.start)) :
    (traces xs).Pairwise fun a b => a.2.before b.2 := by
  have hkept := h.filter (·.lexeme.leavesNode)
  refine hkept.map (S := fun a b : Lexeme × Position => a.2.before b.2) _ fun x y hlt => ?_
  exact decide_eq_true hlt

theorem length_traces (xs : List Placed) :
    (traces xs).length + xs.countP (fun x => ¬ x.lexeme.leavesNode) = xs.length := by
  have hsplit := xs.length_eq_countP_add_countP (·.lexeme.leavesNode)
  simp only [traces, List.length_map, ← List.countP_eq_length_filter]
  exact hsplit.symm

/-- **No operand is lost, doubled or moved.**  The walk of a compiled tree passes what the lexemes
of its source leave: each node has the content and the position of its lexeme, operators by their
marks, and the lexemes that are passed over are the parentheses, the commas and the colons.  So the
positions increase along the walk, and there are as many nodes as other lexemes. -/
theorem compiled_in_order {source : String} {collect : Bool} {c : Compiled}
    (h : compile source collect = .ok c) :
    c.expr.inOrder.map Expr.trace = traces (scan source collect).lexemes ∧
      c.expr.inOrder.Pairwise (fun a b => a.position.before b.position) ∧
      c.expr.inOrder.length = c.expr.size ∧
      c.expr.size + (scan source collect).lexemes.countP (fun x => ¬ x.lexeme.leavesNode) =
        (scan source collect).lexemes.length := by
  obtain ⟨-, hparse, -⟩ := compile_eq_ok_iff.mp h
  obtain ⟨n, hderives, -, -⟩ := derives_of_parseLexemes hparse
  have hwalk : c.expr.inOrder.map Expr.trace = traces (scan source collect).lexemes :=
    hderives.inOrder
  have hincreasing := traces_increasing (scan_ordered source collect).increasing
  rw [← hwalk, List.pairwise_map] at hincreasing
  have hlength := length_traces (scan source collect).lexemes
  rw [← hwalk, List.length_map, Expr.length_inOrder] at hlength
  exact ⟨hwalk, hincreasing, c.expr.length_inOrder, hlength⟩

/-- Operators that are words are passed as their marks, and parentheses are not passed. -/
theorem conditional_with_call_in_order :
    ∃ c, compile "not f(a, -x) and b ? (c) : d" false = .ok c ∧
      c.expr.inOrder.map Expr.trace =
        [(.symbol .bang, .byte 0), (.identifier "f", .byte 4), (.identifier "a", .byte 6),
          (.symbol .minus, .byte 9), (.identifier "x", .byte 10), (.symbol .ampAmp, .byte 13),
          (.identifier "b", .byte 17), (.symbol .question, .byte 19),
          (.identifier "c", .byte 22), (.identifier "d", .byte 27)] ∧
      c.expr.size + 6 = 16 := by
  have hcompile : compile "not f(a, -x) and b ? (c) : d" false =
      .ok ⟨.conditional
        (.binary .and
          (.unary .not
            (.call "f" [.var "a" (.byte 6), .unary .negate (.var "x" (.byte 10)) (.byte 9)]
              (.byte 4))
            (.byte 0))
          (.var "b" (.byte 17)) (.byte 13))
        (.var "c" (.byte 22)) (.var "d" (.byte 27)) (.byte 19), none⟩ := by cbv
  obtain ⟨hwalk, -, -, hcount⟩ := compiled_in_order hcompile
  have hlexemes : (scan "not f(a, -x) and b ? (c) : d" false).lexemes =
      [⟨.keyword .not, 0⟩, ⟨.identifier "f", 4⟩, ⟨.symbol .openParen, 5⟩, ⟨.identifier "a", 6⟩,
        ⟨.symbol .comma, 7⟩, ⟨.symbol .minus, 9⟩, ⟨.identifier "x", 10⟩,
        ⟨.symbol .closeParen, 11⟩, ⟨.keyword .and, 13⟩, ⟨.identifier "b", 17⟩,
        ⟨.symbol .question, 19⟩, ⟨.symbol .openParen, 21⟩, ⟨.identifier "c", 22⟩,
        ⟨.symbol .closeParen, 23⟩, ⟨.symbol .colon, 25⟩, ⟨.identifier "d", 27⟩] := by cbv
  rw [hlexemes] at hwalk hcount
  exact ⟨_, hcompile, hwalk, hcount⟩

end Reckon
