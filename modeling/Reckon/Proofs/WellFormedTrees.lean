import Reckon.Proofs.InOrderWalk
import Reckon.Proofs.LongestMatch
import Reckon.Proofs.NumberPatterns
import Reckon.Proofs.ScanAgreement
/-!
# Compiled trees are well formed

What a node holds comes from a token of the source, and so it is what a token can be: a number has no
minus sign and is a number, and a name is a word that is not reserved, the longest one that stands at
the position of the node.  Equality of trees compares numbers, and only what is no number differs
from itself, so that a compiled expression is equal to itself, and to what the same source is
compiled to again.

* `munch_lexeme_cases` — how a lexeme is read;
* `Expr.WellFormedIn` — a node that the source can have, with what stands at its position;
* `Expr.same_self_iff` — which trees are equal to themselves;
* `compiled_is_well_formed` — all of it, for every source that compiles.
-/

namespace Reckon

/-! ### Names -/

/-- A letter of ASCII. -/
def IsLetter (c : Char) : Prop := ('A' ≤ c ∧ c ≤ 'Z') ∨ ('a' ≤ c ∧ c ≤ 'z')

/-- A character that a name starts with. -/
def IsNameStart (c : Char) : Prop := IsLetter c ∨ c = '_'

/-- A character that a name goes on with. -/
def IsNamePart (c : Char) : Prop := IsLetter c ∨ ('0' ≤ c ∧ c ≤ '9') ∨ c = '_' ∨ c = '.'

/-- A name as it is written: a letter or an underscore, and then letters, digits, underscores and
points. -/
def IsName (name : String) : Prop :=
  ∃ c cs, name.toList = c :: cs ∧ IsNameStart c ∧ ∀ d ∈ cs, IsNamePart d

theorem isAlpha_iff {c : Char} : c.isAlpha ↔ IsLetter c := by
  simp [Char.isAlpha, Char.isUpper, Char.isLower, IsLetter, Char.le_def]

theorem startsWord_iff {c : Char} : startsWord c ↔ IsNameStart c := by
  simp [startsWord, IsNameStart, isAlpha_iff]

theorem continuesWord_iff {c : Char} : continuesWord c ↔ IsNamePart c := by
  simp [continuesWord, IsNamePart, Char.isAlphanum, isAlpha_iff, Char.isDigit, Char.le_def, or_assoc]

/-- All characters of a name continue one. -/
theorem IsName.continuesWord {name : String} (h : IsName name) :
    ∀ c ∈ name.toList, Reckon.continuesWord c := by
  obtain ⟨c, cs, hname, hstart, hpart⟩ := h
  intro d hd
  rw [hname] at hd
  rcases List.mem_cons.mp hd with rfl | hd
  · exact continuesWord_of_startsWord (startsWord_iff.mpr hstart)
  · exact continuesWord_iff.mpr (hpart d hd)

/-! ### How a lexeme is read -/

/-- **How a lexeme is read:** a number from a run of digits and points, a word from a run that starts
like a name, and the others in ways of their own. -/
theorem munch_lexeme_cases {c : Char} {cs : List Char} {l : Lexeme}
    (h : (munch c cs).reading = .lexeme l) :
    (isNumeric c ∧ readNumber (c :: cs.takeWhile isNumeric) = .lexeme l) ∨
      (startsWord c ∧ readWord (c :: cs.takeWhile continuesWord) = l) ∨
      (∃ s, l = .string s) ∨ ∃ s, l = .symbol s := by
  unfold munch at h
  split at h
  · cases h
  split at h
  · next hnumeric => exact .inl ⟨hnumeric, h⟩
  split at h
  · next hword => exact .inr (.inl ⟨hword, Reading.lexeme.inj h⟩)
  split at h
  · unfold munchString at h
    split at h <;> cases h
    exact .inr (.inr (.inl ⟨_, rfl⟩))
  · unfold munchSymbol at h
    split at h
    · cases h
      exact .inr (.inr (.inr ⟨_, rfl⟩))
    split at h <;> cases h
    exact .inr (.inr (.inr ⟨_, rfl⟩))

/-- A reserved word is read as what it is reserved for. -/
theorem exists_reserved {name : String} (h : name ∈ reservedWords) :
    ∃ l : Lexeme, l.reserved? = some name := by
  simp only [reservedWords, List.mem_cons, List.not_mem_nil, or_false] at h
  rcases h with rfl | rfl | rfl | rfl | rfl | rfl | rfl
  · exact ⟨.boolean true, rfl⟩
  · exact ⟨.boolean false, rfl⟩
  · exact ⟨.keyword .and, rfl⟩
  · exact ⟨.keyword .or, rfl⟩
  · exact ⟨.keyword .xor, rfl⟩
  · exact ⟨.keyword .not, rfl⟩
  · exact ⟨.keyword .member, rfl⟩

theorem readWord_eq_identifier {word : List Char} {name : String}
    (h : readWord word = .identifier name) :
    name = String.ofList word ∧ name ∉ reservedWords := by
  by_cases hreserved : String.ofList word ∈ reservedWords
  · obtain ⟨l, hl⟩ := exists_reserved hreserved
    rw [(readWord_eq_iff hl word).mpr rfl] at h
    rw [h] at hl
    cases hl
  · rw [readWord_of_not_reserved hreserved] at h
    cases h
    exact ⟨rfl, hreserved⟩

theorem readWord_ne_number {word : List Char} {x : Number} : readWord word ≠ .number x := by
  dsimp only [readWord]
  split_ifs
  · simp
  · simp
  · split <;> simp

theorem readNumber_ne_identifier {run : List Char} {name : String} :
    readNumber run ≠ .lexeme (.identifier name) := by
  unfold readNumber
  split <;> simp

/-- A number that is read has no minus sign, and it is a number. -/
theorem number_of_readNumber {run : List Char} {x : Number} (hrun : ∀ c ∈ run, isNumeric c)
    (h : readNumber run = .lexeme (.number x)) : x.isNegative = false ∧ ¬ x.isNaN := by
  rw [readNumber, Numeral.read?_of_numeric hrun] at h
  cases hdecimal : Numeral.decimal? run with
  | none => simp [hdecimal] at h
  | some d =>
    simp only [hdecimal, Option.map_some, Reading.lexeme.injEq, Lexeme.number.injEq] at h
    have hle := Numeral.nearestToDecimal_le d
    rw [← h]
    exact ⟨Number.isNegative_ofPattern false hle, Number.not_isNaN_ofPattern false hle⟩

/-! ### Tokens of numbers and names -/

variable {source : String} {t : Token}

/-- The token of a number holds one without a minus sign. -/
theorem number_of_mem_tokenize (ht : t ∈ tokenize source) {x : Number}
    (h : t.reading = .lexeme (.number x)) : x.isNegative = false ∧ ¬ x.isNaN := by
  obtain ⟨front, c, back, -, rfl⟩ := munch_of_mem_tokenize ht
  obtain ⟨hnumeric, hread⟩ | ⟨-, hword⟩ | ⟨s, hs⟩ | ⟨s, hs⟩ := munch_lexeme_cases h
  · refine number_of_readNumber (fun d hd => ?_) hread
    rcases List.mem_cons.mp hd with rfl | hd
    · exact hnumeric
    · exact List.mem_takeWhile_imp hd
  · exact absurd hword readWord_ne_number
  · cases hs
  · cases hs

/-- A name that is written at a place: a word that is not reserved, and the longest one there. -/
structure NameAt (name source : String) (place : Nat) : Prop where
  written : IsName name
  free : name ∉ reservedWords
  stands : StandsAt name source place
  longest : ∀ d, IsNamePart d → ¬ StandsAt (name.push d) source place

theorem nameAt_of_mem_tokenize (ht : t ∈ tokenize source) {name : String}
    (h : t.reading = .lexeme (.identifier name)) : NameAt name source t.start := by
  obtain ⟨front, c, back, hsource, rfl⟩ := munch_of_mem_tokenize ht
  obtain ⟨-, hnumber⟩ | ⟨hstarts, hword⟩ | ⟨s, hs⟩ | ⟨s, hs⟩ := munch_lexeme_cases h
  · exact absurd hnumber readNumber_ne_identifier
  · obtain ⟨hname, hfree⟩ := readWord_eq_identifier hword
    have hrun : name.toList = c :: back.takeWhile continuesWord := by
      rw [hname, String.toList_ofList]
    have hwritten : IsName name :=
      ⟨c, _, hrun, startsWord_iff.mp hstarts,
        fun d hd => continuesWord_iff.mp (List.mem_takeWhile_imp hd)⟩
    refine ⟨hwritten, hfree, (standsAt_iff hsource).mpr ?_, fun d hd hstands => ?_⟩
    · rw [hrun, List.cons_prefix_cons]
      exact ⟨rfl, List.takeWhile_prefix _⟩
    · -- a longer word would have been taken
      have haccepted : ∀ e ∈ (name.push d).toList, continuesWord e := by
        intro e he
        rw [String.toList_push] at he
        rcases List.mem_append.mp he with he | he
        · exact hwritten.continuesWord e he
        · rw [List.mem_singleton.mp he]
          exact continuesWord_iff.mpr hd
      have hlonger := (prefix_takeWhile_of_standsAt hsource haccepted hstands).length_le
      rw [List.takeWhile_cons_of_pos (continuesWord_of_startsWord hstarts), ← hrun,
        String.toList_push, List.length_append, List.length_singleton] at hlonger
      omega
  · cases hs
  · cases hs

/-! ### Nodes -/

/-- A lexeme that is no operator is its own mark. -/
theorem Lexeme.eq_of_asMark {l m : Lexeme} (h : l.asMark = m) (hkind : m.kind ≠ .operator) :
    l = m := by
  subst h
  cases l with
  | keyword k => cases k <;> exact absurd rfl hkind
  | _ => rfl

namespace Expr

/-- The name that a node is for, if it is a variable or a call. -/
def name? : Expr → Option String
  | var name _ | call name _ _ => some name
  | _ => none

/-- A node that the source can have: a number is not negative, and a name is written where the node
is. -/
structure WellFormedIn (node : Expr) (source : String) : Prop where
  number : ∀ x p, node = literal (.number x) p → ¬ x.isNaN ∧ x.isNegative = false ∧ 0 ≤ x
  named : ∀ name, node.name? = some name →
    ∃ place, node.position = .byte place ∧ NameAt name source place

theorem mark_of_name? {node : Expr} {name : String} (h : node.name? = some name) :
    node.mark = .identifier name := by
  cases node with
  | var | call => cases h; rfl
  | _ => cases h

/-! ### Trees that are equal to themselves -/

theorem mem_inOrderAll {node : Expr} {es : List Expr} :
    node ∈ inOrderAll es ↔ ∃ e ∈ es, node ∈ e.inOrder := by
  induction es with
  | nil => simp [inOrderAll]
  | cons e es ih => simp [inOrderAll, ih]

theorem sameAll_self_iff {es : List Expr} : sameAll es es ↔ ∀ e ∈ es, e.same e := by
  induction es with
  | nil => simp [sameAll]
  | cons e es ih => simp [sameAll, ih]

theorem same_value_self_iff {v : Value} : v.same v ↔ ∀ x, v = .number x → ¬ x.isNaN := by
  cases v <;> simp [Value.same]

/-- **A tree is equal to itself** unless there is a literal in it that is no number. -/
theorem same_self_iff (e : Expr) :
    e.same e ↔ ∀ node ∈ e.inOrder, ∀ x p, node = literal (.number x) p → ¬ x.isNaN := by
  induction e using induction with
  | literal v p => simp [same, inOrder, same_value_self_iff]
  | var name p => simp [same, inOrder]
  | unary op a p ha => simp [same, inOrder, ha]
  | binary op a b p ha hb => simp [same, inOrder, ha, hb, or_imp, forall_and]
  | conditional c y n p hc hy hn => simp [same, inOrder, hc, hy, hn, or_imp, forall_and, and_assoc]
  | call name args p hargs =>
    have hall : sameAll args args ↔
        ∀ node ∈ inOrderAll args, ∀ x p, node = literal (.number x) p → ¬ x.isNaN := by
      rw [sameAll_self_iff, forall₂_congr hargs]
      constructor
      · intro h node hnode
        obtain ⟨a, ha, hnode⟩ := mem_inOrderAll.mp hnode
        exact h a ha node hnode
      · intro h a ha node hnode
        exact h node (mem_inOrderAll.mpr ⟨a, ha, hnode⟩)
    simpa [same, inOrder] using hall

end Expr

namespace Compiled

theorem sameTokens_self (ts : List Token) : sameTokens ts ts := by
  induction ts with
  | nil => rfl
  | cons t ts ih => simp [sameTokens, Token.same, ih]

/-- A compiled expression is equal to itself if its tree is. -/
theorem same_self_of_expr {c : Compiled} (h : c.expr.same c.expr) : c.same c := by
  rw [same, h]
  cases c.tokens with
  | none => rfl
  | some ts => exact sameTokens_self ts

end Compiled

/-! ### Compiled trees -/

variable {collect : Bool} {c : Compiled}

theorem Token.placed?_eq_some_iff {x : Placed} :
    t.placed? = some x ↔ t.reading = .lexeme x.lexeme ∧ x.start = t.start := by
  obtain ⟨l, start⟩ := x
  cases hreading : t.reading <;> simp [placed?, hreading, eq_comm]

/-- A node of a compiled tree is what a token of the source is read as, where that token starts. -/
theorem token_of_mem_inOrder (h : compile source collect = .ok c) {node : Expr}
    (hnode : node ∈ c.expr.inOrder) :
    ∃ t ∈ tokenize source, ∃ l, t.reading = .lexeme l ∧ l.asMark = node.mark ∧
      node.position = .byte t.start := by
  obtain ⟨-, hparse, -⟩ := compile_eq_ok_iff.mp h
  obtain ⟨n, hderives, -, -⟩ := derives_of_parseLexemes hparse
  have htrace : node.trace ∈ traces (scan source collect).lexemes := by
    have hmem := List.mem_map_of_mem (f := Expr.trace) hnode
    rwa [hderives.inOrder] at hmem
  obtain ⟨x, hx, heq⟩ := List.mem_map.mp htrace
  have hlexeme : x ∈ (scan source collect).lexemes := (List.mem_filter.mp hx).1
  rw [(scan_follows source collect).lexemes] at hlexeme
  obtain ⟨t, ht, hplaced⟩ := List.mem_filterMap.mp hlexeme
  obtain ⟨hmark, hposition⟩ := Prod.mk.inj heq
  rw [Placed.position] at hposition
  obtain ⟨hreading, hstart⟩ := Token.placed?_eq_some_iff.mp hplaced
  rw [hstart] at hposition
  exact ⟨t, (List.takeWhile_sublist _).subset ht, x.lexeme, hreading, hmark, hposition.symm⟩

theorem wellFormedIn_of_mem_inOrder (h : compile source collect = .ok c) {node : Expr}
    (hnode : node ∈ c.expr.inOrder) : node.WellFormedIn source := by
  obtain ⟨t, ht, l, hreading, hmark, hposition⟩ := token_of_mem_inOrder h hnode
  constructor
  case number =>
    intro x p hliteral
    have hl : l = .number x := Lexeme.eq_of_asMark (by rw [hmark, hliteral]; rfl) (by simp [Lexeme.kind])
    obtain ⟨hsign, hnumber⟩ := number_of_mem_tokenize ht (hl ▸ hreading)
    exact ⟨hnumber, hsign, Number.nonneg_of_not_isNegative hsign hnumber⟩
  case named =>
    intro name hname
    have hl : l = .identifier name :=
      Lexeme.eq_of_asMark (hmark.trans (Expr.mark_of_name? hname)) (by simp [Lexeme.kind])
    exact ⟨t.start, hposition, nameAt_of_mem_tokenize ht (hl ▸ hreading)⟩

/-- **Compiled trees are well formed.**  Every number in the tree of a source is a number without a
minus sign, and every name is a word that is not reserved, the longest one that stands in the source
at the position of its node.  So a compiled expression is equal to itself and to what the source is
compiled to once more. -/
theorem compiled_is_well_formed (h : compile source collect = .ok c) :
    (∀ node ∈ c.expr.inOrder, node.WellFormedIn source) ∧ c.same c ∧
      ∀ d, compile source collect = .ok d → c.same d ∧ d.same c := by
  have hnodes (node) (hnode : node ∈ c.expr.inOrder) : node.WellFormedIn source :=
    wellFormedIn_of_mem_inOrder h hnode
  have hself : c.same c := by
    refine Compiled.same_self_of_expr (c.expr.same_self_iff.mpr fun node hnode x p hx => ?_)
    exact ((hnodes node hnode).number x p hx).1
  refine ⟨hnodes, hself, fun d hd => ?_⟩
  rw [h] at hd
  cases hd
  exact ⟨hself, hself⟩

/-- A name may begin with a reserved word, as `in.or` does, which has another one in it. -/
theorem number_and_call_well_formed :
    let source := "2.50 - in.or(_)"
    ∃ x c, compile source false = .ok c ∧
      c.expr = .binary .subtract (.literal (.number x) (.byte 0))
        (.call "in.or" [.var "_" (.byte 13)] (.byte 7)) (.byte 5) ∧
      (¬ x.isNaN ∧ x.isNegative = false ∧ 0 ≤ x) ∧ NameAt "in.or" source 7 ∧
      NameAt "_" source 13 ∧ c.same c := by
  intro source
  let x := Number.ofPattern false 0x4004000000000000
  let tree := Expr.binary .subtract (.literal (.number x) (.byte 0))
    (.call "in.or" [.var "_" (.byte 13)] (.byte 7)) (.byte 5)
  have hlexemes : (scan source false).lexemes =
      [⟨.number x, 0⟩, ⟨.symbol .minus, 5⟩, ⟨.identifier "in.or", 7⟩, ⟨.symbol .openParen, 12⟩,
        ⟨.identifier "_", 13⟩, ⟨.symbol .closeParen, 14⟩] := by
    decide +kernel
  have hcompile : compile source false = .ok ⟨tree, none⟩ := by
    refine compile_eq_ok_iff.mpr ⟨by decide +kernel, ?_, by decide +kernel⟩
    rw [hlexemes]
    cbv
  obtain ⟨hnodes, hself, -⟩ := compiled_is_well_formed hcompile
  have hname (node : Expr) {name : String} {place : Nat} (hnode : node ∈ tree.inOrder)
      (hname : node.name? = some name) (hplace : node.position = .byte place) :
      NameAt name source place := by
    obtain ⟨start, hstart, hat⟩ := (hnodes node hnode).named name hname
    rw [hplace] at hstart
    cases hstart
    exact hat
  refine ⟨x, _, hcompile, rfl, ?_, ?_, ?_, hself⟩
  · exact (hnodes (.literal (.number x) (.byte 0)) (by simp [tree, Expr.inOrder])).number x _ rfl
  · exact hname (.call "in.or" [.var "_" (.byte 13)] (.byte 7)) (by simp [tree, Expr.inOrder])
      rfl rfl
  · exact hname (.var "_" (.byte 13)) (by simp [tree, Expr.inOrder, Expr.inOrderAll]) rfl rfl

end Reckon
