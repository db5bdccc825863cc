import Mathlib.Data.List.TakeWhile
import Reckon.Compiled
/-!
# The two ways through a source

A source is gone through in two ways: `tokenize` keeps going over text of which nothing can be made,
and `scan` stops there.  Both cut the source by `munch`, but they are two recursions, which stop and
filter differently.  Here everything that a scan returns is read off the tokens: what it collects,
its lexemes and its error are the tokens, the lexemes and the first error of the same list.

* `LexicalFault.ShownBy` — the text that shows a fault, and no other;
* `Scan.Follows` — a scan that returns what a list of tokens says;
* `scan_follows_tokens` — a scan follows the tokens of its source, and collecting them changes
  nothing else, neither for the scan nor for the tree that is made of it.
-/

namespace Reckon

/-! ### The texts of faults -/

/-- The text of which nothing can be made, for each fault: it begins like a string, or like a number,
or it is a single character that begins neither. -/
def LexicalFault.ShownBy (text : String) : LexicalFault → Prop
  | unterminatedString => text.toList.head? = some '"'
  | invalidNumber literal => literal = text ∧ ∃ c, text.toList.head? = some c ∧ isNumeric c
  | unexpectedCharacter c => text = String.singleton c ∧ c ≠ '"' ∧ ¬ isNumeric c

/-- A text shows at most one fault. -/
theorem LexicalFault.ShownBy.unique {text : String} {fault other : LexicalFault}
    (h : fault.ShownBy text) (hother : other.ShownBy text) : fault = other := by
  have hquote : ¬ isNumeric '"' := by decide
  cases fault <;> cases other <;>
    simp only [ShownBy] at h hother <;>
    grind [String.toList_singleton]

theorem readNumber_fault {run : List Char} {fault : LexicalFault}
    (h : readNumber run = .fault fault) : fault = .invalidNumber (String.ofList run) := by
  unfold readNumber at h
  split at h <;> cases h
  rfl

/-- The text of a token of which nothing can be made shows why. -/
theorem shownBy_of_munch {c : Char} {cs : List Char} {fault : LexicalFault}
    (h : (munch c cs).reading = .fault fault) :
    fault.ShownBy (String.ofList (munch c cs).text) := by
  revert h
  unfold munch
  split
  · intro h
    cases h
  split
  case isTrue hnumeric =>
    intro h
    cases readNumber_fault h
    exact ⟨rfl, c, by simp [munchRun], hnumeric⟩
  split
  · intro h
    cases h
  split
  case isTrue hquote =>
    subst hquote
    unfold munchString
    split
    · intro h
      cases h
    · rintro ⟨⟩
      simp [LexicalFault.ShownBy]
  case isFalse hnumeric _ hquote =>
    unfold munchSymbol
    split
    · intro h
      cases h
    split
    · intro h
      cases h
    · rintro ⟨⟩
      exact ⟨String.singleton_eq_ofList.symm, hquote, hnumeric⟩

/-! ### Tokens and what they are read as -/

@[simp]
theorem Lexeme.kind_ne_unknown (l : Lexeme) : l.kind ≠ .unknown := by
  cases l with
  | symbol s => cases s <;> decide
  | _ => simp [kind]

@[simp]
theorem Lexeme.kind_ne_whitespace (l : Lexeme) : l.kind ≠ .whitespace := by
  cases l with
  | symbol s => cases s <;> decide
  | _ => simp [kind]

namespace Token

/-- The tokens before the first one of which nothing can be made. -/
def beforeFault (tokens : List Token) : List Token := tokens.takeWhile (fun t => ¬ t.isFault)

@[simp]
theorem isFault_blank (start : Nat) (text : String) : isFault ⟨.blank, start, text⟩ = false := rfl

@[simp]
theorem isFault_lexeme (l : Lexeme) (start : Nat) (text : String) :
    isFault ⟨.lexeme l, start, text⟩ = false := by
  simp [isFault, kind]

@[simp]
theorem isFault_fault (fault : LexicalFault) (start : Nat) (text : String) :
    isFault ⟨.fault fault, start, text⟩ = true := rfl

theorem mem_of_mem_place {start : Nat} {pieces : List (Reading × String)} {t : Token}
    (ht : t ∈ place start pieces) : (t.reading, t.text) ∈ pieces := by
  induction pieces generalizing start with
  | nil => simp [place] at ht
  | cons piece pieces ih =>
    rcases List.mem_cons.mp ht with rfl | ht
    · exact List.mem_cons_self
    · exact List.mem_cons_of_mem _ (ih ht)

/-- A token of which nothing can be made was read as a fault. -/
theorem isFault_iff {t : Token} : t.isFault ↔ ∃ fault, t.reading = .fault fault := by
  obtain ⟨reading, start, text⟩ := t
  cases reading <;> simp

theorem error?_eq_none_iff {t : Token} : t.error? = none ↔ t.kind ≠ .unknown := by
  obtain ⟨reading, start, text⟩ := t
  cases reading <;> simp [error?, kind]

/-- The first error is the one of the first token of which nothing can be made. -/
theorem findSome?_error? (tokens : List Token) :
    tokens.findSome? error? = (tokens.find? isFault).bind error? := by
  induction tokens with
  | nil => rfl
  | cons t tokens ih =>
    obtain ⟨reading, start, text⟩ := t
    cases reading <;> simp [List.findSome?_cons, List.find?_cons, error?, ih]

/-- The lexemes of tokens that are all something are the tokens that are not white space. -/
theorem map_filterMap_placed? {tokens : List Token} (h : ∀ t ∈ tokens, ¬ t.isFault) :
    (tokens.filterMap placed?).map (fun p => (p.start, p.lexeme.kind)) =
      (tokens.filter (·.kind ≠ .whitespace)).map (fun t => (t.start, t.kind)) := by
  induction tokens with
  | nil => rfl
  | cons t tokens ih =>
    have htail := ih (fun u hu => h u (List.mem_cons_of_mem t hu))
    have hhead := h t List.mem_cons_self
    obtain ⟨reading, start, text⟩ := t
    cases reading with
    | blank =>
      have hblank : kind ⟨.blank, start, text⟩ = .whitespace := rfl
      simpa [List.filterMap_cons, placed?, hblank] using htail
    | lexeme l =>
      have hlexeme : kind ⟨.lexeme l, start, text⟩ = l.kind := rfl
      simpa [placed?, hlexeme] using htail
    | fault fault => simp at hhead

end Token

/-! ### A scan against the tokens -/

/-- What a scan returns of a source whose tokens are known. -/
def Scan.ofTokens (collect : Bool) (tokens : List Token) : Scan where
  lexemes := (Token.beforeFault tokens).filterMap Token.placed?
  tokens := if collect then some (Token.beforeFault tokens) else none
  error := tokens.findSome? Token.error?

namespace Scan

theorem ofTokens_blank (collect : Bool) (start : Nat) (text : String) (tokens : List Token) :
    ofTokens collect (⟨.blank, start, text⟩ :: tokens) =
      (ofTokens collect tokens).withToken ⟨.blank, start, text⟩ := by
  cases collect <;>
    simp [ofTokens, withToken, Token.beforeFault, List.filterMap_cons, List.findSome?_cons,
      Token.placed?, Token.error?]

theorem ofTokens_lexeme (collect : Bool) (l : Lexeme) (start : Nat) (text : String)
    (tokens : List Token) :
    ofTokens collect (⟨.lexeme l, start, text⟩ :: tokens) =
      ((ofTokens collect tokens).withLexeme ⟨l, start⟩).withToken ⟨.lexeme l, start, text⟩ := by
  cases collect <;>
    simp [ofTokens, withToken, withLexeme, Token.beforeFault, List.findSome?_cons, Token.placed?,
      Token.error?]

theorem ofTokens_fault (collect : Bool) (fault : LexicalFault) (start : Nat) (text : String)
    (tokens : List Token) :
    ofTokens collect (⟨.fault fault, start, text⟩ :: tokens) =
      ⟨[], if collect then some [] else none,
        some (.located (.lexical fault) (.byte start))⟩ := by
  simp [ofTokens, Token.beforeFault, List.findSome?_cons, Token.error?]

end Scan

/-- A scan of a text returns what the tokens of the text say. -/
theorem scanFrom_eq_ofTokens (collect : Bool) (start : Nat) (cs : List Char) :
    scanFrom collect start cs = Scan.ofTokens collect (Token.place start (readings cs)) := by
  fun_induction scanFrom collect start cs with
  | case1 start => simp [readings, Token.place, Scan.ofTokens, Token.beforeFault]
  | case2 start c cs first text others hreading ih =>
    rw [readings, Token.place, hreading, Scan.ofTokens_blank, ← ih]
  | case3 start c cs first text others l hreading ih =>
    rw [readings, Token.place, hreading, Scan.ofTokens_lexeme, ← ih]
  | case4 start c cs first text fault hreading =>
    rw [readings, Token.place, hreading, Scan.ofTokens_fault]

/-- A scan of a source returns what its tokens say. -/
theorem scan_eq_ofTokens (source : String) (collect : Bool) :
    scan source collect = Scan.ofTokens collect (tokenize source) :=
  scanFrom_eq_ofTokens collect 0 source.toList

/-! ### Agreement -/

/-- A piece of a text that is read as a fault shows it. -/
theorem shownBy_of_mem_readings (cs : List Char) :
    ∀ piece ∈ readings cs, ∀ fault, piece.1 = .fault fault → fault.ShownBy piece.2 := by
  fun_induction readings cs with
  | case1 => simp
  | case2 c cs first ih =>
    intro piece hpiece fault hfault
    rcases List.mem_cons.mp hpiece with rfl | hpiece
    · exact shownBy_of_munch hfault
    · exact ih piece hpiece fault hfault

theorem shownBy_of_mem_tokenize {source : String} {t : Token} (ht : t ∈ tokenize source)
    {fault : LexicalFault} (hfault : t.reading = .fault fault) : fault.ShownBy t.text :=
  shownBy_of_mem_readings _ _ (Token.mem_of_mem_place ht) fault hfault

/-- A scan returns what the tokens of the source say: its lexemes are the tokens before the first
one of which nothing can be made, less the white space; there is an error iff there is such a token;
and the error stands where that token starts, and is the one that its text shows. -/
structure Scan.Follows (s : Scan) (tokens : List Token) : Prop where
  lexemes : s.lexemes = (Token.beforeFault tokens).filterMap Token.placed?
  kinds : s.lexemes.map (fun p => (p.start, p.lexeme.kind)) =
    ((Token.beforeFault tokens).filter (·.kind ≠ .whitespace)).map (fun t => (t.start, t.kind))
  clean : s.error = none ↔ ∀ t ∈ tokens, t.kind ≠ .unknown
  fault : ∀ t, tokens.find? Token.isFault = some t →
    ∃ fault, s.error = some (.located (.lexical fault) (.byte t.start)) ∧ fault.ShownBy t.text

theorem scan_follows (source : String) (collect : Bool) :
    (scan source collect).Follows (tokenize source) := by
  rw [scan_eq_ofTokens]
  constructor
  case lexemes => rfl
  case kinds =>
    apply Token.map_filterMap_placed?
    intro t ht
    simpa using List.all_eq_true.mp List.all_takeWhile t ht
  case clean =>
    simp only [Scan.ofTokens, List.findSome?_eq_none_iff, Token.error?_eq_none_iff]
  case fault =>
    intro t ht
    obtain ⟨fault, hreading⟩ := Token.isFault_iff.mp (List.find?_some ht)
    refine ⟨fault, ?_, shownBy_of_mem_tokenize (List.mem_of_find?_eq_some ht) hreading⟩
    simp [Scan.ofTokens, Token.findSome?_error?, ht, Token.error?, hreading]

/-- Collecting the tokens changes nothing else. -/
theorem scan_without_tokens (source : String) :
    scan source false = { scan source true with tokens := none } := by
  rw [scan_eq_ofTokens, scan_eq_ofTokens]
  rfl

/-- A tree or an error does not depend on whether the tokens are collected. -/
theorem compile_map_expr (source : String) :
    (compile source false).map Compiled.expr = (compile source true).map Compiled.expr := by
  unfold compile
  rw [scan_without_tokens]
  dsimp only
  cases firstError _ (scan source true).error <;> rfl

/-- Without its tokens, a compiled source is its tree, as one that was built by hand. -/
theorem compile_eq_ofExpr {source : String} {c : Compiled} (h : compile source false = .ok c) :
    c = .ofExpr c.expr := by
  obtain ⟨-, -, htokens⟩ := compile_eq_ok_iff.mp h
  have hnone : none = c.tokens := by
    rw [← htokens, scan_without_tokens]
  rw [Compiled.ofExpr, hnone]

/-- What compiles has no token of which nothing can be made, so that all tokens are collected. -/
theorem tokens_of_compile {source : String} {c : Compiled} (h : compile source true = .ok c) :
    c.tokens = some (tokenize source) := by
  obtain ⟨herror, -, htokens⟩ := compile_eq_ok_iff.mp h
  have hclean := (scan_follows source true).clean.mp herror
  have hall : Token.beforeFault (tokenize source) = tokenize source := by
    refine List.takeWhile_eq_self_iff.mpr fun t ht => ?_
    simpa [Token.isFault] using hclean t ht
  rw [← htokens, scan_eq_ofTokens]
  exact congrArg some hall

/-- **The two ways agree.**  A scan of a source, whether it collects the tokens or not, follows the
tokens of the source.  What it collects are the tokens before the first one of which nothing can be
made, and collecting them changes nothing else: the tree or the error is the same, and with a tree
come all tokens of the source. -/
theorem scan_follows_tokens (source : String) :
    (∀ collect, (scan source collect).Follows (tokenize source)) ∧
      (scan source true).tokens = some (Token.beforeFault (tokenize source)) ∧
      scan source false = { scan source true with tokens := none } ∧
      (compile source false).map Compiled.expr = (compile source true).map Compiled.expr ∧
      ∀ c, compile source true = .ok c → c.tokens = some (tokenize source) := by
  refine ⟨scan_follows source, ?collected, scan_without_tokens source, compile_map_expr source,
    fun _ => tokens_of_compile⟩
  case collected =>
    rw [scan_eq_ofTokens]
    rfl

/-- The lexeme before a fault is kept, and the fault is the one that its text shows. -/
example : (scan "a 1.2.3 #" false).lexemes = [⟨.identifier "a", 0⟩] ∧
    (scan "a 1.2.3 #" false).error =
      some (.located (.lexical (.invalidNumber "1.2.3")) (.byte 2)) := by
  cbv

end Reckon
