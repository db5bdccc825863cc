import Mathlib
import Reckon.Compiled
import Reckon.Proofs.Blanks
import Reckon.Proofs.MovedPlaces
import Reckon.Proofs.TokenCover
/-!
# Layout

White space says where lexemes end and nothing else.  A lexeme ends where white space comes,
whatever comes behind that: runs of digits or letters stop, symbols of two characters do not reach
over it, and a string is closed before it.  So lexemes with white space between them are read one by
one, and white space that is put between two tokens only moves what follows.  Parsing and evaluating
do not look at places, so the tree stays the same, and an error is moved.

* `munch_replace` — the first lexeme of a text stays what it is when something follows that does not
  continue it;
* `Lexes.insert` — white space at the end of a token moves the lexemes behind it;
* `Spaced.lexes` — lexemes with white space between them;
* `Relocated` — what two sources have in common whose lexemes differ in their places only;
* `layout_is_immaterial` — both, for scanning, compiling and evaluating.
-/

namespace Reckon

/-! ### Where a lexeme ends -/

/-- The character continues no lexeme but a string that is not closed: no run goes on with it, and
no symbol of two characters ends in it. -/
structure EndsLexeme (d : Char) : Prop where
  not_numeric : isNumeric d = false
  not_word : continuesWord d = false
  not_second : ∀ c, symbolOfTwo? c d = none

/-- White space continues no lexeme. -/
theorem endsLexeme_of_layout {d : Char} (h : isLayout d) : EndsLexeme d := by
  simp only [isLayout, decide_eq_true_eq] at h
  refine ⟨?_, ?_, fun c => ?_⟩
  · rcases h with rfl | rfl | rfl | rfl | rfl | rfl <;> decide
  · rcases h with rfl | rfl | rfl | rfl | rfl | rfl <;> decide
  · unfold symbolOfTwo?
    split <;> first | rfl | simp at h

section Replace

variable {c : Char} {cs text rest r : List Char} {reading : Reading}

/-- A run ends where something comes that does not continue it, and where it ended before. -/
theorem munchRun_replace {accepts : Char → Bool} {read : List Char → Reading}
    (hends : ∀ d, EndsLexeme d → accepts d = false)
    (hr : ∀ d ∈ r.head?, EndsLexeme d ∨ rest.head? = some d)
    (h : munchRun accepts read c cs = ⟨reading, c :: text, rest⟩) :
    munchRun accepts read c (text ++ r) = ⟨reading, c :: text, r⟩ := by
  obtain ⟨hreading, htext, hrest⟩ := Munch.mk.inj h
  have htext : text = cs.takeWhile accepts := (List.tail_eq_of_cons_eq htext).symm
  have hall : ∀ d ∈ text, accepts d = true := by
    intro d hd
    rw [htext] at hd
    exact List.mem_takeWhile_imp hd
  have hstop : ∀ d ∈ r.head?, accepts d = false := by
    intro d hd
    rcases hr d hd with hend | hsame
    · exact hends d hend
    · have hnot := List.head?_dropWhile_not accepts cs
      rwa [hrest, hsame] at hnot
  have hrun : r.takeWhile accepts = [] ∧ r.dropWhile accepts = r := by
    cases r with
    | nil => simp
    | cons d ds => simp [hstop d rfl]
  rw [← htext] at hreading
  simp only [munchRun, List.takeWhile_append_of_pos hall, List.dropWhile_append_of_pos hall, hrun,
    List.append_nil, hreading]

/-- What is read of a string up to its closing quote does not depend on what follows. -/
theorem readString_replace {body : StringBody} (h : readString cs = some body) (r : List Char) :
    readString (body.text ++ r) = some { body with rest := r } := by
  fun_induction readString cs generalizing body with
  | case1 => cases h
  | case2 cs =>
    cases h
    simp [readString]
  | case3 => cases h
  | case4 c cs ih =>
    obtain ⟨inner, hinner, rfl⟩ := Option.map_eq_some_iff.mp h
    simp [StringBody.extend, readString, ih hinner]
  | case5 c cs hquote hescape ih =>
    obtain ⟨inner, hinner, rfl⟩ := Option.map_eq_some_iff.mp h
    simp [StringBody.extend, readString, ih hinner]

/-- A string that is closed ends at its closing quote. -/
theorem munchString_replace {l : Lexeme} (h : munchString cs = ⟨.lexeme l, '"' :: text, rest⟩)
    (r : List Char) : munchString (text ++ r) = ⟨.lexeme l, '"' :: text, r⟩ := by
  cases hbody : readString cs with
  | none => simp [munchString, hbody] at h
  | some body =>
    simp only [munchString, hbody] at h
    cases h
    simp only [munchString, readString_replace hbody]

/-- A symbol does not take what ends no symbol of two characters. -/
theorem munchSymbol_replace {l : Lexeme} (hr : ∀ d ∈ r.head?, EndsLexeme d ∨ rest.head? = some d)
    (h : munchSymbol c cs = ⟨.lexeme l, c :: text, rest⟩) :
    munchSymbol c (text ++ r) = ⟨.lexeme l, c :: text, r⟩ := by
  cases htwo : cs.head?.bind (symbolOfTwo? c) with
  | some s =>
    obtain ⟨d, hd, hs⟩ := Option.bind_eq_some_iff.mp htwo
    obtain ⟨ds, rfl⟩ := List.head?_eq_some_iff.mp hd
    simp only [munchSymbol, htwo] at h
    cases h
    simp [munchSymbol, hs]
  | none =>
    cases hone : symbolOfOne? c with
    | none => simp [munchSymbol, htwo, hone] at h
    | some s =>
      simp only [munchSymbol, htwo, hone] at h
      cases h
      have hnone : r.head?.bind (symbolOfTwo? c) = none := by
        cases r with
        | nil => rfl
        | cons d ds =>
          rcases hr d rfl with hend | hsame
          · exact hend.not_second c
          · rwa [hsame] at htwo
      simp [munchSymbol, hnone, hone]

/-- **A lexeme at the front of a text** is the same when something else follows it that starts with
a character that continues no lexeme, or with the one that followed it before. -/
theorem munch_replace {l : Lexeme} (h : munch c cs = ⟨.lexeme l, c :: text, rest⟩)
    (hr : ∀ d ∈ r.head?, EndsLexeme d ∨ rest.head? = some d) :
    munch c (text ++ r) = ⟨.lexeme l, c :: text, r⟩ := by
  have hlayout : ¬ isLayout c := by
    rw [← munch_blank_iff c cs, h]
    simp
  unfold munch at h ⊢
  rw [if_neg hlayout] at h ⊢
  by_cases hnumeric : isNumeric c
  · rw [if_pos hnumeric] at h ⊢
    exact munchRun_replace (fun d hd => hd.not_numeric) hr h
  rw [if_neg hnumeric] at h ⊢
  by_cases hword : startsWord c
  · rw [if_pos hword] at h ⊢
    exact munchRun_replace (fun d hd => hd.not_word) hr h
  rw [if_neg hword] at h ⊢
  by_cases hquote : c = '"'
  · subst hquote
    rw [if_pos rfl] at h ⊢
    exact munchString_replace h r
  · rw [if_neg hquote] at h ⊢
    exact munchSymbol_replace hr h

end Replace

/-! ### White space between tokens -/

/-- Where a byte is found after `width` bytes have been put in at `place`. -/
def movedBehind (place width p : Nat) : Nat := if p < place then p else p + width

theorem movedBehind_of_lt {place width p : Nat} (h : p < place) : movedBehind place width p = p :=
  if_pos h

theorem movedBehind_add (place width i : Nat) :
    movedBehind place width (place + i) = place + width + i := by
  rw [movedBehind, if_neg (by omega)]
  omega

/-- A text that begins like another one, or with white space where something was put in. -/
theorem head?_insert {front blank back : List Char} (hblank : ∀ c ∈ blank, isLayout c) :
    ∀ d ∈ (front ++ (blank ++ back)).head?, EndsLexeme d ∨ (front ++ back).head? = some d := by
  intro d hd
  cases front with
  | cons c front => exact .inr hd
  | nil =>
    cases blank with
    | nil => exact .inr hd
    | cons c blank =>
      obtain rfl := Option.some.inj hd
      exact .inl (endsLexeme_of_layout (hblank c List.mem_cons_self))

/-- A text that is read in two parts consists of both. -/
theorem toList_of_readings {cs : List Char} {front back : List (Reading × String)}
    (h : readings cs = front ++ back) : cs = (joined front).toList ++ (joined back).toList := by
  have hjoined := joined_readings cs
  rw [h, joined_append] at hjoined
  rw [← String.toList_append, hjoined, String.toList_ofList]

/-- What is moved evenly from a place on is moved evenly from a later one on. -/
theorem evenly_later {f : Nat → Nat} {start start' : Nat} (hf : ∀ i, f (start + i) = start' + i)
    (n : Nat) : ∀ i, f (start + n + i) = start' + n + i := by
  intro i
  rw [Nat.add_assoc, hf, Nat.add_assoc]

namespace Lexes

/-- The lexemes of a text that starts elsewhere. -/
theorem moved {f : Nat → Nat} {start start' : Nat} {cs : List Char} {xs : List Placed}
    (h : Lexes start cs xs) (hf : ∀ i, f (start + i) = start' + i) :
    Lexes start' cs (xs.map (Placed.moved f)) := by
  induction h generalizing start' with
  | nil => exact .nil
  | blank hlayout _ ih => exact .blank hlayout (ih (evenly_later hf _))
  | @lexeme start c cs text rest l xs hmunch _ ih =>
    have hplace : Placed.moved f ⟨l, start⟩ = ⟨l, start'⟩ := congrArg (Placed.mk l) (hf 0)
    rw [List.map_cons, hplace]
    exact .lexeme hmunch (ih (evenly_later hf _))

/-- **White space at the end of a token** moves the lexemes behind it. -/
theorem insert {blank : List Char} (hblank : ∀ c ∈ blank, isLayout c) {place start : Nat}
    {cs : List Char} {xs : List Placed} {front back : List (Reading × String)}
    (hpieces : readings cs = front ++ back) (hplace : start + (joined front).utf8ByteSize = place)
    (h : Lexes start cs xs) :
    Lexes start ((joined front).toList ++ (blank ++ (joined back).toList))
      (xs.map (Placed.moved (movedBehind place (String.ofList blank).utf8ByteSize))) := by
  induction front generalizing start cs xs with
  | nil =>
    obtain rfl : start = place := hplace
    have hback : cs = (joined back).toList := toList_of_readings hpieces
    rw [← hback]
    exact append_blank hblank (h.moved (movedBehind_add start _))
  | cons piece front ih =>
    cases cs with
    | nil => simp [readings] at hpieces
    | cons c cs =>
      rw [readings] at hpieces
      obtain ⟨rfl, hrest⟩ := List.cons.inj hpieces
      have hrest : readings (munch c cs).rest = front ++ back := hrest
      rw [joined_cons, String.utf8ByteSize_append, ← Nat.add_assoc] at hplace
      rw [joined_cons, String.toList_append, String.toList_ofList, List.append_assoc]
      rcases h.first with ⟨hreading, others⟩ | ⟨l, ys, hreading, rfl, others⟩
      · exact append_blank (layout_of_munch hreading) (ih hrest hplace others)
      · have hothers := ih hrest hplace others
        obtain ⟨text, htext⟩ := List.head?_eq_some_iff.mp (munch_text_head c cs)
        have hfirst : munch c cs = ⟨.lexeme l, c :: text, (munch c cs).rest⟩ := by
          rw [← hreading, ← htext]
        -- the lexeme itself stands before the insertion
        have hbefore : start < place := by
          have hpos := munch_size_pos c cs
          dsimp only at hplace
          omega
        rw [List.map_cons, Placed.moved, movedBehind_of_lt hbefore]
        rw [htext] at hothers ⊢
        have hhead : ∀ d ∈ ((joined front).toList ++ (blank ++ (joined back).toList)).head?,
            EndsLexeme d ∨ (munch c cs).rest.head? = some d := by
          rw [toList_of_readings hrest]
          exact head?_insert hblank
        exact .lexeme (munch_replace hfirst hhead) hothers

end Lexes

/-! ### Words with white space between them -/

/-- Words, each with the white space behind it.  A word is a lexeme by itself, and only behind the
last one there may be no white space. -/
structure Spaced (words : List (String × String)) : Prop where
  lone : ∀ w ∈ words, ∃ t, tokenize w.1 = [t] ∧ t.kind ≠ .whitespace ∧ t.kind ≠ .unknown
  blank : ∀ w ∈ words, ∀ c ∈ w.2.toList, isLayout c
  apart : ∀ w ∈ words.dropLast, w.2 ≠ ""

/-- The text of words with white space behind them. -/
def spacedText (words : List (String × String)) : String :=
  String.join (words.map fun w => w.1 ++ w.2)

/-- The lexemes of the words by themselves, each moved by the length of what precedes its word. -/
def spacedLexemes (start : Nat) : List (String × String) → List Placed
  | [] => []
  | (word, blank) :: words =>
    (scan word false).lexemes.map (Placed.moved (start + ·)) ++
      spacedLexemes (start + word.utf8ByteSize + blank.utf8ByteSize) words

theorem readings_eq_nil_iff {cs : List Char} : readings cs = [] ↔ cs = [] := by
  cases cs with
  | nil => simp [readings]
  | cons c cs =>
    rw [readings]
    simp

/-- A text that is one token is read whole, as the token is. -/
theorem munch_of_tokenize_singleton {text : String} {t : Token} (h : tokenize text = [t]) :
    ∃ c cs, text.toList = c :: cs ∧ munch c cs = ⟨t.reading, c :: cs, []⟩ := by
  unfold tokenize at h
  cases htext : text.toList with
  | nil => simp [htext, readings, Token.place] at h
  | cons c cs =>
    rw [htext, readings, Token.place] at h
    obtain ⟨rfl, hothers⟩ := List.cons.inj h
    have hrest : (munch c cs).rest = [] := by
      cases hreadings : readings (munch c cs).rest with
      | nil => exact readings_eq_nil_iff.mp hreadings
      | cons piece pieces => simp [hreadings, Token.place] at hothers
    have hwhole := munch_text_append_rest c cs
    rw [hrest, List.append_nil] at hwhole
    exact ⟨c, cs, rfl, by rw [← hrest, ← hwhole]⟩

/-- A text that is one token, neither white space nor a fault, is one lexeme. -/
theorem munch_of_lone {word : String} {t : Token} (h : tokenize word = [t])
    (hblank : t.kind ≠ .whitespace) (hfault : t.kind ≠ .unknown) :
    ∃ c text l, word.toList = c :: text ∧ munch c text = ⟨.lexeme l, c :: text, []⟩ ∧
      (scan word false).lexemes = [⟨l, 0⟩] := by
  obtain ⟨c, text, hword, hmunch⟩ := munch_of_tokenize_singleton h
  cases hreading : t.reading with
  | blank => simp [Token.kind, hreading] at hblank
  | fault fault => simp [Token.kind, hreading] at hfault
  | lexeme l =>
    rw [hreading] at hmunch
    have hlexes : Lexes 0 word.toList [⟨l, 0⟩] := hword ▸ .lexeme hmunch .nil
    exact ⟨c, text, l, hword, hmunch, (hlexes.scanFrom false).2⟩

namespace Spaced

theorem tail {word : String × String} {words : List (String × String)}
    (h : Spaced (word :: words)) : Spaced words := by
  refine ⟨fun w hw => h.lone w (List.mem_cons_of_mem _ hw),
    fun w hw => h.blank w (List.mem_cons_of_mem _ hw), fun w hw => h.apart w ?_⟩
  cases words with
  | nil => cases hw
  | cons next words => exact List.mem_cons_of_mem _ hw

/-- What follows a word starts with white space, if there is anything. -/
theorem follows {word : String × String} {words : List (String × String)}
    (h : Spaced (word :: words)) :
    ∀ d ∈ (word.2.toList ++ (spacedText words).toList).head?, isLayout d := by
  intro d hd
  cases hblank : word.2.toList with
  | nil =>
    cases words with
    | nil => simp [hblank, spacedText] at hd
    | cons next words =>
      exact absurd (String.toList_eq_nil_iff.mp hblank) (h.apart word (by simp))
  | cons c cs =>
    rw [hblank] at hd
    obtain rfl := Option.some.inj hd
    exact h.blank word List.mem_cons_self c (by simp [hblank])

/-- **Lexemes with white space between them** do not interact. -/
theorem lexes {words : List (String × String)} (h : Spaced words) (start : Nat) :
    Lexes start (spacedText words).toList (spacedLexemes start words) := by
  induction words generalizing start with
  | nil => exact .nil
  | cons word words ih =>
    obtain ⟨word, blank⟩ := word
    obtain ⟨t, ht, hblank, hfault⟩ := h.lone _ List.mem_cons_self
    obtain ⟨c, text, l, hword, hmunch, hlone⟩ := munch_of_lone ht hblank hfault
    have hsplit : (spacedText ((word, blank) :: words)).toList =
        c :: (text ++ (blank.toList ++ (spacedText words).toList)) := by
      simp [spacedText, hword]
    have hsize : (String.ofList (c :: text)).utf8ByteSize = word.utf8ByteSize := by
      rw [← hword, String.ofList_toList]
    have hmunch := munch_replace hmunch fun d hd => .inl (endsLexeme_of_layout (h.follows d hd))
    have hothers := ih h.tail (start + word.utf8ByteSize + blank.utf8ByteSize)
    rw [hsplit, spacedLexemes, hlone]
    refine .lexeme hmunch (Lexes.append_blank (h.blank _ List.mem_cons_self) ?_)
    rwa [hsize, String.ofList_toList]

/-- Every word gives one lexeme. -/
theorem length_spacedLexemes {words : List (String × String)} (h : Spaced words) (start : Nat) :
    (spacedLexemes start words).length = words.length := by
  induction words generalizing start with
  | nil => rfl
  | cons word words ih =>
    obtain ⟨t, ht, hblank, hfault⟩ := h.lone _ List.mem_cons_self
    obtain ⟨_, _, _, _, _, hlone⟩ := munch_of_lone ht hblank hfault
    simp [spacedLexemes, hlone, ih h.tail]

end Spaced

/-! ### Sources whose lexemes are elsewhere -/

/-- What two sources have in common when the lexemes of the second are those of the first at other
places: both are compiled, to trees that differ in their positions only and behave alike, or both
are rejected with the same error at the corresponding places. -/
structure Relocated (f : Nat → Nat) (source other : String) (collect : Bool) : Prop where
  clean : (scan other collect).error = none
  lexemes : (scan other collect).lexemes =
    (scan source collect).lexemes.map (Placed.moved f)
  tree : ∀ c, compile source collect = .ok c → ∃ c', compile other collect = .ok c' ∧
    c'.expr = c.expr.moved f ∧ c'.expr.SameShape c.expr ∧
      ∀ host, c'.evaluate.run host = c.evaluate.run host
  failure : ∀ e, compile source collect = .error e → compile other collect = .error (e.moved f)

theorem SyntaxError.resolveEnd_moved (f : Nat → Nat) (n : Nat) (e : SyntaxError) :
    (e.moved f).resolveEnd (.byte (f n)) = (e.resolveEnd (.byte n)).moved f := by
  cases e with
  | emptyExpression => rfl
  | located fault p =>
    cases p with
    | byte q => rfl
    | endOfInput =>
      cases hmeets : fault.meetsEnd <;> simp [moved, resolveEnd, Position.moved, hmeets]

/-- Moving the lexemes and the end of a source moves everything. -/
theorem relocated_of_lexemes {f : Nat → Nat} {source other : String} {collect : Bool}
    (hsource : (scan source collect).error = none) (hother : (scan other collect).error = none)
    (hlexemes : (scan other collect).lexemes =
      (scan source collect).lexemes.map (Placed.moved f))
    (hend : f source.utf8ByteSize = other.utf8ByteSize) : Relocated f source other collect := by
  have hparse := parseLexemes_moved f (scan source collect).lexemes
  rw [← hlexemes] at hparse
  refine ⟨hother, hlexemes, fun c hc => ?_, fun e he => ?_⟩
  · obtain ⟨-, hok, -⟩ := compile_eq_ok_iff.mp hc
    rw [hok] at hparse
    have hshape := c.expr.moved_sameShape f
    refine ⟨⟨c.expr.moved f, (scan other collect).tokens⟩,
      compile_eq_ok_iff.mpr ⟨hother, hparse, rfl⟩, rfl, hshape, fun host => ?_⟩
    exact congrArg (Dialogue.run host) hshape.evaluate_eq
  · rw [compile_of_clean hsource] at he
    rw [compile_of_clean hother, hparse, ← hend]
    cases hresult : parseLexemes (scan source collect).lexemes with
    | ok tree =>
      rw [hresult] at he
      cases he
    | error e' =>
      rw [hresult] at he
      cases he
      exact congrArg Except.error (e'.resolveEnd_moved f _)

/-- The text of some tokens. -/
def Token.texts (tokens : List Token) : String := String.join (tokens.map text)

/-- Tokens that make up a source are pieces of its text. -/
theorem readings_of_tokenize {source : String} {front back : List Token}
    (h : tokenize source = front ++ back) :
    ∃ first last, readings source.toList = first ++ last ∧
      joined first = Token.texts front ∧ joined last = Token.texts back := by
  have htexts := Token.map_text_place 0 (readings source.toList)
  change (tokenize source).map Token.text = _ at htexts
  rw [h, List.map_append] at htexts
  obtain ⟨first, last, hpieces, hfirst, hlast⟩ := List.map_eq_append_iff.mp htexts.symm
  exact ⟨first, last, hpieces, congrArg String.join hfirst, congrArg String.join hlast⟩

/-- White space at the end of a token of a source. -/
theorem relocated_of_insert {source blank : String} {collect : Bool} {front back : List Token}
    (hsource : (scan source collect).error = none) (htokens : tokenize source = front ++ back)
    (hblank : ∀ c ∈ blank.toList, isLayout c) :
    Relocated (movedBehind (Token.texts front).utf8ByteSize blank.utf8ByteSize) source
      (Token.texts front ++ blank ++ Token.texts back) collect := by
  obtain ⟨first, last, hpieces, hfirst, hlast⟩ := readings_of_tokenize htokens
  have hinsert := Lexes.insert hblank hpieces (Nat.zero_add _) (lexes_of_scanFrom hsource)
  rw [String.ofList_toList, ← String.toList_append, ← String.toList_append, ← String.append_assoc,
    hfirst, hlast] at hinsert
  obtain ⟨hother, hlexemes⟩ := hinsert.scanFrom collect
  refine relocated_of_lexemes hsource hother hlexemes ?_
  have hwhole := joined_readings source.toList
  rw [hpieces, joined_append, hfirst, hlast, String.ofList_toList] at hwhole
  simp only [← hwhole, String.utf8ByteSize_append, movedBehind_add]

/-- **Layout does not matter.**  Words that are lexemes by themselves, with white space between
them, are scanned without a fault as those lexemes, each moved by the length of what precedes it.
White space that is put between two tokens of a source without a fault, or at either end, only moves
the lexemes behind it: the tree stays the same up to positions and behaves alike whatever the host
is, and an error stays the same one, at the place where its own is now. -/
theorem layout_is_immaterial :
    (∀ (front : String) (words : List (String × String)) (collect : Bool),
      (∀ c ∈ front.toList, isLayout c) → Spaced words →
        (scan (front ++ spacedText words) collect).error = none ∧
        (scan (front ++ spacedText words) collect).lexemes =
          spacedLexemes front.utf8ByteSize words ∧
        (spacedLexemes front.utf8ByteSize words).length = words.length) ∧
      ∀ (source blank : String) (collect : Bool) (front back : List Token),
        (scan source collect).error = none → tokenize source = front ++ back →
          (∀ c ∈ blank.toList, isLayout c) →
            Relocated (movedBehind (Token.texts front).utf8ByteSize blank.utf8ByteSize) source
              (Token.texts front ++ blank ++ Token.texts back) collect := by
  refine ⟨fun front words collect hfront hwords => ?_, fun source blank collect front back =>
    relocated_of_insert⟩
  have hlexes := hwords.lexes front.utf8ByteSize
  have hwhole : Lexes 0 (front ++ spacedText words).toList
      (spacedLexemes front.utf8ByteSize words) := by
    rw [String.toList_append]
    refine Lexes.append_blank hfront ?_
    rwa [String.ofList_toList, Nat.zero_add]
  obtain ⟨herror, hlexemes⟩ := hwhole.scanFrom collect
  exact ⟨herror, hlexemes, hwords.length_spacedLexemes _⟩

/-- A string keeps the blank inside it, and an operator of two characters is moved whole. -/
theorem spaced_words_and_moved_operator :
    (scan (" " ++ spacedText [("not", "\t"), ("\"a b\"", " \x0b"), ("in", "\n"), ("x.y", "")])
        false).lexemes =
      [⟨.keyword .not, 1⟩, ⟨.string "a b", 5⟩, ⟨.keyword .member, 12⟩, ⟨.identifier "x.y", 15⟩] ∧
      ∃ c, compile "a \t<=b" false = .ok c ∧
        c.expr = .binary .lessEqual (.var "a" (.byte 0)) (.var "b" (.byte 5)) (.byte 3) := by
  constructor
  · have hwords : Spaced [("not", "\t"), ("\"a b\"", " \x0b"), ("in", "\n"), ("x.y", "")] := by
      refine ⟨?_, by simp [isLayout], by simp⟩
      intro w hw
      simp only [List.mem_cons, List.not_mem_nil, or_false] at hw
      rcases hw with rfl | rfl | rfl | rfl
      · exact ⟨⟨.lexeme (.keyword .not), 0, "not"⟩, by cbv, by decide, by decide⟩
      · exact ⟨⟨.lexeme (.string "a b"), 0, "\"a b\""⟩, by cbv, by decide, by decide⟩
      · exact ⟨⟨.lexeme (.keyword .member), 0, "in"⟩, by cbv, by decide, by decide⟩
      · exact ⟨⟨.lexeme (.identifier "x.y"), 0, "x.y"⟩, by cbv, by decide, by decide⟩
    obtain ⟨-, hlexemes, -⟩ := layout_is_immaterial.1 " " _ false (by simp [isLayout]) hwords
    rw [hlexemes]
    cbv
  · have hrelocated := layout_is_immaterial.2 "a<=b" " \t" false
      [⟨.lexeme (.identifier "a"), 0, "a"⟩]
      [⟨.lexeme (.symbol .lessEqual), 1, "<="⟩, ⟨.lexeme (.identifier "b"), 3, "b"⟩]
      (by cbv) (by cbv) (by simp [isLayout])
    have hcompile : compile "a<=b" false =
        .ok ⟨.binary .lessEqual (.var "a" (.byte 0)) (.var "b" (.byte 3)) (.byte 1), none⟩ := by
      cbv
    obtain ⟨c, hc, hexpr, -⟩ := hrelocated.tree _ hcompile
    exact ⟨c, hc, hexpr⟩

end Reckon
