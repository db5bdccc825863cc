import Mathlib
import Reckon.Proofs.Layout
import Reckon.Proofs.NumberRuns
import Reckon.Proofs.StringLiterals
/-!
# Tokens are as long as they can be

A token is the longest piece of the source, from the place where it starts, that is a single token
by itself.  A run goes on as far as it can, a symbol of two characters is preferred to one of one,
and a string ends at its first closing quote, so that more text behind a token never makes it
shorter.  What a token is read as depends on its text only.

* `munch_text_prefix` — more text behind a token does not make it shorter;
* `munch_alone` — a token is read by itself as it is in its source;
* `munch_reserved_iff` — a reserved word is recognised only as a whole word;
* `tokens_are_longest` — all of it, for every token of every source.
-/

namespace Reckon

/-- The first character says how a token is read, whatever follows. -/
theorem munch_cases (c : Char) :
    (∃ accepts read, ∀ cs, munch c cs = munchRun accepts read c cs) ∨
      (∀ cs, munch c cs = munchString cs) ∨ ∀ cs, munch c cs = munchSymbol c cs := by
  simp only [munch]
  split_ifs
  · exact .inl ⟨_, _, fun _ => rfl⟩
  · exact .inl ⟨_, _, fun _ => rfl⟩
  · exact .inl ⟨_, _, fun _ => rfl⟩
  · exact .inr (.inl fun _ => rfl)
  · exact .inr (.inr fun _ => rfl)

/-! ### More text behind a token -/

theorem takeWhile_append_prefix (accepts : Char → Bool) (cs more : List Char) :
    cs.takeWhile accepts <+: (cs ++ more).takeWhile accepts := by
  rw [List.takeWhile_append]
  split
  · next hall =>
    rw [(List.takeWhile_prefix accepts).eq_of_length hall]
    exact List.prefix_append ..
  · exact List.prefix_rfl

/-- A string that is not closed takes more, and one that is closed stays what it is. -/
theorem munchString_text_prefix (cs more : List Char) :
    (munchString cs).text <+: (munchString (cs ++ more)).text := by
  cases hread : readString cs with
  | some body =>
    have hmore := readString_replace hread (body.rest ++ more)
    rw [← List.append_assoc, readString_text hread] at hmore
    simp [munchString, hread, hmore]
  | none =>
    cases hmore : readString (cs ++ more) with
    | none => simp [munchString, hread, hmore]
    | some body =>
      obtain ⟨front, htext, hfirst⟩ := firstClosesAfter_of_readString hmore
      have hwhole : cs <+: front ++ ['"'] := by
        rcases List.prefix_or_prefix_of_prefix (List.prefix_append cs more) hfirst.quote with
          hshort | hlong
        · exact hshort
        · -- the quote would have closed the string without the rest
          exact absurd ⟨hlong, hfirst.even⟩ (not_closesAfter_of_readString hread front)
      simpa [munchString, hread, hmore, htext] using hwhole

theorem munchSymbol_text_prefix (c : Char) (cs more : List Char) :
    (munchSymbol c cs).text <+: (munchSymbol c (cs ++ more)).text := by
  have hone (ds : List Char) : [c] <+: (munchSymbol c ds).text := by
    unfold munchSymbol
    split
    · simp
    · split <;> simp
  cases htwo : cs.head?.bind (symbolOfTwo? c) with
  | some s =>
    obtain ⟨d, hd, hs⟩ := Option.bind_eq_some_iff.mp htwo
    obtain ⟨ds, rfl⟩ := List.head?_eq_some_iff.mp hd
    simp [munchSymbol, hs]
  | none =>
    have htext : (munchSymbol c cs).text = [c] := by
      simp only [munchSymbol, htwo]
      split <;> rfl
    rw [htext]
    exact hone _

/-- **More text behind a token** does not make it shorter. -/
theorem munch_text_prefix (c : Char) (cs more : List Char) :
    (munch c cs).text <+: (munch c (cs ++ more)).text := by
  rcases munch_cases c with ⟨accepts, read, hrun⟩ | hstring | hsymbol
  · rw [hrun, hrun]
    exact List.cons_prefix_cons.mpr ⟨rfl, takeWhile_append_prefix accepts cs more⟩
  · rw [hstring, hstring]
    exact munchString_text_prefix cs more
  · rw [hsymbol, hsymbol]
    exact munchSymbol_text_prefix c cs more

/-! ### A token by itself -/

theorem munchRun_alone (accepts : Char → Bool) (read : List Char → Reading) (c : Char)
    (cs : List Char) :
    munchRun accepts read c (munchRun accepts read c cs).text.tail =
      { munchRun accepts read c cs with rest := [] } := by
  have htake : (cs.takeWhile accepts).takeWhile accepts = cs.takeWhile accepts :=
    List.takeWhile_eq_self_iff.mpr fun d hd => List.mem_takeWhile_imp hd
  have hdrop : (cs.takeWhile accepts).dropWhile accepts = [] :=
    List.dropWhile_eq_nil_iff.mpr fun d hd => List.mem_takeWhile_imp hd
  simp only [munchRun, List.tail_cons, htake, hdrop]

theorem munchString_alone (cs : List Char) :
    munchString (munchString cs).text.tail = { munchString cs with rest := [] } := by
  cases hread : readString cs with
  | none => simp [munchString, hread]
  | some body =>
    have halone := readString_replace hread []
    rw [List.append_nil] at halone
    simp [munchString, hread, halone]

theorem munchSymbol_alone (c : Char) (cs : List Char) :
    munchSymbol c (munchSymbol c cs).text.tail = { munchSymbol c cs with rest := [] } := by
  cases htwo : cs.head?.bind (symbolOfTwo? c) with
  | some s =>
    obtain ⟨d, hd, hs⟩ := Option.bind_eq_some_iff.mp htwo
    obtain ⟨ds, rfl⟩ := List.head?_eq_some_iff.mp hd
    simp [munchSymbol, hs]
  | none =>
    cases hone : symbolOfOne? c <;> simp [munchSymbol, htwo, hone]

/-- **A token by itself** is read as it is in front of its rest. -/
theorem munch_alone (c : Char) (cs : List Char) :
    munch c (munch c cs).text.tail = { munch c cs with rest := [] } := by
  rcases munch_cases c with ⟨accepts, read, hrun⟩ | hstring | hsymbol
  · rw [hrun, hrun]
    exact munchRun_alone ..
  · rw [hstring, hstring]
    exact munchString_alone cs
  · rw [hsymbol, hsymbol]
    exact munchSymbol_alone c cs

/-! ### Words -/

/-- The words that are no names. -/
def reservedWords : List String := ["true", "false", "and", "or", "xor", "not", "in"]

/-- The reserved word that the lexeme is, if it is one. -/
def Lexeme.reserved? : Lexeme → Option String
  | boolean b => some (if b then "true" else "false")
  | keyword k => some k.spelling
  | _ => none

theorem mem_reservedWords {l : Lexeme} {word : String} (h : l.reserved? = some word) :
    word ∈ reservedWords := by
  cases l with
  | boolean b => cases b <;> cases h <;> decide
  | keyword k => cases k <;> cases h <;> decide
  | _ => cases h

/-- A word is read as a reserved one iff it is that. -/
theorem readWord_eq_iff {l : Lexeme} {name : String} (h : l.reserved? = some name)
    (word : List Char) : readWord word = l ↔ String.ofList word = name := by
  constructor
  · intro hread
    simp only [readWord] at hread
    split at hread
    · next htrue => cases hread; cases h; exact htrue
    split at hread
    · next hfalse => cases hread; cases h; exact hfalse
    split at hread
    · next k hfind =>
      cases hread
      cases h
      have hspelling : k.spelling = String.ofList word := by simpa using List.find?_some hfind
      exact hspelling.symm
    · cases hread
      cases h
  · intro hname
    simp only [readWord, hname]
    cases l with
    | boolean b => cases b <;> cases h <;> rfl
    | keyword k => cases k <;> cases h <;> rfl
    | _ => cases h

/-- A word that is not reserved is a name. -/
theorem readWord_of_not_reserved {word : List Char} (h : String.ofList word ∉ reservedWords) :
    readWord word = .identifier (String.ofList word) := by
  simp only [readWord]
  split
  · next htrue => exact absurd (by rw [htrue]; decide) h
  split
  · next hfalse => exact absurd (by rw [hfalse]; decide) h
  split
  · next k hfind =>
    have hspelling : k.spelling = String.ofList word := by simpa using List.find?_some hfind
    exact absurd (hspelling ▸ mem_reservedWords (l := .keyword k) rfl) h
  · rfl

theorem continuesWord_of_startsWord {c : Char} (h : startsWord c) : continuesWord c := by
  rcases of_decide_eq_true h with halpha | rfl
  · simp [continuesWord, Char.isAlphanum, halpha]
  · decide

/-- What starts a name is neither white space nor part of a number. -/
theorem munch_of_startsWord {c : Char} (h : startsWord c) (cs : List Char) :
    munch c cs = munchRun continuesWord (fun run => .lexeme (readWord run)) c cs := by
  have hrange : 'A'.toNat ≤ c.toNat := by
    rcases of_decide_eq_true h with halpha | rfl
    · simp only [Char.isAlpha, Char.isUpper, Char.isLower, Bool.or_eq_true, Bool.and_eq_true,
        decide_eq_true_eq, ge_iff_le, UInt32.le_iff_toNat_le] at halpha
      rcases halpha with hupper | hlower
      · exact hupper.1
      · exact Nat.le_trans (by decide) hlower.1
    · decide
  have hlayout : ¬ isLayout c := by
    intro hlayout
    rcases of_decide_eq_true hlayout with rfl | rfl | rfl | rfl | rfl | rfl <;>
      exact absurd hrange (by decide)
  have hnumeric : ¬ isNumeric c := by
    intro hnumeric
    rcases of_decide_eq_true hnumeric with hdigit | rfl
    · exact absurd (hrange.trans (Char.isDigit_iff_toNat.mp hdigit).2) (by decide)
    · exact absurd hrange (by decide)
  simp [munch, hlayout, hnumeric, h]

theorem not_reserved_of_munch {c : Char} {cs : List Char} {l : Lexeme} (hword : ¬ startsWord c)
    (h : (munch c cs).reading = .lexeme l) : l.reserved? = none := by
  unfold munch at h
  rw [if_neg hword] at h
  split at h
  · cases h
  split at h
  · simp only [munchRun, readNumber] at h
    split at h <;> cases h
    rfl
  split at h
  · unfold munchString at h
    split at h <;> cases h
    rfl
  · unfold munchSymbol at h
    split at h
    · cases h
      rfl
    split at h <;> cases h
    rfl

theorem startsWord_of_reserved {name : String} (h : name ∈ reservedWords) :
    ∃ c ∈ name.toList.head?, startsWord c := by
  simp only [reservedWords, List.mem_cons, List.not_mem_nil, or_false] at h
  rcases h with rfl | rfl | rfl | rfl | rfl | rfl | rfl <;> simp [startsWord]

/-- **A reserved word** is recognised only where it is the whole token, and there always. -/
theorem munch_reserved_iff {l : Lexeme} {name : String} (h : l.reserved? = some name) (c : Char)
    (cs : List Char) :
    (munch c cs).reading = .lexeme l ↔ String.ofList (munch c cs).text = name := by
  by_cases hword : startsWord c
  · rw [munch_of_startsWord hword, munchRun]
    dsimp only
    rw [Reading.lexeme.injEq]
    exact readWord_eq_iff h _
  · refine iff_of_false (fun hreading => ?_) (fun hname => hword ?_)
    · have hnone := not_reserved_of_munch hword hreading
      simp [h] at hnone
    · obtain ⟨d, hd, hstarts⟩ := startsWord_of_reserved (mem_reservedWords h)
      rw [← hname, String.toList_ofList, munch_text_head] at hd
      rwa [Option.some.inj hd]

/-! ### Tokens in a source -/

/-- The text stands in the source at a place. -/
def StandsAt (text source : String) (place : Nat) : Prop :=
  ∃ before after, source = before ++ text ++ after ∧ before.utf8ByteSize = place

/-- What stands behind a part of the source are the texts with which the rest begins. -/
theorem standsAt_iff {text source : String} {front rest : List Char}
    (h : source.toList = front ++ rest) :
    StandsAt text source (String.ofList front).utf8ByteSize ↔ text.toList <+: rest := by
  have hempty {cs ds : List Char} (hsize : (String.ofList (cs ++ ds)).utf8ByteSize =
      (String.ofList cs).utf8ByteSize) : ds = [] := by
    have hzero : (String.ofList ds).utf8ByteSize = 0 := by
      rw [String.ofList_append, String.utf8ByteSize_append] at hsize
      omega
    simpa using hzero
  constructor
  · rintro ⟨before, after, rfl, hsize⟩
    rw [← String.ofList_toList (s := before)] at hsize
    rw [String.toList_append, String.toList_append, List.append_assoc] at h
    rcases List.append_eq_append_iff.mp h with ⟨extra, hfront, hrest⟩ | ⟨extra, hbefore, hrest⟩
    · obtain rfl := hempty (hfront ▸ hsize.symm)
      exact ⟨after.toList, hrest⟩
    · obtain rfl := hempty (hbefore ▸ hsize)
      exact ⟨after.toList, hrest.symm⟩
  · rintro ⟨after, hafter⟩
    refine ⟨String.ofList front, String.ofList after, ?_, rfl⟩
    rw [← String.toList_inj]
    simp [h, ← hafter]

/-- What stands at a place starts with the character that is there. -/
theorem head_of_standsAt {text source : String} {front cs : List Char} {c : Char}
    (h : source.toList = front ++ c :: cs)
    (hstands : StandsAt text source (String.ofList front).utf8ByteSize) :
    ∀ d ∈ text.toList.head?, d = c := by
  intro d hd
  obtain ⟨ds, htext⟩ := List.head?_eq_some_iff.mp hd
  have hbegins := (standsAt_iff h).mp hstands
  rw [htext] at hbegins
  exact (List.cons_prefix_cons.mp hbegins).1

/-- Accepted characters that stand at a place are part of the run there. -/
theorem prefix_takeWhile_of_standsAt {accepts : Char → Bool} {text source : String}
    {front back : List Char} (h : source.toList = front ++ back)
    (haccepted : ∀ c ∈ text.toList, accepts c)
    (hstands : StandsAt text source (String.ofList front).utf8ByteSize) :
    text.toList <+: back.takeWhile accepts := by
  obtain ⟨more, rfl⟩ := (standsAt_iff h).mp hstands
  have hrun := takeWhile_append_prefix accepts text.toList more
  rwa [List.takeWhile_eq_self_iff.mpr haccepted] at hrun

theorem munch_of_mem_place (start : Nat) (cs : List Char) :
    ∀ t ∈ Token.place start (readings cs), ∃ front c back, cs = front ++ c :: back ∧
      t = ⟨(munch c back).reading, start + (String.ofList front).utf8ByteSize,
        String.ofList (munch c back).text⟩ := by
  fun_induction readings cs generalizing start with
  | case1 => simp [Token.place]
  | case2 c cs first ih =>
    intro t ht
    rcases List.mem_cons.mp ht with rfl | ht
    · exact ⟨[], c, cs, rfl, by simp [first]⟩
    · obtain ⟨front, d, back, hsplit, rfl⟩ := ih _ t ht
      refine ⟨(munch c cs).text ++ front, d, back, ?_, ?_⟩
      · rw [List.append_assoc, ← hsplit, munch_text_append_rest]
      · rw [String.ofList_append, String.utf8ByteSize_append, ← Nat.add_assoc]

/-- A token of a source is the first one of what is left there. -/
theorem munch_of_mem_tokenize {source : String} {t : Token} (ht : t ∈ tokenize source) :
    ∃ front c back, source.toList = front ++ c :: back ∧
      t = ⟨(munch c back).reading, (String.ofList front).utf8ByteSize,
        String.ofList (munch c back).text⟩ := by
  simpa using munch_of_mem_place 0 source.toList t ht

/-- The text of a token is a single token, which is read as the token is. -/
theorem tokenize_text (c : Char) (cs : List Char) :
    tokenize (String.ofList (munch c cs).text) =
      [⟨(munch c cs).reading, 0, String.ofList (munch c cs).text⟩] := by
  obtain ⟨text, htext⟩ := List.head?_eq_some_iff.mp (munch_text_head c cs)
  have halone := munch_alone c cs
  rw [htext, List.tail_cons] at halone
  rw [tokenize, String.toList_ofList, htext, readings, halone]
  simp [readings, Token.place, htext]

/-- A token is the longest text from its place on that is a single token, and it is by itself what
it is in the source. -/
structure Token.Longest (t : Token) (source : String) : Prop where
  stands : StandsAt t.text source t.start
  alone : tokenize t.text = [{ t with start := 0 }]
  longest : ∀ text u, StandsAt text source t.start → tokenize text = [u] →
    text.toList <+: t.text.toList

theorem longest_of_mem_tokenize {source : String} {t : Token} (ht : t ∈ tokenize source) :
    t.Longest source := by
  obtain ⟨front, c, back, hsource, rfl⟩ := munch_of_mem_tokenize ht
  refine ⟨(standsAt_iff hsource).mpr ?_, tokenize_text c back, fun text u hstands hsingle => ?_⟩
  · rw [String.toList_ofList, ← munch_text_append_rest c back]
    exact List.prefix_append ..
  · obtain ⟨d, ds, htext, hmunch⟩ := munch_of_tokenize_singleton hsingle
    have hwhole : (munch d ds).text = d :: ds := by rw [hmunch]
    obtain ⟨more, hmore⟩ := (standsAt_iff hsource).mp hstands
    rw [htext, List.cons_append] at hmore
    obtain ⟨rfl, rfl⟩ := List.cons.inj hmore
    rw [htext, ← hwhole, String.toList_ofList]
    exact munch_text_prefix d ds more

/-! ### What is taken whole -/

/-- A run of accepted characters stands at the place, and it ends where none follows. -/
structure RunAt (accepts : Char → Bool) (run source : String) (place : Nat) : Prop where
  stands : StandsAt run source place
  accepted : ∀ c ∈ run.toList, accepts c
  ends : ∀ d, accepts d → ¬ StandsAt (run.push d) source place

/-- There is only one such run at a place. -/
theorem RunAt.toList_eq {accepts : Char → Bool} {run source : String} {front back : List Char}
    (hsource : source.toList = front ++ back)
    (h : RunAt accepts run source (String.ofList front).utf8ByteSize) :
    run.toList = back.takeWhile accepts := by
  obtain ⟨after, hafter⟩ := (standsAt_iff hsource).mp h.stands
  have hnone : after.takeWhile accepts = [] := by
    cases after with
    | nil => rfl
    | cons d ds =>
      have hd : ¬ accepts d := by
        intro hd
        refine h.ends d hd ((standsAt_iff hsource).mpr ⟨ds, ?_⟩)
        rw [String.toList_push, List.append_assoc]
        exact hafter
      simp [hd]
  rw [← hafter, List.takeWhile_append_of_pos h.accepted, hnone, List.append_nil]

theorem munch_of_isNumeric {c : Char} (h : isNumeric c) (cs : List Char) :
    munch c cs = munchRun isNumeric readNumber c cs := by
  have hlayout : ¬ isLayout c := by
    intro hlayout
    rcases of_decide_eq_true hlayout with rfl | rfl | rfl | rfl | rfl | rfl <;>
      exact absurd h (by decide)
  simp [munch, hlayout, h]

theorem continuesWord_of_reserved {name : String} (h : name ∈ reservedWords) :
    ∀ c ∈ name.toList, continuesWord c := by
  simp only [reservedWords, List.mem_cons, List.not_mem_nil, or_false] at h
  rcases h with rfl | rfl | rfl | rfl | rfl | rfl | rfl <;> simp [continuesWord]

/-- No reserved word goes on as another one. -/
theorem reserved_push_not_prefix {name other : String} (h : name ∈ reservedWords)
    (hother : other ∈ reservedWords) (d : Char) : ¬ (name.push d).toList <+: other.toList := by
  have hsame : ∀ name ∈ reservedWords, ∀ other ∈ reservedWords,
      name.toList <+: other.toList → name = other := by
    decide +kernel
  intro hbegins
  rw [String.toList_push] at hbegins
  obtain rfl := hsame name h other hother ((List.prefix_append ..).trans hbegins)
  simpa using hbegins.length_le

/-- The symbols of two characters. -/
theorem symbolOfTwo?_of_spelling {s : Symbol} (h : s.spelling.length = 2) :
    ∃ c d, s.spelling.toList = [c, d] ∧ ∀ cs,
      munch c (d :: cs) = ⟨.lexeme (.symbol s), [c, d], cs⟩ := by
  cases s <;> first | exact absurd h (by decide) | exact ⟨_, _, rfl, fun cs => rfl⟩

/-- What is recognised only as a whole: a reserved word is one only if no word goes on with it, a
symbol of two characters is not cut, and a run of digits and points is one number or one fault. -/
structure Token.TakenWhole (t : Token) (source : String) : Prop where
  reserved : ∀ l name, l.reserved? = some name → (t.reading = .lexeme l ↔ t.text = name)
  word : ∀ name, (∃ c ∈ name.toList.head?, startsWord c) →
    RunAt continuesWord name source t.start →
      t.text = name ∧ (name ∉ reservedWords → t.reading = .lexeme (.identifier name))
  continued : ∀ name ∈ reservedWords, ∀ d, continuesWord d →
    StandsAt (name.push d) source t.start → t.reading = .lexeme (.identifier t.text)
  symbol : ∀ s : Symbol, s.spelling.length = 2 → StandsAt s.spelling source t.start →
    t.reading = .lexeme (.symbol s) ∧ t.text = s.spelling
  number : ∀ run, run ≠ "" → RunAt isNumeric run source t.start →
    t.text = run ∧ (t.kind = .number ∧ IsDecimalRun run.toList ∨
      t.kind = .unknown ∧ ¬ IsDecimalRun run.toList)

theorem takenWhole_of_mem_tokenize {source : String} {t : Token} (ht : t ∈ tokenize source) :
    t.TakenWhole source := by
  obtain ⟨front, c, back, hsource, rfl⟩ := munch_of_mem_tokenize ht
  constructor
  case reserved => exact fun l name h => munch_reserved_iff h c back
  case word =>
    rintro name ⟨d, hd, hstarts⟩ hrun
    have hname := hrun.toList_eq hsource
    obtain rfl := head_of_standsAt hsource hrun.stands d hd
    rw [List.takeWhile_cons_of_pos (continuesWord_of_startsWord hstarts)] at hname
    rw [munch_of_startsWord hstarts, munchRun, ← hname]
    dsimp only
    rw [String.ofList_toList]
    refine ⟨rfl, fun hfree => ?_⟩
    rw [readWord_of_not_reserved (by rwa [String.ofList_toList]), String.ofList_toList]
  case continued =>
    intro name hname d hd hstands
    obtain ⟨b, hb, hstarts⟩ := startsWord_of_reserved hname
    obtain rfl := head_of_standsAt hsource hstands b (by simp [Option.mem_def.mp hb])
    have haccepted : ∀ e ∈ (name.push d).toList, continuesWord e := by
      intro e he
      rw [String.toList_push] at he
      rcases List.mem_append.mp he with he | he
      · exact continuesWord_of_reserved hname e he
      · rwa [List.mem_singleton.mp he]
    have htext := prefix_takeWhile_of_standsAt hsource haccepted hstands
    rw [List.takeWhile_cons_of_pos (continuesWord_of_startsWord hstarts)] at htext
    rw [munch_of_startsWord hstarts, munchRun]
    dsimp only
    rw [readWord_of_not_reserved]
    intro hreserved
    refine reserved_push_not_prefix hname hreserved d ?_
    rwa [String.toList_ofList]
  case symbol =>
    intro s hs hstands
    obtain ⟨a, b, hspelling, hmunch⟩ := symbolOfTwo?_of_spelling hs
    have hbegins := (standsAt_iff hsource).mp hstands
    rw [hspelling] at hbegins
    obtain ⟨rfl, cs, rfl⟩ := List.cons_prefix_cons.mp hbegins
    rw [List.singleton_append, hmunch]
    exact ⟨rfl, by rw [← hspelling, String.ofList_toList]⟩
  case number =>
    intro run hne hrun
    have hname := hrun.toList_eq hsource
    have hnumeric : isNumeric c := by
      by_contra hnot
      rw [List.takeWhile_cons_of_neg hnot] at hname
      exact hne (String.toList_eq_nil_iff.mp hname)
    rw [List.takeWhile_cons_of_pos hnumeric] at hname
    rw [munch_of_isNumeric hnumeric, munchRun, ← hname]
    dsimp only
    refine ⟨String.ofList_toList, ?_⟩
    rcases readNumber_cases hrun.accepted with ⟨hdecimal, x, hread⟩ | ⟨hnot, hread⟩
    · exact .inl ⟨by rw [hread]; rfl, hdecimal⟩
    · exact .inr ⟨by rw [hread]; rfl, hnot⟩

/-- **Tokens are as long as they can be.**  The text of a token is the longest one from its place on
that is a single token, and by itself it is read as it is in the source.  So reserved words are
recognised only as whole words, symbols of two characters are never cut, and a run of digits and
points is one number if it has a digit and not two points, and otherwise one fault. -/
theorem tokens_are_longest (source : String) :
    ∀ t ∈ tokenize source, t.Longest source ∧ t.TakenWhole source :=
  fun _ ht => ⟨longest_of_mem_tokenize ht, takenWhole_of_mem_tokenize ht⟩

/-- A point makes a name of `in`, the second `=` is left over, and two points are one too many. -/
theorem word_mark_and_run_taken_whole :
    let source := "in.x<==1.2.3"
    let name : Token := ⟨.lexeme (.identifier "in.x"), 0, "in.x"⟩
    let mark : Token := ⟨.lexeme (.symbol .lessEqual), 4, "<="⟩
    let run : Token := ⟨.fault (.invalidNumber "1.2.3"), 7, "1.2.3"⟩
    (name ∈ tokenize source ∧ name.Longest source ∧ name.TakenWhole source) ∧
      (mark ∈ tokenize source ∧ mark.Longest source ∧ mark.TakenWhole source) ∧
      (run ∈ tokenize source ∧ run.Longest source ∧ run.TakenWhole source) := by
  intro source name mark run
  have htokens : tokenize source =
      [name, mark, ⟨.fault (.unexpectedCharacter '='), 6, "="⟩, run] := by
    cbv
  have hname : name ∈ tokenize source := by simp [htokens]
  have hmark : mark ∈ tokenize source := by simp [htokens]
  have hrun : run ∈ tokenize source := by simp [htokens]
  exact ⟨⟨hname, tokens_are_longest source name hname⟩,
    ⟨hmark, tokens_are_longest source mark hmark⟩, hrun, tokens_are_longest source run hrun⟩

end Reckon
