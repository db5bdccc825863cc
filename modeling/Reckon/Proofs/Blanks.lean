import Mathlib.Data.List.TakeWhile
import Reckon.Token
/-!
# White space between lexemes

A scan takes white space in runs and makes nothing of it.  So what it finds in a text can be told
without runs, one character of white space after the other: `Lexes` says which lexemes a text has,
if it has no piece of which nothing can be made.

* `munch_blank_iff` — a token is white space iff it starts with white space;
* `Lexes` — the lexemes of a text, read from some place on;
* `lexes_iff` — a scan finds the lexemes, and no fault;
* `lexes_nil_iff` — a text without lexemes is white space throughout.
-/

namespace Reckon

/-! ### Tokens that are white space -/

theorem readNumber_ne_blank (run : List Char) : readNumber run ≠ .blank := by
  unfold readNumber
  split <;> simp

/-- White space is taken in a run. -/
theorem munch_of_layout {c : Char} (h : isLayout c) (cs : List Char) :
    munch c cs = ⟨.blank, c :: cs.takeWhile isLayout, cs.dropWhile isLayout⟩ := by
  simp [munch, h, munchRun]

/-- A token is white space iff it starts with white space. -/
theorem munch_blank_iff (c : Char) (cs : List Char) :
    (munch c cs).reading = .blank ↔ isLayout c := by
  by_cases hlayout : isLayout c
  · simp [munch_of_layout, hlayout]
  · simp only [hlayout, Bool.false_eq_true, iff_false]
    unfold munch
    rw [if_neg hlayout]
    split
    · exact readNumber_ne_blank _
    split
    · simp [munchRun]
    split
    · unfold munchString
      split <;> simp
    · unfold munchSymbol
      split
      · simp
      · split <;> simp

/-- A token that is white space holds nothing else. -/
theorem layout_of_munch {c : Char} {cs : List Char} (h : (munch c cs).reading = .blank) :
    ∀ d ∈ (munch c cs).text, isLayout d := by
  have hlayout := (munch_blank_iff c cs).mp h
  rw [munch_of_layout hlayout]
  intro d hd
  rcases List.mem_cons.mp hd with hd | hd
  · exact hd ▸ hlayout
  · exact List.mem_takeWhile_imp hd

theorem utf8ByteSize_ofList_cons (c : Char) (cs : List Char) :
    (String.ofList (c :: cs)).utf8ByteSize = c.utf8Size + (String.ofList cs).utf8ByteSize := by
  simp [String.ofList_cons]

/-- A scan makes nothing of white space at the front. -/
theorem scanFrom_of_layout {c : Char} (h : isLayout c) (collect : Bool) (start : Nat)
    (cs : List Char) :
    (scanFrom collect start (c :: cs)).lexemes =
        (scanFrom collect (start + c.utf8Size) cs).lexemes ∧
      (scanFrom collect start (c :: cs)).error =
        (scanFrom collect (start + c.utf8Size) cs).error := by
  -- the run goes on where that of the rest starts, or it ends here
  have hrun : scanFrom collect start (c :: cs) =
      (scanFrom collect
        (start + (c.utf8Size + (String.ofList (cs.takeWhile isLayout)).utf8ByteSize))
        (cs.dropWhile isLayout)).withToken
          ⟨.blank, start, String.ofList (c :: cs.takeWhile isLayout)⟩ := by
    rw [scanFrom, munch_of_layout h, utf8ByteSize_ofList_cons]
  rw [hrun]
  cases cs with
  | nil => simp [Scan.withToken]
  | cons d ds =>
    by_cases hd : isLayout d
    · rw [scanFrom, munch_of_layout hd]
      simp [Scan.withToken, hd, Nat.add_assoc]
    · simp [Scan.withToken, hd]

/-! ### The lexemes of a text -/

/-- `Lexes start cs xs`: from the place `start` on, the text `cs` has the lexemes `xs` and otherwise
white space only. -/
inductive Lexes : Nat → List Char → List Placed → Prop
  | nil {start : Nat} : Lexes start [] []
  | blank {start : Nat} {c : Char} {cs : List Char} {xs : List Placed} (hlayout : isLayout c)
      (others : Lexes (start + c.utf8Size) cs xs) : Lexes start (c :: cs) xs
  | lexeme {start : Nat} {c : Char} {cs text rest : List Char} {l : Lexeme} {xs : List Placed}
      (hmunch : munch c cs = ⟨.lexeme l, text, rest⟩)
      (others : Lexes (start + (String.ofList text).utf8ByteSize) rest xs) :
      Lexes start (c :: cs) (⟨l, start⟩ :: xs)

namespace Lexes

/-- White space in front of a text. -/
theorem append_blank {blank : List Char} (hblank : ∀ c ∈ blank, isLayout c) {start : Nat}
    {cs : List Char} {xs : List Placed}
    (h : Lexes (start + (String.ofList blank).utf8ByteSize) cs xs) :
    Lexes start (blank ++ cs) xs := by
  induction blank generalizing start with
  | nil => simpa using h
  | cons c blank ih =>
    rw [utf8ByteSize_ofList_cons, ← Nat.add_assoc] at h
    have hothers := ih (fun d hd => hblank d (List.mem_cons_of_mem c hd)) h
    exact .blank (hblank c List.mem_cons_self) hothers

/-- White space in front of a text can be left out. -/
theorem of_append_blank {blank : List Char} (hblank : ∀ c ∈ blank, isLayout c) {start : Nat}
    {cs : List Char} {xs : List Placed} (h : Lexes start (blank ++ cs) xs) :
    Lexes (start + (String.ofList blank).utf8ByteSize) cs xs := by
  induction blank generalizing start with
  | nil => simpa using h
  | cons c blank ih =>
    have hlayout := hblank c List.mem_cons_self
    rw [utf8ByteSize_ofList_cons, ← Nat.add_assoc]
    refine ih (fun d hd => hblank d (List.mem_cons_of_mem c hd)) ?_
    cases h with
    | blank _ others => exact others
    | lexeme hmunch _ => cases (munch_of_layout hlayout _).symm.trans hmunch

/-- What the first token of a text is: white space, or the first lexeme. -/
theorem first {start : Nat} {c : Char} {cs : List Char} {xs : List Placed}
    (h : Lexes start (c :: cs) xs) :
    ((munch c cs).reading = .blank ∧
      Lexes (start + (String.ofList (munch c cs).text).utf8ByteSize) (munch c cs).rest xs) ∨
    ∃ l ys, (munch c cs).reading = .lexeme l ∧ xs = ⟨l, start⟩ :: ys ∧
      Lexes (start + (String.ofList (munch c cs).text).utf8ByteSize) (munch c cs).rest ys := by
  by_cases hlayout : isLayout c
  · have hblank := (munch_blank_iff c cs).mpr hlayout
    rw [← munch_text_append_rest c cs] at h
    exact .inl ⟨hblank, h.of_append_blank (layout_of_munch hblank)⟩
  · cases h with
    | blank hblank _ => exact absurd hblank hlayout
    | lexeme hmunch others =>
      rw [hmunch]
      exact .inr ⟨_, _, rfl, rfl, others⟩

/-- A scan finds the lexemes of a text. -/
theorem scanFrom {start : Nat} {cs : List Char} {xs : List Placed} (h : Lexes start cs xs)
    (collect : Bool) :
    (scanFrom collect start cs).error = none ∧ (scanFrom collect start cs).lexemes = xs := by
  induction h with
  | nil => simp [Reckon.scanFrom]
  | blank hlayout _ ih =>
    obtain ⟨hlexemes, herror⟩ := scanFrom_of_layout hlayout collect _ _
    rwa [hlexemes, herror]
  | lexeme hmunch _ ih =>
    rw [Reckon.scanFrom, hmunch]
    exact ⟨ih.1, congrArg _ ih.2⟩

end Lexes

/-- What a scan without a fault finds is what the text has. -/
theorem lexes_of_scanFrom {collect : Bool} {start : Nat} {cs : List Char}
    (h : (scanFrom collect start cs).error = none) :
    Lexes start cs (scanFrom collect start cs).lexemes := by
  fun_induction scanFrom collect start cs with
  | case1 start => exact .nil
  | case2 start c cs first text others hreading ih =>
    rw [← munch_text_append_rest c cs]
    exact .append_blank (layout_of_munch hreading) (ih h)
  | case3 start c cs first text others l hreading ih =>
    have hmunch : munch c cs = ⟨.lexeme l, first.text, first.rest⟩ := by
      rw [← hreading]
    exact .lexeme hmunch (ih h)
  | case4 => cases h

/-- **The lexemes of a text** are what a scan finds, if it does not end at a fault. -/
theorem lexes_iff {collect : Bool} {start : Nat} {cs : List Char} {xs : List Placed} :
    Lexes start cs xs ↔
      (scanFrom collect start cs).error = none ∧ (scanFrom collect start cs).lexemes = xs := by
  constructor
  · intro h
    exact h.scanFrom collect
  · intro h
    obtain ⟨herror, rfl⟩ := h
    exact lexes_of_scanFrom herror

/-- A text without lexemes is white space throughout. -/
theorem lexes_nil_iff {start : Nat} {cs : List Char} :
    Lexes start cs [] ↔ ∀ c ∈ cs, isLayout c := by
  constructor
  · intro h
    generalize hxs : ([] : List Placed) = xs at h
    induction h with
    | nil => simp
    | blank hlayout _ ih => simpa [hlayout] using ih hxs
    | lexeme => cases hxs
  · intro h
    have hempty : Lexes (start + (String.ofList cs).utf8ByteSize) [] [] := .nil
    simpa using hempty.append_blank h

end Reckon
