import Mathlib.Data.List.Chain
import Reckon.Proofs.ScanOrder
/-!
# Tokens cover the source

Tokenizing never fails and loses nothing: whatever the source is, its tokens are pieces of it that
are not empty, and they follow each other without a gap from its first byte to its last.  All of it
follows from what a single step keeps, `munch_text_append_rest`: a token and what is left are the
text that was there.

* `Token.PieceOf` — a token as a piece of a source, cut between characters;
* `tokenize_covers` — the tokens of a source, one after the other, are the source.
-/

namespace Reckon

/-- A token is a piece of a source: a text that is not empty, from the place where the token starts
to the place where it stops, which are both between characters. -/
structure Token.PieceOf (t : Token) (source : String) : Prop where
  text_ne : t.text ≠ ""
  length_eq : t.length = t.text.utf8ByteSize
  slice : ∃ first last : source.Pos, first.offset.byteIdx = t.start ∧
    last.offset.byteIdx = t.start + t.length ∧ source.extract first last = t.text

/-- What stands between two texts is the slice between the sizes they leave. -/
theorem extract_append_append (before text after : String)
    (first last : (before ++ text ++ after).Pos) (hfirst : first.offset.byteIdx = before.utf8ByteSize)
    (hlast : last.offset.byteIdx = before.utf8ByteSize + text.utf8ByteSize) :
    String.extract first last = text := by
  rw [← String.toByteArray_inj, String.toByteArray_extract, hfirst, hlast]
  simp only [String.toByteArray_append]
  rw [ByteArray.extract_append, ByteArray.extract_append_eq_right] <;> simp

theorem Token.pieceOf_append (reading : Reading) (before text after : String) (htext : text ≠ "") :
    Token.PieceOf ⟨reading, before.utf8ByteSize, text⟩ (before ++ text ++ after) := by
  have hfirst : String.Pos.Raw.IsValid (before ++ text ++ after) before.rawEndPos :=
    String.Pos.Raw.isValid_iff_exists_append.mpr
      ⟨before, text ++ after, String.append_assoc .., rfl⟩
  have hlast : String.Pos.Raw.IsValid (before ++ text ++ after) (before ++ text).rawEndPos :=
    String.Pos.Raw.isValid_iff_exists_append.mpr ⟨before ++ text, after, rfl, rfl⟩
  have hstop : (before ++ text).rawEndPos.byteIdx = before.utf8ByteSize + text.utf8ByteSize :=
    String.utf8ByteSize_append
  exact ⟨htext, rfl, ⟨_, hfirst⟩, ⟨_, hlast⟩, rfl, hstop,
    extract_append_append before text after _ _ rfl hstop⟩

/-! ### Pieces one after the other -/

/-- The texts of some pieces, put together. -/
def joined (pieces : List (Reading × String)) : String := String.join (pieces.map Prod.snd)

theorem joined_cons (piece : Reading × String) (pieces : List (Reading × String)) :
    joined (piece :: pieces) = piece.2 ++ joined pieces :=
  String.join_cons

theorem joined_append (front back : List (Reading × String)) :
    joined (front ++ back) = joined front ++ joined back := by
  simp [joined]

namespace Token

theorem head?_place (start : Nat) (pieces : List (Reading × String)) :
    ∀ t ∈ (place start pieces).head?, t.start = start := by
  cases pieces with
  | nil => simp [place]
  | cons piece pieces => simp [place]

theorem place_isChain (start : Nat) (pieces : List (Reading × String)) :
    (place start pieces).IsChain (fun t u => u.start = t.stop) := by
  induction pieces generalizing start with
  | nil => exact .nil
  | cons piece pieces ih => exact List.isChain_cons.mpr ⟨head?_place _ _, ih _⟩

theorem getLast?_place (start : Nat) (pieces : List (Reading × String)) :
    ∀ t ∈ (place start pieces).getLast?, t.stop = start + (joined pieces).utf8ByteSize := by
  induction pieces generalizing start with
  | nil => simp [place]
  | cons piece pieces ih =>
    rw [joined_cons, String.utf8ByteSize_append, ← Nat.add_assoc]
    cases pieces with
    | nil => simp [place, stop, length, joined]
    | cons next pieces => exact ih (start + piece.2.utf8ByteSize)

theorem map_text_place (start : Nat) (pieces : List (Reading × String)) :
    (place start pieces).map text = pieces.map Prod.snd := by
  induction pieces generalizing start with
  | nil => rfl
  | cons piece pieces ih => simp [place, ih]

/-- Pieces put after a text are pieces of the whole. -/
theorem pieceOf_of_mem_place (before : String) (pieces : List (Reading × String))
    (hne : ∀ piece ∈ pieces, piece.2 ≠ "") :
    ∀ t ∈ place before.utf8ByteSize pieces, t.PieceOf (before ++ joined pieces) := by
  induction pieces generalizing before with
  | nil => simp [place]
  | cons piece pieces ih =>
    intro t ht
    rw [joined_cons, ← String.append_assoc]
    rcases List.mem_cons.mp ht with rfl | ht
    · exact pieceOf_append _ _ _ _ (hne piece (by simp))
    · -- The later pieces stand after the text that the first one makes longer.
      rw [← String.utf8ByteSize_append] at ht
      exact ih _ (fun next hnext => hne next (by simp [hnext])) t ht

end Token

/-! ### The pieces of a source -/

/-- Reading a text loses none of it. -/
theorem joined_readings (cs : List Char) : joined (readings cs) = String.ofList cs := by
  fun_induction readings cs with
  | case1 => rfl
  | case2 c cs first ih =>
    rw [joined_cons, ih, ← String.ofList_append, munch_text_append_rest]

theorem text_ne_of_mem_readings (cs : List Char) : ∀ piece ∈ readings cs, piece.2 ≠ "" := by
  fun_induction readings cs with
  | case1 => simp
  | case2 c cs first ih =>
    intro piece hpiece
    rcases List.mem_cons.mp hpiece with rfl | hpiece
    · intro hempty
      have hpos := munch_size_pos c cs
      have hzero : (String.ofList (munch c cs).text).utf8ByteSize = 0 :=
        String.utf8ByteSize_eq_zero_iff.mpr hempty
      omega
    · exact ih piece hpiece

theorem Token.start_le_of_mem_place {start : Nat} {pieces : List (Reading × String)} :
    ∀ t ∈ place start pieces, start ≤ t.start := by
  induction pieces generalizing start with
  | nil => simp [place]
  | cons piece pieces ih =>
    intro t ht
    rcases List.mem_cons.mp ht with rfl | ht
    · exact Nat.le_refl _
    · exact Nat.le_trans (Nat.le_add_right _ _) (ih t ht)

/-- Pieces that are not empty start one behind the other. -/
theorem Token.place_increasing (start : Nat) (pieces : List (Reading × String))
    (hne : ∀ piece ∈ pieces, piece.2 ≠ "") :
    (place start pieces).Pairwise (·.start < ·.start) := by
  induction pieces generalizing start with
  | nil => exact .nil
  | cons piece pieces ih =>
    obtain ⟨hpiece, hpieces⟩ := List.forall_mem_cons.mp hne
    refine List.pairwise_cons.mpr ⟨fun t ht => ?_, ih _ hpieces⟩
    have hpos : piece.2.utf8ByteSize ≠ 0 := by simpa using hpiece
    have hle := start_le_of_mem_place t ht
    change start < t.start
    omega

/-- The tokens of a source start one behind the other. -/
theorem tokenize_increasing (source : String) :
    (tokenize source).Pairwise (·.start < ·.start) :=
  Token.place_increasing 0 _ (text_ne_of_mem_readings source.toList)

theorem tokenize_eq_nil_iff (source : String) : tokenize source = [] ↔ source = "" := by
  have hjoined := joined_readings source.toList
  rw [String.ofList_toList] at hjoined
  constructor
  · intro h
    cases hpieces : readings source.toList with
    | nil => rw [← hjoined, hpieces]; rfl
    | cons piece pieces => simp [tokenize, hpieces, Token.place] at h
  · rintro rfl
    simp [tokenize, readings, Token.place]

/-- **Tokenizing is lossless.**  Whatever the source is, every token is a piece of it that is not
empty, the first one starts at the first byte, each of the others where the one before it stops, and
the last one stops where the source does.  So the texts of the tokens together are the source, and
only the empty source has none. -/
theorem tokenize_covers (source : String) :
    (∀ t ∈ tokenize source, t.PieceOf source) ∧
      (∀ t ∈ (tokenize source).head?, t.start = 0) ∧
      (tokenize source).IsChain (fun t u => u.start = t.stop) ∧
      (∀ t ∈ (tokenize source).getLast?, t.stop = source.utf8ByteSize) ∧
      String.join ((tokenize source).map Token.text) = source ∧
      (tokenize source = [] ↔ source = "") := by
  have hjoined := joined_readings source.toList
  rw [String.ofList_toList] at hjoined
  refine ⟨?pieces, Token.head?_place _ _, Token.place_isChain _ _, ?last, ?texts,
    tokenize_eq_nil_iff source⟩
  case pieces =>
    have h := Token.pieceOf_of_mem_place "" _ (text_ne_of_mem_readings source.toList)
    rwa [hjoined, String.empty_append] at h
  case last =>
    have h := Token.getLast?_place 0 (readings source.toList)
    rwa [hjoined, Nat.zero_add] at h
  case texts =>
    rw [tokenize, Token.map_text_place]
    exact hjoined

/-- A string that is not closed takes characters of several bytes with it. -/
example : (tokenize "é #\"ü").map (fun t => (t.start, t.length, t.kind)) =
    [(0, 2, .unknown), (2, 1, .whitespace), (3, 1, .unknown), (4, 3, .unknown)] := by
  cbv

end Reckon
