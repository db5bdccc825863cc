import Reckon.Token
/-!
# The places of scanned lexemes

A token starts where the one before it stops, and no token is empty.  So the lexemes of a scan stand
in increasing order, and the fault that ends a scan stands after all of them and inside the source.

* `scan_ordered` — the places of the lexemes and of the fault of a scan.
-/

namespace Reckon

/-- The lexemes of a scan stand in increasing order from `start` on, and the fault that ended it, if
any, stands after them and before `stop`. -/
structure Scan.Ordered (start stop : Nat) (s : Scan) : Prop where
  increasing : s.lexemes.Pairwise (·.start < ·.start)
  start_le : ∀ x ∈ s.lexemes, start ≤ x.start
  fault_after : ∀ e, s.error = some e → ∃ fault p, e = .located (.lexical fault) (.byte p) ∧
    start ≤ p ∧ p < stop ∧ ∀ x ∈ s.lexemes, x.start < p

/-- A token and what follows it end where the whole text ends. -/
theorem munch_stop (start : Nat) (c : Char) (cs : List Char) :
    start + (String.ofList (munch c cs).text).utf8ByteSize +
        (String.ofList (munch c cs).rest).utf8ByteSize =
      start + (String.ofList (c :: cs)).utf8ByteSize := by
  rw [← munch_text_append_rest c cs, String.ofList_append, String.utf8ByteSize_append,
    Nat.add_assoc]

theorem munch_size_pos (c : Char) (cs : List Char) :
    0 < (String.ofList (munch c cs).text).utf8ByteSize := by
  obtain ⟨text, htext⟩ := List.head?_eq_some_iff.mp (munch_text_head c cs)
  have hsplit : c :: text = [c] ++ text := rfl
  rw [htext, hsplit, String.ofList_append, String.utf8ByteSize_append, ← String.singleton_eq_ofList,
    String.utf8ByteSize_singleton]
  have hpos := c.utf8Size_pos
  omega

/-- A scan of the rest of a text is one of the whole text, when nothing is put in front. -/
theorem Scan.Ordered.mono {start later stop : Nat} {s t : Scan} (h : s.Ordered later stop)
    (hle : start ≤ later) (hlexemes : t.lexemes = s.lexemes) (herror : t.error = s.error) :
    t.Ordered start stop := by
  refine ⟨hlexemes ▸ h.increasing, fun x hx => ?_, fun e he => ?_⟩
  · have hstart := h.start_le x (hlexemes ▸ hx)
    omega
  · obtain ⟨fault, p, hfault, hp, hstop, hbefore⟩ := h.fault_after e (herror ▸ he)
    exact ⟨fault, p, hfault, by omega, hstop, fun x hx => hbefore x (hlexemes ▸ hx)⟩

/-- A lexeme in front of a scan of what follows. -/
theorem Scan.Ordered.cons {start later stop : Nat} {s t : Scan} {l : Lexeme}
    (h : s.Ordered later stop) (hlt : start < later)
    (hlexemes : t.lexemes = ⟨l, start⟩ :: s.lexemes) (herror : t.error = s.error) :
    t.Ordered start stop := by
  have hafter : ∀ x ∈ s.lexemes, start < x.start := by
    intro x hx
    have hstart := h.start_le x hx
    omega
  constructor
  · rw [hlexemes]
    exact List.pairwise_cons.mpr ⟨hafter, h.increasing⟩
  · intro x hx
    rw [hlexemes] at hx
    rcases List.mem_cons.mp hx with hx | hx
    · subst hx
      exact Nat.le_refl _
    · exact Nat.le_of_lt (hafter x hx)
  · intro e he
    obtain ⟨fault, p, hfault, hp, hstop, hbefore⟩ := h.fault_after e (herror ▸ he)
    refine ⟨fault, p, hfault, by omega, hstop, fun x hx => ?_⟩
    rw [hlexemes] at hx
    rcases List.mem_cons.mp hx with hx | hx
    · subst hx
      change start < p
      omega
    · exact hbefore x hx

theorem scanFrom_ordered (collect : Bool) (start : Nat) (cs : List Char) :
    (scanFrom collect start cs).Ordered start (start + (String.ofList cs).utf8ByteSize) := by
  fun_induction scanFrom collect start cs with
  | case1 start => exact ⟨.nil, by simp, by simp⟩
  | case2 start c cs first text others hreading ih =>
      rw [munch_stop] at ih
      exact ih.mono (Nat.le_add_right _ _) rfl rfl
  | case3 start c cs first text others l hreading ih =>
      rw [munch_stop] at ih
      exact ih.cons (Nat.lt_add_of_pos_right (munch_size_pos c cs)) rfl rfl
  | case4 start c cs first text fault hreading =>
      have hpos := munch_size_pos c cs
      have hstop := munch_stop start c cs
      refine ⟨.nil, by simp, fun e he => ?_⟩
      cases he
      exact ⟨fault, start, rfl, Nat.le_refl _, by omega, by simp⟩

/-- **Places of a scan.**  The lexemes stand in increasing order, and the fault that ended the scan
stands after them inside the source. -/
theorem scan_ordered (source : String) (collect : Bool) :
    (scan source collect).Ordered 0 source.utf8ByteSize := by
  have h := scanFrom_ordered collect 0 source.toList
  simpa [scan] using h

end Reckon
