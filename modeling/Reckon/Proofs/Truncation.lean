import Reckon.Proofs.ParserLocality
/-!
# Lexemes that were cut off

A list of lexemes may be the front of a longer one.  An error that points at a lexeme is then an
error of the longer list as well, and the same one, unless it is about the height of a tree.  There
the operand that was cut off may go on: a name becomes a call, a chain gets further operators.  That
only makes its tree higher, so that the longer list is still rejected.

* `Goal.grows` — a tree that takes all lexemes is no higher than the one that more lexemes give;
* `parseLexemes_append` — a rejected list stays rejected when more lexemes follow.
-/

namespace Reckon

open Reckon.Parser

/-! ### Trees only grow -/

/-- What continues a chain makes its tree no lower. -/
theorem Derives.left_height_le {level : Level} {tighter : List Level} {left e : Expr}
    {w : List Placed} {n : Nat} (h : Derives (.chain level tighter left) w e n) :
    left.height ≤ e.height := by
  generalize hg : Phrase.chain level tighter left = g at h
  induction h generalizing left with
  | done =>
      cases hg
      exact Nat.le_refl _
  | operator _ _ _ _ ih =>
      cases hg
      have hle := ih rfl
      rw [Expr.height_binary] at hle
      omega
  | _ => cases hg

theorem left_height_le_of_read {b : Nat} {level : Level} {tighter : List Level} {left e : Expr}
    {xs rest : List Placed} (h : (Phrase.chain level tighter left).read b xs = .ok (e, rest)) :
    left.height ≤ e.height := by
  obtain ⟨w, n, _, hspan⟩ := Phrase.spans_of_read h
  exact hspan.derives.left_height_le

/-- Branches make the tree of a condition no lower. -/
theorem condition_height_le_of_read {b : Nat} {c e : Expr} {xs rest : List Placed}
    (h : Phrase.readBranches b c xs = .ok (e, rest)) : c.height ≤ e.height := by
  rcases Phrase.readBranches_cases h with ⟨_, rfl, _⟩ | ⟨_, _, _, y, _, _, n, _, _, _, _, rfl⟩
  · exact Nat.le_refl _
  · rw [Expr.height_conditional]
    omega

namespace Goal

/-- When all lexemes are read at the goal, the tree is no higher than with more lexemes. -/
def Grows (g : Goal) : Prop :=
  g.phrase.Fit → ∀ more e e' rest, g.outcome = .ok (e, []) →
    g.phrase.read g.budget (g.input ++ more) = .ok (e', rest) → e.height ≤ e'.height

section Steps

variable {b : Nat} {xs : List Placed}

theorem grows_expression (ih : ∀ h, Leads ⟨b, .expression, xs⟩ h → h.Grows) :
    Grows ⟨b, .expression, xs⟩ := by
  intro _ more e e' rest hread hmore
  change Phrase.expression.read b xs = _ at hread
  dsimp only at hmore
  have hlevels : (Phrase.levels Level.loosestFirst).Fit := List.suffix_refl _
  simp only [Phrase.read_expression, bind_eq_ok_iff, Prod.exists] at hread hmore
  obtain ⟨c, r, hcondition, hbranches⟩ := hread
  obtain ⟨c', r', hcondition', hbranches'⟩ := hmore
  rcases Phrase.readBranches_cases hbranches with
    ⟨_, rfl, rfl⟩ | ⟨inner, p, ys, y, q, zs, n, rfl, rfl, hyes, hno, rfl⟩
  · have hle := ih _ .condition hlevels more _ _ _ hcondition hcondition'
    exact Nat.le_trans hle (condition_height_le_of_read hbranches')
  · have hsame := (read_levels_append hcondition hlevels (by simp) more).symm.trans hcondition'
    cases hsame
    rcases Phrase.readBranches_cases hbranches' with
      ⟨hnot, _⟩ | ⟨_, _, _, y', _, _, n', hb, hr, hyes', hno', rfl⟩
    · exact absurd rfl (hnot _ rfl)
    · cases hb
      cases hr
      have hsame := (read_expression_append hyes (by simp) more).symm.trans hyes'
      cases hsame
      have hle := ih _ (.no hcondition hyes) trivial more _ _ _ hno hno'
      simp only [Expr.height_conditional]
      omega

theorem grows_operand (ih : ∀ h, Leads ⟨b, .levels [], xs⟩ h → h.Grows) :
    Grows ⟨b, .levels [], xs⟩ := by
  intro _ more e e' rest hread hmore
  dsimp only at hmore
  rcases Phrase.read_operand_cases hread with
    ⟨hop, hprimary⟩ | ⟨inner, x, ys, op, a, rfl, rfl, hop, ha, rfl⟩
  · have hne := List.ne_nil_of_length_pos ((Phrase.read_rest_length hprimary).2 id)
    have hop' : ∀ x ∈ (xs ++ more).head?, x.lexeme.unary? = none := by
      rwa [List.head?_append_of_ne_nil xs hne]
    rw [Phrase.read_operand_of_none hop'] at hmore
    exact ih _ (.operand hop) trivial more _ _ _ hprimary hmore
  · simp only [List.cons_append, Phrase.read_prefixed hop, bind_eq_ok_iff, within_eq_ok_iff,
      Prod.exists] at hmore
    obtain ⟨_, hb, a', r', ha', hmore⟩ := hmore
    cases hb
    cases hmore
    have hle := ih _ (.prefixed hop) List.nil_suffix more _ _ _ ha ha'
    simp only [Expr.height_unary]
    omega

theorem grows_level {level : Level} {tighter : List Level}
    (ih : ∀ h, Leads ⟨b, .levels (level :: tighter), xs⟩ h → h.Grows) :
    Grows ⟨b, .levels (level :: tighter), xs⟩ := by
  intro hfit more e e' rest hread hmore
  change (Phrase.levels (level :: tighter)).read b xs = _ at hread
  dsimp only at hmore
  have hfirst := (Phrase.fit_tighter hfit).1
  simp only [Phrase.read_level, bind_eq_ok_iff, Prod.exists] at hread hmore
  obtain ⟨left, r, hleft, hothers⟩ := hread
  obtain ⟨left', r', hleft', hothers'⟩ := hmore
  by_cases hr : r = []
  · subst hr
    rw [Phrase.read_chain_nil] at hothers
    cases hothers
    have hle := ih _ .first hfirst more _ _ _ hleft hleft'
    exact Nat.le_trans hle (left_height_le_of_read hothers')
  · have hsame := (read_levels_append hleft hfirst hr more).symm.trans hleft'
    cases hsame
    have hleads : Leads ⟨b, .levels (level :: tighter), xs⟩ ⟨b, .chain level tighter left, r⟩ :=
      .others hleft
    exact ih _ hleads (hleads.fit hfit) more _ _ _ hothers hothers'

theorem grows_chain {level : Level} {tighter : List Level} {left : Expr}
    (ih : ∀ h, Leads ⟨b, .chain level tighter left, xs⟩ h → h.Grows) :
    Grows ⟨b, .chain level tighter left, xs⟩ := by
  intro hfit more e e' rest hread hmore
  dsimp only at hmore
  have hfirst := (Phrase.fit_tighter hfit.1).1
  rcases Phrase.read_chain_cases hread with
    ⟨_, rfl, rfl⟩ | ⟨x, ys, op, right, r, rfl, hop, hright, hlow, hnext⟩
  · exact left_height_le_of_read hmore
  · simp only [List.cons_append, Phrase.read_chain_operator hop, bind_eq_ok_iff, Prod.exists]
      at hmore
    obtain ⟨right', r', hright', hmore⟩ := hmore
    split at hmore
    · cases hmore
    · by_cases hr : r = []
      · subst hr
        rw [Phrase.read_chain_nil] at hnext
        cases hnext
        have hle := ih _ (.right hop) hfirst more _ _ _ hright hright'
        have hle' := left_height_le_of_read hmore
        simp only [Expr.height_binary] at hle' ⊢
        omega
      · have hsame := (read_levels_append hright hfirst hr more).symm.trans hright'
        cases hsame
        have hleads := Leads.next hop hright hlow
        exact ih _ hleads (hleads.fit hfit) more _ _ _ hnext hmore

theorem grows_arguments {name : String} {p : Position} {given : List Expr}
    (ih : ∀ h, Leads ⟨b, .arguments name p given, xs⟩ h → h.Grows) :
    Grows ⟨b, .arguments name p given, xs⟩ := by
  intro hfit more e e' rest hread hmore
  change (Phrase.arguments name p given).read b xs = _ at hread
  dsimp only at hmore
  simp only [Phrase.read_arguments, bind_eq_ok_iff, Prod.exists] at hread hmore
  obtain ⟨a, r, ha, hothers⟩ := hread
  obtain ⟨a', r', ha', hothers'⟩ := hmore
  rcases Phrase.readMore_cases hothers with ⟨q, ys, rfl, hread⟩ | ⟨q, rfl, rfl⟩
  · have hsame := (read_expression_append ha (by simp) more).symm.trans ha'
    cases hsame
    have hleads : Leads ⟨b, .arguments name p given, xs⟩ ⟨b, .arguments name p (given ++ [a]), ys⟩ :=
      .more ha
    exact ih _ hleads (hleads.fit hfit) more _ _ _ hread hothers'
  · have hsame := (read_expression_append ha (by simp) more).symm.trans ha'
    cases hsame
    cases hothers'
    exact Nat.le_refl _

/-- The part of `grows_primary` after a name. -/
theorem grows_named {name : String} {p : Nat} {more rest : List Placed} {e e' : Expr}
    (ih : ∀ h, Leads ⟨b, .primary, ⟨.identifier name, p⟩ :: xs⟩ h → h.Grows)
    (hread : Phrase.readNamed b name (.byte p) xs = .ok (e, []))
    (hmore : Phrase.readNamed b name (.byte p) (xs ++ more) = .ok (e', rest)) :
    e.height ≤ e'.height := by
  rcases Phrase.readNamed_cases hread with
    ⟨_, rfl, _⟩ | ⟨inner, q, r, rfl, rfl, rfl⟩ | ⟨inner, q, ys, rfl, rfl, hargs, hread⟩
  · rw [Expr.height_var]
    exact e'.height_pos
  · cases hmore
    exact Nat.le_refl _
  · simp only [Phrase.readNamed, List.cons_append, bind_eq_ok_iff, within_eq_ok_iff] at hmore
    obtain ⟨_, hb, hmore⟩ := hmore
    cases hb
    have hne := List.ne_nil_of_length_pos ((Phrase.read_rest_length hread).2 id)
    have hargs' : ∀ x ∈ (ys ++ more).head?, x.lexeme ≠ .symbol .closeParen := by
      rwa [List.head?_append_of_ne_nil ys hne]
    rw [Phrase.readArguments_of_ne hargs'] at hmore
    exact ih _ (.call hargs) (by simp [Phrase.Fit]) more _ _ _ hread hmore

theorem grows_primary (ih : ∀ h, Leads ⟨b, .primary, xs⟩ h → h.Grows) :
    Grows ⟨b, .primary, xs⟩ := by
  intro _ more e e' rest hread hmore
  dsimp only at hmore
  rcases Phrase.read_primary_cases hread with
    ⟨x, v, rfl, hv, rfl⟩ | ⟨name, p, ys, rfl, hnamed⟩ | ⟨inner, p, q, ys, rfl, rfl, hinner⟩
  · rw [Expr.height_literal]
    exact e'.height_pos
  · rw [List.cons_append, Phrase.read_primary_cons] at hmore
    exact grows_named ih hnamed hmore
  · have hinner' := read_expression_append hinner (by simp) more
    simp only [List.cons_append, Phrase.read_primary_cons, within, ok_bind, hinner', after,
      ↓reduceIte] at hmore
    cases hmore
    exact Nat.le_refl _

end Steps

/-- **Trees only grow.** -/
theorem grows (g : Goal) : g.Grows :=
  g.induction grows_expression grows_operand grows_level grows_chain grows_primary grows_arguments

/-- An operator whose tree is too high keeps being refused when more lexemes follow: its right
operand fails, or it makes the tree no lower. -/
theorem Halts.height_append {g : Goal} {rest : List Placed} (h : g.Halts .height rest)
    (hfit : g.phrase.Fit) (more : List Placed) :
    ∃ e, Goal.outcome ⟨g.budget, g.phrase, g.input ++ more⟩ = .error e := by
  cases h with
  | @tooHigh b level tighter left right x op xs rest hop hright htall =>
      have hfirst := (Phrase.fit_tighter hfit.1).1
      have hright' : Leads ⟨b, .chain level tighter left, x :: (xs ++ more)⟩
          ⟨b, .levels tighter, xs ++ more⟩ := .right hop
      cases hmore : (Phrase.levels tighter).read b (xs ++ more) with
      | error e => exact ⟨e, hright'.outcome_error hmore⟩
      | ok a =>
          obtain ⟨right', r'⟩ := a
          have hle : right.height ≤ right'.height := by
            by_cases hr : rest = []
            · subst hr
              exact grows ⟨b, .levels tighter, xs⟩ hfirst more _ _ _ hright hmore
            · have hsame := (read_levels_append hright hfirst hr more).symm.trans hmore
              cases hsame
              exact Nat.le_refl _
          rw [Expr.height_binary] at htall
          have htall' : maxTreeHeight < (Expr.binary op left right' x.position).height := by
            rw [Expr.height_binary]
            omega
          exact ⟨_, (Halts.tooHigh hop hmore htall').outcome⟩

/-- A goal that fails for the height of a tree fails when more lexemes follow. -/
theorem Fails.height_append {g : Goal} {rest : List Placed} (h : g.Fails .height rest)
    (hfit : g.phrase.Fit) (more : List Placed) :
    ∃ e, Goal.outcome ⟨g.budget, g.phrase, g.input ++ more⟩ = .error e := by
  obtain ⟨k, hpath, hhalts⟩ := h
  obtain ⟨e, herror⟩ := hhalts.height_append (fit_of_path hpath hfit) more
  have hne : k.input ≠ [] := by
    cases hhalts
    simp
  obtain ⟨u, hu, _, hpath'⟩ := path_replace hpath hfit (List.append_nil _).symm hne
  rw [hu, List.append_nil]
  exact ⟨e, outcome_error_of_path (hpath' more) herror⟩

end Goal

/-! ### Rejected lists -/

/-- A list that is rejected at one of its lexemes is rejected in the same way when more lexemes
follow, unless it is rejected for the height of a tree. -/
theorem Rejects.append {xs after : List Placed} {why : Stop} {x : Placed}
    (h : Rejects xs why (x :: after)) (hwhy : why ≠ .height) (more : List Placed) :
    Rejects (xs ++ more) why (x :: (after ++ more)) := by
  obtain ⟨u, rfl, hreplaced⟩ := h.replace hwhy
  simpa using hreplaced (after ++ more)

theorem Rejects.height_append {xs rest : List Placed} (h : Rejects xs .height rest)
    (hne : xs ≠ []) (more : List Placed) : ∃ e, parseLexemes (xs ++ more) = .error e := by
  cases h with
  | inside hfails =>
      obtain ⟨e, herror⟩ := hfails.height_append trivial more
      have hread : Phrase.expression.read maxNesting (xs ++ more) = .error e := herror
      refine ⟨e, ?_⟩
      rw [parseLexemes_eq (by simp [hne]), hread, error_bind]

/-- The error was raised where an operator would make a tree too high. -/
def RaisedByHeight (xs : List Placed) (e : SyntaxError) : Prop :=
  ∃ rest, Rejects xs .height rest ∧ e = Stop.error .height rest

/-- **A rejected list stays rejected.**  When the error points at a lexeme, the list is rejected
with whatever follows, and with the same error unless that is about the height of a tree. -/
theorem parseLexemes_append {xs : List Placed} {e : SyntaxError} (hne : xs ≠ [])
    (herror : parseLexemes xs = .error e) (hpos : e.position? ≠ some .endOfInput)
    (more : List Placed) :
    ∃ e', parseLexemes (xs ++ more) = .error e' ∧ (e' = e ∨ RaisedByHeight xs e) := by
  obtain ⟨why, rest, hrejects, rfl⟩ := (parseLexemes_eq_error_iff hne).mp herror
  cases rest with
  | nil => exact absurd rfl hpos
  | cons x after =>
      by_cases hwhy : why = .height
      · subst hwhy
        obtain ⟨e', herror'⟩ := hrejects.height_append hne more
        exact ⟨e', herror', .inr ⟨_, hrejects, rfl⟩⟩
      · have hrejects' := hrejects.append hwhy more
        have hne' : xs ++ more ≠ [] := by simp [hne]
        refine ⟨_, (parseLexemes_eq_error_iff hne').mpr ⟨_, _, hrejects', rfl⟩, .inl ?_⟩
        exact why.error_cons x _ _

end Reckon
