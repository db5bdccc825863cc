import Reckon.Proofs.ParserGoals
import Reckon.Proofs.PhraseBoundary
/-!
# What is read is a phrase

A goal that is reached leaves a rest, and the lexemes before it derive the phrase of the goal with
the tree that was read.  The derivation nests within the budget, the phrase ends before the rest,
and the tree keeps the limit on operators.  The proof goes along `Goal.Leads`, one lemma for each
sort of goal.
-/

namespace Reckon

open Reckon.Parser

namespace Phrase

/-- What a list of lexemes has to follow: what continues a chain follows an operand. -/
def Follows : Phrase → List Placed → List Placed → Prop
  | chain _ tighter _, before, xs => (levels tighter).Ends before xs
  | _, before, _ => before = []

/-- The lexemes `w` before `rest` are a phrase that the parser accepts with the tree `e`. -/
structure Spans (budget : Nat) (g : Phrase) (w : List Placed) (e : Expr) (n : Nat)
    (rest : List Placed) : Prop where
  derives : Derives g w e n
  nesting_le : n ≤ budget
  ends : ∀ before, g.Follows before (w ++ rest) → g.Ends (before ++ w) rest
  within : g.Fit → e.OperatorsWithin maxTreeHeight

end Phrase

namespace Goal

/-- Whatever is read at the goal is a phrase, up to the rest. -/
def Sound (g : Goal) : Prop :=
  ∀ e rest, g.outcome = .ok (e, rest) →
    ∃ w n, g.input = w ++ rest ∧ g.phrase.Spans g.budget w e n rest

section Steps

variable {b : Nat} {xs : List Placed}

theorem sound_expression (ih : ∀ h, Leads ⟨b, .expression, xs⟩ h → h.Sound) :
    Sound ⟨b, .expression, xs⟩ := by
  intro e rest hread
  change Phrase.expression.read b xs = _ at hread
  rw [Phrase.read_expression, bind_eq_ok_iff] at hread
  obtain ⟨⟨c, r⟩, hc, hread⟩ := hread
  obtain ⟨cs, k, hcs, hcond⟩ := ih _ .condition c r hc
  have hfit : (Phrase.levels Level.loosestFirst).Fit := List.suffix_refl _
  dsimp only at hread hcs hcond
  rcases Phrase.readBranches_cases hread with
    ⟨hnot, rfl, rfl⟩ | ⟨inner, p, ys, y, q, zs, n, rfl, rfl, hy, hn, rfl⟩
  · refine ⟨cs, k, hcs, .plain hcond.derives, hcond.nesting_le, ?_, fun _ => hcond.within hfit⟩
    intro before hbefore
    subst hbefore
    refine (hcond.ends [] rfl).of_continues fun x hx hcont => ?_
    rcases hcont with hop | ⟨_, hquestion⟩
    · exact .inl hop
    · exact absurd hquestion (hnot x hx)
  · obtain ⟨ws, l, hws, hyes⟩ := ih _ (.yes hc) y _ hy
    obtain ⟨ns, m, hns, hno⟩ := ih _ (.no hc hy) n _ hn
    dsimp only at hws hns hyes hno
    have hne := hno.derives.ne_nil (by simp)
    refine ⟨_, _, ?_, .conditional (q := q) hcond.derives hyes.derives hno.derives, ?_, ?_, ?_⟩
    · simp [hcs, hws, hns]
    · have h₁ := hcond.nesting_le
      have h₂ := hyes.nesting_le
      have h₃ := hno.nesting_le
      dsimp only
      omega
    · intro before hbefore
      subst hbefore
      have hend := (hno.ends [] rfl).cons_left (x := ⟨.symbol .colon, q⟩) hne
      have hend := (hend.append_left (v := ws) (by simp)).cons_left
        (x := ⟨.symbol .question, p⟩) (by simp)
      exact hend.append_left (by simp)
    · intro _
      simpa using ⟨hcond.within hfit, hyes.within trivial, hno.within trivial⟩

theorem sound_operand (ih : ∀ h, Leads ⟨b, .levels [], xs⟩ h → h.Sound) :
    Sound ⟨b, .levels [], xs⟩ := by
  intro e rest hread
  rcases Phrase.read_operand_cases hread with
    ⟨hop, hprimary⟩ | ⟨inner, x, ys, op, a, rfl, rfl, hop, ha, rfl⟩
  · obtain ⟨w, n, hw, hspan⟩ := ih _ (.operand hop) e rest hprimary
    refine ⟨w, n, hw, .operand hspan.derives, hspan.nesting_le, ?_, fun _ => hspan.within trivial⟩
    intro before hbefore
    subst hbefore
    exact (hspan.ends [] rfl).of_openLevels (fun _ hl => hl) (by simp)
  · obtain ⟨w, n, hw, hspan⟩ := ih _ (.prefixed hop) a _ ha
    dsimp only at hw hspan
    refine ⟨_, _, ?_, .prefixed hop hspan.derives, ?_, ?_, ?_⟩
    · simp [hw]
    · have hle := hspan.nesting_le
      dsimp only
      omega
    · intro before hbefore
      subst hbefore
      exact (hspan.ends [] rfl).cons_left (hspan.derives.ne_nil (by simp))
    · intro _
      simpa using hspan.within (List.nil_suffix)

theorem sound_level {level : Level} {tighter : List Level}
    (ih : ∀ h, Leads ⟨b, .levels (level :: tighter), xs⟩ h → h.Sound) :
    Sound ⟨b, .levels (level :: tighter), xs⟩ := by
  intro e rest hread
  change (Phrase.levels (level :: tighter)).read b xs = _ at hread
  rw [Phrase.read_level, bind_eq_ok_iff] at hread
  obtain ⟨⟨a, r⟩, ha, hread⟩ := hread
  obtain ⟨v, m, hv, hfirst⟩ := ih _ .first a r ha
  obtain ⟨w, n, hw, hothers⟩ := ih _ (.others ha) e rest hread
  dsimp only at hv hw hfirst hothers
  refine ⟨v ++ w, max m n, ?_, .level hfirst.derives hothers.derives, ?_, ?_, ?_⟩
  · simp [hv, hw]
  · exact Nat.max_le.mpr ⟨hfirst.nesting_le, hothers.nesting_le⟩
  · intro before hbefore
    subst hbefore
    exact (hothers.ends v (hw ▸ hfirst.ends [] rfl)).of_openLevels (fun _ hl => hl) (by simp)
  · intro hfit
    exact hothers.within ⟨hfit, hfirst.within (Phrase.fit_tighter hfit).1⟩

theorem sound_chain {level : Level} {tighter : List Level} {left : Expr}
    (ih : ∀ h, Leads ⟨b, .chain level tighter left, xs⟩ h → h.Sound) :
    Sound ⟨b, .chain level tighter left, xs⟩ := by
  intro e rest hread
  rcases Phrase.read_chain_cases hread with
    ⟨hnot, rfl, rfl⟩ | ⟨x, ys, op, right, r, rfl, hop, hright, hlow, hnext⟩
  · refine ⟨[], 0, rfl, .done, Nat.zero_le _, ?_, fun hfit => hfit.2⟩
    intro before hbefore
    rw [List.append_nil]
    refine hbefore.of_continues fun x hx hcont => ?_
    rcases hcont with ⟨l, hl, op, hmem⟩ | ⟨hexpr, _⟩
    · rcases List.mem_cons.mp hl with rfl | hl
      · exact absurd hmem (hnot x hx op)
      · exact .inl ⟨l, hl, op, hmem⟩
    · cases hexpr
  · obtain ⟨v, m, hv, hoperand⟩ := ih _ (.right hop) right r hright
    obtain ⟨w, n, hw, hothers⟩ := ih _ (.next hop hright hlow) e rest hnext
    dsimp only at hv hw hoperand hothers
    refine ⟨_, _, ?_, .operator hop hoperand.derives hothers.derives, ?_, ?_, ?_⟩
    · simp [hv, hw]
    · exact Nat.max_le.mpr ⟨hoperand.nesting_le, hothers.nesting_le⟩
    · intro before _
      have hend := hothers.ends v (hw ▸ hoperand.ends [] rfl)
      have hend := hend.of_openLevels (h := .chain level tighter left) (fun _ hl => hl) (by simp)
      have hne := hoperand.derives.ne_nil (by simp)
      exact (hend.cons_left (by simp [hne])).append_left (by simp)
    · intro hfit
      have hright := hoperand.within (Phrase.fit_tighter hfit.1).1
      rw [Expr.height_binary] at hlow
      exact hothers.within
        ⟨hfit.1, (Expr.operatorsWithin_binary _ _ _ _).mpr ⟨hlow, hfit.2, hright⟩⟩

theorem sound_arguments {name : String} {p : Position} {given : List Expr}
    (ih : ∀ h, Leads ⟨b, .arguments name p given, xs⟩ h → h.Sound) :
    Sound ⟨b, .arguments name p given, xs⟩ := by
  intro e rest hread
  change (Phrase.arguments name p given).read b xs = _ at hread
  rw [Phrase.read_arguments, bind_eq_ok_iff] at hread
  obtain ⟨⟨a, r⟩, ha, hread⟩ := hread
  obtain ⟨v, m, hv, harg⟩ := ih _ .argument a r ha
  dsimp only at hread hv harg
  have hgiven (hfit : (Phrase.arguments name p given).Fit) :
      ∀ c ∈ given ++ [a], c.OperatorsWithin maxTreeHeight := by
    intro c hc
    rcases List.mem_append.mp hc with hc | hc
    · exact hfit c hc
    · exact List.mem_singleton.mp hc ▸ harg.within trivial
  rcases Phrase.readMore_cases hread with ⟨q, ys, rfl, hmore⟩ | ⟨q, rfl, rfl⟩
  · obtain ⟨w, n, hw, hothers⟩ := ih _ (.more ha) e rest hmore
    dsimp only at hw hothers
    refine ⟨_, _, ?_, .argument (q := q) harg.derives hothers.derives, ?_, ?_,
      fun hfit => hothers.within (hgiven hfit)⟩
    · simp [hv, hw]
    · exact Nat.max_le.mpr ⟨harg.nesting_le, hothers.nesting_le⟩
    · intro before hbefore
      subst hbefore
      have hne := hothers.derives.ne_nil (by simp)
      have hend := (hothers.ends [] rfl).of_openLevels (h := .arguments name p given)
        (fun _ hl => hl) (by simp)
      exact (hend.cons_left hne).append_left (by simp)
  · refine ⟨_, _, ?_, .lastArgument (q := q) harg.derives, harg.nesting_le, ?_,
      fun hfit => (Expr.operatorsWithin_call _ _ _).mpr (hgiven hfit)⟩
    · simp [hv]
    · intro before hbefore
      subst hbefore
      exact Phrase.ends_of_not_name
        (fun _ => Phrase.not_continues_of_openLevels rfl (by simp)) (by simp)

/-- The part of `sound_primary` after a name. -/
theorem sound_named {name : String} {p : Nat} {e : Expr} {rest : List Placed}
    (ih : ∀ h, Leads ⟨b, .primary, ⟨.identifier name, p⟩ :: xs⟩ h → h.Sound)
    (hread : Phrase.readNamed b name (.byte p) xs = .ok (e, rest)) :
    ∃ w n, ⟨.identifier name, p⟩ :: xs = w ++ rest ∧ Phrase.primary.Spans b w e n rest := by
  have hcont (l : Lexeme) : ¬ Phrase.primary.Continues l :=
    Phrase.not_continues_of_openLevels rfl (by simp)
  rcases Phrase.readNamed_cases hread with
    ⟨hparen, rfl, rfl⟩ | ⟨inner, q, r, rfl, rfl, rfl⟩ | ⟨inner, q, ys, rfl, rfl, hargs, hread⟩
  · refine ⟨_, _, rfl, .var, Nat.zero_le _, ?_, fun _ => by simp⟩
    intro before hbefore x hx
    exact ⟨hcont _, fun hopen => absurd hopen (hparen x hx)⟩
  · exact ⟨_, _, rfl, .emptyCall, by omega, fun _ _ => Phrase.ends_of_not_name hcont (by simp),
      fun _ => by simp⟩
  · obtain ⟨w, n, hw, hspan⟩ := ih _ (.call hargs) e rest hread
    dsimp only at hw hspan
    refine ⟨_, _, ?_, .call (q := q) hspan.derives, ?_, ?_,
      fun _ => hspan.within (by simp [Phrase.Fit])⟩
    · simp [hw]
    · have hle := hspan.nesting_le
      omega
    · intro before hbefore
      subst hbefore
      have hne := hspan.derives.ne_nil (by simp)
      have hend := (hspan.ends [] rfl).of_openLevels (h := .primary) (fun _ hl => hl) (by simp)
      exact (hend.cons_left hne).cons_left (by simp)

theorem sound_primary (ih : ∀ h, Leads ⟨b, .primary, xs⟩ h → h.Sound) :
    Sound ⟨b, .primary, xs⟩ := by
  intro e rest hread
  have hcont (l : Lexeme) : ¬ Phrase.primary.Continues l :=
    Phrase.not_continues_of_openLevels rfl (by simp)
  rcases Phrase.read_primary_cases hread with
    ⟨x, v, rfl, hv, rfl⟩ | ⟨name, p, ys, rfl, hnamed⟩ | ⟨inner, p, q, ys, rfl, rfl, hinner⟩
  · refine ⟨_, _, rfl, .literal hv, Nat.zero_le _, fun _ _ => ?_, fun _ => by simp⟩
    refine Phrase.ends_of_not_name hcont ?_
    intro y hy name hname
    obtain rfl : x = y := by simpa using hy
    simp [hname, Lexeme.literal?] at hv
  · exact sound_named ih hnamed
  · obtain ⟨w, n, hw, hspan⟩ := ih _ .group e _ hinner
    dsimp only at hw hspan
    refine ⟨_, _, ?_, .group (p := p) (q := q) hspan.derives, ?_, ?_,
      fun _ => hspan.within trivial⟩
    · simp [hw]
    · have hle := hspan.nesting_le
      dsimp only
      omega
    · intro before hbefore
      subst hbefore
      refine Phrase.ends_of_not_name hcont ?_
      simp [List.getLast?_cons]

end Steps

/-- **Soundness.**  Whatever the parser reads at a goal is a phrase up to the rest. -/
theorem sound (g : Goal) : g.Sound :=
  g.induction sound_expression sound_operand sound_level sound_chain sound_primary sound_arguments

end Goal

/-- What is read of a list of lexemes is a phrase, and the rest follows it. -/
theorem Phrase.spans_of_read {b : Nat} {g : Phrase} {xs rest : List Placed} {e : Expr}
    (h : g.read b xs = .ok (e, rest)) : ∃ w n, xs = w ++ rest ∧ g.Spans b w e n rest :=
  Goal.sound ⟨b, g, xs⟩ e rest h

end Reckon
