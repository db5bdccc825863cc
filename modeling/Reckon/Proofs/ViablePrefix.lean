import Reckon.Proofs.ParserFailures
import Reckon.Proofs.ParserSoundness
/-!
# What has been read can be completed

The parser never reads on after a mistake.  When it comes from one goal to another, the lexemes that
it has read in between, together with the beginning of a phrase of the new goal, are the beginning
of a phrase of the old one.  So the lexemes before a stop always begin an expression: more lexemes
could have completed it.

* `Goal.Leads.begins` — what one step of the parser keeps;
* `Goal.Fails.begins` — the lexemes before a stop begin a phrase of the first goal.
-/

namespace Reckon

/-- The lexemes are the beginning of a phrase. -/
def Phrase.Begins (g : Phrase) (w : List Placed) : Prop :=
  ∃ more e n, Derives g (w ++ more) e n

/-- A variable, to complete a phrase with. -/
def anyVariable : List Placed := [⟨.identifier "x", 0⟩]

theorem derives_anyVariable (ls : List Level) :
    Derives (.levels ls) anyVariable (.var "x" (.byte 0)) 0 :=
  Derives.var.of_primary ls

namespace Goal

/-- **What one step keeps.**  The lexemes of a further goal are the last ones of the goal before it,
and what begins a phrase of the further goal begins, after the lexemes read in between, a phrase of
the goal before it. -/
theorem Leads.begins {g h : Goal} (hleads : g.Leads h) :
    ∃ before, g.input = before ++ h.input ∧
      ∀ w, h.phrase.Begins w → g.phrase.Begins (before ++ w) := by
  cases hleads with
  | condition =>
      refine ⟨[], rfl, fun w hw => ?_⟩
      obtain ⟨more, e, n, hderives⟩ := hw
      exact ⟨more, e, n, .plain hderives⟩
  | @yes b p xs ys c hcondition =>
      obtain ⟨cs, k, hcs, hspan⟩ := Phrase.spans_of_read hcondition
      refine ⟨cs ++ [⟨.symbol .question, p⟩], by simp [hcs], fun w hw => ?_⟩
      obtain ⟨more, e, n, hderives⟩ := hw
      have hno := (derives_anyVariable Level.loosestFirst).plain
      have hwhole := Derives.conditional (p := p) (q := 0) hspan.derives hderives hno
      exact ⟨more ++ ⟨.symbol .colon, 0⟩ :: anyVariable, _, _, by simpa using hwhole⟩
  | @no b p q xs ys zs c y hcondition hyes =>
      obtain ⟨cs, k, hcs, hspan⟩ := Phrase.spans_of_read hcondition
      obtain ⟨ws, l, hws, hspan'⟩ := Phrase.spans_of_read hyes
      refine ⟨cs ++ ⟨.symbol .question, p⟩ :: ws ++ [⟨.symbol .colon, q⟩], by simp [hcs, hws],
        fun w hw => ?_⟩
      obtain ⟨more, e, n, hderives⟩ := hw
      have hwhole := Derives.conditional (p := p) (q := q) hspan.derives hspan'.derives hderives
      exact ⟨more, _, _, by simpa using hwhole⟩
  | @prefixed b x xs op hop =>
      refine ⟨[x], rfl, fun w hw => ?_⟩
      obtain ⟨more, e, n, hderives⟩ := hw
      exact ⟨more, _, _, .prefixed hop hderives⟩
  | operand =>
      refine ⟨[], rfl, fun w hw => ?_⟩
      obtain ⟨more, e, n, hderives⟩ := hw
      exact ⟨more, e, n, .operand hderives⟩
  | first =>
      refine ⟨[], rfl, fun w hw => ?_⟩
      obtain ⟨more, e, n, hderives⟩ := hw
      exact ⟨more, _, _, by simpa using hderives.level .done⟩
  | others hfirst =>
      obtain ⟨v, m, hv, hspan⟩ := Phrase.spans_of_read hfirst
      refine ⟨v, hv, fun w hw => ?_⟩
      obtain ⟨more, e, n, hderives⟩ := hw
      exact ⟨more, _, _, by simpa using hspan.derives.level hderives⟩
  | @right b level tighter left x op xs hop =>
      refine ⟨[x], rfl, fun w hw => ?_⟩
      obtain ⟨more, e, n, hderives⟩ := hw
      have hwhole : Derives (.chain level tighter left) (x :: (w ++ more ++ [])) _ _ :=
        .operator hop hderives .done
      exact ⟨more, _, _, by simpa using hwhole⟩
  | @next b level tighter left right x op xs rest hop hright hlow =>
      obtain ⟨v, m, hv, hspan⟩ := Phrase.spans_of_read hright
      refine ⟨x :: v, by simp [hv], fun w hw => ?_⟩
      obtain ⟨more, e, n, hderives⟩ := hw
      exact ⟨more, _, _, by simpa using Derives.operator hop hspan.derives hderives⟩
  | @group b p xs =>
      refine ⟨[⟨.symbol .openParen, p⟩], rfl, fun w hw => ?_⟩
      obtain ⟨more, e, n, hderives⟩ := hw
      have hwhole := Derives.group (p := p) (q := 0) hderives
      exact ⟨more ++ [⟨.symbol .closeParen, 0⟩], _, _, by simpa using hwhole⟩
  | @call b p q name xs _ =>
      refine ⟨[⟨.identifier name, p⟩, ⟨.symbol .openParen, q⟩], rfl, fun w hw => ?_⟩
      obtain ⟨more, e, n, hderives⟩ := hw
      exact ⟨more, _, _, .call (q := q) hderives⟩
  | @argument b name p given xs =>
      refine ⟨[], rfl, fun w hw => ?_⟩
      obtain ⟨more, e, n, hderives⟩ := hw
      have hwhole : Derives (.arguments name p given) (w ++ more ++ [⟨.symbol .closeParen, 0⟩]) _ _ :=
        .lastArgument hderives
      exact ⟨more ++ [⟨.symbol .closeParen, 0⟩], _, _, by simpa using hwhole⟩
  | @more b q name p given a xs ys hargument =>
      obtain ⟨v, m, hv, hspan⟩ := Phrase.spans_of_read hargument
      refine ⟨v ++ [⟨.symbol .comma, q⟩], by simp [hv], fun w hw => ?_⟩
      obtain ⟨more, e, n, hderives⟩ := hw
      exact ⟨more, _, _, by simpa using Derives.argument (q := q) hspan.derives hderives⟩

/-- The lexemes of the goal before a stop begin a phrase of the goal. -/
theorem Halts.begins {g : Goal} {why : Stop} {rest : List Placed} (h : g.Halts why rest) :
    ∃ before, g.input = before ++ rest ∧ g.phrase.Begins before := by
  have hprimary : Phrase.primary.Begins [] := ⟨anyVariable, _, _, .var⟩
  cases h with
  | operand => exact ⟨[], rfl, hprimary⟩
  | question hcondition =>
      obtain ⟨cs, k, hcs, hspan⟩ := Phrase.spans_of_read hcondition
      exact ⟨cs, hcs, [], _, _, by simpa using hspan.derives.plain⟩
  | @colon b p xs ys rest c y hcondition hyes _ =>
      obtain ⟨cs, k, hcs, hspan⟩ := Phrase.spans_of_read hcondition
      obtain ⟨ws, l, hws, hspan'⟩ := Phrase.spans_of_read hyes
      have hno := (derives_anyVariable Level.loosestFirst).plain
      have hwhole := Derives.conditional (p := p) (q := 0) hspan.derives hspan'.derives hno
      refine ⟨cs ++ ⟨.symbol .question, p⟩ :: ws, by simp [hcs, hws],
        ⟨.symbol .colon, 0⟩ :: anyVariable, _, _, by simpa using hwhole⟩
  | prefixed => exact ⟨[], rfl, anyVariable, _, _, derives_anyVariable []⟩
  | tooHigh => exact ⟨[], rfl, [], _, _, .done⟩
  | openGroup => exact ⟨[], rfl, hprimary⟩
  | @openCall p q name xs => exact ⟨[⟨.identifier name, p⟩], rfl, [], _, _, .var⟩
  | @closeGroup b p xs rest e hinner _ =>
      obtain ⟨w, n, hw, hspan⟩ := Phrase.spans_of_read hinner
      have hwhole := Derives.group (p := p) (q := 0) hspan.derives
      exact ⟨⟨.symbol .openParen, p⟩ :: w, by simp [hw], [⟨.symbol .closeParen, 0⟩], _, _, hwhole⟩
  | @closeCall b name p given a xs rest hargument _ =>
      obtain ⟨w, n, hw, hspan⟩ := Phrase.spans_of_read hargument
      exact ⟨w, hw, [⟨.symbol .closeParen, 0⟩], _, _, .lastArgument hspan.derives⟩

/-- The lexemes of a further goal are the last ones of the goal. -/
theorem input_suffix {g h : Goal} (hpath : Relation.ReflTransGen Leads g h) :
    h.input <:+ g.input := by
  induction hpath with
  | refl => exact List.suffix_refl _
  | tail _ hleads ih =>
      obtain ⟨before, hinput, _⟩ := hleads.begins
      exact (hinput ▸ List.suffix_append _ _).trans ih

/-- **Everything before a stop can be completed.** -/
theorem Fails.begins {g : Goal} {why : Stop} {rest : List Placed} (h : g.Fails why rest) :
    ∃ before, g.input = before ++ rest ∧ g.phrase.Begins before := by
  obtain ⟨k, hpath, hhalts⟩ := h
  induction hpath using Relation.ReflTransGen.head_induction_on with
  | refl => exact hhalts.begins
  | head hleads _ ih =>
      obtain ⟨before, hinput, hbegins⟩ := hleads.begins
      obtain ⟨before', hinput', hbegins'⟩ := ih
      exact ⟨before ++ before', by rw [hinput, hinput', List.append_assoc], hbegins _ hbegins'⟩

end Goal

/-- The lexemes before a stop begin an expression. -/
theorem Rejects.begins {xs rest : List Placed} {why : Stop} (h : Rejects xs why rest) :
    ∃ before, xs = before ++ rest ∧ Phrase.expression.Begins before := by
  cases h with
  | inside hfails => exact hfails.begins
  | trailing hread =>
      obtain ⟨w, n, hw, hspan⟩ := Phrase.spans_of_read hread
      exact ⟨w, hw, [], _, _, by simpa using hspan.derives⟩

end Reckon
