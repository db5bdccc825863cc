import Reckon.Proofs.ParserExactness
import Reckon.Proofs.ViablePrefix
/-!
# The parser looks one lexeme ahead

What a phrase is read as depends on its own lexemes and on the first one after them.  So the lexemes
after a stop may be replaced: the parser comes to the same stop, with the same error.  The limit on
heights is the exception, since the operand of the operator in question may go on with the lexemes
that are put in the place of others.

* `Phrase.read_replace` — the lexemes after a phrase and its lookahead may be replaced;
* `Goal.Fails.replace` — so may the lexemes after a stop.
-/

namespace Reckon

/-! ### Reading with other lexemes after the phrase -/

/-- A phrase within the limits is read before everything that does not continue it. -/
theorem Phrase.Spans.read {b n : Nat} {g : Phrase} {w rest other : List Placed} {e : Expr}
    (h : g.Spans b w e n rest) (hfit : g.Fit) (hend : g.Ends w other) :
    g.read b (w ++ other) = .ok (e, other) := by
  rcases h.derives.reads b other hfit hend with hok | ⟨hlimit | hlimit, _⟩
  · exact hok
  · exact absurd h.nesting_le (Nat.not_le_of_lt hlimit)
  · exact absurd (h.within hfit) hlimit

/-- After a phrase and one more lexeme, all lexemes may be replaced. -/
theorem Phrase.read_replace {b : Nat} {g : Phrase} {xs r after : List Placed} {e : Expr}
    (h : g.read b xs = .ok (e, r ++ after)) (hfit : g.Fit)
    (hfollows : ∀ xs, g.Follows [] xs) (hne : r ≠ []) :
    ∃ w, xs = w ++ r ++ after ∧
      ∀ other, g.read b (w ++ r ++ other) = .ok (e, r ++ other) := by
  obtain ⟨w, n, hw, hspan⟩ := Phrase.spans_of_read h
  have hend : g.Ends w (r ++ after) := hspan.ends [] (hfollows _)
  refine ⟨w, by rw [hw, List.append_assoc], fun other => ?_⟩
  rw [List.append_assoc]
  refine hspan.read hfit fun x hx => hend x ?_
  rwa [List.head?_append_of_ne_nil r hne] at hx ⊢

section Replace

variable {b : Nat} {xs r after : List Placed} {e : Expr}

theorem read_expression_replace (h : Phrase.expression.read b xs = .ok (e, r ++ after))
    (hne : r ≠ []) :
    ∃ w, xs = w ++ r ++ after ∧
      ∀ other, Phrase.expression.read b (w ++ r ++ other) = .ok (e, r ++ other) :=
  Phrase.read_replace h trivial (fun _ => rfl) hne

theorem read_levels_replace {ls : List Level}
    (h : (Phrase.levels ls).read b xs = .ok (e, r ++ after)) (hls : ls <:+ Level.loosestFirst)
    (hne : r ≠ []) :
    ∃ w, xs = w ++ r ++ after ∧
      ∀ other, (Phrase.levels ls).read b (w ++ r ++ other) = .ok (e, r ++ other) :=
  Phrase.read_replace h hls (fun _ => rfl) hne

/-- More lexemes after the lookahead change nothing. -/
theorem read_expression_append (h : Phrase.expression.read b xs = .ok (e, r)) (hne : r ≠ [])
    (more : List Placed) : Phrase.expression.read b (xs ++ more) = .ok (e, r ++ more) := by
  rw [← List.append_nil r] at h
  obtain ⟨w, rfl, hreplaced⟩ := read_expression_replace h hne
  simpa using hreplaced more

theorem read_levels_append {ls : List Level} (h : (Phrase.levels ls).read b xs = .ok (e, r))
    (hls : ls <:+ Level.loosestFirst) (hne : r ≠ []) (more : List Placed) :
    (Phrase.levels ls).read b (xs ++ more) = .ok (e, r ++ more) := by
  rw [← List.append_nil r] at h
  obtain ⟨w, rfl, hreplaced⟩ := read_levels_replace h hls hne
  simpa using hreplaced more

end Replace

namespace Goal

/-! ### What the goals carry -/

/-- One step keeps the facts about what a phrase carries. -/
theorem Leads.fit {g h : Goal} (hleads : g.Leads h) (hfit : g.phrase.Fit) : h.phrase.Fit := by
  cases hleads with
  | condition => exact List.suffix_refl _
  | yes | no | operand | group | argument => trivial
  | prefixed => exact List.nil_suffix
  | first => exact (Phrase.fit_tighter hfit).1
  | others hfirst =>
      obtain ⟨_, _, _, hspan⟩ := Phrase.spans_of_read hfirst
      exact ⟨hfit, hspan.within (Phrase.fit_tighter hfit).1⟩
  | right => exact (Phrase.fit_tighter hfit.1).1
  | next hop hright hlow =>
      obtain ⟨_, _, _, hspan⟩ := Phrase.spans_of_read hright
      rw [Expr.height_binary] at hlow
      have hright := hspan.within (Phrase.fit_tighter hfit.1).1
      exact ⟨hfit.1, (Expr.operatorsWithin_binary _ _ _ _).mpr ⟨hlow, hfit.2, hright⟩⟩
  | call => simp [Phrase.Fit]
  | more hargument =>
      obtain ⟨_, _, _, hspan⟩ := Phrase.spans_of_read hargument
      intro c hc
      rcases List.mem_append.mp hc with hc | hc
      · exact hfit c hc
      · exact List.mem_singleton.mp hc ▸ hspan.within trivial

theorem fit_of_path {g h : Goal} (hpath : Relation.ReflTransGen Leads g h) (hfit : g.phrase.Fit) :
    h.phrase.Fit := by
  induction hpath with
  | refl => exact hfit
  | tail _ hleads ih => exact hleads.fit ih

/-! ### Steps and stops with other lexemes at the end -/

theorem head?_replace {v after other : List Placed} {P : Placed → Prop}
    (h : ∀ x ∈ (v ++ after).head?, P x) (hne : v ≠ []) : ∀ x ∈ (v ++ other).head?, P x := by
  rwa [List.head?_append_of_ne_nil v hne] at h ⊢

/-- **One step.**  The lexemes after the first one of a further goal may be replaced. -/
theorem Leads.replace {g h : Goal} (hleads : g.Leads h) (hfit : g.phrase.Fit)
    {v after : List Placed} (hv : h.input = v ++ after) (hne : v ≠ []) :
    ∃ u, g.input = u ++ after ∧ u ≠ [] ∧
      ∀ other, Leads ⟨g.budget, g.phrase, u ++ other⟩ ⟨h.budget, h.phrase, v ++ other⟩ := by
  cases hleads with
  | condition => exact ⟨v, hv, hne, fun _ => .condition⟩
  | @yes b p xs ys c hcondition =>
      obtain rfl : ys = v ++ after := hv
      obtain ⟨w, hw, hreplaced⟩ := read_levels_replace (r := ⟨.symbol .question, p⟩ :: v)
        hcondition (List.suffix_refl _) (by simp)
      exact ⟨_, hw, by simp, fun other => .yes (hreplaced other)⟩
  | @no b p q xs ys zs c y hcondition hyes =>
      obtain rfl : zs = v ++ after := hv
      obtain ⟨w, rfl, hyes'⟩ := read_expression_replace (r := ⟨.symbol .colon, q⟩ :: v)
        hyes (by simp)
      obtain ⟨w', hw, hcondition'⟩ := read_levels_replace
        (r := ⟨.symbol .question, p⟩ :: (w ++ ⟨.symbol .colon, q⟩ :: v)) hcondition
        (List.suffix_refl _) (by simp)
      exact ⟨_, hw, by simp, fun other => .no (hcondition' other) (hyes' other)⟩
  | @prefixed b x xs op hop =>
      obtain rfl : xs = v ++ after := hv
      exact ⟨x :: v, rfl, by simp, fun _ => .prefixed hop⟩
  | @operand b xs hop =>
      obtain rfl : xs = v ++ after := hv
      exact ⟨v, rfl, hne, fun _ => .operand (head?_replace hop hne)⟩
  | first => exact ⟨v, hv, hne, fun _ => .first⟩
  | @others b level tighter xs rest left hfirst =>
      obtain rfl : rest = v ++ after := hv
      obtain ⟨w, hw, hreplaced⟩ := read_levels_replace hfirst (Phrase.fit_tighter hfit).1 hne
      exact ⟨_, hw, by simp [hne], fun other => .others (hreplaced other)⟩
  | @right b level tighter left x op xs hop =>
      obtain rfl : xs = v ++ after := hv
      exact ⟨x :: v, rfl, by simp, fun _ => .right hop⟩
  | @next b level tighter left right x op xs rest hop hright hlow =>
      obtain rfl : rest = v ++ after := hv
      obtain ⟨w, rfl, hreplaced⟩ := read_levels_replace hright (Phrase.fit_tighter hfit.1).1 hne
      exact ⟨x :: (w ++ v), rfl, by simp, fun other => .next hop (hreplaced other) hlow⟩
  | @group b p xs =>
      obtain rfl : xs = v ++ after := hv
      exact ⟨⟨.symbol .openParen, p⟩ :: v, rfl, by simp, fun _ => .group⟩
  | @call b p q name xs hargs =>
      obtain rfl : xs = v ++ after := hv
      exact ⟨⟨.identifier name, p⟩ :: ⟨.symbol .openParen, q⟩ :: v, rfl, by simp,
        fun _ => .call (head?_replace hargs hne)⟩
  | argument => exact ⟨v, hv, hne, fun _ => .argument⟩
  | @more b q name p given a xs ys hargument =>
      obtain rfl : ys = v ++ after := hv
      obtain ⟨w, hw, hreplaced⟩ := read_expression_replace (r := ⟨.symbol .comma, q⟩ :: v)
        hargument (by simp)
      exact ⟨_, hw, by simp, fun other => .more (hreplaced other)⟩

/-- **Many steps.**  The lexemes after the first one of the last goal may be replaced. -/
theorem path_replace {g h : Goal} (hpath : Relation.ReflTransGen Leads g h) (hfit : g.phrase.Fit)
    {v after : List Placed} (hv : h.input = v ++ after) (hne : v ≠ []) :
    ∃ u, g.input = u ++ after ∧ u ≠ [] ∧
      ∀ other, Relation.ReflTransGen Leads ⟨g.budget, g.phrase, u ++ other⟩
        ⟨h.budget, h.phrase, v ++ other⟩ := by
  induction hpath using Relation.ReflTransGen.head_induction_on with
  | refl => exact ⟨v, hv, hne, fun _ => .refl⟩
  | head hleads _ ih =>
      obtain ⟨t, ht, htne, hrest⟩ := ih (hleads.fit hfit)
      obtain ⟨u, hu, hune, hfirst⟩ := hleads.replace hfit ht htne
      exact ⟨u, hu, hune, fun other => .head (hfirst other) (hrest other)⟩

/-- The lexemes after the one at which the parser stops may be replaced. -/
theorem Halts.replace {g : Goal} {why : Stop} {x : Placed} {after : List Placed}
    (h : g.Halts why (x :: after)) (hfit : g.phrase.Fit) (hwhy : why ≠ .height) :
    ∃ v, g.input = v ++ x :: after ∧
      ∀ other, Halts ⟨g.budget, g.phrase, v ++ x :: other⟩ why (x :: other) := by
  cases h with
  | operand hnone => exact ⟨[], rfl, fun _ => .operand hnone⟩
  | @question p xs ys c hcondition =>
      obtain ⟨w, hw, hreplaced⟩ := read_levels_replace (r := [⟨.symbol .question, p⟩])
        hcondition (List.suffix_refl _) (by simp)
      exact ⟨w, by simp [hw], fun other => .question (by simpa using hreplaced other)⟩
  | @colon b p xs ys rest c y hcondition hyes hcolon =>
      obtain ⟨w, rfl, hyes'⟩ := read_expression_replace (r := [x]) hyes (by simp)
      obtain ⟨w', rfl, hcondition'⟩ := read_levels_replace
        (r := ⟨.symbol .question, p⟩ :: (w ++ [x])) hcondition (List.suffix_refl _) (by simp)
      refine ⟨w' ++ ⟨.symbol .question, p⟩ :: w, by simp, fun other => ?_⟩
      have hhalts := Halts.colon (hcondition' other) (hyes' other) hcolon
      simpa using hhalts
  | prefixed hop => exact ⟨[], rfl, fun _ => .prefixed hop⟩
  | tooHigh => exact absurd rfl hwhy
  | openGroup => exact ⟨[], rfl, fun _ => .openGroup⟩
  | @openCall p q name xs => exact ⟨[⟨.identifier name, p⟩], rfl, fun _ => .openCall⟩
  | @closeGroup b p xs rest e hinner hclose =>
      obtain ⟨w, rfl, hreplaced⟩ := read_expression_replace (r := [x]) hinner (by simp)
      refine ⟨⟨.symbol .openParen, p⟩ :: w, by simp, fun other => ?_⟩
      have hhalts := Halts.closeGroup (p := p) (hreplaced other) hclose
      simpa using hhalts
  | @closeCall b name p given a xs rest hargument hclose =>
      obtain ⟨w, rfl, hreplaced⟩ := read_expression_replace (r := [x]) hargument (by simp)
      refine ⟨w, by simp, fun other => ?_⟩
      exact .closeCall (by simpa using hreplaced other) hclose

/-- **Locality of failures.**  The lexemes after the one at which the parser stops may be replaced:
the parser comes to the same stop. -/
theorem Fails.replace {g : Goal} {why : Stop} {x : Placed} {after : List Placed}
    (h : g.Fails why (x :: after)) (hfit : g.phrase.Fit) (hwhy : why ≠ .height) :
    ∃ u, g.input = u ++ x :: after ∧
      ∀ other, Fails ⟨g.budget, g.phrase, u ++ x :: other⟩ why (x :: other) := by
  obtain ⟨k, hpath, hhalts⟩ := h
  obtain ⟨v, hv, hhalts'⟩ := hhalts.replace (fit_of_path hpath hfit) hwhy
  obtain ⟨u, hu, _, hpath'⟩ := path_replace hpath hfit (v := v ++ [x]) (by simpa using hv) (by simp)
  obtain ⟨t, ht⟩ := input_suffix hpath
  have hlast : u ++ after = t ++ v ++ [x] ++ after := by
    rw [← hu, ← ht, hv]
    simp
  obtain rfl := List.append_cancel_right hlast
  refine ⟨t ++ v, by simpa using hu, fun other => ⟨_, ?_, hhalts' other⟩⟩
  simpa using hpath' other

end Goal

/-- The lexemes after the one at which the parser stops may be replaced. -/
theorem Rejects.replace {xs after : List Placed} {why : Stop} {x : Placed}
    (h : Rejects xs why (x :: after)) (hwhy : why ≠ .height) :
    ∃ u, xs = u ++ x :: after ∧ ∀ other, Rejects (u ++ x :: other) why (x :: other) := by
  cases h with
  | inside hfails =>
      obtain ⟨u, hu, hreplaced⟩ := hfails.replace trivial hwhy
      exact ⟨u, hu, fun other => .inside (hreplaced other)⟩
  | trailing hread =>
      obtain ⟨w, rfl, hreplaced⟩ := read_expression_replace (r := [x]) hread (by simp)
      refine ⟨w, by simp, fun other => ?_⟩
      have hread := hreplaced other
      rw [List.append_assoc] at hread
      exact .trailing hread

end Reckon
