import Reckon.Proofs.EvaluationOrder
/-!
# Which requests an evaluation makes, and in which order

An evaluation goes once through the variables and the calls of the tree, in the order of
`Expr.sites`, and makes some of their requests: exactly those of the nodes that it reaches and that
ask something, each with the history at that place.  The log of an evaluation is put together from
the logs of the operands that are taken up, one after the other, and the request of the node itself.

* `Log` — requests, each with the node that made it;
* `Logged` — a log that has exactly the requests of an evaluation, in their order;
* `requests_of_evaluation` — every evaluation has such a log.
-/

open Reckon.Expr

namespace Reckon

/-! ### Logs -/

/-- Requests, each with the way to the node that made it. -/
abbrev Log := List (Path × Request)

namespace Log

/-- Each request of a log with everything that was asked before it, the requests `h` before the log
included. -/
def stamped (h : List Request) : Log → List (Path × Request × List Request)
  | [] => []
  | (path, r) :: log => (path, r, h) :: stamped (h ++ [r]) log

/-- The log of an operand, seen from the node that it is the operand `i` of. -/
def below (i : Nat) (log : Log) : Log := log.map fun (path, r) => (i :: path, r)

theorem mem_stamped_iff {h g : List Request} {log : Log} {path : Path} {r : Request} :
    (path, r, g) ∈ stamped h log ↔
      ∃ before after, log = before ++ (path, r) :: after ∧ g = h ++ before.map Prod.snd := by
  induction log generalizing h with
  | nil => simp [stamped]
  | cons entry log ih =>
    obtain ⟨first, q⟩ := entry
    rw [stamped, List.mem_cons, ih]
    constructor
    · rintro (heq | ⟨before, after, rfl, rfl⟩)
      · cases heq
        exact ⟨[], log, rfl, by simp⟩
      · exact ⟨(first, q) :: before, after, rfl, by simp⟩
    · rintro ⟨before, after, hsplit, rfl⟩
      cases before with
      | nil =>
        cases hsplit
        exact .inl (by simp)
      | cons entry before =>
        obtain ⟨rfl, rfl⟩ := List.cons.inj hsplit
        exact .inr ⟨before, after, rfl, by simp⟩

theorem stamped_append (h : List Request) (log later : Log) :
    stamped h (log ++ later) = stamped h log ++ stamped (h ++ log.map Prod.snd) later := by
  induction log generalizing h with
  | nil => simp [stamped]
  | cons entry log ih => simp [stamped, ih]

theorem stamped_below (h : List Request) (i : Nat) (log : Log) :
    stamped h (log.below i) = (stamped h log).map fun (path, r, g) => (i :: path, r, g) := by
  induction log generalizing h with
  | nil => rfl
  | cons entry log ih =>
    rw [below] at ih ⊢
    simp [stamped, ih]

theorem map_fst_below (i : Nat) (log : Log) :
    (log.below i).map Prod.fst = (log.map Prod.fst).map (i :: ·) := by
  simp [below, Function.comp_def]

theorem map_snd_below (i : Nat) (log : Log) : (log.below i).map Prod.snd = log.map Prod.snd := by
  simp [below, Function.comp_def]

end Log

section Logs

variable {host : Host}

/-- A node at the end of a way is reached, and asks. -/
def Issues (host : Host) (e : Expr) (h : List Request) (path : Path) (r : Request)
    (g : List Request) : Prop :=
  ∃ s k, Reached host e h path s k ∧ Asks host s k r g

theorem issues_nil_iff {e : Expr} {h g : List Request} {r : Request} :
    Issues host e h [] r g ↔ Asks host e h r g := by
  constructor
  · rintro ⟨s, k, hreach, hasks⟩
    cases hreach
    exact hasks
  · intro hasks
    exact ⟨e, h, .root e h, hasks⟩

theorem issues_cons_iff {e : Expr} {h g : List Request} {i : Nat} {path : Path} {r : Request} :
    Issues host e h (i :: path) r g ↔ ∃ a k, Enters host e h i a k ∧ Issues host a k path r g := by
  constructor
  · rintro ⟨s, k, hreach, hasks⟩
    obtain _ | ⟨hfirst, hrest⟩ := hreach
    exact ⟨_, _, hfirst, s, k, hrest, hasks⟩
  · rintro ⟨a, m, hfirst, s, k, hrest, hasks⟩
    exact ⟨s, k, .step hfirst hrest, hasks⟩

/-- A log has exactly the requests of an evaluation, at the places that may ask, in their order. -/
structure Logged (host : Host) (e : Expr) (h g : List Request) (log : Log) : Prop where
  requests : g = h ++ log.map Prod.snd
  places : (log.map Prod.fst).Sublist e.sites
  issued : ∀ path r k, (path, r, k) ∈ log.stamped h ↔ Issues host e h path r k

/-- The same for the operands of a node that are taken up in turn: each is given with its place
among the operands and with the history at which it is taken up. -/
structure OperandsLogged (host : Host) (entered : Nat → Expr → List Request → Prop)
    (h g : List Request) (places : List Path) (log : Log) : Prop where
  requests : g = h ++ log.map Prod.snd
  places : (log.map Prod.fst).Sublist places
  issued : ∀ path r k, (path, r, k) ∈ log.stamped h ↔
    ∃ i a m rest, path = i :: rest ∧ entered i a m ∧ Issues host a m rest r k

variable {h g k : List Request}

theorem OperandsLogged.none (host : Host) (h : List Request) :
    OperandsLogged host (fun _ _ _ => False) h h [] [] where
  requests := (List.append_nil h).symm
  places := .slnil
  issued := by simp [Log.stamped]

theorem Logged.operand {a : Expr} {log : Log} (hlog : Logged host a h g log) (i : Nat) :
    OperandsLogged host (fun j b m => j = i ∧ b = a ∧ m = h) h g (a.sites.map (i :: ·))
      (log.below i) where
  requests := by rw [Log.map_snd_below, hlog.requests]
  places := by
    rw [Log.map_fst_below]
    exact hlog.places.map _
  issued path r k := by
    rw [Log.stamped_below, List.mem_map]
    constructor
    · rintro ⟨⟨rest, q, m⟩, hmem, heq⟩
      cases heq
      exact ⟨i, a, h, rest, rfl, ⟨rfl, rfl, rfl⟩, (hlog.issued ..).mp hmem⟩
    · rintro ⟨_, _, _, rest, rfl, ⟨rfl, rfl, rfl⟩, hissue⟩
      exact ⟨(rest, r, k), (hlog.issued ..).mpr hissue, rfl⟩

theorem OperandsLogged.append {first second : Nat → Expr → List Request → Prop}
    {places others : List Path} {log later : Log}
    (hfirst : OperandsLogged host first h g places log)
    (hsecond : OperandsLogged host second g k others later) :
    OperandsLogged host (fun i a m => first i a m ∨ second i a m) h k (places ++ others)
      (log ++ later) where
  requests := by rw [hsecond.requests, hfirst.requests, List.map_append, List.append_assoc]
  places := by
    rw [List.map_append]
    exact hfirst.places.append hsecond.places
  issued path r m := by
    rw [Log.stamped_append, List.mem_append, ← hfirst.requests, hfirst.issued, hsecond.issued]
    constructor
    · rintro (⟨i, a, l, rest, hpath, hin, hissue⟩ | ⟨i, a, l, rest, hpath, hin, hissue⟩)
      · exact ⟨i, a, l, rest, hpath, .inl hin, hissue⟩
      · exact ⟨i, a, l, rest, hpath, .inr hin, hissue⟩
    · rintro ⟨i, a, l, rest, hpath, hin | hin, hissue⟩
      · exact .inl ⟨i, a, l, rest, hpath, hin, hissue⟩
      · exact .inr ⟨i, a, l, rest, hpath, hin, hissue⟩

/-- The operands may be told in another way, and more places may be allowed. -/
theorem OperandsLogged.weaken {entered entered' : Nat → Expr → List Request → Prop}
    {places places' : List Path} {log : Log}
    (hlog : OperandsLogged host entered h g places log) (hplaces : places.Sublist places')
    (hentered : ∀ i a m, entered' i a m ↔ entered i a m) :
    OperandsLogged host entered' h g places' log where
  requests := hlog.requests
  places := hlog.places.trans hplaces
  issued path r k := by simp only [hlog.issued, hentered]

theorem Asks.isSite {e : Expr} {r : Request} (hasks : Asks host e h r g) : e.isSite := by
  cases hasks <;> rfl

theorem Asks.unique {e : Expr} {r q : Request} (hr : Asks host e h r g) (hq : Asks host e h q k) :
    r = q ∧ g = k := by
  cases hr with
  | read => cases hq; exact ⟨rfl, rfl⟩
  | call hargs _ =>
    cases hq with
    | call hargs' _ =>
      obtain ⟨rfl, rfl⟩ := hargs.unique hargs'
      exact ⟨rfl, rfl⟩

/-- The log of a node that asks nothing is that of its operands. -/
theorem OperandsLogged.silent {e : Expr} {log : Log}
    (hlog : OperandsLogged host (Enters host e h) h g (sitesAll 0 e.children) log)
    (hsilent : ∀ r k, ¬ Asks host e h r k) : Logged host e h g log where
  requests := hlog.requests
  places := by
    rw [sites_eq]
    exact hlog.places.trans (List.sublist_append_left ..)
  issued path r k := by
    rw [hlog.issued]
    cases path with
    | nil =>
      -- The entries of operands are never at the root.
      simp [issues_nil_iff, hsilent]
    | cons i path =>
      rw [issues_cons_iff]
      constructor
      · rintro ⟨_, a, m, _, ⟨⟩, henter, hissue⟩
        exact ⟨a, m, henter, hissue⟩
      · rintro ⟨a, m, henter, hissue⟩
        exact ⟨i, a, m, path, rfl, henter, hissue⟩

/-- The log of a node that asks has its request behind those of its operands. -/
theorem OperandsLogged.asking {e : Expr} {log : Log} {q : Request}
    (hlog : OperandsLogged host (Enters host e h) h g (sitesAll 0 e.children) log)
    (hasks : Asks host e h q g) : Logged host e h (g ++ [q]) (log ++ [([], q)]) where
  requests := by rw [hlog.requests, List.map_append, List.append_assoc]; rfl
  places := by
    rw [sites_eq, if_pos hasks.isSite, List.map_append]
    exact hlog.places.append (List.Sublist.refl _)
  issued path r k := by
    rw [Log.stamped_append, List.mem_append, ← hlog.requests, hlog.issued]
    cases path with
    | nil =>
      rw [issues_nil_iff]
      constructor
      · rintro (⟨_, _, _, _, ⟨⟩, -⟩ | hown)
        cases List.mem_singleton.mp hown
        exact hasks
      · intro hown
        obtain ⟨rfl, rfl⟩ := hown.unique hasks
        exact .inr (List.mem_singleton.mpr rfl)
    | cons i path =>
      rw [issues_cons_iff]
      constructor
      · rintro (⟨_, a, m, _, ⟨⟩, henter, hissue⟩ | hown)
        · exact ⟨a, m, henter, hissue⟩
        · cases List.mem_singleton.mp hown
      · rintro ⟨a, m, henter, hissue⟩
        exact .inl ⟨i, a, m, path, rfl, henter, hissue⟩

end Logs

/-! ### The log of an evaluation -/

section Evaluation

variable {host : Host}

/-- The history after an evaluation. -/
def historyAfter (host : Host) (h : List Request) (e : Expr) : List Request :=
  (e.evaluate.runAfter host h).requests

theorem Yields.historyAfter {h g : List Request} {e : Expr} {v : Value}
    (hyield : Yields host h e v g) : historyAfter host h e = g :=
  congrArg Transcript.requests hyield

theorem Fails.historyAfter {h g : List Request} {e : Expr} {error : EvalError}
    (hfail : Fails host h e error g) : historyAfter host h e = g :=
  congrArg Transcript.requests hfail

/-- An evaluation has a log that ends with the history after it. -/
def HasLog (host : Host) (e : Expr) : Prop :=
  ∀ h, ∃ log, Logged host e h (historyAfter host h e) log

/-- What several expressions ask is what the first one asks and then the others. -/
theorem requests_evaluateAll_of_yields {h g : List Request} {e : Expr} {v : Value}
    (hhead : Yields host h e v g) (es : List Expr) :
    ((evaluateAll (e :: es)).runAfter host h).requests =
      ((evaluateAll es).runAfter host g).requests := by
  rw [evaluateAll, Dialogue.runAfter_bind_of_ok hhead]
  exact Dialogue.requests_bind_ofExcept host g (evaluateAll es) fun vs => .ok (v :: vs)

theorem requests_evaluateAll_of_fails {h g : List Request} {e : Expr} {error : EvalError}
    (hhead : Fails host h e error g) (es : List Expr) :
    ((evaluateAll (e :: es)).runAfter host h).requests = g := by
  rw [evaluateAll, Dialogue.runAfter_bind_of_error hhead]

/-- Several expressions are evaluated one after the other, the first of which is the operand at place
`i`: the one at place `j` is taken up when the ones before it have values. -/
def EntersAll (host : Host) (es : List Expr) (h : List Request) (i j : Nat) (a : Expr)
    (m : List Request) : Prop :=
  ∃ d vs, j = i + d ∧ es[d]? = some a ∧ YieldsAll host h (es.take d) vs m

theorem entersAll_of_yields {h g m : List Request} {e a : Expr} {es : List Expr} {v : Value}
    {i j : Nat} (hhead : Yields host h e v g) :
    EntersAll host (e :: es) h i j a m ↔
      (j = i ∧ a = e ∧ m = h) ∨ EntersAll host es g (i + 1) j a m := by
  constructor
  · rintro ⟨d, vs, rfl, hat, hbefore⟩
    cases d with
    | zero =>
      cases hat
      cases hbefore
      exact .inl ⟨rfl, rfl, rfl⟩
    | succ d =>
      obtain _ | ⟨hhead', htail⟩ := hbefore
      obtain ⟨rfl, rfl⟩ := hhead.unique hhead'
      exact .inr ⟨d, _, by omega, hat, htail⟩
  · rintro (⟨rfl, rfl, rfl⟩ | ⟨d, vs, rfl, hat, hbefore⟩)
    · exact ⟨0, [], rfl, rfl, .nil _⟩
    · exact ⟨d + 1, v :: vs, by omega, hat, .cons hhead hbefore⟩

theorem entersAll_of_fails {h g m : List Request} {e a : Expr} {es : List Expr}
    {error : EvalError} {i j : Nat} (hhead : Fails host h e error g) :
    EntersAll host (e :: es) h i j a m ↔ j = i ∧ a = e ∧ m = h := by
  constructor
  · rintro ⟨d, vs, rfl, hat, hbefore⟩
    cases d with
    | zero =>
      cases hat
      cases hbefore
      exact ⟨rfl, rfl, rfl⟩
    | succ d =>
      obtain _ | ⟨hhead', -⟩ := hbefore
      exact absurd hhead' hhead.not_yields
  · rintro ⟨rfl, rfl, rfl⟩
    exact ⟨0, [], rfl, rfl, .nil _⟩

/-- The log of several expressions is put together from theirs, up to the first that fails. -/
theorem exists_log_all (es : List Expr) (hlogs : ∀ a ∈ es, HasLog host a) (i : Nat)
    (h : List Request) :
    ∃ log, OperandsLogged host (EntersAll host es h i) h
      ((evaluateAll es).runAfter host h).requests (sitesAll i es) log := by
  induction es generalizing i h with
  | nil => exact ⟨[], (OperandsLogged.none host h).weaken .slnil (by simp [EntersAll])⟩
  | cons e es ih =>
    obtain ⟨log, hlog⟩ := hlogs e List.mem_cons_self h
    have hoperand := hlog.operand i
    rcases yields_or_fails host h e with ⟨v, g, hhead⟩ | ⟨error, g, hhead⟩
    · obtain ⟨later, hlater⟩ := ih (fun a ha => hlogs a (List.mem_cons_of_mem e ha)) (i + 1) g
      rw [hhead.historyAfter] at hoperand
      rw [requests_evaluateAll_of_yields hhead]
      exact ⟨_, (hoperand.append hlater).weaken (List.Sublist.refl _)
        fun _ _ _ => entersAll_of_yields hhead⟩
    · rw [hhead.historyAfter] at hoperand
      rw [requests_evaluateAll_of_fails hhead]
      exact ⟨_, hoperand.weaken (List.sublist_append_left ..)
        fun _ _ _ => entersAll_of_fails hhead⟩

section Operators

variable {h g : List Request} {e a b : Expr} {others : List Expr}

/-- A node that asks nothing, and takes up its first operand only. -/
theorem exists_log_of_first (hchildren : e.children = a :: others) (ha : HasLog host a)
    (henters : ∀ i s m, Enters host e h i s m ↔ i = 0 ∧ s = a ∧ m = h)
    (hsilent : ∀ r k, ¬ Asks host e h r k)
    (hafter : historyAfter host h e = historyAfter host h a) :
    ∃ log, Logged host e h (historyAfter host h e) log := by
  obtain ⟨log, hlog⟩ := ha h
  have hplaces : (a.sites.map (0 :: ·)).Sublist (sitesAll 0 e.children) := by
    rw [hchildren]
    exact List.sublist_append_left ..
  rw [hafter]
  exact ⟨_, ((hlog.operand 0).weaken hplaces henters).silent hsilent⟩

/-- A node that asks nothing, and takes up its first operand and then one more. -/
theorem exists_log_of_two {v : Value} {d : Nat} (hchildren : e.children = a :: others)
    (hother : others[d]? = some b) (ha : HasLog host a) (hb : HasLog host b)
    (hyield : Yields host h a v g)
    (henters : ∀ i s m, Enters host e h i s m ↔
      (i = 0 ∧ s = a ∧ m = h) ∨ (i = 1 + d ∧ s = b ∧ m = g))
    (hsilent : ∀ r k, ¬ Asks host e h r k)
    (hafter : historyAfter host h e = historyAfter host g b) :
    ∃ log, Logged host e h (historyAfter host h e) log := by
  obtain ⟨log, hlog⟩ := ha h
  obtain ⟨later, hlater⟩ := hb g
  have hplaces : (a.sites.map (0 :: ·) ++ b.sites.map ((1 + d) :: ·)).Sublist
      (sitesAll 0 e.children) := by
    rw [hchildren]
    exact (List.Sublist.refl _).append (sublist_sitesAll hother)
  rw [hyield.historyAfter] at hlog
  rw [hafter]
  exact ⟨_, (((hlog.operand 0).append (hlater.operand (1 + d))).weaken hplaces henters).silent
    hsilent⟩

end Operators

section Constructors

variable {h : List Request} {a b c y n : Expr} {p : Position}

theorem hasLog_unary {op : UnaryOp} (ha : HasLog host a) : HasLog host (unary op a p) := by
  intro h
  refine exists_log_of_first rfl ha (fun _ _ _ => enters_unary_iff) (by rintro r k ⟨⟩) ?after
  case after =>
    rw [historyAfter, evaluate]
    exact Dialogue.requests_bind_ofExcept ..

/-- The right operand is taken up only if the left one has a value that leaves the result open. -/
theorem hasLog_binary {op : BinaryOp} (ha : HasLog host a) (hb : HasLog host b) :
    HasLog host (binary op a b p) := by
  intro h
  have hsilent : ∀ r k, ¬ Asks host (binary op a b p) h r k := by rintro r k ⟨⟩
  rcases yields_or_fails host h a with ⟨l, g, hl⟩ | ⟨error, g, hl⟩
  case inl =>
    by_cases hdecided : op.decidedBy? = some l.toBool
    case pos =>
      refine exists_log_of_first rfl ha ?enters hsilent ?after
      case enters => simp [enters_binary_iff, hl.iff, and_assoc, hdecided]
      case after =>
        rw [hl.historyAfter, historyAfter, evaluate_binary, Dialogue.runAfter_bind_of_ok hl,
          if_pos hdecided]
        rfl
    case neg =>
      refine exists_log_of_two (d := 0) rfl rfl ha hb hl ?enters hsilent ?after
      case enters => simp [enters_binary_iff, hl.iff, and_assoc, hdecided]
      case after =>
        rw [historyAfter, evaluate_binary, Dialogue.runAfter_bind_of_ok hl, if_neg hdecided]
        exact Dialogue.requests_bind_ofExcept ..
  case inr =>
    refine exists_log_of_first rfl ha ?enters hsilent ?after
    case enters => simp [enters_binary_iff, hl.not_yields]
    case after =>
      rw [hl.historyAfter, historyAfter, evaluate_binary, Dialogue.runAfter_bind_of_error hl]

theorem hasLog_conditional (hc : HasLog host c) (hy : HasLog host y) (hn : HasLog host n) :
    HasLog host (conditional c y n p) := by
  intro h
  have hsilent : ∀ r k, ¬ Asks host (conditional c y n p) h r k := by rintro r k ⟨⟩
  rcases yields_or_fails host h c with ⟨v, g, hv⟩ | ⟨error, g, hv⟩
  case inl =>
    by_cases htrue : v.toBool
    case pos =>
      refine exists_log_of_two (d := 0) rfl rfl hc hy hv ?enters hsilent ?after
      case enters => simp [enters_conditional_iff, hv.iff, and_assoc, htrue]
      case after =>
        rw [historyAfter, evaluate, Dialogue.runAfter_bind_of_ok hv, if_pos htrue, historyAfter]
    case neg =>
      refine exists_log_of_two (d := 1) rfl rfl hc hn hv ?enters hsilent ?after
      case enters => simp [enters_conditional_iff, hv.iff, and_assoc, htrue]
      case after =>
        rw [historyAfter, evaluate, Dialogue.runAfter_bind_of_ok hv, if_neg htrue, historyAfter]
  case inr =>
    refine exists_log_of_first rfl hc ?enters hsilent ?after
    case enters => simp [enters_conditional_iff, hv.not_yields]
    case after =>
      rw [hv.historyAfter, historyAfter, evaluate, Dialogue.runAfter_bind_of_error hv]

theorem hasLog_call {name : String} {args : List Expr} (hargs : ∀ a ∈ args, HasLog host a) :
    HasLog host (call name args p) := by
  intro h
  have henters : ∀ i a m,
      Enters host (call name args p) h i a m ↔ EntersAll host args h 0 i a m := by
    simp [enters_call_iff, EntersAll]
  obtain ⟨log, hall⟩ := exists_log_all args hargs 0 h
  have hlog := hall.weaken (List.Sublist.refl _) henters
  rcases hrun : (evaluateAll args).runAfter host h with ⟨error | vs, g⟩
  case error =>
    have hafter : historyAfter host h (call name args p) = g := by
      rw [historyAfter, evaluate, Dialogue.runAfter_bind_of_error hrun]
    rw [hrun] at hlog
    rw [hafter]
    refine ⟨log, hlog.silent fun r k hasks => ?_⟩
    cases hasks with
    | call hyields _ => cases hrun.symm.trans (yieldsAll_iff.mp hyields)
  case ok =>
    rw [hrun] at hlog
    cases hcall : Standard.call? name vs with
    | some result =>
      have hafter : historyAfter host h (call name args p) = g := by
        rw [historyAfter, evaluate, Dialogue.runAfter_bind_of_ok hrun, hcall]
        simp
      rw [hafter]
      refine ⟨log, hlog.silent fun r k hasks => ?_⟩
      cases hasks with
      | call hyields hforeign =>
        cases hrun.symm.trans (yieldsAll_iff.mp hyields)
        cases hcall.symm.trans hforeign
    | none =>
      have hafter : historyAfter host h (call name args p) = g ++ [.call name vs] := by
        rw [historyAfter, evaluate, Dialogue.runAfter_bind_of_ok hrun, hcall]
        simp
      rw [hafter]
      exact ⟨_, hlog.asking (.call (yieldsAll_iff.mpr hrun) hcall)⟩

theorem hasLog_literal {v : Value} : HasLog host (literal v p) := by
  intro h
  refine ⟨[], ((OperandsLogged.none host h).weaken .slnil fun i a m => ?_).silent ?_⟩
  · constructor <;> rintro ⟨⟩
  · rintro r k ⟨⟩

theorem hasLog_var {name : String} : HasLog host (var name p) := by
  intro h
  have hafter : historyAfter host h (var name p) = h ++ [.read name] := by
    rw [historyAfter, evaluate, Dialogue.runAfter_request]
  rw [hafter]
  refine ⟨_, ((OperandsLogged.none host h).weaken .slnil fun i a m => ?_).asking .read⟩
  constructor <;> rintro ⟨⟩

end Constructors

/-- Every evaluation has a log. -/
theorem hasLog (host : Host) (e : Expr) : HasLog host e := by
  induction e using Expr.induction with
  | literal v p => exact hasLog_literal
  | var name p => exact hasLog_var
  | unary op a p ha => exact hasLog_unary ha
  | binary op a b p ha hb => exact hasLog_binary ha hb
  | conditional c y n p hc hy hn => exact hasLog_conditional hc hy hn
  | call name args p hargs => exact hasLog_call hargs

end Evaluation

/-- **Requests of an evaluation.**  The requests that an evaluation makes are told by a log, which
goes through the variables and the calls of the tree from left to right, a call behind everything
inside its arguments, and comes to each at most once.  A variable or a call is in the log, with a
request and with what was asked before it, iff it is reached and asks for that: a call does if all
its arguments have values and it is none of a standard function, and what it asks for is its value
at these values, in their order.  Nothing inside an operand that is left out is in the log.  And the
evaluation fails iff a node raises an error, which is returned as it is, and nothing is asked after
it. -/
theorem requests_of_evaluation (host : Host) (e : Expr) :
    (∀ path, path ∈ e.sites ↔ ∃ s, e.at? path = some s ∧ s.isSite) ∧
    ∃ log : Log,
      (e.evaluate.run host).requests = log.map Prod.snd ∧
      (log.map Prod.fst).Sublist e.sites ∧
      (log.map Prod.fst).Nodup ∧
      (∀ path r earlier,
        (∃ before after, log = before ++ (path, r) :: after ∧ earlier = before.map Prod.snd) ↔
          ∃ s g, Reached host e [] path s g ∧ Asks host s g r earlier) ∧
      (∀ path s g i, Reached host e [] path s g → Skips host s g i →
        ∀ entry ∈ log, ¬ (path ++ [i]) <+: entry.1) ∧
      ∀ error requests, e.evaluate.run host = ⟨.error error, requests⟩ ↔
        ∃ path s g, Reached host e [] path s g ∧ Raises host s g error requests := by
  obtain ⟨log, hlog⟩ := hasLog host e []
  have hissued : ∀ path r earlier,
      (∃ before after, log = before ++ (path, r) :: after ∧ earlier = before.map Prod.snd) ↔
        Issues host e [] path r earlier := by
    intro path r earlier
    rw [← hlog.issued, Log.mem_stamped_iff]
    simp
  refine ⟨fun _ => mem_sites_iff, log, hlog.requests, hlog.places,
    hlog.places.nodup e.nodup_sites, hissued, ?skipped, fun _ _ => fails_iff⟩
  case skipped =>
    -- An entry is a node that is reached, and none is reached in what is left out.
    rintro path s g i hreach hskip ⟨place, r⟩ hentry ⟨rest, hplace⟩
    obtain ⟨before, after, hsplit⟩ := List.append_of_mem hentry
    obtain ⟨t, k, hplaced, -⟩ := (hissued place r _).mp ⟨before, after, hsplit, rfl⟩
    have hway : place = path ++ i :: rest := by simpa using hplace.symm
    subst hway
    exact hskip.not_reached hreach hplaced

/-- A host that says no to everything is asked for the arguments, then for the call, and not for the
right operand of the conjunction. -/
example :
    ((binary .and (call "f" [var "x" .endOfInput, call "g" [var "y" .endOfInput] .endOfInput]
          .endOfInput) (var "z" .endOfInput) .endOfInput).evaluate.run
        (.ofFunctions (fun _ => .ok (.boolean false)) fun _ _ => .ok (.boolean false))).requests =
      [.read "x", .read "y", .call "g" [.boolean false],
        .call "f" [.boolean false, .boolean false]] := by
  rfl

end Reckon
