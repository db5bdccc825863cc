import Reckon.Proofs.TreeShape
/-!
# Ways into a tree

A node of a tree is named by the way that leads to it from the root, which says which operand to
take at each step, so that equal trees in different places stay apart.

* `Expr.at?` — the node at the end of a way;
* `Expr.sites` — the ways to the variables and the calls, which are what can ask a host, from left
  to right, a call behind everything inside its arguments.
-/

namespace Reckon

namespace Expr

/-- A way from the root of a tree to a node: which operand to take at each step. -/
abbrev Path := List Nat

/-- The node at the end of a way. -/
def at? : Expr → Path → Option Expr
  | e, [] => some e
  | e, i :: path => e.children[i]?.bind (at? · path)

/-- Induction on a tree, whatever its root is: what holds of the operands holds of the tree. -/
theorem induction_children {P : Expr → Prop}
    (children : ∀ e : Expr, (∀ a ∈ e.children, P a) → P e) (e : Expr) : P e := by
  induction e using Expr.induction with
  | literal v p => exact children _ (by simp [Expr.children])
  | var name p => exact children _ (by simp [Expr.children])
  | unary op a p ha => exact children _ (by simpa [Expr.children] using ha)
  | binary op a b p ha hb => exact children _ (by simpa [Expr.children] using ⟨ha, hb⟩)
  | conditional c y n p hc hy hn =>
    exact children _ (by simpa [Expr.children] using ⟨hc, hy, hn⟩)
  | call name args p hargs => exact children _ (by simpa [Expr.children] using hargs)

/-! ### Variables and calls -/

/-- Whether a node can ask the host for something: it is a variable or a call. -/
def isSite : Expr → Bool
  | var _ _ | call _ _ _ => true
  | _ => false

mutual

/-- The ways to the variables and the calls, from left to right.  A call stands behind everything
inside its arguments. -/
def sites : Expr → List Path
  | literal _ _ => []
  | var _ _ => [[]]
  | unary _ a _ => a.sites.map (0 :: ·)
  | binary _ a b _ => a.sites.map (0 :: ·) ++ b.sites.map (1 :: ·)
  | conditional c y n _ => c.sites.map (0 :: ·) ++ (y.sites.map (1 :: ·) ++ n.sites.map (2 :: ·))
  | call _ args _ => sitesAll 0 args ++ [[]]

/-- The same for several expressions, the first of which is the operand at place `i`. -/
def sitesAll (i : Nat) : List Expr → List Path
  | [] => []
  | e :: es => e.sites.map (i :: ·) ++ sitesAll (i + 1) es

end

/-- A node comes behind its operands. -/
theorem sites_eq (e : Expr) :
    e.sites = sitesAll 0 e.children ++ if e.isSite then [[]] else [] := by
  cases e <;> simp [sites, sitesAll, children, isSite]

theorem mem_sitesAll_iff {i : Nat} {es : List Expr} {path : Path} :
    path ∈ sitesAll i es ↔
      ∃ j a rest, es[j]? = some a ∧ rest ∈ a.sites ∧ path = (i + j) :: rest := by
  induction es generalizing i with
  | nil => simp [sitesAll]
  | cons e es ih =>
    rw [sitesAll, List.mem_append, ih]
    constructor
    · rintro (hmem | ⟨j, a, rest, hat, hrest, rfl⟩)
      · obtain ⟨rest, hrest, rfl⟩ := List.mem_map.mp hmem
        exact ⟨0, e, rest, rfl, hrest, rfl⟩
      · exact ⟨j + 1, a, rest, hat, hrest, by rw [Nat.add_right_comm, Nat.add_assoc]⟩
    · rintro ⟨j, a, rest, hat, hrest, rfl⟩
      cases j with
      | zero =>
        cases hat
        exact .inl (List.mem_map_of_mem hrest)
      | succ j => exact .inr ⟨j, a, rest, hat, hrest, by rw [Nat.add_right_comm, Nat.add_assoc]⟩

theorem cons_mem_sites_iff {e : Expr} {i : Nat} {path : Path} :
    i :: path ∈ e.sites ↔ ∃ a, e.children[i]? = some a ∧ path ∈ a.sites := by
  have hown : i :: path ∉ (if e.isSite then [[]] else [] : List Path) := by split <;> simp
  rw [sites_eq, List.mem_append, or_iff_left hown, mem_sitesAll_iff]
  constructor
  · rintro ⟨j, a, rest, hat, hrest, heq⟩
    rw [Nat.zero_add] at heq
    cases heq
    exact ⟨a, hat, hrest⟩
  · rintro ⟨a, hat, hpath⟩
    exact ⟨i, a, path, hat, hpath, by rw [Nat.zero_add]⟩

/-- The list has the ways to the variables and the calls, and no others. -/
theorem mem_sites_iff {e : Expr} {path : Path} :
    path ∈ e.sites ↔ ∃ s, e.at? path = some s ∧ s.isSite := by
  induction path generalizing e with
  | nil =>
    have hbelow : [] ∉ sitesAll 0 e.children := by
      intro hmem
      obtain ⟨j, a, rest, -, -, heq⟩ := mem_sitesAll_iff.mp hmem
      cases heq
    rw [sites_eq, List.mem_append, or_iff_right hbelow]
    simp [at?]
  | cons i path ih =>
    rw [cons_mem_sites_iff]
    constructor
    · rintro ⟨a, hat, hpath⟩
      obtain ⟨s, hs, hsite⟩ := ih.mp hpath
      exact ⟨s, by simp [at?, hat, hs], hsite⟩
    · rintro ⟨s, hs, hsite⟩
      obtain ⟨a, hat, hpath⟩ := Option.bind_eq_some_iff.mp hs
      exact ⟨a, hat, ih.mpr ⟨s, hpath, hsite⟩⟩

theorem nodup_sitesAll {i : Nat} {es : List Expr} (h : ∀ e ∈ es, e.sites.Nodup) :
    (sitesAll i es).Nodup := by
  induction es generalizing i with
  | nil => exact List.nodup_nil
  | cons e es ih =>
    refine List.nodup_append.mpr ⟨?first, ih fun a ha => h a (List.mem_cons_of_mem e ha), ?apart⟩
    case first =>
      exact List.pairwise_map.mpr
        ((h e List.mem_cons_self).imp fun hne heq => hne (List.cons.inj heq).2)
    case apart =>
      rintro _ hfirst path hrest rfl
      obtain ⟨_, -, hpath⟩ := List.mem_map.mp hfirst
      obtain ⟨j, a, rest, -, -, hother⟩ := mem_sitesAll_iff.mp hrest
      have hindex := (List.cons.inj (hpath.trans hother)).1
      omega

/-- The places of one of several expressions stand together among those of all. -/
theorem sublist_sitesAll {i d : Nat} {es : List Expr} {a : Expr} (hat : es[d]? = some a) :
    (a.sites.map ((i + d) :: ·)).Sublist (sitesAll i es) := by
  induction es generalizing i d with
  | nil => cases hat
  | cons e es ih =>
    cases d with
    | zero =>
      cases hat
      exact List.sublist_append_left ..
    | succ d =>
      have hrest := ih (i := i + 1) hat
      rw [Nat.add_right_comm] at hrest
      exact hrest.trans (List.sublist_append_right ..)

/-- No place is listed twice. -/
theorem nodup_sites (e : Expr) : e.sites.Nodup := by
  induction e using induction_children with
  | children e ih =>
    rw [sites_eq]
    refine List.nodup_append.mpr ⟨nodup_sitesAll ih, by split <;> simp, ?apart⟩
    case apart =>
      rintro path hbelow _ hown rfl
      obtain ⟨j, a, rest, -, -, rfl⟩ := mem_sitesAll_iff.mp hbelow
      split at hown <;> simp at hown

end Expr

end Reckon
