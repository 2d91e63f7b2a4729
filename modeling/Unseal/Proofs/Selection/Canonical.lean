import Unseal.Proofs.Selection.Rules
/-
  Selection rules — one answer to one set of rules

  With subpackages the rules take the first chosen package, in the order of names,
  that no excluded one takes back. All packages around one class lie inside each
  other, and the name of a package comes before the names of those inside it, so
  the first is the shortest, and no other one is as short. What the rules answer is
  therefore told by which names stand in their lists, and not by the order in which
  they stand there or by how often one of them does.

  What is proved:
    1. `leastText_eq_some_iff` — the least text of a list, by its members.
    2. `Covers.le` — a package comes before those that it covers.
    3. `coveringPackage?_eq_some_iff` — the package that is found is the shortest
       that opens the classes of a package.
    4. `decide_canonical` — the same names give the same answer, and the package in
       it is the shortest.
-/

namespace Unseal

/-! ## The least text -/

theorem leastText_spec {texts : List String} {s : String} (h : leastText texts = some s) :
    s ∈ texts ∧ ∀ t ∈ texts, s ≤ t := by
  induction texts generalizing s with
  | nil => cases h
  | cons a rest ih =>
    rw [leastText] at h
    cases hrest : leastText rest with
    | none =>
      obtain rfl : rest = [] := leastText_eq_none_iff.1 hrest
      simp only [leastText, Option.some.injEq] at h
      subst h
      simp
    | some t =>
      obtain ⟨hmem, hleast⟩ := ih hrest
      simp only [hrest] at h
      split at h
      · next hlt =>
        obtain rfl : t = s := Option.some.inj h
        have hle : t ≤ a := String.not_lt.1 (String.lt_asymm hlt)
        exact ⟨List.mem_cons_of_mem _ hmem, List.forall_mem_cons.2 ⟨hle, hleast⟩⟩
      · next hnot =>
        obtain rfl : a = s := Option.some.inj h
        have hle : a ≤ t := String.not_lt.1 hnot
        refine ⟨List.mem_cons_self, List.forall_mem_cons.2 ⟨String.le_refl a, ?_⟩⟩
        intro u hu
        exact String.le_trans hle (hleast u hu)

theorem leastText_eq_some_iff {texts : List String} {s : String} :
    leastText texts = some s ↔ s ∈ texts ∧ ∀ t ∈ texts, s ≤ t := by
  refine ⟨leastText_spec, ?_⟩
  intro h
  obtain ⟨hmem, hleast⟩ := h
  cases hfound : leastText texts with
  | none =>
    rw [leastText_eq_none_iff.1 hfound] at hmem
    cases hmem
  | some t =>
    obtain ⟨ht, hleast'⟩ := leastText_spec hfound
    rw [String.le_antisymm (hleast t ht) (hleast' s hmem)]

theorem leastText_congr {texts texts' : List String} (h : ∀ t, t ∈ texts ↔ t ∈ texts') :
    leastText texts = leastText texts' := by
  apply Option.ext
  intro s
  simp only [leastText_eq_some_iff, h]

/-! ## The shortest package -/

/-- A package comes before those that it covers. -/
theorem Package.Covers.le {outer inner : String} (h : Covers outer inner) : outer ≤ inner := by
  have hbehind : ∀ rest : String, outer ≤ outer ++ rest := by
    intro rest
    have hle := @List.le_append_left Char _ _ outer.toList rest.toList
    rw [← String.toList_append] at hle
    exact hle
  rcases h with rfl | rfl | ⟨rest, rfl⟩
  · exact List.nil_le inner.toList
  · exact String.le_refl outer
  · rw [String.append_assoc]
    exact hbehind ("." ++ rest)

namespace Rules

open Package

variable {r r' : Rules} {name package p : String}

/-- The package is chosen, covers the other and is longer than every excluded package that does. -/
structure Opens (r : Rules) (p package : String) : Prop where
  chosen : p ∈ r.packages
  covers : Covers p package
  longer : ∀ e ∈ r.excludedPackages, Covers e package → e.length < p.length

/-- The same names stand in the lists of both rules, and both take subpackages alike. -/
structure SameNames (r r' : Rules) : Prop where
  classes : ∀ x, x ∈ r.classes ↔ x ∈ r'.classes
  excludedClasses : ∀ x, x ∈ r.excludedClasses ↔ x ∈ r'.excludedClasses
  packages : ∀ x, x ∈ r.packages ↔ x ∈ r'.packages
  excludedPackages : ∀ x, x ∈ r.excludedPackages ↔ x ∈ r'.excludedPackages
  includeSubpackages : r.includeSubpackages = r'.includeSubpackages

theorem mem_filter_survives : p ∈ r.packages.filter (r.survives package) ↔ r.Opens p package := by
  rw [List.mem_filter, survives_iff]
  refine ⟨?_, ?_⟩
  · intro h
    obtain ⟨hmem, hcovers, hlonger⟩ := h
    exact ⟨hmem, hcovers, hlonger⟩
  · intro h
    exact ⟨h.chosen, h.covers, h.longer⟩

theorem Opens.covers_of_le {q : String} (hp : r.Opens p package) (hq : r.Opens q package)
    (hle : p ≤ q) : Covers p q := by
  rcases Nat.le_total p.length q.length with hlength | hlength
  · exact hp.covers.of_length_le hq.covers hlength
  · have hqp : Covers q p := hq.covers.of_length_le hp.covers hlength
    obtain rfl : p = q := String.le_antisymm hle hqp.le
    exact hqp

/-- The package that is found is the shortest that opens the classes of a package. -/
theorem coveringPackage?_eq_some_iff : r.coveringPackage? package = some p ↔
    r.Opens p package ∧ ∀ q, r.Opens q package → q ≠ p → Covers p q ∧ p.length < q.length := by
  rw [coveringPackage?, leastText_eq_some_iff]
  simp only [mem_filter_survives]
  refine and_congr_right fun hp => ⟨?_, ?_⟩
  · intro hleast q hq hne
    have hcovers : Covers p q := hp.covers_of_le hq (hleast q hq)
    exact ⟨hcovers, (hcovers.lt (Ne.symm hne)).1⟩
  · intro hshortest q hq
    by_cases hne : q = p
    · exact hne ▸ String.le_refl q
    · exact (hshortest q hq hne).1.le

theorem SameNames.symm (h : r.SameNames r') : r'.SameNames r where
  classes x := (h.classes x).symm
  excludedClasses x := (h.excludedClasses x).symm
  packages x := (h.packages x).symm
  excludedPackages x := (h.excludedPackages x).symm
  includeSubpackages := h.includeSubpackages.symm

theorem Opens.of_sameNames (hp : r.Opens p package) (h : r.SameNames r') : r'.Opens p package where
  chosen := (h.packages p).1 hp.chosen
  covers := hp.covers
  longer e he := hp.longer e ((h.excludedPackages e).2 he)

theorem SameNames.coveringPackage? (h : r.SameNames r') :
    r.coveringPackage? package = r'.coveringPackage? package := by
  apply leastText_congr
  intro q
  rw [mem_filter_survives, mem_filter_survives]
  exact ⟨fun hq => hq.of_sameNames h, fun hq => hq.of_sameNames h.symm⟩

theorem SameNames.decide (h : r.SameNames r') : r.decide name package = r'.decide name package := by
  have hcontains : ∀ {xs ys : List String}, (∀ x, x ∈ xs ↔ x ∈ ys) →
      ∀ x, xs.contains x = ys.contains x := by
    intro xs ys hsame x
    rw [Bool.eq_iff_iff, List.contains_iff_mem, List.contains_iff_mem, hsame]
  simp only [Rules.decide, hcontains h.excludedClasses, hcontains h.packages, hcontains h.classes,
    h.coveringPackage?, h.includeSubpackages]

theorem decide_eq_coveringPackage_iff : r.decide name package = .coveringPackage p ↔
    name ∉ r.excludedClasses ∧ r.includeSubpackages = true ∧
      r.coveringPackage? package = some p := by
  rcases decide_cases r name package with ⟨hexcluded, hrule⟩ | ⟨hname, hsub, q, hcovering, hrule⟩ |
    ⟨hname, hsub, _, hrule⟩ | ⟨hname, hcovering, _, hrule⟩
  · simp [hrule, hexcluded]
  · simp [hrule, hname, hsub, hcovering]
  · simp [hrule, hsub]
  · have hother : r.decide name package ≠ .coveringPackage p := by
      rw [hrule]
      split <;> simp
    refine iff_of_false hother fun h => ?_
    rw [hcovering h.2.1] at h
    cases h.2.2

/-- What the rules answer is told by the names in their lists, and the package in an answer is the
shortest that opens the classes of the package asked about. -/
theorem decide_canonical (name package : String) :
    (∀ r r' : Rules, r.SameNames r' → r.decide name package = r'.decide name package) ∧
    ∀ (r : Rules) (p : String), r.decide name package = .coveringPackage p ↔
      name ∉ r.excludedClasses ∧ r.includeSubpackages = true ∧ r.Opens p package ∧
        ∀ q, r.Opens q package → q ≠ p → Covers p q ∧ p.length < q.length := by
  refine ⟨fun r r' h => h.decide, fun r p => ?_⟩
  rw [decide_eq_coveringPackage_iff, coveringPackage?_eq_some_iff]

/-- Two packages around `a.b`, the outer one twice, and the root excluded. -/
def outerTwice : Rules where
  classes := []
  excludedClasses := []
  packages := ["a.b", "a", "a"]
  excludedPackages := [""]
  includeSubpackages := true

/-- The same names in another order, each as often as the other. -/
def outerFirst : Rules := { outerTwice with packages := ["a", "a.b"] }

theorem outerTwice_decide : outerTwice.SameNames outerFirst ∧
    outerTwice.decide "a.b.C" "a.b" = outerFirst.decide "a.b.C" "a.b" ∧
    outerTwice.decide "a.b.C" "a.b" = .coveringPackage "a" ∧
    outerTwice.Opens "a.b" "a.b" ∧ "a".length < "a.b".length := by
  obtain ⟨hsame, hshortest⟩ := decide_canonical "a.b.C" "a.b"
  have hnames : outerTwice.SameNames outerFirst := by
    refine ⟨by simp [outerFirst], by simp [outerFirst], ?_, by simp [outerFirst], rfl⟩
    intro x
    simp only [outerTwice, outerFirst, List.mem_cons, List.not_mem_nil, or_false]
    grind
  have hinner : outerTwice.Opens "a.b" "a.b" := by
    refine ⟨by decide, .inr (.inl rfl), ?_⟩
    intro e he _
    obtain rfl : e = "" := List.mem_singleton.1 he
    decide
  have hanswer : outerTwice.decide "a.b.C" "a.b" = .coveringPackage "a" := by decide
  obtain ⟨_, _, _, houtside⟩ := (hshortest outerTwice "a").1 hanswer
  exact ⟨hnames, hsame _ _ hnames, hanswer, hinner, (houtside "a.b" hinner (by decide)).2⟩

end Rules

end Unseal
