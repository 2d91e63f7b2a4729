import Unseal.Selection.Rules
import Unseal.Proofs.Selection.Packages
/-
  Selection rules — the longest package decides

  With subpackages the rules look for a chosen package of which no excluded one
  takes a class back, and compare packages by their parts. All packages that
  count cover the package of the class, so this is to compare the longest chosen
  package around the class with the longest excluded one: the class is included
  exactly if the chosen one is longer.

  What is proved:
    1. `survives_iff` — a chosen package opens a class exactly if it covers it and
       is longer than every excluded package that does.
    2. `coveringPackage?_isSome_iff` — there is one exactly if the longest chosen
       package is longer than the longest excluded one.
    3. `decide_cases` — which rule applies.
    4. `isIncluded_iff`, `decide_isIncluded_iff` — which classes are included.
-/

namespace Unseal

theorem leastText_eq_none_iff {texts : List String} : leastText texts = none ↔ texts = [] := by
  cases texts with
  | nil => simp [leastText]
  | cons s rest =>
    simp only [leastText, reduceCtorEq, iff_false]
    cases leastText rest with
    | none => simp
    | some t =>
      dsimp only
      split <;> simp

/-- The length of the longest of the packages that cover a package. -/
def Package.longestAround (packages : List String) (package : String) : Option Nat :=
  ((packages.filter (covers · package)).map String.length).max?

theorem Package.longestAround_eq_none_iff {packages : List String} {package : String} :
    longestAround packages package = none ↔ ∀ p ∈ packages, ¬ Covers p package := by
  simp [longestAround, List.max?_eq_none_iff, covers_iff]

theorem Package.longestAround_eq_some_iff {packages : List String} {package : String} {n : Nat} :
    longestAround packages package = some n ↔
      (∃ p ∈ packages, Covers p package ∧ p.length = n) ∧
        ∀ p ∈ packages, Covers p package → p.length ≤ n := by
  have hmem : ∀ k, k ∈ (packages.filter (covers · package)).map String.length ↔
      ∃ p ∈ packages, Covers p package ∧ p.length = k := by
    simp [covers_iff, and_assoc]
  simp only [longestAround, List.max?_eq_some_iff, hmem]
  refine and_congr_right fun _ => ⟨fun h p hp hcovers => h _ ⟨p, hp, hcovers, rfl⟩, ?_⟩
  rintro h _ ⟨p, hp, hcovers, rfl⟩
  exact h p hp hcovers

namespace Rules

open Package

variable {r : Rules} {name package chosen : String}

/-- A chosen package opens the classes of a package exactly if it covers it and is longer than
every excluded package that does. -/
theorem survives_iff : r.survives package chosen = true ↔ Covers chosen package ∧
    ∀ e ∈ r.excludedPackages, Covers e package → e.length < chosen.length := by
  have hlist : r.excludedPackages.contains chosen = true ↔ chosen ∈ r.excludedPackages := by simp
  have hover : r.overrides chosen package = true ↔ ∃ e ∈ r.excludedPackages,
      depth chosen ≤ depth e ∧ Covers e package := by
    simp [overrides, covers_iff]
  rw [survives, Bool.and_eq_true, Bool.and_eq_true, Bool.not_eq_true', Bool.not_eq_true',
    ← Bool.not_eq_true, ← Bool.not_eq_true, hlist, hover, covers_iff]
  refine ⟨?_, ?_⟩
  · rintro ⟨⟨_, hcovers⟩, hfree⟩
    refine ⟨hcovers, fun e he hecovers => ?_⟩
    apply Nat.lt_of_not_le
    intro hle
    exact hfree ⟨e, he, (depth_le_iff hcovers hecovers).2 hle, hecovers⟩
  · rintro ⟨hcovers, hlonger⟩
    refine ⟨⟨fun hmem => ?_, hcovers⟩, ?_⟩
    -- A package that is also excluded is not longer than itself.
    · exact Nat.lt_irrefl _ (hlonger chosen hmem hcovers)
    · rintro ⟨e, he, hdepth, hecovers⟩
      have := hlonger e he hecovers
      have := (depth_le_iff hcovers hecovers).1 hdepth
      omega

/-- Some chosen package opens the classes of a package exactly if the scan for the first one
finds any. -/
theorem coveringPackage?_isSome_iff : (r.coveringPackage? package).isSome = true ↔
    ∃ p ∈ r.packages, Covers p package ∧
      ∀ e ∈ r.excludedPackages, Covers e package → e.length < p.length := by
  rw [coveringPackage?, ← Option.ne_none_iff_isSome, ne_eq, leastText_eq_none_iff,
    List.filter_eq_nil_iff]
  simp only [survives_iff, Classical.not_forall, Classical.not_not, exists_prop]

theorem longest_iff : (∃ p ∈ r.packages, Covers p package ∧
      ∀ e ∈ r.excludedPackages, Covers e package → e.length < p.length) ↔
    ∃ n, longestAround r.packages package = some n ∧
      ∀ m, longestAround r.excludedPackages package = some m → m < n := by
  refine ⟨?_, ?_⟩
  · rintro ⟨p, hp, hcovers, hlonger⟩
    cases hlongest : longestAround r.packages package with
    | none => exact absurd hcovers (longestAround_eq_none_iff.1 hlongest p hp)
    | some n =>
      refine ⟨n, rfl, fun m hm => ?_⟩
      obtain ⟨⟨e, he, hecovers, rfl⟩, _⟩ := longestAround_eq_some_iff.1 hm
      exact Nat.lt_of_lt_of_le (hlonger e he hecovers)
        ((longestAround_eq_some_iff.1 hlongest).2 p hp hcovers)
  · rintro ⟨n, hn, hlonger⟩
    obtain ⟨⟨p, hp, hcovers, rfl⟩, _⟩ := longestAround_eq_some_iff.1 hn
    refine ⟨p, hp, hcovers, fun e he hecovers => ?_⟩
    cases hlongest : longestAround r.excludedPackages package with
    | none => exact absurd hecovers (longestAround_eq_none_iff.1 hlongest e he)
    | some m =>
      exact Nat.lt_of_le_of_lt ((longestAround_eq_some_iff.1 hlongest).2 e he hecovers)
        (hlonger m hlongest)

/-- The rule that applies: an exclusion by name, then a package, then a choice by name. -/
theorem decide_cases (r : Rules) (name package : String) :
    (name ∈ r.excludedClasses ∧ r.decide name package = .excludedClass) ∨
    (name ∉ r.excludedClasses ∧ r.includeSubpackages = true ∧
      ∃ p, r.coveringPackage? package = some p ∧ r.decide name package = .coveringPackage p) ∨
    (name ∉ r.excludedClasses ∧ r.includeSubpackages = false ∧ package ∈ r.packages ∧
      r.decide name package = .exactPackage package) ∨
    (name ∉ r.excludedClasses ∧
      (r.includeSubpackages = true → r.coveringPackage? package = Option.none) ∧
      (r.includeSubpackages = false → package ∉ r.packages) ∧
      r.decide name package = if name ∈ r.classes then .includedClass else .noMatch) := by
  by_cases hexcluded : name ∈ r.excludedClasses
  · simp [decide, hexcluded]
  · cases hsub : r.includeSubpackages with
    | true => cases hcovering : r.coveringPackage? package <;> simp [decide, hexcluded, hsub, hcovering]
    | false => by_cases hpackage : package ∈ r.packages <;> simp [decide, hexcluded, hsub, hpackage]

/-- A class is included exactly if it is not excluded by name and is chosen by name, by its package
or, with subpackages, by a package that is longer than all excluded ones around it. -/
theorem isIncluded_iff : (r.decide name package).isIncluded = true ↔ name ∉ r.excludedClasses ∧
    (name ∈ r.classes ∨
      (r.includeSubpackages = false ∧ package ∈ r.packages) ∨
      (r.includeSubpackages = true ∧ ∃ p ∈ r.packages, Covers p package ∧
        ∀ e ∈ r.excludedPackages, Covers e package → e.length < p.length)) := by
  rw [← coveringPackage?_isSome_iff]
  rcases decide_cases r name package with ⟨hexcluded, hrule⟩ | ⟨hname, hsub, p, hcovering, hrule⟩ |
    ⟨hname, hsub, hpackage, hrule⟩ | ⟨hname, hcovering, hpackage, hrule⟩
  · simp [hrule, hexcluded, Decision.isIncluded]
  · simp [hrule, hname, hsub, hcovering, Decision.isIncluded]
  · simp [hrule, hname, hsub, hpackage, Decision.isIncluded]
  · -- No package opens the class, so its own name decides.
    by_cases hclass : name ∈ r.classes
    · simp [hrule, hname, hclass, Decision.isIncluded]
    · cases hsub : r.includeSubpackages with
      | true => simp [hrule, hname, hclass, hcovering hsub, Decision.isIncluded]
      | false => simp [hrule, hname, hclass, hpackage hsub, Decision.isIncluded]

/-- A class is included exactly if it is not excluded by name and is chosen by name, by its package
or, with subpackages, by the longest package around it that the rules name. -/
theorem decide_isIncluded_iff :
    ((r.decide name package).isIncluded = true ↔ name ∉ r.excludedClasses ∧
      (name ∈ r.classes ∨
        (r.includeSubpackages = false ∧ package ∈ r.packages) ∨
        (r.includeSubpackages = true ∧ ∃ p ∈ r.packages, Covers p package ∧
          ∀ e ∈ r.excludedPackages, Covers e package → e.length < p.length))) ∧
    ((r.coveringPackage? package).isSome = true ↔
      ∃ n, longestAround r.packages package = some n ∧
        ∀ m, longestAround r.excludedPackages package = some m → m < n) :=
  ⟨isIncluded_iff, coveringPackage?_isSome_iff.trans longest_iff⟩

/-- Of two packages of one name the excluded one wins. -/
example : ({ Rules.none with
    packages := ["a", "a.b"]
    excludedPackages := ["a.b"]
    includeSubpackages := true }).decide "a.b.C" "a.b" = .noMatch := by decide

end Rules

end Unseal
