import Unseal.Proofs.Selection.Rules
/-
  Selection rules — more rules

  Rules are added to rules: those of the command line to those of a file. A class
  that is included stays so when more classes and packages are chosen, and one that
  is not included stays so when more of them are excluded. The package that decides
  may be another one afterwards; what stays is that there is one. To include
  subpackages opens more classes as long as no package is excluded: without
  subpackages the excluded packages do not count, and with them they do.

  What is proved:
    1. `Widens.merge` — rules that are at least as wide stay so when others that
       are at least as wide are added.
    2. `Widens.isIncluded`, `isIncluded_withSubpackages` — a class that is included
       stays so under wider rules, and with subpackages.
    3. `decide_merge_mono` — what more rules do to what is included.
-/

namespace Unseal.Rules

open Package

variable {r r' : Rules} {name package : String}

/-- The second rules choose at least what the first choose, exclude at most what those exclude,
and take subpackages alike. -/
structure Widens (r r' : Rules) : Prop where
  classes : r.classes ⊆ r'.classes
  excludedClasses : r'.excludedClasses ⊆ r.excludedClasses
  packages : r.packages ⊆ r'.packages
  excludedPackages : r'.excludedPackages ⊆ r.excludedPackages
  includeSubpackages : r'.includeSubpackages = r.includeSubpackages

/-- The second rules are the first with more classes and packages chosen. -/
structure ChoosesMore (r r' : Rules) : Prop where
  classes : r.classes ⊆ r'.classes
  packages : r.packages ⊆ r'.packages
  sameElse : r' = { r with classes := r'.classes, packages := r'.packages }

/-- The second rules are the first with more classes and packages excluded. -/
structure ExcludesMore (r r' : Rules) : Prop where
  excludedClasses : r.excludedClasses ⊆ r'.excludedClasses
  excludedPackages : r.excludedPackages ⊆ r'.excludedPackages
  sameElse : r' = { r with
    excludedClasses := r'.excludedClasses
    excludedPackages := r'.excludedPackages }

/-- The rules with subpackages. -/
def withSubpackages (r : Rules) : Rules := { r with includeSubpackages := true }

theorem ChoosesMore.widens (h : r.ChoosesMore r') : r.Widens r' := by
  obtain ⟨hclasses, hpackages, hsame⟩ := h
  rw [hsame]
  exact ⟨hclasses, List.Subset.refl _, hpackages, List.Subset.refl _, rfl⟩

theorem ExcludesMore.widens (h : r.ExcludesMore r') : r'.Widens r := by
  obtain ⟨hclasses, hpackages, hsame⟩ := h
  rw [hsame]
  exact ⟨List.Subset.refl _, hclasses, List.Subset.refl _, hpackages, rfl⟩

theorem append_subset_append {xs xs' ys ys' : List String} (hx : xs ⊆ xs') (hy : ys ⊆ ys') :
    xs ++ ys ⊆ xs' ++ ys' :=
  List.append_subset.2 ⟨List.subset_append_of_subset_left ys' hx,
    List.subset_append_of_subset_right xs' hy⟩

/-- Rules that are at least as wide stay so when others that are at least as wide are added. -/
theorem Widens.merge {config config' args args' : Rules} (hconfig : config.Widens config')
    (hargs : args.Widens args') : (config.merge args).Widens (config'.merge args') where
  classes := append_subset_append hconfig.classes hargs.classes
  excludedClasses := append_subset_append hconfig.excludedClasses hargs.excludedClasses
  packages := append_subset_append hconfig.packages hargs.packages
  excludedPackages := append_subset_append hconfig.excludedPackages hargs.excludedPackages
  includeSubpackages := by
    rw [Rules.merge, Rules.merge, hconfig.includeSubpackages, hargs.includeSubpackages]

/-- What is included stays so under wider rules. -/
theorem Widens.isIncluded (h : r.Widens r') (hincluded : (r.decide name package).isIncluded = true) :
    (r'.decide name package).isIncluded = true := by
  obtain ⟨hname, hchosen⟩ := isIncluded_iff.1 hincluded
  refine isIncluded_iff.2 ⟨fun hexcluded => hname (h.excludedClasses hexcluded), ?_⟩
  rw [h.includeSubpackages]
  rcases hchosen with hclass | ⟨hexact, hpackage⟩ | ⟨hsub, p, hp, hcovers, hlonger⟩
  · exact .inl (h.classes hclass)
  · exact .inr (.inl ⟨hexact, h.packages hpackage⟩)
  · refine .inr (.inr ⟨hsub, p, h.packages hp, hcovers, ?_⟩)
    intro e he hecovers
    exact hlonger e (h.excludedPackages he) hecovers

/-- Where no package is excluded, what is included stays so with subpackages. -/
theorem isIncluded_withSubpackages (hnone : r.excludedPackages = [])
    (hincluded : (r.decide name package).isIncluded = true) :
    (r.withSubpackages.decide name package).isIncluded = true := by
  obtain ⟨hname, hchosen⟩ := isIncluded_iff.1 hincluded
  -- Every chosen package is longer than all excluded ones, for there are none.
  have hlonger : ∀ p : String, ∀ e ∈ r.excludedPackages, Covers e package → e.length < p.length := by
    intro p e he
    rw [hnone] at he
    cases he
  refine isIncluded_iff.2 ⟨hname, ?_⟩
  rcases hchosen with hclass | ⟨_, hpackage⟩ | ⟨_, p, hp, hcovers, _⟩
  · exact .inl hclass
  · exact .inr (.inr ⟨rfl, package, hpackage, .inr (.inl rfl), hlonger package⟩)
  · exact .inr (.inr ⟨rfl, p, hp, hcovers, hlonger p⟩)

theorem merge_withSubpackages (config args : Rules) :
    config.withSubpackages.merge args = (config.merge args).withSubpackages ∧
      config.merge args.withSubpackages = (config.merge args).withSubpackages := by
  simp [merge, withSubpackages]

/-- More chosen names take no class back and more excluded ones open none, in the rules of a file
and in those added to them; where no package is excluded, subpackages take no class back. -/
theorem decide_merge_mono (config args : Rules) (name package : String) :
    (∀ config' args', config.ChoosesMore config' → args.ChoosesMore args' →
      ((config.merge args).decide name package).isIncluded = true →
      ((config'.merge args').decide name package).isIncluded = true) ∧
    (∀ config' args', config.ExcludesMore config' → args.ExcludesMore args' →
      ((config.merge args).decide name package).isIncluded = false →
      ((config'.merge args').decide name package).isIncluded = false) ∧
    ((config.merge args).excludedPackages = [] →
      ((config.merge args).decide name package).isIncluded = true →
      ((config.withSubpackages.merge args).decide name package).isIncluded = true ∧
        ((config.merge args.withSubpackages).decide name package).isIncluded = true) := by
  refine ⟨?_, ?_, ?_⟩
  · intro config' args' hconfig hargs hincluded
    exact (hconfig.widens.merge hargs.widens).isIncluded hincluded
  · intro config' args' hconfig hargs hleft
    rw [Bool.eq_false_iff] at hleft ⊢
    intro hincluded
    exact hleft ((hconfig.widens.merge hargs.widens).isIncluded hincluded)
  · intro hnone hincluded
    have hwider := isIncluded_withSubpackages hnone hincluded
    obtain ⟨hfile, hadded⟩ := merge_withSubpackages config args
    rw [hfile, hadded]
    exact ⟨hwider, hwider⟩

/-- Rules that choose `a` and exclude `a.b` inside it. -/
def outerWithoutInner : Rules where
  classes := []
  excludedClasses := []
  packages := ["a"]
  excludedPackages := ["a.b"]
  includeSubpackages := true

/-- The same rules, and the root chosen beside `a`. -/
def outerAndRoot : Rules := { outerWithoutInner with packages := ["a", ""] }

/-- The same rules, and `c` excluded beside `a.b`. -/
def outerWithoutMore : Rules := { outerWithoutInner with excludedPackages := ["a.b", "c"] }

/-- The package that decides is another one after the root is chosen, but `a.C` stays included. -/
theorem outerWithoutInner_mono :
    (outerWithoutInner.merge .none).decide "a.C" "a" = .coveringPackage "a" ∧
    (outerAndRoot.merge .none).decide "a.C" "a" = .coveringPackage "" ∧
    ((outerAndRoot.merge .none).decide "a.C" "a").isIncluded = true ∧
    ((outerWithoutMore.merge .none).decide "a.b.C" "a.b").isIncluded = false ∧
    ((Rules.none.withSubpackages.merge { Rules.none with packages := ["a"] }).decide
      "a.C" "a").isIncluded = true := by
  have hchosen : outerWithoutInner.ChoosesMore outerAndRoot := ⟨by decide, by decide, rfl⟩
  have hexcluded : outerWithoutInner.ExcludesMore outerWithoutMore := ⟨by decide, by decide, rfl⟩
  have hsame : ChoosesMore .none .none := ⟨List.Subset.refl _, List.Subset.refl _, rfl⟩
  have hsame' : ExcludesMore .none .none := ⟨List.Subset.refl _, List.Subset.refl _, rfl⟩
  refine ⟨by decide, by decide, ?_, ?_, ?_⟩
  · apply (decide_merge_mono outerWithoutInner .none "a.C" "a").1 _ _ hchosen hsame
    decide
  · apply (decide_merge_mono outerWithoutInner .none "a.b.C" "a.b").2.1 _ _ hexcluded hsame'
    decide
  · have hwith := (decide_merge_mono .none { Rules.none with packages := ["a"] } "a.C" "a").2.2
    exact (hwith rfl (by decide)).1

/-- Where a package is excluded, subpackages can take back a class that was included. -/
example :
    let r := { Rules.none with packages := ["a"], excludedPackages := ["a"] }
    (r.decide "a.C" "a").isIncluded = true ∧
      (r.withSubpackages.decide "a.C" "a").isIncluded = false := by decide

end Unseal.Rules
