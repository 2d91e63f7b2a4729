import Unseal.Proofs.Selection.Packages
/-
  Segments — packages as rows of segments

  The dots of a name cut it into segments. Some of them are empty: in front of a
  dot that the name begins with, behind one that it ends with, and between two
  that meet. A package with a name covers those whose segments begin with its
  own. The root is apart from this, since a name that is empty is one empty
  segment, and the root covers every package.

  What is proved:
    1. `covers_iff_segments` — which package covers which, by segments.
    2. `depth_eq` — a package with a name is as deep as it has segments.
    3. `Covers.trans`, `Covers.antisymm`, `Covers.comparable` — to cover is an order,
       and the packages that cover one package are a chain in it.
    4. `covers_segmentwise` — all of this, and that inwards packages get deeper.
-/

namespace Unseal.Package

variable {p q r package : String}

/-- The segments of a name: what stands in front of each dot, and behind the last one. -/
def segments (package : String) : List (List Char) := package.toList.splitOn '.'

theorem intercalate_segments (package : String) :
    ['.'].intercalate (segments package) = package.toList :=
  List.intercalate_splitOn '.'

theorem segments_injective (h : segments p = segments q) : p = q := by
  apply String.toList_inj.1
  rw [← intercalate_segments p, ← intercalate_segments q, h]

theorem segments_ne_nil (package : String) : segments package ≠ [] :=
  List.splitOn_ne_nil '.' package.toList

theorem segments_append (outer rest : String) :
    segments (outer ++ "." ++ rest) = segments outer ++ segments rest := by
  have hchars : (outer ++ "." ++ rest).toList = outer.toList ++ '.' :: rest.toList :=
    toList_eq_append_iff.2 (by rw [String.ofList_toList])
  rw [segments, hchars, List.splitOn_append_cons_self]
  rfl

theorem intercalate_append {front behind : List (List Char)} (hfront : front ≠ [])
    (hbehind : behind ≠ []) :
    ['.'].intercalate (front ++ behind) =
      ['.'].intercalate front ++ '.' :: ['.'].intercalate behind := by
  induction front with
  | nil => exact absurd rfl hfront
  | cons first front ih =>
    by_cases hlast : front = []
    · subst hlast
      rw [List.singleton_append, List.intercalate_cons_of_ne_nil hbehind,
        List.intercalate_singleton, List.append_assoc, List.singleton_append]
    · have hmore : front ++ behind ≠ [] := by simp [hlast]
      rw [List.cons_append, List.intercalate_cons_of_ne_nil hmore, ih hlast,
        List.intercalate_cons_of_ne_nil hlast, List.append_assoc _ _ ('.' :: _)]

/-- A package with a name covers those whose segments begin with its own. -/
theorem covers_iff_segments (hp : p ≠ "") : covers p q = true ↔ segments p <+: segments q := by
  rw [covers_iff]
  refine ⟨?_, ?_⟩
  · rintro (hroot | rfl | ⟨rest, rfl⟩)
    · exact absurd hroot hp
    · exact List.prefix_rfl
    · rw [segments_append]
      exact List.prefix_append _ _
  · rintro ⟨more, hmore⟩
    by_cases hne : more = []
    · rw [hne, List.append_nil] at hmore
      exact .inr (.inl (segments_injective hmore))
    · -- What is behind the segments of the first name is the rest of the second.
      have hchars : q.toList = p.toList ++ '.' :: ['.'].intercalate more := by
        calc q.toList
            = ['.'].intercalate (segments p ++ more) := by rw [hmore, intercalate_segments]
          _ = ['.'].intercalate (segments p) ++ '.' :: ['.'].intercalate more :=
              intercalate_append (segments_ne_nil p) hne
          _ = p.toList ++ '.' :: ['.'].intercalate more := by rw [intercalate_segments]
      exact .inr (.inr ⟨_, toList_eq_append_iff.1 hchars⟩)

/-! ## Depth -/

theorem length_splitOn (name : List Char) : (name.splitOn '.').length = name.count '.' + 1 := by
  induction name with
  | nil => rfl
  | cons c name ih =>
    rw [List.splitOn_eq_splitOnP] at ih ⊢
    rw [List.splitOnP_cons_eq_if_modifyHead, List.count_cons]
    split <;> simp_all

/-- A package with a name is as deep as it has segments. -/
theorem depth_eq (package : String) :
    depth package = if package = "" then 0 else (segments package).length := by
  by_cases hroot : package = ""
  · subst hroot
    rfl
  · rw [depth, if_neg (by rwa [String.isEmpty_iff]), if_neg hroot, segments, length_splitOn]

/-! ## The order -/

theorem Covers.trans (h : Covers p q) (h' : Covers q r) : Covers p r := by
  rcases h with rfl | rfl | ⟨rest, rfl⟩
  · exact .inl rfl
  · exact h'
  · have hp : p ++ "." ++ rest ≠ "" := by
      intro hempty
      have hlength := congrArg String.length hempty
      simp at hlength
    rcases h' with hroot | rfl | ⟨more, rfl⟩
    · exact absurd hroot hp
    · exact .inr (.inr ⟨rest, rfl⟩)
    · exact .inr (.inr ⟨rest ++ "." ++ more, by simp only [String.append_assoc]⟩)

/-- Two packages that cover each other have names of one length, so they are the same. -/
theorem Covers.antisymm (h : Covers p q) (h' : Covers q p) : p = q := by
  by_cases hne : p = q
  · exact hne
  · have hlt := (h.lt hne).1
    have hlt' := (h'.lt (Ne.symm hne)).1
    omega

/-- Of two packages that cover one, one covers the other. -/
theorem Covers.comparable (hp : Covers p package) (hq : Covers q package) :
    Covers p q ∨ Covers q p := by
  rcases Nat.le_total p.length q.length with hle | hle
  · exact .inl (hp.of_length_le hq hle)
  · exact .inr (hq.of_length_le hp hle)

/-- To cover is to have the first segments, for a package with a name. It is an order with the root as
its least package; the packages that cover one are a chain in it; and inwards packages get deeper, by
the number of segments. -/
theorem covers_segmentwise (p q r : String) :
    (p ≠ "" → (covers p q = true ↔ segments p <+: segments q)) ∧
    covers "" q = true ∧
    covers p p = true ∧
    (covers p q = true → covers q r = true → covers p r = true) ∧
    (covers p q = true → covers q p = true → p = q) ∧
    (covers p r = true → covers q r = true → covers p q = true ∨ covers q p = true) ∧
    (covers p q = true → p ≠ q → depth p < depth q) ∧
    depth p = if p = "" then 0 else (segments p).length := by
  refine ⟨covers_iff_segments, rfl, covers_iff.2 (.inr (.inl rfl)), ?_, ?_, ?_, ?_, depth_eq p⟩
  · intro hpq hqr
    exact covers_iff.2 ((covers_iff.1 hpq).trans (covers_iff.1 hqr))
  · intro hpq hqp
    exact (covers_iff.1 hpq).antisymm (covers_iff.1 hqp)
  · intro hp hq
    rw [covers_iff, covers_iff]
    exact (covers_iff.1 hp).comparable (covers_iff.1 hq)
  · intro hpq hne
    exact ((covers_iff.1 hpq).lt hne).2

/-- A name that ends with a dot has an empty segment at its end, and goes on in one with two dots. -/
theorem dottedNames_segmentwise : segments "a." = [['a'], []] ∧ covers "a." "a..b" = true ∧
    covers "a." "a.b" = false ∧ depth "a." < depth "a..b" := by
  have hcovers : covers "a." "a..b" = true := by decide
  have hother : covers "a." "a.b" = false := by decide
  exact ⟨by decide, hcovers, hother,
    (covers_segmentwise "a." "a..b" "").2.2.2.2.2.2.1 hcovers (by decide)⟩

end Unseal.Package
