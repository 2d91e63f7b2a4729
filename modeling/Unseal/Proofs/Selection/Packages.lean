import Unseal.Selection.Rules
/-
  Packages — the packages around one package

  A package covers another if it is the root, the same, or goes on in it with a
  dot. The packages that cover one package lie inside each other, and on the way
  inwards their names get longer and their parts get more. So to compare two of
  them by their parts is to compare them by their names, whatever dots the names
  begin or end with and however often two of them meet.

  What is proved:
    1. `covers_iff` — which package covers which.
    2. `Covers.of_length_le` — of two packages that cover one, the shorter covers
       the longer.
    3. `depth_le_iff` — of two packages that cover one, the deeper is the longer.
-/

namespace Unseal.Package

/-- The package is the root, the same as the other, or goes on in it with a dot. -/
def Covers (outer inner : String) : Prop :=
  outer = "" ∨ outer = inner ∨ ∃ rest, inner = outer ++ "." ++ rest

theorem coversChars_iff {outer inner : List Char} :
    coversChars outer inner = true ↔ outer = inner ∨ ∃ rest, inner = outer ++ '.' :: rest := by
  induction outer generalizing inner with
  | nil => cases inner <;> simp [coversChars, eq_comm]
  | cons a outer ih =>
    cases inner with
    | nil => simp [coversChars]
    | cons b inner =>
      simp only [coversChars, Bool.and_eq_true, decide_eq_true_eq, ih, List.cons_append,
        List.cons.injEq]
      refine ⟨?_, ?_⟩
      · rintro ⟨rfl, rfl | ⟨rest, rfl⟩⟩
        · exact .inl ⟨rfl, rfl⟩
        · exact .inr ⟨rest, rfl, rfl⟩
      · rintro (⟨rfl, rfl⟩ | ⟨rest, rfl, rfl⟩)
        · exact ⟨rfl, .inl rfl⟩
        · exact ⟨rfl, .inr ⟨rest, rfl⟩⟩

theorem coversChars_of_length_le {p q name : List Char} (hp : coversChars p name = true)
    (hq : coversChars q name = true) (hle : p.length ≤ q.length) : coversChars p q = true := by
  induction p generalizing q name with
  | nil =>
    cases q with
    | nil => rfl
    | cons b q =>
      cases name with
      | nil => simp [coversChars] at hq
      | cons c name =>
        simp only [coversChars, Bool.and_eq_true, decide_eq_true_eq] at hp hq ⊢
        exact hq.1.trans hp
  | cons a p ih =>
    cases q with
    | nil => simp at hle
    | cons b q =>
      cases name with
      | nil => simp [coversChars] at hp
      | cons c name =>
        simp only [coversChars, Bool.and_eq_true, decide_eq_true_eq] at hp hq ⊢
        exact ⟨hp.1.trans hq.1.symm, ih hp.2 hq.2 (Nat.le_of_succ_le_succ hle)⟩

theorem toList_eq_append_iff {outer inner : String} {rest : List Char} :
    inner.toList = outer.toList ++ '.' :: rest ↔ inner = outer ++ "." ++ String.ofList rest := by
  have hdot : ".".toList = ['.'] := rfl
  rw [← String.toList_inj, String.toList_append, String.toList_append, hdot, String.toList_ofList,
    List.append_assoc, List.singleton_append]

theorem coversChars_toList_iff {outer inner : String} :
    coversChars outer.toList inner.toList = true ↔
      outer = inner ∨ ∃ rest, inner = outer ++ "." ++ rest := by
  rw [coversChars_iff, String.toList_inj]
  refine or_congr_right ⟨?_, ?_⟩
  · rintro ⟨rest, h⟩
    exact ⟨_, toList_eq_append_iff.1 h⟩
  · rintro ⟨rest, h⟩
    refine ⟨rest.toList, toList_eq_append_iff.2 ?_⟩
    rw [h, String.ofList_toList]

theorem covers_iff {outer inner : String} : covers outer inner = true ↔ Covers outer inner := by
  rw [covers, Bool.or_eq_true, String.isEmpty_iff, coversChars_toList_iff, Covers]

/-- Of two packages that cover one, the shorter covers the longer. -/
theorem Covers.of_length_le {p q package : String} (hp : Covers p package) (hq : Covers q package)
    (hle : p.length ≤ q.length) : Covers p q := by
  rcases hp with rfl | hp
  · exact .inl rfl
  · rcases hq with rfl | hq
    -- Nothing but the root is as short as the root.
    · have hroot : p = "" := String.length_eq_zero_iff.1 (Nat.le_zero.1 hle)
      exact .inl hroot
    · refine .inr (coversChars_toList_iff.1 ?_)
      rw [← String.length_toList, ← String.length_toList] at hle
      exact coversChars_of_length_le (coversChars_toList_iff.2 hp) (coversChars_toList_iff.2 hq) hle

theorem Covers.lt {outer inner : String} (h : Covers outer inner) (hne : outer ≠ inner) :
    outer.length < inner.length ∧ depth outer < depth inner := by
  rcases h with rfl | rfl | ⟨rest, rfl⟩
  · have hinner : inner.isEmpty = false := by
      rw [Bool.eq_false_iff]
      intro hempty
      exact hne (String.isEmpty_iff.1 hempty).symm
    refine ⟨?_, by simp [depth, hinner]⟩
    apply Nat.pos_of_ne_zero
    intro hlength
    exact hne (String.length_eq_zero_iff.1 hlength).symm
  · exact absurd rfl hne
  · have hcount : (outer ++ "." ++ rest).toList.count '.' =
        outer.toList.count '.' + (rest.toList.count '.' + 1) := by
      rw [toList_eq_append_iff.2 (by rw [String.ofList_toList]), List.count_append,
        List.count_cons_self]
    have hinner : (outer ++ "." ++ rest).isEmpty = false := by
      rw [Bool.eq_false_iff]
      intro hempty
      have := congrArg String.length (String.isEmpty_iff.1 hempty)
      simp at this
    have hdot : ".".length = 1 := rfl
    refine ⟨by rw [String.length_append, String.length_append]; omega, ?_⟩
    simp only [depth, hinner, hcount]
    split <;> simp

/-- Of two packages that cover one, the deeper is the longer. -/
theorem depth_le_iff {p q package : String} (hp : Covers p package) (hq : Covers q package) :
    depth p ≤ depth q ↔ p.length ≤ q.length := by
  by_cases hpq : p = q
  · simp [hpq]
  · rcases Nat.le_total p.length q.length with hle | hle
    · have hlt := (hp.of_length_le hq hle).lt hpq
      omega
    · have hlt := (hq.of_length_le hp hle).lt (Ne.symm hpq)
      omega

end Unseal.Package
