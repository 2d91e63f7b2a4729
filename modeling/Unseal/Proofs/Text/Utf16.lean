import Unseal.Text.ModifiedUtf8
/-
  UTF-16 — characters as units of sixteen bits

  A character of the basic plane is one unit, its code point. A character beyond it
  is a pair of surrogates, a high one and a low one behind it, which carry ten bits
  each of what is left when 0x10000 is taken from the code point. No character has a
  code point in the range of the surrogates, so units spell a text exactly if every
  surrogate among them stands in a pair, and then they spell one text only.

  What is proved:
    1. `charUnits_cases` — the units of a character.
    2. `charsFrom_eq_some_iff` — the text that units spell is the one they are the
       UTF-16 form of.
    3. `exists_utf16_iff` — units spell a text exactly if their surrogates are paired.
-/

namespace Unseal.ModifiedUtf8

/-- The units of a character: its code point, or a high and a low surrogate. -/
def charUnits (c : Char) : List Nat :=
  if c.toNat < 0x10000 then [c.toNat]
  else [0xD800 + (c.toNat - 0x10000) / 0x400, 0xDC00 + (c.toNat - 0x10000) % 0x400]

/-- The UTF-16 form of a text. -/
def utf16 (chars : List Char) : List Nat := chars.flatMap charUnits

/-- Every surrogate stands in a pair: behind a high one is a low one, and in front of a low one is
a high one. -/
def Paired (units : List Nat) : Prop :=
  ∀ i u, units[i]? = some u →
    (isHigh u = true → ∃ low, units[i + 1]? = some low ∧ isLow low = true) ∧
    (isLow u = true → ∃ j high, j + 1 = i ∧ units[j]? = some high ∧ isHigh high = true)

theorem isHigh_iff {u : Nat} : isHigh u = true ↔ 0xD800 ≤ u ∧ u ≤ 0xDBFF := by
  simp [isHigh]

theorem isLow_iff {u : Nat} : isLow u = true ↔ 0xDC00 ≤ u ∧ u ≤ 0xDFFF := by
  simp [isLow]

theorem not_isLow_of_isHigh {u : Nat} (h : isHigh u = true) : ¬ isLow u = true := by
  rw [isHigh_iff] at h
  rw [isLow_iff]
  omega

/-! ## Characters -/

theorem toNat_ofNat {n : Nat} (h : n.isValidChar) : (Char.ofNat n).toNat = n := by
  rw [Char.ofNat, dif_pos h]
  rfl

theorem charUnits_ofNat {u : Nat} (hlt : u < 0x10000) (hhigh : ¬ isHigh u = true)
    (hlow : ¬ isLow u = true) : charUnits (Char.ofNat u) = [u] := by
  rw [isHigh_iff] at hhigh
  rw [isLow_iff] at hlow
  have hvalid : u.isValidChar := by
    show u < 0xD800 ∨ 0xDFFF < u ∧ u < 0x110000
    omega
  rw [charUnits, toNat_ofNat hvalid, if_pos hlt]

theorem charUnits_joinPair {high low : Nat} (hhigh : isHigh high = true) (hlow : isLow low = true) :
    charUnits (joinPair high low) = [high, low] := by
  rw [isHigh_iff] at hhigh
  rw [isLow_iff] at hlow
  have hvalid : (0x10000 + (high - 0xD800) * 0x400 + (low - 0xDC00)).isValidChar := by
    show _ < 0xD800 ∨ 0xDFFF < _ ∧ _ < 0x110000
    omega
  have htop : 0xD800 + (0x10000 + (high - 0xD800) * 0x400 + (low - 0xDC00) - 0x10000) / 0x400 =
      high := by omega
  have hrest : 0xDC00 + (0x10000 + (high - 0xD800) * 0x400 + (low - 0xDC00) - 0x10000) % 0x400 =
      low := by omega
  rw [charUnits, joinPair, toNat_ofNat hvalid, if_neg (by omega), htop, hrest]

/-- The units of a character are one that is no surrogate, or a pair. -/
theorem charUnits_cases (c : Char) :
    (∃ u, charUnits c = [u] ∧ u < 0x10000 ∧ ¬ isHigh u = true ∧ ¬ isLow u = true ∧
      Char.ofNat u = c) ∨
    ∃ high low, charUnits c = [high, low] ∧ isHigh high = true ∧ isLow low = true ∧
      joinPair high low = c := by
  have hvalid : c.toNat < 0xD800 ∨ 0xDFFF < c.toNat ∧ c.toNat < 0x110000 := c.valid
  by_cases hbasic : c.toNat < 0x10000
  · refine .inl ⟨c.toNat, by rw [charUnits, if_pos hbasic], hbasic, ?_, ?_, Char.ofNat_toNat c⟩
    · rw [isHigh_iff]
      omega
    · rw [isLow_iff]
      omega
  · refine .inr ⟨_, _, by rw [charUnits, if_neg hbasic], ?_, ?_, ?_⟩
    · rw [isHigh_iff]
      omega
    · rw [isLow_iff]
      omega
    · have hjoin : 0x10000 + (0xD800 + (c.toNat - 0x10000) / 0x400 - 0xD800) * 0x400 +
          (0xDC00 + (c.toNat - 0x10000) % 0x400 - 0xDC00) = c.toNat := by omega
      rw [joinPair, hjoin, Char.ofNat_toNat]

theorem utf16_lt {chars : List Char} {u : Nat} (h : u ∈ utf16 chars) : u < 0x10000 := by
  obtain ⟨c, _, hu⟩ := List.mem_flatMap.1 h
  rcases charUnits_cases c with ⟨v, hunits, hlt, _⟩ | ⟨high, low, hunits, hhigh, hlow, _⟩
  · rw [hunits, List.mem_singleton] at hu
    rwa [hu]
  · rw [isHigh_iff] at hhigh
    rw [isLow_iff] at hlow
    rw [hunits, List.mem_cons, List.mem_singleton] at hu
    omega

/-! ## Reading units -/

section
variable {done : List Char} {units rest : List Nat} {u low : Nat}

theorem charsFrom_plain (hhigh : ¬ isHigh u = true) (hlow : ¬ isLow u = true) :
    charsFrom done (u :: rest) = charsFrom (Char.ofNat u :: done) rest := by
  rw [charsFrom.eq_def]
  dsimp only
  rw [if_neg hhigh, if_neg hlow]

theorem charsFrom_pair (hhigh : isHigh u = true) (hlow : isLow low = true) :
    charsFrom done (u :: low :: rest) = charsFrom (joinPair u low :: done) rest := by
  rw [charsFrom, if_pos hhigh]
  simp only [hlow, if_true]

theorem charsFrom_charUnits (done : List Char) (c : Char) (rest : List Nat) :
    charsFrom done (charUnits c ++ rest) = charsFrom (c :: done) rest := by
  rcases charUnits_cases c with ⟨u, hunits, _, hhigh, hlow, hc⟩ | ⟨u, low, hunits, hhigh, hlow, hc⟩
  · rw [hunits, List.singleton_append, charsFrom_plain hhigh hlow, hc]
  · rw [hunits, List.cons_append, List.singleton_append, charsFrom_pair hhigh hlow, hc]

theorem charsFrom_utf16 (done chars : List Char) :
    charsFrom done (utf16 chars) = some (done.reverse ++ chars) := by
  induction chars generalizing done with
  | nil => simp [utf16, charsFrom]
  | cons c chars ih =>
    calc charsFrom done (utf16 (c :: chars))
        = charsFrom (c :: done) (utf16 chars) := charsFrom_charUnits done c (utf16 chars)
      _ = some ((c :: done).reverse ++ chars) := ih (c :: done)
      _ = some (done.reverse ++ c :: chars) := by
          rw [List.reverse_cons, List.append_assoc, List.singleton_append]

theorem utf16_of_charsFrom (hunits : ∀ u ∈ units, u < 0x10000) {chars : List Char}
    (h : charsFrom done units = some chars) :
    ∃ read, chars = done.reverse ++ read ∧ utf16 read = units := by
  fun_induction charsFrom done units generalizing chars with
  | case1 done =>
    obtain rfl : done.reverse = chars := Option.some.inj h
    exact ⟨[], by simp, rfl⟩
  | case2 done u hhigh low rest hlow ih =>
    obtain ⟨read, rfl, hread⟩ := ih (fun v hv => hunits v (by simp [hv])) h
    refine ⟨joinPair u low :: read, by simp, ?_⟩
    rw [utf16, List.flatMap_cons, charUnits_joinPair hhigh hlow, ← hread]
    rfl
  | case3 => cases h
  | case4 => cases h
  | case5 => cases h
  | case6 done u rest hhigh hlow ih =>
    obtain ⟨read, rfl, hread⟩ := ih (fun v hv => hunits v (by simp [hv])) h
    refine ⟨Char.ofNat u :: read, by simp, ?_⟩
    rw [utf16, List.flatMap_cons, charUnits_ofNat (hunits u (by simp)) hhigh hlow, ← hread]
    rfl

/-- The text that is read from units is the one that they are the UTF-16 form of. -/
theorem charsFrom_eq_some_iff (hunits : ∀ u ∈ units, u < 0x10000) {chars : List Char} :
    charsFrom [] units = some chars ↔ utf16 chars = units := by
  refine ⟨?_, ?_⟩
  · intro h
    obtain ⟨read, hchars, hread⟩ := utf16_of_charsFrom hunits h
    rw [List.reverse_nil, List.nil_append] at hchars
    rw [hchars, hread]
  · intro h
    rw [← h]
    exact charsFrom_utf16 [] chars

/-! ## Pairs -/

theorem paired_append {front : List Nat} (hfront : Paired front) :
    Paired (front ++ rest) ↔ Paired rest := by
  have hbehind : ∀ i, (front ++ rest)[front.length + i]? = rest[i]? := by
    intro i
    rw [List.getElem?_append_right (Nat.le_add_right _ _), Nat.add_sub_cancel_left]
  refine ⟨?_, ?_⟩
  · intro h i u hu
    obtain ⟨hhigh, hlow⟩ := h (front.length + i) u ((hbehind i).trans hu)
    refine ⟨?_, ?_⟩
    · rw [Nat.add_assoc, hbehind] at hhigh
      exact hhigh
    · intro hu
      obtain ⟨j, high, hj, hget, hfirst⟩ := hlow hu
      cases i with
      | zero =>
        -- The high surrogate would be the last unit in front, where none is behind it.
        have hlt : j < front.length := by omega
        rw [List.getElem?_append_left hlt] at hget
        obtain ⟨low, hnext, _⟩ := (hfront j high hget).1 hfirst
        rw [List.getElem?_eq_none (by omega)] at hnext
        cases hnext
      | succ k =>
        obtain rfl : j = front.length + k := by omega
        exact ⟨k, high, rfl, (hbehind k).symm.trans hget, hfirst⟩
  · intro h i u hu
    rcases Nat.lt_or_ge i front.length with hlt | hge
    · rw [List.getElem?_append_left hlt] at hu
      obtain ⟨hhigh, hlow⟩ := hfront i u hu
      refine ⟨?_, ?_⟩
      · intro hu
        obtain ⟨low, hnext, hlow⟩ := hhigh hu
        have hlt' : i + 1 < front.length := (List.getElem?_eq_some_iff.1 hnext).1
        exact ⟨low, by rw [List.getElem?_append_left hlt', hnext], hlow⟩
      · intro hu
        obtain ⟨j, high, hj, hget, hhigh⟩ := hlow hu
        exact ⟨j, high, hj, by rw [List.getElem?_append_left (by omega), hget], hhigh⟩
    · obtain ⟨k, rfl⟩ := Nat.exists_eq_add_of_le hge
      rw [hbehind] at hu
      obtain ⟨hhigh, hlow⟩ := h k u hu
      refine ⟨?_, ?_⟩
      · rw [Nat.add_assoc, hbehind]
        exact hhigh
      · intro hu
        obtain ⟨j, high, hj, hget, hhigh⟩ := hlow hu
        exact ⟨front.length + j, high, by omega, (hbehind j).trans hget, hhigh⟩

theorem paired_plain (hhigh : ¬ isHigh u = true) (hlow : ¬ isLow u = true) : Paired [u] := by
  intro i v hv
  obtain ⟨rfl, rfl⟩ : i = 0 ∧ u = v := by simpa [List.getElem?_singleton] using hv
  exact ⟨fun h => absurd h hhigh, fun h => absurd h hlow⟩

theorem paired_pair (hhigh : isHigh u = true) (hlow : isLow low = true) : Paired [u, low] := by
  intro i v hv
  match i with
  | 0 =>
    obtain rfl : u = v := Option.some.inj hv
    exact ⟨fun _ => ⟨low, rfl, hlow⟩, fun h => absurd h (not_isLow_of_isHigh hhigh)⟩
  | 1 =>
    obtain rfl : low = v := Option.some.inj hv
    exact ⟨fun h => absurd hlow (not_isLow_of_isHigh h), fun _ => ⟨0, u, rfl, rfl, hhigh⟩⟩
  | i + 2 => simp at hv

theorem charsFrom_isSome_iff : (charsFrom done units).isSome = true ↔ Paired units := by
  fun_induction charsFrom done units with
  | case1 => exact iff_of_true rfl fun i u hu => by simp at hu
  | case2 done u hhigh low rest hlow ih =>
    exact ih.trans (paired_append (paired_pair hhigh hlow)).symm
  | case3 done u hhigh low rest hlow =>
    refine iff_of_false Bool.false_ne_true fun hpaired => ?_
    obtain ⟨low', hnext, hlow'⟩ := (hpaired 0 u rfl).1 hhigh
    obtain rfl : low = low' := Option.some.inj hnext
    exact hlow hlow'
  | case4 done u hhigh =>
    refine iff_of_false Bool.false_ne_true fun hpaired => ?_
    obtain ⟨low, hnext, _⟩ := (hpaired 0 u rfl).1 hhigh
    cases hnext
  | case5 done u rest _ hlow =>
    refine iff_of_false Bool.false_ne_true fun hpaired => ?_
    obtain ⟨j, high, hj, _⟩ := (hpaired 0 u rfl).2 hlow
    omega
  | case6 done u rest hhigh hlow ih =>
    exact ih.trans (paired_append (paired_plain hhigh hlow)).symm

/-- Units spell a text exactly if their surrogates are paired. -/
theorem exists_utf16_iff (hunits : ∀ u ∈ units, u < 0x10000) :
    (∃ chars, utf16 chars = units) ↔ Paired units := by
  rw [← @charsFrom_isSome_iff [], Option.isSome_iff_exists]
  simp only [charsFrom_eq_some_iff hunits]

end

end Unseal.ModifiedUtf8
