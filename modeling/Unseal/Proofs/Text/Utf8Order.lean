import Mathlib.Data.List.Lex
/-
  UTF-8 in order — texts compare as their bytes do

  A character is written in UTF-8 as one to four bytes. The first byte tells how many
  there are, more of them for a greater character, and behind it the bits of the code
  point follow with the greatest first. So the bytes of two texts are in the order of
  the texts, and names that are sorted by their characters are sorted by their bytes.

  What is proved:
    1. `encodeChar_append_lt` — a lesser character has lesser bytes, whatever is behind
       them.
    2. `bytes_lt` — a lesser text has lesser bytes.
-/

namespace Unseal.Utf8

/-- The bytes of a text. -/
def bytes (s : String) : List UInt8 := s.toList.flatMap String.utf8EncodeChar

/-- The bytes of a character by its size. Behind the first byte there are six bits in each, and
what is left of the code point is in the first. -/
theorem encodeChar_cases (c : Char) :
    (c.val.toNat < 0x80 ∧ String.utf8EncodeChar c = [.ofNat c.val.toNat]) ∨
    (∃ x y, c.val.toNat = x * 0x40 + y ∧ 0x80 ≤ c.val.toNat ∧ x < 0x20 ∧ y < 0x40 ∧
      String.utf8EncodeChar c = [.ofNat (x + 0xC0), .ofNat (y + 0x80)]) ∨
    (∃ x y z, c.val.toNat = (x * 0x40 + y) * 0x40 + z ∧ 0x800 ≤ c.val.toNat ∧ x < 0x10 ∧
      y < 0x40 ∧ z < 0x40 ∧
      String.utf8EncodeChar c = [.ofNat (x + 0xE0), .ofNat (y + 0x80), .ofNat (z + 0x80)]) ∨
    ∃ x y z w, c.val.toNat = ((x * 0x40 + y) * 0x40 + z) * 0x40 + w ∧ 0x10000 ≤ c.val.toNat ∧
      x < 0x8 ∧ y < 0x40 ∧ z < 0x40 ∧ w < 0x40 ∧
      String.utf8EncodeChar c =
        [.ofNat (x + 0xF0), .ofNat (y + 0x80), .ofNat (z + 0x80), .ofNat (w + 0x80)] := by
  have hvalid : c.val.toNat < 0xD800 ∨ 0xDFFF < c.val.toNat ∧ c.val.toNat < 0x110000 := c.valid
  unfold String.utf8EncodeChar
  dsimp only
  split
  · exact .inl ⟨by omega, rfl⟩
  · split
    · exact .inr (.inl ⟨_, _, by omega, by omega, by omega, by omega, rfl⟩)
    · split
      · exact .inr (.inr (.inl ⟨_, _, _, by omega, by omega, by omega, by omega, by omega, rfl⟩))
      · exact .inr (.inr (.inr
          ⟨_, _, _, _, by omega, by omega, by omega, by omega, by omega, by omega, rfl⟩))

/-- A lesser character has lesser bytes, whatever is behind them. -/
theorem encodeChar_append_lt {c d : Char} (h : c < d) (rest rest' : List UInt8) :
    String.utf8EncodeChar c ++ rest < String.utf8EncodeChar d ++ rest' := by
  have hlt : c.val.toNat < d.val.toNat := UInt32.lt_iff_toNat_lt.1 h
  -- Either the first bytes differ, or both have as many and the bits of the code points decide.
  rcases encodeChar_cases c with ⟨_, hbytes⟩ | ⟨x, y, _, _, _, _, hbytes⟩ |
      ⟨x, y, z, _, _, _, _, _, hbytes⟩ | ⟨x, y, z, w, _, _, _, _, _, _, hbytes⟩ <;>
    rcases encodeChar_cases d with ⟨_, hbytes'⟩ | ⟨x', y', _, _, _, _, hbytes'⟩ |
        ⟨x', y', z', _, _, _, _, _, hbytes'⟩ | ⟨x', y', z', w', _, _, _, _, _, _, hbytes'⟩ <;>
      simp only [hbytes, hbytes', List.cons_append, List.nil_append, List.cons_lt_cons_iff,
        UInt8.lt_iff_toNat_lt, ← UInt8.toNat_inj, UInt8.toNat_ofNat'] <;> omega

theorem flatMap_encodeChar_lt {cs ds : List Char} (h : cs < ds) :
    cs.flatMap String.utf8EncodeChar < ds.flatMap String.utf8EncodeChar := by
  induction cs generalizing ds with
  | nil =>
    cases ds with
    | nil => exact absurd h (List.lt_irrefl [])
    | cons d ds =>
      have hne : String.utf8EncodeChar d ≠ [] := String.utf8EncodeChar_ne_nil
      obtain ⟨b, bs, hbytes⟩ := List.exists_cons_of_ne_nil hne
      rw [List.flatMap_nil, List.flatMap_cons, hbytes, List.cons_append]
      exact List.nil_lt_cons b _
  | cons c cs ih =>
    cases ds with
    | nil => exact absurd h (List.not_lt_nil _)
    | cons d ds =>
      rw [List.flatMap_cons, List.flatMap_cons]
      rcases List.cons_lt_cons_iff.1 h with hlt | ⟨rfl, hlt⟩
      · exact encodeChar_append_lt hlt _ _
      · exact List.Lex.append_left (· < ·) (ih hlt) _

/-- A lesser text has lesser bytes. -/
theorem bytes_lt {s t : String} (h : s < t) : bytes s < bytes t :=
  flatMap_encodeChar_lt (String.lt_iff.1 h)

end Unseal.Utf8
