import Mathlib.Data.List.Forall2
import Mathlib.Data.List.TakeWhile
import Unseal.Json.Text
import Unseal.Proofs.Text.Utf16
/-
  Spelling — the ways to write a JSON text

  A JSON text is a row of tokens: signs, words, numbers and quoted texts. Between
  the tokens, in front of the first and behind the last may be blanks. A sign, a
  word and a number are written in one way. A quoted text is written character by
  character, and most characters can be written in more than one way: as they are,
  by a letter behind a backslash, or by the number of each of their UTF-16 units in
  four digits of base 16, so that a character beyond the basic plane is two numbers.
  `Spells` holds of a row of tokens and of each text that writes it.

  A reader takes tokens from the front of a text. `Reads` says that it takes the
  same value from each text that writes them, whatever comes behind.

  What is proved:
    1. `readTextFrom_writtenChar` — each way to write a character is read as the
       character.
    2. `readText_written` — each way to write a quoted text is read as the text.
    3. `Spells.first` — what is behind the blanks at the front of a text is its first
       token.
-/

namespace Unseal.Json

open ModifiedUtf8

/-- Only blanks. -/
def Blanks (cs : List Char) : Prop := ∀ c ∈ cs, isBlank c = true

/-! ## Characters -/

/-- The digit of base 16 with the value, a small or a capital letter from ten on. -/
def HexDigit (n : Nat) (c : Char) : Prop := n < 16 ∧ (c = n.digitChar ∨ c = n.digitChar.toUpper)

instance (n : Nat) (c : Char) : Decidable (HexDigit n c) := inferInstanceAs (Decidable (_ ∧ _))

/-- The letters behind a backslash that stand for one character. -/
def shortEscapes : List (Char × Char) :=
  [('"', '"'), ('\\', '\\'), ('/', '/'), ('b', '\x08'), ('f', '\x0c'), ('n', '\n'), ('r', '\r'),
    ('t', '\t')]

/-- The ways to write a unit of UTF-16 by its number. -/
inductive WrittenUnit (u : Nat) : List Char → Prop where
  | digits {a b c d : Char} (ha : HexDigit (u / 0x1000) a) (hb : HexDigit (u / 0x100 % 16) b)
      (hc : HexDigit (u / 0x10 % 16) c) (hd : HexDigit (u % 16) d) :
      WrittenUnit u ['\\', 'u', a, b, c, d]

/-- The ways to write a character between quotes. -/
inductive WrittenChar (c : Char) : List Char → Prop where
  | plain (hprints : 32 ≤ c.toNat) (hquote : c ≠ '"') (hbackslash : c ≠ '\\') : WrittenChar c [c]
  | short {letter : Char} (h : (letter, c) ∈ shortEscapes) : WrittenChar c ['\\', letter]
  | units {written : List (List Char)} (h : List.Forall₂ WrittenUnit (charUnits c) written) :
      WrittenChar c written.flatten

/-- The character needs no escape. -/
def isPlain (c : Char) : Bool := 32 ≤ c.toNat && c ≠ '"' && c ≠ '\\'

theorem written_plain {chars : List Char} (h : chars.all isPlain = true) :
    List.Forall₂ WrittenChar chars (chars.map fun c => [c]) := by
  rw [List.forall₂_map_right_iff, List.forall₂_same]
  intro c hc
  have hplain : isPlain c = true := List.all_eq_true.1 h c hc
  rw [isPlain, Bool.and_eq_true, Bool.and_eq_true] at hplain
  simp only [decide_eq_true_eq] at hplain
  exact .plain hplain.1.1 hplain.1.2 hplain.2

theorem hexDigit?_digit {n : Nat} {c : Char} (h : HexDigit n c) : hexDigit? c = some n := by
  have hall : ∀ n < 16, hexDigit? n.digitChar = some n ∧
      hexDigit? n.digitChar.toUpper = some n := by decide
  obtain ⟨hsmall, hcapital⟩ := hall n h.1
  rcases h.2 with rfl | rfl
  · exact hsmall
  · exact hcapital

theorem hexFour?_digits {u : Nat} {a b c d : Char} (ha : HexDigit (u / 0x1000) a)
    (hb : HexDigit (u / 0x100 % 16) b) (hc : HexDigit (u / 0x10 % 16) c)
    (hd : HexDigit (u % 16) d) : hexFour? a b c d = some u := by
  have hvalue : ((u / 0x1000 * 16 + u / 0x100 % 16) * 16 + u / 0x10 % 16) * 16 + u % 16 = u := by
    omega
  simp only [hexFour?, hexDigit?_digit ha, hexDigit?_digit hb, hexDigit?_digit hc,
    hexDigit?_digit hd, hvalue]

theorem escaped?_short {letter c : Char} (h : (letter, c) ∈ shortEscapes) :
    escaped? letter = some c := by
  have hall : ∀ p ∈ shortEscapes, escaped? p.1 = some p.2 := by decide
  exact hall (letter, c) h

section
variable {done rest : List Char}

theorem readTextFrom_quote :
    readTextFrom done ('"' :: rest) = .ok (String.ofList done.reverse, rest) := by
  rw [readTextFrom.eq_def]
  rfl

theorem readTextFrom_plain {c : Char} (hprints : 32 ≤ c.toNat) (hquote : c ≠ '"')
    (hbackslash : c ≠ '\\') : readTextFrom done (c :: rest) = readTextFrom (c :: done) rest := by
  rw [readTextFrom.eq_def]
  simp only [if_neg hquote, if_neg hbackslash, if_neg (Nat.not_lt.2 hprints)]

theorem readTextFrom_escaped {letter c : Char} (h : escaped? letter = some c) :
    readTextFrom done ('\\' :: letter :: rest) = readTextFrom (c :: done) rest := by
  rw [readTextFrom.eq_def]
  simp [h]

theorem readTextFrom_unit {u : Nat} {written : List Char} (h : WrittenUnit u written)
    (hhigh : ¬ isHigh u = true) (hlow : ¬ isLow u = true) :
    readTextFrom done (written ++ rest) = readTextFrom (Char.ofNat u :: done) rest := by
  obtain ⟨ha, hb, hc, hd⟩ := h
  rw [readTextFrom.eq_def]
  simp [hexFour?_digits ha hb hc hd, hhigh, hlow, escaped?]

theorem readTextFrom_pair {high low : Nat} {first second : List Char} (h : WrittenUnit high first)
    (h' : WrittenUnit low second) (hhigh : isHigh high = true) (hlow : isLow low = true) :
    readTextFrom done (first ++ (second ++ rest)) =
      readTextFrom (joinPair high low :: done) rest := by
  obtain ⟨ha, hb, hc, hd⟩ := h
  obtain ⟨ha', hb', hc', hd'⟩ := h'
  rw [readTextFrom.eq_def]
  simp [hexFour?_digits ha hb hc hd, hexFour?_digits ha' hb' hc' hd', hhigh, hlow,
    not_isLow_of_isHigh hhigh, escaped?]

/-- Each way to write a character is read as the character. -/
theorem readTextFrom_writtenChar {c : Char} {written : List Char} (h : WrittenChar c written) :
    readTextFrom done (written ++ rest) = readTextFrom (c :: done) rest := by
  cases h with
  | plain hprints hquote hbackslash => exact readTextFrom_plain hprints hquote hbackslash
  | short h => exact readTextFrom_escaped (escaped?_short h)
  | units h =>
    rcases charUnits_cases c with ⟨u, hunits, _, hhigh, hlow, hc⟩ |
      ⟨high, low, hunits, hhigh, hlow, hc⟩
    · rw [hunits, List.forall₂_cons_left_iff] at h
      obtain ⟨written, _, hu, hnil, rfl⟩ := h
      rw [List.forall₂_nil_left_iff.1 hnil, List.flatten_singleton,
        readTextFrom_unit hu hhigh hlow, hc]
    · rw [hunits, List.forall₂_cons_left_iff] at h
      obtain ⟨first, _, hfirst, h, rfl⟩ := h
      obtain ⟨second, _, hsecond, hnil, rfl⟩ := List.forall₂_cons_left_iff.1 h
      rw [List.forall₂_nil_left_iff.1 hnil, List.flatten_cons, List.flatten_singleton,
        List.append_assoc, readTextFrom_pair hfirst hsecond hhigh hlow, hc]

theorem readTextFrom_written {chars : List Char} {written : List (List Char)}
    (h : List.Forall₂ WrittenChar chars written) (done : List Char) :
    readTextFrom done (written.flatten ++ '"' :: rest) =
      .ok (String.ofList (done.reverse ++ chars), rest) := by
  induction h generalizing done with
  | nil => rw [List.flatten_nil, List.nil_append, readTextFrom_quote, List.append_nil]
  | @cons c piece chars written hc _ ih =>
    calc readTextFrom done ((piece :: written).flatten ++ '"' :: rest)
        = readTextFrom done (piece ++ (written.flatten ++ '"' :: rest)) := by
          rw [List.flatten_cons, List.append_assoc]
      _ = readTextFrom (c :: done) (written.flatten ++ '"' :: rest) := readTextFrom_writtenChar hc
      _ = .ok (String.ofList ((c :: done).reverse ++ chars), rest) := ih (c :: done)
      _ = .ok (String.ofList (done.reverse ++ c :: chars), rest) := by
          rw [List.reverse_cons, List.append_assoc, List.singleton_append]

end

/-- Each way to write a quoted text is read as the text. -/
theorem readText_written {s : String} {written : List (List Char)} {rest : List Char}
    (h : List.Forall₂ WrittenChar s.toList written) :
    readText (written.flatten ++ '"' :: rest) = .ok (s, rest) := by
  rw [readText, readTextFrom_written h [], List.reverse_nil, List.nil_append, String.ofList_toList]

/-! ## Tokens -/

/-- A token of a JSON text. -/
inductive Token where
  /-- A sign, a word or a number. -/
  | plain (cs : List Char)
  /-- A quoted text. -/
  | text (s : String)

namespace Token

/-- A sign of one character. -/
def mark (c : Char) : Token := .plain [c]

/-- The character that the token starts with, however it is written. -/
def head? : Token → Option Char
  | .plain cs => cs.head?
  | .text _ => some '"'

end Token

/-- The ways to write a token. -/
inductive WrittenToken : Token → List Char → Prop where
  | plain {cs : List Char} : WrittenToken (.plain cs) cs
  | text {s : String} {written : List (List Char)}
      (h : List.Forall₂ WrittenChar s.toList written) :
      WrittenToken (.text s) ('"' :: (written.flatten ++ ['"']))

/-- The texts that write a row of tokens. -/
inductive Spells : List Token → List Char → Prop where
  | nil {blanks : List Char} (h : Blanks blanks) : Spells [] blanks
  | cons {t : Token} {ts : List Token} {blanks written rest : List Char} (hblanks : Blanks blanks)
      (hwritten : WrittenToken t written) (hrest : Spells ts rest) :
      Spells (t :: ts) (blanks ++ (written ++ rest))

theorem WrittenToken.head {t : Token} {written : List Char} {c : Char} (h : WrittenToken t written)
    (hhead : t.head? = some c) : ∃ behind, written = c :: behind := by
  cases h with
  | plain => exact List.head?_eq_some_iff.1 hhead
  | text =>
    obtain rfl : '"' = c := Option.some.inj hhead
    exact ⟨_, rfl⟩

theorem blanks_nil : Blanks [] := by
  intro c hc
  cases hc

theorem skipBlanks_blanks {blanks rest : List Char} (h : Blanks blanks) :
    skipBlanks (blanks ++ rest) = skipBlanks rest :=
  List.dropWhile_append_of_pos h

theorem skipBlanks_cons {c : Char} {rest : List Char} (h : isBlank c = false) :
    skipBlanks (c :: rest) = c :: rest := by
  rw [skipBlanks, List.dropWhile_cons_of_neg (by rw [h]; exact Bool.false_ne_true)]

theorem Spells.end {cs : List Char} (h : Spells [] cs) : skipBlanks cs = [] := by
  obtain ⟨hblanks⟩ := h
  exact List.dropWhile_eq_nil_iff.2 hblanks

section
variable {t : Token} {ts : List Token} {cs : List Char}

/-- Behind the blanks at the front of a text is its first token. -/
theorem Spells.first {c : Char} (h : Spells (t :: ts) cs) (hhead : t.head? = some c)
    (hblank : isBlank c = false) :
    ∃ behind rest, WrittenToken t (c :: behind) ∧ Spells ts rest ∧
      skipBlanks cs = c :: (behind ++ rest) ∧ rest.length < cs.length := by
  cases h with
  | @cons _ _ blanks written rest hblanks hwritten hrest =>
    obtain ⟨behind, rfl⟩ := hwritten.head hhead
    refine ⟨behind, rest, hwritten, hrest, ?_, ?_⟩
    · rw [skipBlanks_blanks hblanks, List.cons_append, skipBlanks_cons hblank]
    · simp only [List.length_append, List.length_cons]
      omega

theorem Spells.skip {c : Char} (h : Spells (t :: ts) cs) (hhead : t.head? = some c)
    (hblank : isBlank c = false) :
    ∃ behind, skipBlanks cs = c :: behind ∧ Spells (t :: ts) (c :: behind) ∧
      behind.length < cs.length := by
  obtain ⟨behind, rest, hwritten, hrest, hskip, hlt⟩ := h.first hhead hblank
  refine ⟨behind ++ rest, hskip, Spells.cons blanks_nil hwritten hrest, ?_⟩
  have hle : (skipBlanks cs).length ≤ cs.length := (List.dropWhile_sublist isBlank).length_le
  rw [hskip, List.length_cons] at hle
  omega

theorem Spells.mark {c : Char} (h : Spells (.mark c :: ts) cs) (hblank : isBlank c = false) :
    ∃ rest, skipBlanks cs = c :: rest ∧ Spells ts rest ∧ rest.length < cs.length := by
  obtain ⟨behind, rest, hwritten, hrest, hskip, hlt⟩ := h.first rfl hblank
  obtain ⟨⟩ := hwritten
  exact ⟨rest, hskip, hrest, hlt⟩

theorem Spells.word {c : Char} {word : List Char} (h : Spells (.plain (c :: word) :: ts) cs)
    (hblank : isBlank c = false) :
    ∃ rest, skipBlanks cs = c :: (word ++ rest) ∧ Spells ts rest ∧ rest.length < cs.length := by
  obtain ⟨behind, rest, hwritten, hrest, hskip, hlt⟩ := h.first rfl hblank
  obtain ⟨⟩ := hwritten
  exact ⟨rest, hskip, hrest, hlt⟩

theorem Spells.text {s : String} (h : Spells (.text s :: ts) cs) :
    ∃ body rest, skipBlanks cs = '"' :: body ∧ readText body = .ok (s, rest) ∧ Spells ts rest ∧
      rest.length < cs.length := by
  obtain ⟨behind, rest, hwritten, hrest, hskip, hlt⟩ := h.first rfl rfl
  obtain ⟨⟩ | ⟨hchars⟩ := hwritten
  refine ⟨_, rest, hskip, ?_, hrest, hlt⟩
  rw [List.append_assoc, List.singleton_append, readText_written hchars]

end

theorem Spells.sign {c : Char} {ts : List Token} {cs : List Char} (h : Spells ts cs) :
    Spells (.mark c :: ts) (c :: cs) :=
  .cons blanks_nil .plain h

theorem Spells.unquoted {word : List Char} {ts : List Token} {cs : List Char} (h : Spells ts cs) :
    Spells (.plain word :: ts) (word ++ cs) :=
  .cons blanks_nil .plain h

theorem Spells.blank {c : Char} {ts : List Token} {cs : List Char} (hblank : isBlank c = true)
    (h : Spells ts cs) : Spells ts (c :: cs) := by
  cases h with
  | nil h => exact .nil (List.forall_mem_cons.2 ⟨hblank, h⟩)
  | @cons t ts blanks written rest hblanks hwritten hrest =>
    have hmore : Blanks (c :: blanks) := List.forall_mem_cons.2 ⟨hblank, hblanks⟩
    exact .cons hmore hwritten hrest

theorem Spells.quoted {s : String} {written : List (List Char)} {ts : List Token} {cs : List Char}
    (hs : List.Forall₂ WrittenChar s.toList written) (h : Spells ts cs) :
    Spells (.text s :: ts) ('"' :: (written.flatten ++ '"' :: cs)) := by
  have hspells := Spells.cons blanks_nil (.text hs) h
  rwa [List.nil_append, List.cons_append, List.append_assoc, List.singleton_append] at hspells

theorem readWord_append (word rest : List Char) : readWord word (word ++ rest) = .ok rest := by
  induction word with
  | nil => rfl
  | cons w word ih => rw [List.cons_append, readWord, if_pos rfl, ih]

/-! ## Readers -/

/-- The reader takes the tokens from the front of a text, however they are written and whatever
comes behind, and gives the value. -/
def Reads {α : Type} (tokens : List Token) (read : List Char → Except JsonFault (α × List Char))
    (a : α) : Prop :=
  ∀ ts cs, Spells (tokens ++ ts) cs →
    ∃ rest, read cs = .ok (a, rest) ∧ Spells ts rest ∧ rest.length < cs.length

theorem Reads.map {α β : Type} {tokens : List Token}
    {read : List Char → Except JsonFault (α × List Char)} {a : α} (h : Reads tokens read a)
    (f : α → β) : Reads tokens (fun cs => (read cs).map fun (v, rest) => (f v, rest)) (f a) := by
  intro ts cs hspells
  obtain ⟨rest, hread, hrest⟩ := h ts cs hspells
  exact ⟨rest, by simp only [hread]; rfl, hrest⟩

/-! ## Lists and objects -/

/-- Items with commas between them, and one in front of them where they are not the first. -/
def separated : (first : Bool) → List (List Token) → List Token
  | _, [] => []
  | true, item :: items => item ++ separated false items
  | false, item :: items => .mark ',' :: (item ++ separated false items)

def listTokens (items : List (List Token)) : List Token :=
  .mark '[' :: (separated true items ++ [.mark ']'])

def objectTokens (members : List (String × List Token)) : List Token :=
  .mark '\x7b' ::
    (separated true (members.map fun m => .text m.1 :: .mark ':' :: m.2) ++ [.mark '\x7d'])

end Unseal.Json
