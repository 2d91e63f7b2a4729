import Unseal.ClassFile.Constant
import Unseal.Proofs.Text.Utf16
/-
  Modified UTF-8 — which bytes spell which text

  Bytes spell units by groups of one, two or three bytes, and the first byte of a
  group tells its length. The groups need not be the shortest for their units. Bytes
  spell at most one row of units and units at most one text, so a list of bytes that
  can be cut into groups, with the surrogates among the units in pairs, is a text,
  and everything else is refused. Writing takes the shortest group for each unit but
  for zero, which takes two bytes, and what is written is read back.

  What is proved:
    1. `continuation?_eq_some_iff` — which bytes continue a group, and with what.
    2. `units?_eq_some_iff` — the units that are read are those that the bytes spell.
    3. `decode_eq_some_iff`, `exists_decode_iff` — which bytes are read as which text.
    4. `group_encodeUnit`, `decode_encode` — what is written is read back.
    5. `utf8_decodes` — what is looked up at a constant that holds text.
-/

namespace Unseal.ModifiedUtf8

/-! ## Groups -/

/-- A byte that continues a group. -/
def Continues (b : UInt8) : Prop := 0x80 ≤ b ∧ b ≤ 0xBF

/-- The bytes are a group for the unit. -/
inductive Group : Bytes → Nat → Prop where
  | one {b : UInt8} (hb : 0x01 ≤ b ∧ b ≤ 0x7F) : Group [b] b.toNat
  | two {lead b : UInt8} (hlead : 0xC0 ≤ lead ∧ lead ≤ 0xDF) (hb : Continues b) :
    Group [lead, b] ((lead.toNat - 0xC0) * 0x40 + (b.toNat - 0x80))
  | three {lead b b' : UInt8} (hlead : 0xE0 ≤ lead ∧ lead ≤ 0xEF) (hb : Continues b)
    (hb' : Continues b') :
    Group [lead, b, b']
      ((lead.toNat - 0xE0) * 0x1000 + (b.toNat - 0x80) * 0x40 + (b'.toNat - 0x80))

/-- The bytes are groups for the units, one behind the other. -/
inductive Spells : Bytes → List Nat → Prop where
  | nil : Spells [] []
  | cons {group bs : Bytes} {u : Nat} {units : List Nat} (hgroup : Group group u)
    (hrest : Spells bs units) : Spells (group ++ bs) (u :: units)

theorem toNat_between {lo hi b : UInt8} (h : lo ≤ b ∧ b ≤ hi) :
    lo.toNat ≤ b.toNat ∧ b.toNat ≤ hi.toNat :=
  ⟨UInt8.le_iff_toNat_le.1 h.1, UInt8.le_iff_toNat_le.1 h.2⟩

/-- The two highest bits of a byte that continues a group are 10, the others are carried. -/
theorem continuation?_eq_some_iff {b : UInt8} {n : Nat} :
    continuation? b = some n ↔ Continues b ∧ n = b.toNat - 0x80 := by
  have hbits : ∀ m < 256, (m &&& 0xC0 = 0x80 ↔ 0x80 ≤ m ∧ m ≤ 0xBF) := by decide +kernel
  have hmask : b &&& 0xC0 = 0x80 ↔ Continues b := by
    rw [← UInt8.toNat_inj, UInt8.toNat_and, Continues, UInt8.le_iff_toNat_le, UInt8.le_iff_toNat_le]
    exact hbits b.toNat b.toNat_lt
  have hcarried : Continues b → (b &&& 0x3F).toNat = b.toNat - 0x80 := by
    intro hb
    have hbetween : 0x80 ≤ b.toNat ∧ b.toNat ≤ 0xBF := toNat_between hb
    rw [UInt8.toNat_and]
    show b.toNat &&& 2 ^ 6 - 1 = _
    rw [Nat.and_two_pow_sub_one_eq_mod]
    omega
  rw [continuation?]
  by_cases hb : Continues b
  · rw [if_pos (hmask.2 hb), Option.some.injEq, hcarried hb, and_iff_right hb, eq_comm]
  · rw [if_neg (fun h => hb (hmask.1 h))]
    simp [hb]

theorem toNat_and_lead {lead : UInt8} :
    (0xC0 ≤ lead ∧ lead ≤ 0xDF → (lead &&& 0x1F).toNat = lead.toNat - 0xC0) ∧
      (0xE0 ≤ lead ∧ lead ≤ 0xEF → (lead &&& 0x0F).toNat = lead.toNat - 0xE0) := by
  refine ⟨?_, ?_⟩
  · intro h
    have hbetween : 0xC0 ≤ lead.toNat ∧ lead.toNat ≤ 0xDF := toNat_between h
    rw [UInt8.toNat_and]
    show lead.toNat &&& 2 ^ 5 - 1 = _
    rw [Nat.and_two_pow_sub_one_eq_mod]
    omega
  · intro h
    have hbetween : 0xE0 ≤ lead.toNat ∧ lead.toNat ≤ 0xEF := toNat_between h
    rw [UInt8.toNat_and]
    show lead.toNat &&& 2 ^ 4 - 1 = _
    rw [Nat.and_two_pow_sub_one_eq_mod]
    omega

theorem Group.lt {group : Bytes} {u : Nat} (h : Group group u) : u < 0x10000 := by
  cases h with
  | one hb =>
    have : _ ∧ _ ≤ 0x7F := toNat_between hb
    omega
  | two hlead hb =>
    have : _ ∧ _ ≤ 0xDF := toNat_between hlead
    have : _ ∧ _ ≤ 0xBF := toNat_between hb
    omega
  | three hlead hb hb' =>
    have : _ ∧ _ ≤ 0xEF := toNat_between hlead
    have : _ ∧ _ ≤ 0xBF := toNat_between hb
    have : _ ∧ _ ≤ 0xBF := toNat_between hb'
    omega

theorem Spells.lt {bs : Bytes} {units : List Nat} (h : Spells bs units) :
    ∀ u ∈ units, u < 0x10000 := by
  induction h with
  | nil => simp
  | cons hgroup _ ih => exact List.forall_mem_cons.2 ⟨hgroup.lt, ih⟩

/-! ## Reading -/

theorem unitsFrom_group {group : Bytes} {u : Nat} (h : Group group u) (done : List Nat)
    (rest : Bytes) : unitsFrom done (group ++ rest) = unitsFrom (u :: done) rest := by
  rw [unitsFrom.eq_def]
  cases h with
  | one hb =>
    dsimp only [List.singleton_append]
    rw [if_pos hb]
  | @two lead b hlead hb =>
    have hone : ¬ (0x01 ≤ lead ∧ lead ≤ 0x7F) := by
      intro h
      have : _ ∧ _ ≤ 0x7F := toNat_between h
      have : 0xC0 ≤ _ ∧ _ := toNat_between hlead
      omega
    have hcarried := continuation?_eq_some_iff.2 ⟨hb, rfl⟩
    dsimp only [List.cons_append, List.nil_append]
    rw [if_neg hone, if_pos hlead]
    simp only [hcarried, toNat_and_lead.1 hlead]
  | @three lead b b' hlead hb hb' =>
    have hone : ¬ (0x01 ≤ lead ∧ lead ≤ 0x7F) := by
      intro h
      have : _ ∧ _ ≤ 0x7F := toNat_between h
      have : 0xE0 ≤ _ ∧ _ := toNat_between hlead
      omega
    have htwo : ¬ (0xC0 ≤ lead ∧ lead ≤ 0xDF) := by
      intro h
      have : _ ∧ _ ≤ 0xDF := toNat_between h
      have : 0xE0 ≤ _ ∧ _ := toNat_between hlead
      omega
    have hcarried := continuation?_eq_some_iff.2 ⟨hb, rfl⟩
    have hcarried' := continuation?_eq_some_iff.2 ⟨hb', rfl⟩
    dsimp only [List.cons_append, List.nil_append]
    rw [if_neg hone, if_neg htwo, if_pos hlead]
    simp only [hcarried, hcarried', toNat_and_lead.2 hlead]

theorem unitsFrom_of_spells {bs : Bytes} {units : List Nat} (h : Spells bs units)
    (done : List Nat) : unitsFrom done bs = some (done.reverse ++ units) := by
  induction h generalizing done with
  | nil => simp [unitsFrom]
  | @cons group bs u units hgroup _ ih =>
    calc unitsFrom done (group ++ bs)
        = unitsFrom (u :: done) bs := unitsFrom_group hgroup done bs
      _ = some ((u :: done).reverse ++ units) := ih (u :: done)
      _ = some (done.reverse ++ u :: units) := by
          rw [List.reverse_cons, List.append_assoc, List.singleton_append]

theorem spells_of_unitsFrom {done units : List Nat} {bs : Bytes}
    (h : unitsFrom done bs = some units) :
    ∃ read, units = done.reverse ++ read ∧ Spells bs read := by
  -- What is read behind a group is read behind its unit.
  have hbehind : ∀ {group rest : Bytes} {u : Nat} {done : List Nat}, Group group u →
      (∃ read, units = (u :: done).reverse ++ read ∧ Spells rest read) →
      ∃ read, units = done.reverse ++ read ∧ Spells (group ++ rest) read := by
    intro group rest u done hgroup hrest
    obtain ⟨read, hunits, hread⟩ := hrest
    refine ⟨u :: read, ?_, .cons hgroup hread⟩
    rw [hunits, List.reverse_cons, List.append_assoc, List.singleton_append]
  fun_induction unitsFrom done bs with
  | case1 done => exact ⟨[], by simpa using h.symm, .nil⟩
  | case2 done lead rest hone ih => exact hbehind (.one hone) (ih h)
  | case3 done lead _ hlead b rest low hlow ih =>
    obtain ⟨hb, hcarried⟩ := continuation?_eq_some_iff.1 hlow
    have hread := ih h
    rw [toNat_and_lead.1 hlead, hcarried] at hread
    exact hbehind (.two hlead hb) hread
  | case6 done lead _ _ hlead b b' rest middle low hlow hmiddle ih =>
    obtain ⟨hb, hcarried⟩ := continuation?_eq_some_iff.1 hmiddle
    obtain ⟨hb', hcarried'⟩ := continuation?_eq_some_iff.1 hlow
    have hread := ih h
    rw [toNat_and_lead.2 hlead, hcarried, hcarried'] at hread
    exact hbehind (.three hlead hb hb') hread
  | _ => cases h

/-- The units that are read are those that the bytes spell. -/
theorem units?_eq_some_iff {bs : Bytes} {units : List Nat} :
    units? bs = some units ↔ Spells bs units := by
  refine ⟨?_, fun h => unitsFrom_of_spells h []⟩
  intro h
  obtain ⟨read, rfl, hread⟩ := spells_of_unitsFrom h
  exact hread

theorem Spells.unique {bs : Bytes} {units units' : List Nat} (h : Spells bs units)
    (h' : Spells bs units') : units = units' := by
  have hread : some units = some units' :=
    (units?_eq_some_iff.2 h).symm.trans (units?_eq_some_iff.2 h')
  exact Option.some.inj hread

/-- Bytes are read as the text whose UTF-16 form they spell. -/
theorem decode_eq_some_iff {bs : Bytes} {s : String} :
    decode bs = some s ↔ Spells bs (utf16 s.toList) := by
  have hdecode : decode bs = some s ↔
      ∃ units, Spells bs units ∧ charsFrom [] units = some s.toList := by
    simp only [decode, Option.bind_eq_bind, Option.bind_eq_some_iff, units?_eq_some_iff,
      Option.pure_def, Option.some.injEq, ← String.toList_inj, String.toList_ofList,
      exists_eq_right]
  rw [hdecode]
  refine ⟨?_, ?_⟩
  · intro h
    obtain ⟨units, hunits, hchars⟩ := h
    rwa [(charsFrom_eq_some_iff hunits.lt).1 hchars]
  · intro h
    exact ⟨_, h, charsFrom_utf16 [] s.toList⟩

/-- Bytes are read as a text exactly if they spell units with all surrogates in pairs. -/
theorem exists_decode_iff {bs : Bytes} :
    (∃ s, decode bs = some s) ↔ ∃ units, Spells bs units ∧ Paired units := by
  refine ⟨?_, ?_⟩
  · intro h
    obtain ⟨s, hs⟩ := h
    have hunits := decode_eq_some_iff.1 hs
    exact ⟨_, hunits, (exists_utf16_iff hunits.lt).1 ⟨s.toList, rfl⟩⟩
  · intro h
    obtain ⟨units, hunits, hpaired⟩ := h
    obtain ⟨chars, rfl⟩ := (exists_utf16_iff hunits.lt).2 hpaired
    refine ⟨String.ofList chars, decode_eq_some_iff.2 ?_⟩
    rwa [String.toList_ofList]

/-! ## Writing -/

/-- The shortest group for a unit; zero takes two bytes. -/
def encodeUnit (u : Nat) : Bytes :=
  if 0x01 ≤ u ∧ u ≤ 0x7F then [UInt8.ofNat u]
  else if u ≤ 0x7FF then [UInt8.ofNat (0xC0 + u / 0x40), UInt8.ofNat (0x80 + u % 0x40)]
  else
    [UInt8.ofNat (0xE0 + u / 0x1000), UInt8.ofNat (0x80 + u / 0x40 % 0x40),
      UInt8.ofNat (0x80 + u % 0x40)]

/-- The bytes that a text is written in. -/
def encode (s : String) : Bytes := (utf16 s.toList).flatMap encodeUnit

theorem ofNat_between (lo hi : UInt8) (n : Nat) (hlo : lo.toNat ≤ n) (hhi : n ≤ hi.toNat) :
    (lo ≤ UInt8.ofNat n ∧ UInt8.ofNat n ≤ hi) ∧ (UInt8.ofNat n).toNat = n := by
  have hn : (UInt8.ofNat n).toNat = n := by
    have := hi.toNat_lt
    rw [UInt8.toNat_ofNat', Nat.mod_eq_of_lt (by omega)]
  rw [UInt8.le_iff_toNat_le, UInt8.le_iff_toNat_le, hn]
  exact ⟨⟨hlo, hhi⟩, rfl⟩

theorem ofNat_continues (n : Nat) : Continues (UInt8.ofNat (0x80 + n % 0x40)) ∧
    (UInt8.ofNat (0x80 + n % 0x40)).toNat = 0x80 + n % 0x40 := by
  have hle : 0x80 + n % 0x40 ≤ 0xBF := by omega
  exact ofNat_between 0x80 0xBF _ (Nat.le_add_right _ _) hle

/-- The group that is written for a unit spells it. -/
theorem group_encodeUnit {u : Nat} (h : u < 0x10000) : Group (encodeUnit u) u := by
  obtain ⟨hmiddle, hmiddle'⟩ := ofNat_continues (u / 0x40)
  obtain ⟨hlast, hlast'⟩ := ofNat_continues u
  unfold encodeUnit
  split
  · next hone =>
    obtain ⟨hb, hb'⟩ := ofNat_between 0x01 0x7F u hone.1 hone.2
    have hgroup := Group.one hb
    rwa [hb'] at hgroup
  · split
    · next htwo =>
      have hle : 0xC0 + u / 0x40 ≤ 0xDF := by omega
      obtain ⟨hlead, hlead'⟩ := ofNat_between 0xC0 0xDF (0xC0 + u / 0x40) (Nat.le_add_right _ _) hle
      have hgroup := Group.two hlead hlast
      have hunit : (0xC0 + u / 0x40 - 0xC0) * 0x40 + (0x80 + u % 0x40 - 0x80) = u := by omega
      rwa [hlead', hlast', hunit] at hgroup
    · have hle : 0xE0 + u / 0x1000 ≤ 0xEF := by omega
      obtain ⟨hlead, hlead'⟩ :=
        ofNat_between 0xE0 0xEF (0xE0 + u / 0x1000) (Nat.le_add_right _ _) hle
      have hgroup := Group.three hlead hmiddle hlast
      have hunit : (0xE0 + u / 0x1000 - 0xE0) * 0x1000 +
          (0x80 + u / 0x40 % 0x40 - 0x80) * 0x40 + (0x80 + u % 0x40 - 0x80) = u := by omega
      rwa [hlead', hmiddle', hlast', hunit] at hgroup

theorem spells_flatMap {units : List Nat} (h : ∀ u ∈ units, u < 0x10000) :
    Spells (units.flatMap encodeUnit) units := by
  induction units with
  | nil => exact .nil
  | cons u units ih =>
    rw [List.forall_mem_cons] at h
    exact .cons (group_encodeUnit h.1) (ih h.2)

/-- What is written for a text is read as the text. -/
theorem decode_encode (s : String) : decode (encode s) = some s :=
  decode_eq_some_iff.2 (spells_flatMap fun _ hu => utf16_lt hu)

/-- Zero takes two bytes, and a character beyond the basic plane two groups of three. -/
example : encode (String.ofList ['\x00', Char.ofNat 0x1F600]) =
    [0xC0, 0x80, 0xED, 0xA0, 0xBD, 0xED, 0xB8, 0x80] := by decide

/-! ## Constants -/

/-- The text of a constant is the one whose UTF-16 form its bytes spell. The constant is refused for
its bytes exactly if they spell none, and what is written for a text is read back. -/
theorem utf8_decodes {pool : Pool} {index : UInt16} {body : Bytes}
    (h : pool.utf8Bytes index = .ok body) :
    (∀ units units', Spells body units → Spells body units' → units = units') ∧
    (∀ s, pool.utf8 index = .ok s ↔ Spells body (utf16 s.toList)) ∧
    ((∃ s, pool.utf8 index = .ok s) ↔ ∃ units, Spells body units ∧ Paired units) ∧
    (∀ fault, pool.utf8 index = .error fault ↔ fault = .invalidUtf8 index.toNat ∧
      ¬ ∃ units, Spells body units ∧ Paired units) ∧
    ∀ s, body = encode s → pool.utf8 index = .ok s := by
  have hok : ∀ s, pool.utf8 index = .ok s ↔ decode body = some s := by
    intro s
    simp only [Pool.utf8, h]
    cases decode body <;> simp
  have herror : ∀ fault, pool.utf8 index = .error fault ↔
      fault = .invalidUtf8 index.toNat ∧ decode body = none := by
    intro fault
    simp only [Pool.utf8, h]
    cases decode body <;> simp [eq_comm]
  refine ⟨fun _ _ hunits hunits' => hunits.unique hunits', ?_, ?_, ?_, ?_⟩
  · intro s
    rw [hok, decode_eq_some_iff]
  · simp only [hok]
    exact exists_decode_iff
  · intro fault
    rw [herror, ← exists_decode_iff, ← Option.isSome_iff_exists, Bool.not_eq_true,
      Option.isSome_eq_false_iff, Option.isNone_iff_eq_none]
  · intro s hbody
    rw [hok, hbody]
    exact decode_encode s

/-- A constant with groups of every length: an `a`, an `a` in a longer group than it needs, a zero
and a pair of surrogates. -/
def mixedGroups : Pool :=
  ⟨#[some (.utf8 [0x61, 0xC1, 0xA1, 0xC0, 0x80, 0xED, 0xA0, 0xBD, 0xED, 0xB8, 0x80])]⟩

theorem mixedGroups_decodes :
    mixedGroups.utf8Bytes 1 =
      .ok [0x61, 0xC1, 0xA1, 0xC0, 0x80, 0xED, 0xA0, 0xBD, 0xED, 0xB8, 0x80] ∧
    mixedGroups.utf8 1 = .ok (String.ofList ['a', 'a', '\x00', Char.ofNat 0x1F600]) ∧
    Spells [0x61, 0xC1, 0xA1, 0xC0, 0x80, 0xED, 0xA0, 0xBD, 0xED, 0xB8, 0x80]
      [0x61, 0x61, 0, 0xD83D, 0xDE00] := by
  have hbytes : mixedGroups.utf8Bytes 1 =
      .ok [0x61, 0xC1, 0xA1, 0xC0, 0x80, 0xED, 0xA0, 0xBD, 0xED, 0xB8, 0x80] := rfl
  have htext : mixedGroups.utf8 1 = .ok (String.ofList ['a', 'a', '\x00', Char.ofNat 0x1F600]) := rfl
  refine ⟨hbytes, htext, ?_⟩
  exact ((utf8_decodes hbytes).2.1 _).1 htext

end Unseal.ModifiedUtf8
