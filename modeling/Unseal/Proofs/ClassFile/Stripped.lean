import Unseal.ClassFile.Edit
import Unseal.Proofs.ClassFile.Clearing
/-
  Stripped classes — what stripping leaves

  The place of the own entry is found by looking at the indices in the entries in
  front of it and at its own. The flags of the entry stand behind all of them, so
  the entry is found again whatever flags are written there. A stripped class is
  therefore consistent if the class was, and there is nothing left on it to strip.

  What is proved:
    1. `findOwnEntry_withFlags` — the own entry is found again behind other flags.
    2. `Consistent.strip` — a stripped class is consistent.
    3. `access_strip`, `innerAccess_strip` — the flags of a stripped class are those
       that it had, without `final`.
    4. `isFinal_strip`, `isPublicFinal_strip` — a stripped class is not final, and
       none of its methods is public and final.
    5. `strip_eq_self` — where nothing is final, stripping changes nothing.
    6. `strip_strip`, `stripSummary_strip` — stripping a stripped class again changes
       nothing and reports nothing.
-/

namespace Unseal

/-! ## The own entry behind other flags -/

section
variable {pool : Pool} {name : String} {attributes : List Attribute} {place : EntryPlace}

theorem exists_two_of_take {n : Nat} {high low : UInt8} {bs rest : Bytes}
    (h : bs.take (n + 2) = (high :: low :: rest).take (n + 2)) :
    ∃ rest', bs = high :: low :: rest' ∧ rest'.take n = rest.take n := by
  match bs with
  | [] => simp at h
  | [_] => simp at h
  | high' :: low' :: rest' =>
    simp only [List.take_succ_cons, List.cons.injEq] at h
    obtain ⟨rfl, rfl, h⟩ := h
    exact ⟨rest', rfl, h⟩

theorem le_of_ownEntryFrom {count number k : Nat} {bs : Bytes}
    (h : ownEntryFrom pool name count number bs = some k) : number ≤ k := by
  fun_induction ownEntryFrom pool name count number bs with
  | case1 => exact Nat.le_of_eq (Option.some.inj h)
  | case2 _ _ _ _ _ _ _ _ ih => exact Nat.le_of_succ_le (ih h)
  | case3 _ _ _ _ _ _ _ ih => exact Nat.le_of_succ_le (ih h)
  | case4 => cases h

theorem ownEntryFrom_of_take {count number j : Nat} {bs bs' : Bytes}
    (h : ownEntryFrom pool name count number bs = some (number + j))
    (hsame : bs'.take (j * innerEntrySize + 2) = bs.take (j * innerEntrySize + 2)) :
    ownEntryFrom pool name count number bs' = some (number + j) := by
  induction count generalizing number j bs bs' with
  | zero => simp [ownEntryFrom] at h
  | succ count ih =>
    match bs with
    | [] | [_] => simp [ownEntryFrom] at h
    | high :: low :: rest =>
      obtain ⟨rest', rfl, hrest⟩ := exists_two_of_take hsame
      -- The entry is behind this one, and so are the bytes that tell it.
      have hnext : ownEntryFrom pool name count (number + 1) (rest.drop (innerEntrySize - 2)) =
          some (number + j) →
          ownEntryFrom pool name count (number + 1) (rest'.drop (innerEntrySize - 2)) =
          some (number + j) := by
        intro h
        obtain ⟨i, rfl⟩ : ∃ i, j = i + 1 := ⟨j - 1, by have := le_of_ownEntryFrom h; omega⟩
        have hsize : innerEntrySize - 2 + (i * innerEntrySize + 2) = (i + 1) * innerEntrySize := by
          simp only [innerEntrySize]
          omega
        rw [Nat.add_comm i 1, ← Nat.add_assoc] at h ⊢
        apply ih h
        rw [List.take_drop, List.take_drop, hsize, hrest]
      rw [ownEntryFrom] at h ⊢
      split at h
      · split at h
        · next heq => rw [if_pos heq, h]
        · next hne =>
          rw [if_neg hne]
          exact hnext h
      · exact hnext h

theorem ownEntryIn_of_take {body body' : Bytes} {entry : Nat}
    (h : ownEntryIn pool name body = .ok (some entry)) (hlength : body'.length = body.length)
    (hsame : body'.take (entry * innerEntrySize + 2 + 2) =
      body.take (entry * innerEntrySize + 2 + 2)) :
    ownEntryIn pool name body' = .ok (some entry) := by
  match body with
  | [] | [_] => simp [ownEntryIn] at h
  | high :: low :: entries =>
    obtain ⟨entries', rfl, hentries⟩ := exists_two_of_take hsame
    simp only [ownEntryIn, hlength] at h ⊢
    split at h
    · next hexpected =>
      rw [if_pos hexpected]
      have hfound : ownEntryFrom pool name (beValue [high, low]) 0 entries = some (0 + entry) := by
        rw [Nat.zero_add]
        exact Except.ok.inj h
      rw [ownEntryFrom_of_take hfound hentries, Nat.zero_add]
    · cases h

/-- What is found in a row of attributes is an entry in one of them, and it is found as well when
that attribute is replaced by one in which it is found. -/
theorem findOwnEntryFrom_some {number : Nat}
    (h : findOwnEntryFrom pool name number attributes = .ok (some place)) :
    ∃ i attr entry, place = ⟨number + i, 2 + entry * innerEntrySize + 6⟩ ∧
      attributes[i]? = some attr ∧ ownEntryIn pool name attr.body = .ok (some entry) ∧
      ∀ attr' : Attribute, attr'.nameIndex = attr.nameIndex →
        ownEntryIn pool name attr'.body = .ok (some entry) →
        findOwnEntryFrom pool name number (attributes.set i attr') = .ok (some place) := by
  induction attributes generalizing number with
  | nil => cases h
  | cons attr rest ih =>
    have hbehind : findOwnEntryFrom pool name (number + 1) rest = .ok (some place) →
        ∃ i attr' entry, place = ⟨number + (i + 1), 2 + entry * innerEntrySize + 6⟩ ∧
          rest[i]? = some attr' ∧ ownEntryIn pool name attr'.body = .ok (some entry) ∧
          ∀ new : Attribute, new.nameIndex = attr'.nameIndex →
            ownEntryIn pool name new.body = .ok (some entry) →
            findOwnEntryFrom pool name (number + 1) (rest.set i new) = .ok (some place) := by
      intro h
      obtain ⟨i, attr', entry, rfl, hattr', hentry, hset⟩ := ih h
      exact ⟨i, attr', entry, by rw [Nat.add_assoc, Nat.add_comm 1 i], hattr', hentry, hset⟩
    rw [findOwnEntryFrom] at h
    split at h
    · cases h
    · next text htext =>
      split at h
      · next hinner =>
        split at h
        · cases h
        · next entry hentry =>
          cases h
          refine ⟨0, attr, entry, rfl, rfl, hentry, fun attr' hname hentry' => ?_⟩
          simp only [List.set_cons_zero, findOwnEntryFrom, hname, htext, hinner, if_true, hentry']
        · next hnone =>
          obtain ⟨i, attr', entry, rfl, hattr', hentry, hset⟩ := hbehind h
          refine ⟨i + 1, attr', entry, rfl, hattr', hentry, fun new hname hentry' => ?_⟩
          simp only [List.set_cons_succ, findOwnEntryFrom, htext, hinner, if_true, hnone]
          exact hset new hname hentry'
      · next hother =>
        obtain ⟨i, attr', entry, rfl, hattr', hentry, hset⟩ := hbehind h
        refine ⟨i + 1, attr', entry, rfl, hattr', hentry, fun new hname hentry' => ?_⟩
        simp only [List.set_cons_succ, findOwnEntryFrom, htext, hother, if_false]
        exact hset new hname hentry'

theorem take_setFlagsAt {offset n : Nat} {a old : Access} {body : Bytes}
    (h : flagsAt offset body = some old) (hn : n ≤ offset) :
    (setFlagsAt offset a body).length = body.length ∧
      (setFlagsAt offset a body).take n = body.take n := by
  obtain ⟨head, tail, rfl, rfl⟩ := eq_append_of_flagsAt h
  rw [setFlagsAt_append]
  refine ⟨by simp, ?_⟩
  rw [List.append_assoc, List.append_assoc, List.take_append_of_le_length hn,
    List.take_append_of_le_length hn]

theorem findOwnEntry_withFlags {attr : Attribute} {old : Access}
    (h : findOwnEntry pool name attributes = .ok (some place))
    (hattr : attributes[place.number]? = some attr) (hold : flagsAt place.offset attr.body = some old)
    (a : Access) :
    findOwnEntry pool name (attributes.set place.number (attr.withFlags place.offset a)) =
      .ok (some place) := by
  obtain ⟨i, attr', entry, hplace, hattr', hentry, hset⟩ := findOwnEntryFrom_some h
  rw [Nat.zero_add] at hplace
  subst hplace
  obtain rfl : attr' = attr := Option.some.inj (hattr'.symm.trans hattr)
  obtain ⟨hlength, htake⟩ := take_setFlagsAt (a := a) hold
    (show entry * innerEntrySize + 2 + 2 ≤ 2 + entry * innerEntrySize + 6 by omega)
  exact hset _ rfl (ownEntryIn_of_take hentry hlength htake)

end

/-! ## What stripping keeps -/

theorem Method.TextsIn.strip {m : Method} {pool : Pool} (h : m.TextsIn pool) :
    m.strip.TextsIn pool := by
  unfold Method.strip
  split
  · exact ⟨h.name, h.descriptor⟩
  · exact h

namespace ClassFile

theorem ownEntry_stripInner (c : ClassFile) : c.stripInner.ownEntry = c.ownEntry := by
  rcases stripInner_cases c with ⟨hkeep, _⟩ | ⟨_, _, _, _, _, _, _, _, hset⟩
  · rw [hkeep]
  · rw [hset]

theorem Identified.stripInner {c : ClassFile} {slashed : String}
    (h : findOwnEntry c.pool slashed c.attributes = .ok c.ownEntry) :
    findOwnEntry c.pool slashed c.stripInner.attributes = .ok c.ownEntry := by
  rcases stripInner_cases c with ⟨hkeep, _⟩ | ⟨place, attr, a, hplace, hattr, ha, _, _, hset⟩
  · rw [hkeep, h]
  · rw [hset, hplace]
    rw [hplace] at h
    exact findOwnEntry_withFlags h hattr ha _

/-- A stripped class is consistent. -/
theorem Consistent.strip {c : ClassFile} (h : c.Consistent) : c.strip.1.Consistent := by
  obtain ⟨hpaired, htexts, slashed, hslashed, hname, hentry⟩ := h
  rw [strip_eq]
  refine ⟨hpaired, ?_, slashed, hslashed, hname, Identified.stripInner hentry⟩
  intro stripped hstripped
  obtain ⟨m, hm, rfl⟩ := List.mem_map.1 hstripped
  exact (htexts m hm).strip

@[simp] theorem name_strip (c : ClassFile) : c.strip.1.name = c.name := by rw [strip_eq]

end ClassFile

/-! ## What stripping leaves to clear -/

theorem Access.withoutFinal_eq_self {a : Access} (h : a.isFinal = false) : a.withoutFinal = a := by
  have hmask : (0x10 : BitVec 16) = BitVec.twoPow 16 4 := rfl
  -- The mask is one bit, so flags that do not hold all of it hold nothing of it.
  have hclear : a.bits.toBitVec.getLsbD 4 = false := by
    rw [← Bool.not_eq_true]
    intro hset
    have hand : a.bits &&& finalBit = finalBit := by
      apply UInt16.eq_of_toBitVec_eq
      show a.bits.toBitVec &&& 0x10 = 0x10
      rw [hmask, BitVec.and_twoPow, if_pos hset]
    rw [isFinal, has, decide_eq_false_iff_not] at h
    exact h hand
  have hbits : a.bits &&& ~~~finalBit = a.bits := by
    apply UInt16.eq_of_toBitVec_eq
    show a.bits.toBitVec &&& ~~~0x10 = a.bits.toBitVec
    apply BitVec.eq_of_getLsbD_eq
    intro i hi
    rw [hmask, BitVec.getLsbD_and, BitVec.getLsbD_not, BitVec.getLsbD_twoPow]
    by_cases hbit : i = 4
    · rw [hbit, hclear, Bool.false_and]
    · simp [hi, Ne.symm hbit]
  rw [withoutFinal, hbits]

theorem Access.isFinal_withoutFinal (a : Access) : a.withoutFinal.isFinal = false := by
  have hmask : (~~~finalBit &&& finalBit : UInt16) = 0 := rfl
  simp only [isFinal, has, withoutFinal, UInt16.and_assoc, hmask, UInt16.and_zero]
  rfl

theorem Access.withoutFinal_ne_self_iff {a : Access} : a.withoutFinal ≠ a ↔ a.isFinal = true := by
  refine ⟨?_, ?_⟩
  · intro hne
    rw [← Bool.not_eq_false]
    intro hopen
    exact hne (withoutFinal_eq_self hopen)
  · intro hfinal hsame
    rw [← hsame, isFinal_withoutFinal] at hfinal
    cases hfinal

theorem Method.isPublicFinal_strip (m : Method) : m.strip.isPublicFinal = false := by
  unfold Method.strip
  split
  · simp [Method.isPublicFinal, Access.isFinal_withoutFinal]
  · next h => exact Bool.not_eq_true _ ▸ h

namespace ClassFile

/-- No method of a stripped class is public and final. -/
theorem isPublicFinal_strip {c : ClassFile} {m : Method} (hm : m ∈ c.strip.1.methods) :
    m.isPublicFinal = false := by
  rw [strip_eq] at hm
  obtain ⟨m, _, rfl⟩ := List.mem_map.1 hm
  exact m.isPublicFinal_strip

theorem innerAccess_stripInner (c : ClassFile) :
    c.stripInner.innerAccess = c.innerAccess.map Access.withoutFinal := by
  cases hinner : c.innerAccess with
  | none => simp [stripInner, hinner]
  | some a =>
    cases hfinal : a.isFinal with
    | false => simp [stripInner, hinner, hfinal, Access.withoutFinal_eq_self hfinal]
    | true =>
      have hset : c.setInnerAccess a.withoutFinal ≠ none := by
        rw [Ne, setInnerAccess_eq_none_iff, hinner]
        exact Option.some_ne_none a
      obtain ⟨d, hd⟩ := Option.ne_none_iff_exists'.1 hset
      have hread : d.innerAccess = some a.withoutFinal := innerAccess_setInnerAccess hd
      simp [stripInner, hinner, hfinal, hd, hread]

theorem access_strip (c : ClassFile) : c.strip.1.access = c.access.withoutFinal := by
  rw [strip_eq]
  dsimp only
  split
  · rfl
  · next h => rw [Access.withoutFinal_eq_self (Bool.eq_false_iff.2 h)]

/-- The flags in the own entry are those that were read there, without `final`. -/
theorem innerAccess_strip (c : ClassFile) :
    c.strip.1.innerAccess = c.innerAccess.map Access.withoutFinal := by
  rw [← innerAccess_stripInner, strip_eq, innerAccess, innerAccess, ownEntry_stripInner]

/-- A stripped class is not final, neither in its own flags nor in its own entry. -/
theorem isFinal_strip (c : ClassFile) : c.strip.1.access.isFinal = false ∧
    c.strip.1.innerAccess.any Access.isFinal = false := by
  rw [access_strip, innerAccess_strip]
  refine ⟨c.access.isFinal_withoutFinal, ?_⟩
  cases c.innerAccess with
  | none => rfl
  | some a => exact a.isFinal_withoutFinal

theorem strip_eq_self {c : ClassFile} (haccess : c.access.isFinal = false)
    (hinner : c.innerAccess.any Access.isFinal = false)
    (hmethods : ∀ m ∈ c.methods, m.isPublicFinal = false) : c.strip.1 = c := by
  have hentry : c.stripInner = c := by
    cases h : c.innerAccess with
    | none => simp [stripInner, h]
    | some a =>
      have hfinal : a.isFinal = false := by rwa [h] at hinner
      simp [stripInner, h, hfinal]
  have hsame : c.methods.map Method.strip = c.methods.map id := by
    apply List.map_congr_left
    intro m hm
    simp [Method.strip, hmethods m hm]
  rw [strip_eq, haccess, hentry, hsame, List.map_id]
  rfl

/-- Stripping a stripped class changes nothing. -/
theorem strip_strip (c : ClassFile) : c.strip.1.strip.1 = c.strip.1 := by
  obtain ⟨haccess, hinner⟩ := isFinal_strip c
  exact strip_eq_self haccess hinner fun m hm => isPublicFinal_strip hm

theorem stripSummary_strip (c : ClassFile) : c.strip.1.stripSummary = ⟨false, []⟩ := by
  obtain ⟨haccess, hinner⟩ := isFinal_strip c
  have hfinal : c.strip.1.isFinal = false := by
    rw [isFinal, haccess, Bool.false_or]
    cases h : c.strip.1.innerAccess with
    | none => rfl
    | some a => rwa [h] at hinner
  have hmethods : c.strip.1.methods.filter Method.isPublicFinal = [] := by
    apply List.filter_eq_nil_iff.2
    intro m hm
    rw [isPublicFinal_strip hm]
    exact Bool.false_ne_true
  rw [stripSummary, hfinal, hmethods, List.map_nil]

end ClassFile

end Unseal
