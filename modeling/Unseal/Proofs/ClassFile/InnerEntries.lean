import Unseal.Proofs.ClassFile.Truncation
import Unseal.Proofs.ClassFile.Layout
/-
  Inner entries — which entry of a class is its own, and what keeps it from being found

  An `InnerClasses` body is seen here as a table: a number of entries, and for each
  number below it the index of the class that the entry is about. The own entry is
  the first one that is about the class itself, in the order of the attributes and
  then of the entries. Attributes are looked at in this order up to the first that
  holds such an entry; each of them settles the search in one of three ways
  (`findOwnEntryFrom_cons`): it has a flaw, it holds the entry, or it is passed.

  What is proved:
    1. `ownEntryIn_ok`, `ownEntryIn_error` — the search in one body.
    2. `findOwnEntryFrom_error_iff`, `findOwnEntryFrom_none_iff`,
       `findOwnEntryFrom_first` — the search in all attributes.
    3. `ownEntry_located` — where the own entry of a class file is, and what is
       wrong with a class file of which all parts were read.
-/

namespace Unseal

/-- The number in the two bytes at an offset. -/
def wordAt (offset : Nat) (body : Bytes) : Option UInt16 := (flagsAt offset body).map Access.bits

/-- Entry `k` of the table in an `InnerClasses` body is about the class of this name. -/
def EntryAbout (pool : Pool) (name : String) (body : Bytes) (k : Nat) : Prop :=
  (∃ count, wordAt 0 body = some count ∧ k < count.toNat) ∧
    ∃ index, wordAt (2 + k * innerEntrySize) body = some index ∧ pool.className index = .ok name

/-- An `InnerClasses` body is no table, because of this. -/
inductive TableFlaw (body : Bytes) : TableFault → Prop where
  | missingCount (h : body.length < 2) : TableFlaw body .missingCount
  | wrongLength {count : UInt16} (hcount : wordAt 0 body = some count)
    (h : body.length ≠ 2 + count.toNat * innerEntrySize) :
    TableFlaw body (.wrongLength count.toNat (2 + count.toNat * innerEntrySize) body.length)

namespace Attribute

/-- The attribute lists nested classes. -/
def IsInnerClasses (pool : Pool) (attr : Attribute) : Prop :=
  pool.utf8Bytes attr.nameIndex = .ok innerClassesName

/-- Entry `k` of the attribute is about the class of this name. -/
def Holds (pool : Pool) (name : String) (attr : Attribute) (k : Nat) : Prop :=
  attr.IsInnerClasses pool ∧ EntryAbout pool name attr.body k

/-- The attribute has no name, or it lists nested classes in a body that is no table. -/
inductive Flawed (pool : Pool) (attr : Attribute) : ClassFault → Prop where
  | unnamed {fault : ClassFault} (h : pool.utf8Bytes attr.nameIndex = .error fault) :
    Flawed pool attr fault
  | table {flaw : TableFault} (hname : attr.IsInnerClasses pool) (h : TableFlaw attr.body flaw) :
    Flawed pool attr (.malformedInnerClasses flaw)

/-- There is nothing wrong with the attribute, and it holds no entry about the class. -/
structure Passed (pool : Pool) (name : String) (attr : Attribute) : Prop where
  sound : ∀ fault, ¬ attr.Flawed pool fault
  holdsNone : ∀ k, ¬ attr.Holds pool name k

end Attribute

/-! ## One body -/

section
variable {pool : Pool} {name : String} {body : Bytes}

theorem wordAt_cons_cons (high low : UInt8) (rest : Bytes) :
    wordAt 0 (high :: low :: rest) = some (UInt16.ofNat (beValue [high, low])) := rfl

theorem flagsAt_eq_none_iff {bs : Bytes} {offset : Nat} :
    flagsAt offset bs = none ↔ bs.length < offset + 2 := by
  have hlength : (bs.drop offset).length = bs.length - offset := List.length_drop
  unfold flagsAt
  generalize bs.drop offset = row at hlength
  match row with
  | [] | [_] =>
    simp only [List.length_nil, List.length_singleton] at hlength
    exact ⟨fun _ => (by omega), fun _ => rfl⟩
  | _ :: _ :: _ =>
    simp only [List.length_cons] at hlength
    exact ⟨fun h => (by cases h), fun h => (by omega)⟩

theorem wordAt_of_short {bs : Bytes} {offset : Nat} (h : bs.length < offset + 2) :
    wordAt offset bs = none := by
  rw [wordAt, flagsAt_eq_none_iff.2 h, Option.map_none]

theorem wordAt_drop (offset n : Nat) (bs : Bytes) :
    wordAt offset (bs.drop n) = wordAt (n + offset) bs := by
  simp only [wordAt, flagsAt, List.drop_drop]

theorem toNat_word (high low : UInt8) :
    (UInt16.ofNat (beValue [high, low])).toNat = beValue [high, low] := by
  have hlt : beValue [high, low] < capacity 2 := beValue_lt [high, low]
  rw [UInt16.toNat_ofNat']
  exact Nat.mod_eq_of_lt hlt

/-- The row of entries behind the number of them, seen from its beginning. -/
def RowAbout (pool : Pool) (name : String) (row : Bytes) (k : Nat) : Prop :=
  ∃ index, wordAt (k * innerEntrySize) row = some index ∧ pool.className index = .ok name

theorem rowAbout_zero {high low : UInt8} {rest : Bytes} :
    RowAbout pool name (high :: low :: rest) 0 ↔
      pool.className (UInt16.ofNat (beValue [high, low])) = .ok name := by
  simp [RowAbout, wordAt_cons_cons]

theorem rowAbout_succ {high low : UInt8} {rest : Bytes} {k : Nat} :
    RowAbout pool name (high :: low :: rest) (k + 1) ↔
      RowAbout pool name (rest.drop (innerEntrySize - 2)) k := by
  have hoffset : (k + 1) * innerEntrySize = innerEntrySize + k * innerEntrySize := by
    rw [Nat.succ_mul, Nat.add_comm]
  have hdrop : rest.drop (innerEntrySize - 2) = (high :: low :: rest).drop innerEntrySize := rfl
  rw [RowAbout, RowAbout, hoffset, hdrop, wordAt_drop]

theorem not_rowAbout_of_short {row : Bytes} (h : row.length < 2) (k : Nat) :
    ¬ RowAbout pool name row k := by
  rintro ⟨index, hindex, _⟩
  rw [wordAt_of_short (by omega)] at hindex
  cases hindex

theorem ownEntryFrom_some {count number found : Nat} {row : Bytes}
    (h : ownEntryFrom pool name count number row = some found) :
    ∃ k, found = number + k ∧ k < count ∧ RowAbout pool name row k ∧
      ∀ j < k, ¬ RowAbout pool name row j := by
  induction count generalizing number row with
  | zero => simp [ownEntryFrom] at h
  | succ count ih =>
    match row with
    | [] | [_] => simp [ownEntryFrom] at h
    | high :: low :: rest =>
      -- An entry about another class is passed, and the numbers behind it go up by one.
      have hnext : ¬ RowAbout pool name (high :: low :: rest) 0 →
          ownEntryFrom pool name count (number + 1) (rest.drop (innerEntrySize - 2)) = some found →
          ∃ k, found = number + k ∧ k < count + 1 ∧
            RowAbout pool name (high :: low :: rest) k ∧
            ∀ j < k, ¬ RowAbout pool name (high :: low :: rest) j := by
        intro hfirst h
        obtain ⟨k, rfl, hk, habout, hnone⟩ := ih h
        refine ⟨k + 1, by omega, by omega, rowAbout_succ.2 habout, fun j hj => ?_⟩
        cases j with
        | zero => exact hfirst
        | succ j => exact fun hj' => hnone j (by omega) (rowAbout_succ.1 hj')
      rw [ownEntryFrom] at h
      split at h
      · next found' hfound' =>
        split at h
        · next heq =>
          cases h
          exact ⟨0, rfl, Nat.succ_pos count, rowAbout_zero.2 (by rw [hfound', heq]), by simp⟩
        · next hne =>
          refine hnext (fun hzero => hne ?_) h
          exact Except.ok.inj (hfound'.symm.trans (rowAbout_zero.1 hzero))
      · next fault hfault =>
        refine hnext (fun hzero => ?_) h
        cases hfault.symm.trans (rowAbout_zero.1 hzero)

theorem ownEntryFrom_none {count number : Nat} {row : Bytes}
    (h : ownEntryFrom pool name count number row = none) :
    ∀ k < count, ¬ RowAbout pool name row k := by
  induction count generalizing number row with
  | zero => exact fun k hk => absurd hk (Nat.not_lt_zero k)
  | succ count ih =>
    match row with
    | [] | [_] => exact fun k _ => not_rowAbout_of_short (by simp) k
    | high :: low :: rest =>
      have hnext : ¬ RowAbout pool name (high :: low :: rest) 0 →
          ownEntryFrom pool name count (number + 1) (rest.drop (innerEntrySize - 2)) = none →
          ∀ k < count + 1, ¬ RowAbout pool name (high :: low :: rest) k := by
        intro hfirst h k hk
        cases k with
        | zero => exact hfirst
        | succ k => exact fun hk' => ih h k (by omega) (rowAbout_succ.1 hk')
      rw [ownEntryFrom] at h
      split at h
      · next found' hfound' =>
        split at h
        · cases h
        · next hne =>
          refine hnext (fun hzero => hne ?_) h
          exact Except.ok.inj (hfound'.symm.trans (rowAbout_zero.1 hzero))
      · next fault hfault =>
        refine hnext (fun hzero => ?_) h
        cases hfault.symm.trans (rowAbout_zero.1 hzero)

theorem entryAbout_iff {high low : UInt8} {row : Bytes} {k : Nat} :
    EntryAbout pool name (high :: low :: row) k ↔
      k < beValue [high, low] ∧ RowAbout pool name row k := by
  have hrow : row = (high :: low :: row).drop 2 := rfl
  rw [EntryAbout, wordAt_cons_cons, ← wordAt_drop, ← hrow, RowAbout]
  refine and_congr_left fun _ => ⟨?_, fun hk => ⟨_, rfl, (toNat_word high low).symm ▸ hk⟩⟩
  rintro ⟨count, hcount, hk⟩
  rwa [← Option.some.inj hcount, toNat_word] at hk

/-- What is found in a body is the first entry about the class, or there is none; and the body is a
table then. -/
theorem ownEntryIn_ok {found : Option Nat} (h : ownEntryIn pool name body = .ok found) :
    (∀ flaw, ¬ TableFlaw body flaw) ∧
      (found = none → ∀ k, ¬ EntryAbout pool name body k) ∧
      ∀ k, found = some k → EntryAbout pool name body k ∧
        (∀ j < k, ¬ EntryAbout pool name body j) ∧
        2 + k * innerEntrySize + innerEntrySize ≤ body.length := by
  match body with
  | [] | [_] => simp [ownEntryIn] at h
  | high :: low :: row =>
    simp only [ownEntryIn] at h
    split at h
    · next hlength =>
      have hfound := Except.ok.inj h
      refine ⟨?_, ?_, ?_⟩
      · rintro _ (hshort | ⟨hcount, hwrong⟩)
        · simp only [List.length_cons] at hshort
          omega
        · rw [wordAt_cons_cons] at hcount
          obtain rfl := Option.some.inj hcount
          rw [toNat_word] at hwrong
          exact hwrong hlength
      · rintro rfl k habout
        obtain ⟨hk, hrow⟩ := entryAbout_iff.1 habout
        exact ownEntryFrom_none hfound k hk hrow
      · rintro k rfl
        obtain ⟨j, hj, hcount, hrow, hnone⟩ := ownEntryFrom_some hfound
        obtain rfl : k = j := by omega
        refine ⟨entryAbout_iff.2 ⟨hcount, hrow⟩, fun j hj habout => ?_, ?_⟩
        · exact hnone j hj (entryAbout_iff.1 habout).2
        · have hle := Nat.mul_le_mul_right innerEntrySize (Nat.succ_le_of_lt hcount)
          rw [Nat.succ_mul] at hle
          omega
    · cases h

/-- A body in which nothing is looked for is no table. -/
theorem ownEntryIn_error {flaw : TableFault} (h : ownEntryIn pool name body = .error flaw) :
    TableFlaw body flaw := by
  match body with
  | [] | [_] =>
    cases h
    exact .missingCount (by simp)
  | high :: low :: row =>
    simp only [ownEntryIn] at h
    split at h
    · cases h
    · next hlength =>
      cases h
      rw [← toNat_word] at hlength ⊢
      exact .wrongLength (wordAt_cons_cons high low row) hlength

theorem TableFlaw.unique {flaw flaw' : TableFault} (h : TableFlaw body flaw)
    (h' : TableFlaw body flaw') : flaw = flaw' := by
  cases h with
  | missingCount hshort =>
    cases h' with
    | missingCount => rfl
    | wrongLength hcount =>
      rw [wordAt_of_short hshort] at hcount
      cases hcount
  | wrongLength hcount =>
    cases h' with
    | missingCount hshort =>
      rw [wordAt_of_short hshort] at hcount
      cases hcount
    | wrongLength hcount' =>
      obtain rfl := Option.some.inj (hcount.symm.trans hcount')
      rfl

end

/-! ## All attributes -/

section
variable {pool : Pool} {name : String} {attr : Attribute} {attributes rest : List Attribute}
  {number : Nat} {fault : ClassFault}

theorem Attribute.Flawed.unique {fault' : ClassFault} (h : attr.Flawed pool fault)
    (h' : attr.Flawed pool fault') : fault = fault' := by
  cases h with
  | unnamed h =>
    cases h' with
    | unnamed h' => exact Except.error.inj (h.symm.trans h')
    | table hname _ => cases h.symm.trans hname
  | table hname h =>
    cases h' with
    | unnamed h' => cases h'.symm.trans hname
    | table _ h' => rw [h.unique h']

theorem findOwnEntryFrom_cons (pool : Pool) (name : String) (number : Nat) (attr : Attribute)
    (rest : List Attribute) :
    (∃ fault, attr.Flawed pool fault ∧
      findOwnEntryFrom pool name number (attr :: rest) = .error fault) ∨
    (∃ k, (∀ fault, ¬ attr.Flawed pool fault) ∧ attr.Holds pool name k ∧
      (∀ j < k, ¬ attr.Holds pool name j) ∧
      2 + k * innerEntrySize + innerEntrySize ≤ attr.body.length ∧
      findOwnEntryFrom pool name number (attr :: rest) =
        .ok (some ⟨number, 2 + k * innerEntrySize + 6⟩)) ∨
    (attr.Passed pool name ∧ findOwnEntryFrom pool name number (attr :: rest) =
      findOwnEntryFrom pool name (number + 1) rest) := by
  rw [findOwnEntryFrom]
  cases htext : pool.utf8Bytes attr.nameIndex with
  | error fault => exact .inl ⟨fault, .unnamed htext, rfl⟩
  | ok text =>
    have hunnamed : ∀ fault, pool.utf8Bytes attr.nameIndex ≠ .error fault := by
      simp [htext]
    by_cases hinner : text = innerClassesName
    · have hname : attr.IsInnerClasses pool := htext.trans (congrArg Except.ok hinner)
      cases hfound : ownEntryIn pool name attr.body with
      | error flaw =>
        exact .inl ⟨_, .table hname (ownEntryIn_error hfound), by simp [hinner]⟩
      | ok found =>
        obtain ⟨htable, hnone, hsome⟩ := ownEntryIn_ok hfound
        have hsound : ∀ fault, ¬ attr.Flawed pool fault := by
          rintro fault (h | ⟨_, h⟩)
          · exact hunnamed fault h
          · exact htable _ h
        cases found with
        | none =>
          refine .inr (.inr ⟨⟨hsound, fun k hk => hnone rfl k hk.2⟩, ?_⟩)
          simp [hinner]
        | some k =>
          obtain ⟨habout, hfirst, hfits⟩ := hsome k rfl
          refine .inr (.inl ⟨k, hsound, ⟨hname, habout⟩, fun j hj h => hfirst j hj h.2, hfits, ?_⟩)
          simp [hinner]
    · have hother : ¬ attr.IsInnerClasses pool := fun hname =>
        hinner (Except.ok.inj (htext.symm.trans hname))
      refine .inr (.inr ⟨⟨?_, fun k hk => hother hk.1⟩, by simp [hinner]⟩)
      rintro fault (h | ⟨hname, _⟩)
      · exact hunnamed fault h
      · exact hother hname

/-- The search ends at this attribute: those in front of it are passed. -/
def ReachedAt (pool : Pool) (name : String) (attributes : List Attribute) (i : Nat)
    (attr : Attribute) : Prop :=
  attributes[i]? = some attr ∧
    ∀ j < i, ∀ attr', attributes[j]? = some attr' → attr'.Passed pool name

theorem reachedAt_zero : ReachedAt pool name (attr :: rest) 0 attr :=
  ⟨rfl, fun j hj => absurd hj (Nat.not_lt_zero j)⟩

theorem reachedAt_succ {attr' : Attribute} {i : Nat} :
    ReachedAt pool name (attr :: rest) (i + 1) attr' ↔
      attr.Passed pool name ∧ ReachedAt pool name rest i attr' := by
  refine ⟨fun h => ⟨h.2 0 (Nat.succ_pos i) attr rfl, h.1, fun j hj => ?_⟩, fun h => ⟨h.2.1, ?_⟩⟩
  · exact h.2 (j + 1) (Nat.succ_lt_succ hj)
  · intro j hj other hother
    cases j with
    | zero =>
      obtain rfl := Option.some.inj hother
      exact h.1
    | succ j => exact h.2.2 j (Nat.lt_of_succ_lt_succ hj) other hother

/-- The search fails exactly at the first flaw in front of which nothing is found. -/
theorem findOwnEntryFrom_error_iff :
    findOwnEntryFrom pool name number attributes = .error fault ↔
      ∃ i attr, ReachedAt pool name attributes i attr ∧ attr.Flawed pool fault := by
  induction attributes generalizing number with
  | nil =>
    refine ⟨fun h => (by cases h), ?_⟩
    rintro ⟨i, attr, ⟨hattr, _⟩, _⟩
    simp at hattr
  | cons attr rest ih =>
    -- A passed attribute is in front of whatever the search comes to.
    have hbehind : (∀ fault, ¬ attr.Flawed pool fault) → ((∃ i attr', ReachedAt pool name
        (attr :: rest) i attr' ∧ attr'.Flawed pool fault) ↔ attr.Passed pool name ∧
        ∃ i attr', ReachedAt pool name rest i attr' ∧ attr'.Flawed pool fault) := by
      intro hsound
      refine ⟨?_, ?_⟩
      · rintro ⟨i, attr', hreached, hflawed⟩
        cases i with
        | zero =>
          obtain rfl := Option.some.inj hreached.1
          exact absurd hflawed (hsound fault)
        | succ i =>
          obtain ⟨hpassed, hreached⟩ := reachedAt_succ.1 hreached
          exact ⟨hpassed, i, attr', hreached, hflawed⟩
      · rintro ⟨hpassed, i, attr', hreached, hflawed⟩
        exact ⟨i + 1, attr', reachedAt_succ.2 ⟨hpassed, hreached⟩, hflawed⟩
    rcases findOwnEntryFrom_cons pool name number attr rest with
      ⟨fault', hflawed, hfind⟩ | ⟨k, hsound, hholds, _, _, hfind⟩ | ⟨hpassed, hfind⟩
    · rw [hfind]
      refine ⟨fun h => ?_, ?_⟩
      · cases h
        exact ⟨0, attr, reachedAt_zero, hflawed⟩
      · rintro ⟨i, attr', hreached, hflawed'⟩
        cases i with
        | zero =>
          obtain rfl := Option.some.inj hreached.1
          rw [hflawed.unique hflawed']
        | succ i => exact absurd hflawed ((reachedAt_succ.1 hreached).1.sound fault')
    · rw [hfind, hbehind hsound]
      exact ⟨fun h => (by cases h), fun h => absurd hholds (h.1.holdsNone k)⟩
    · rw [hfind, ih, hbehind hpassed.sound]
      exact (and_iff_right hpassed).symm

/-- Nothing is found exactly if all attributes are passed. -/
theorem findOwnEntryFrom_none_iff :
    findOwnEntryFrom pool name number attributes = .ok none ↔
      ∀ attr ∈ attributes, attr.Passed pool name := by
  induction attributes generalizing number with
  | nil => simp [findOwnEntryFrom]
  | cons attr rest ih =>
    rw [List.forall_mem_cons]
    rcases findOwnEntryFrom_cons pool name number attr rest with
      ⟨fault, hflawed, hfind⟩ | ⟨k, _, hholds, _, _, hfind⟩ | ⟨hpassed, hfind⟩
    · rw [hfind]
      exact ⟨fun h => (by cases h), fun h => absurd hflawed (h.1.sound fault)⟩
    · rw [hfind]
      exact ⟨fun h => by simp at h, fun h => absurd hholds (h.1.holdsNone k)⟩
    · rw [hfind, ih]
      exact (and_iff_right hpassed).symm

/-- What is found is the first entry about the class. -/
theorem findOwnEntryFrom_first {place : EntryPlace}
    (h : findOwnEntryFrom pool name number attributes = .ok (some place)) :
    ∃ i attr k, place = ⟨number + i, 2 + k * innerEntrySize + 6⟩ ∧
      ReachedAt pool name attributes i attr ∧ attr.Holds pool name k ∧
      (∀ j < k, ¬ attr.Holds pool name j) ∧
      2 + k * innerEntrySize + innerEntrySize ≤ attr.body.length := by
  induction attributes generalizing number with
  | nil => simp [findOwnEntryFrom] at h
  | cons attr rest ih =>
    rcases findOwnEntryFrom_cons pool name number attr rest with
      ⟨fault, _, hfind⟩ | ⟨k, _, hholds, hfirst, hfits, hfind⟩ | ⟨hpassed, hfind⟩
    · cases h.symm.trans hfind
    · obtain rfl := Option.some.inj (Except.ok.inj (h.symm.trans hfind))
      exact ⟨0, attr, k, rfl, reachedAt_zero, hholds, hfirst, hfits⟩
    · obtain ⟨i, attr', k, rfl, hreached, hrest⟩ := ih (hfind.symm.trans h)
      refine ⟨i + 1, attr', k, ?_, reachedAt_succ.2 ⟨hpassed, hreached⟩, hrest⟩
      rw [Nat.add_assoc, Nat.add_comm 1 i]

end

/-! ## A class file -/

/-- Entry `k` of attribute `i` is about the class of this name, and in the order of the attributes and
then of the entries none in front of it is. -/
structure FirstEntry (pool : Pool) (name : String) (attributes : List Attribute) (i : Nat)
    (attr : Attribute) (k : Nat) : Prop where
  standsAt : attributes[i]? = some attr
  holds : attr.Holds pool name k
  ofAttribute : ∀ j < k, ¬ attr.Holds pool name j
  ofAttributes : ∀ j < i, ∀ attr', attributes[j]? = some attr' → ∀ k', ¬ attr'.Holds pool name k'

namespace ClassFile

theorem findOwnEntry_some {pool : Pool} {name : String} {attributes : List Attribute}
    {place : EntryPlace} (h : findOwnEntry pool name attributes = .ok (some place)) :
    ∃ attr k, FirstEntry pool name attributes place.number attr k ∧
      place.offset = 2 + k * innerEntrySize + 6 ∧ place.offset + 2 ≤ attr.body.length := by
  obtain ⟨i, attr, k, rfl, ⟨hattr, hpassed⟩, hholds, hfirst, hfits⟩ := findOwnEntryFrom_first h
  rw [Nat.zero_add]
  refine ⟨attr, k, ⟨hattr, hholds, hfirst, ?_⟩, rfl, hfits⟩
  intro j hj attr' hattr'
  exact (hpassed j hj attr' hattr').holdsNone

theorem identify_error_iff {parts : ClassFile} {slashed : String} {fault : ClassFault}
    (h : parts.pool.className parts.thisClass = .ok slashed) :
    parts.identify = .error fault ↔
      findOwnEntry parts.pool slashed parts.attributes = .error fault := by
  unfold identify
  cases hentry : findOwnEntry parts.pool slashed parts.attributes <;> simp [h, hentry]

/-- The own entry of a class file is the first about the class, and its flags can be read and set.
Where all parts are read, the class has a name and no bytes follow, the file is refused exactly for the
first flaw that the search for this entry comes to. -/
theorem ownEntry_located (bs : Bytes) :
    (∀ c, decode bs = .ok c → ∃ slashed, c.pool.className c.thisClass = .ok slashed ∧
      (c.ownEntry = none ↔ ∀ attr ∈ c.attributes, ∀ k, ¬ attr.Holds c.pool slashed k) ∧
      ∀ place, c.ownEntry = some place → ∃ attr k flags,
        FirstEntry c.pool slashed c.attributes place.number attr k ∧
        place.offset = 2 + k * innerEntrySize + 6 ∧ place.offset + 2 ≤ attr.body.length ∧
        flagsAt place.offset attr.body = some flags ∧ c.innerAccess = some flags ∧
        ∀ access, ∃ d, c.setInnerAccess access = some d ∧ d.innerAccess = some access) ∧
    ∀ parts d slashed, readParts ⟨0, bs⟩ = .ok (parts, d) → d.rest = [] →
      parts.pool.className parts.thisClass = .ok slashed →
      ∀ fault, decode bs = .error fault ↔
        ∃ i attr, ReachedAt parts.pool slashed parts.attributes i attr ∧
          attr.Flawed parts.pool fault := by
  refine ⟨fun c h => ?_, fun parts d slashed hparts hend hname fault => ?_⟩
  · obtain ⟨slashed, hname, _, hentry⟩ := (decode_ok_iff.1 h).1.identified
    refine ⟨slashed, hname, ⟨fun hnone attr hattr => ?_, fun hnone => ?_⟩, fun place hplace => ?_⟩
    · rw [hnone] at hentry
      exact (findOwnEntryFrom_none_iff.1 hentry attr hattr).holdsNone
    · cases hplace : c.ownEntry with
      | none => rfl
      | some place =>
        rw [hplace] at hentry
        obtain ⟨attr, k, hfirst, _⟩ := findOwnEntry_some hentry
        exact absurd hfirst.holds (hnone attr (List.mem_of_getElem? hfirst.standsAt) k)
    · rw [hplace] at hentry
      obtain ⟨attr, k, hfirst, hoffset, hfits⟩ := findOwnEntry_some hentry
      have hflags : flagsAt place.offset attr.body ≠ none := fun hnone =>
        Nat.not_lt_of_le hfits (flagsAt_eq_none_iff.1 hnone)
      obtain ⟨flags, hflags⟩ := Option.ne_none_iff_exists'.1 hflags
      have hinner : c.innerAccess = some flags :=
        innerAccess_eq_some_iff.2 ⟨place, attr, hplace, hfirst.standsAt, hflags⟩
      refine ⟨attr, k, flags, hfirst, hoffset, hfits, hflags, hinner, fun access => ?_⟩
      have hset : c.setInnerAccess access ≠ none := by
        rw [Ne, setInnerAccess_eq_none_iff, hinner]
        exact Option.some_ne_none flags
      obtain ⟨d, hd⟩ := Option.ne_none_iff_exists'.1 hset
      exact ⟨d, hd, innerAccess_setInnerAccess hd⟩
  · rw [decode_of_parts hparts, hend, List.isEmpty_nil, if_pos rfl, identify_error_iff hname]
    exact findOwnEntryFrom_error_iff

/-- `sealedBytes`, where the body that lists nested classes is an entry short of the number in it. -/
def shortTableBytes : Bytes := sealedBytes.take 79 ++ [0, 2] ++ sealedBytes.drop 81

/-- The attribute in `shortTableBytes`. -/
def shortTable : Attribute := ⟨7, [0, 2, 0, 2, 0, 0, 0, 1, 0, 0x19]⟩

theorem sealedBytes_located : decode sealedBytes = .ok sealedClass ∧
    (∃ attr k, FirstEntry sealedClass.pool "A" sealedClass.attributes 0 attr k ∧
      2 + k * innerEntrySize + 6 = 8) ∧
    decode shortTableBytes = .error (.malformedInnerClasses (.wrongLength 2 18 10)) := by
  obtain ⟨slashed, hname, _, hplace⟩ := (ownEntry_located sealedBytes).1 sealedClass decode_sealedBytes
  obtain rfl : "A" = slashed := Except.ok.inj hname
  obtain ⟨attr, k, flags, hfirst, hoffset, _⟩ := hplace ⟨0, 8⟩ rfl
  have hparts : readParts ⟨0, shortTableBytes⟩ =
      .ok ({ sealedClass.parts with attributes := [shortTable] }, ⟨89, []⟩) := rfl
  refine ⟨decode_sealedBytes, ⟨attr, k, hfirst, hoffset.symm⟩, ?_⟩
  refine ((ownEntry_located shortTableBytes).2 _ _ "A" hparts rfl rfl _).2
    ⟨0, shortTable, reachedAt_zero, .table rfl ?_⟩
  exact TableFlaw.wrongLength (rfl : wordAt 0 shortTable.body = some 2) (by decide)

end ClassFile

end Unseal
