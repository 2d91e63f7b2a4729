import Unseal.Proofs.ClassFile.CheckedReading
import Unseal.Proofs.ClassFile.Truncation
import Unseal.Proofs.Text.ModifiedUtf8
/-
  Checks that pass — no bytes make reading trap on a machine

  Checked reading is followed side by side with reading. From a position in the file
  both find the same fault, or both read the same and come to the same position in
  the file (`Machine.Agrees`); one reader behind another keeps this, so it is proved
  of runs of bytes once and carried up to whole class files. It says that no check
  fails, since a trap is no fault that reading finds. Three places need more than
  that the file is in memory:

    - the loop over the pool, in which the index is below the count when a constant
      is read, and the check for the second slot of a wide one keeps the next index
      from going beyond the largest count;
    - a unit of three bytes, the largest of which fills its word;
    - the offsets of entries, which lie in a body that has the length that its number
      of entries asks for.

  What is proved:
    1. `Checked.unitsFrom_eq`, `Checked.text_eq` — the same text is read.
    2. `Machine.agrees_readSlots` — the loop over the pool, by its turns.
    3. `Machine.agrees_readParts` — all parts of a class file.
    4. `Machine.ownEntryFrom_eq`, `Machine.ownEntryIn_eq` — the search for the own entry.
    5. `Machine.decode_passes` — whole files.
-/

namespace Unseal

/-! ## Calculations -/

namespace Checked

section
variable {α β : Type} {largest a b : Nat} {bs : Bytes}

@[simp] theorem ok_bind (a : α) (k : α → Checked β) : ((.ok a : Checked α) >>= k) = k a := rfl

theorem add_eq (h : a + b ≤ largest) : add largest a b = .ok (a + b) := if_pos h

theorem mul_eq (h : a * b ≤ largest) : mul largest a b = .ok (a * b) := if_pos h

theorem sub_eq (h : b ≤ a) : sub a b = .ok (a - b) := if_pos h

theorem byteAt_eq {b : UInt8} {place : Nat} (h : bs[place]? = some b) : byteAt bs place = .ok b := by
  rw [byteAt, h]

theorem slice_eq {start stop : Nat} (h : start ≤ stop) (h' : stop ≤ bs.length) :
    slice bs start stop = .ok ((bs.drop start).take (stop - start)) :=
  if_pos ⟨h, h'⟩

theorem slice_behind {used : Nat} (h : used ≤ bs.length) :
    slice bs used bs.length = .ok (bs.drop used) := by
  have hlength : (bs.drop used).length = bs.length - used := List.length_drop
  rw [slice_eq h (Nat.le_refl _), ← hlength, List.take_length]

theorem firstBytes_take {n : Nat} (h : n ≤ bs.length) : firstBytes bs n = .ok (bs.take n) := by
  induction n with
  | zero => rfl
  | succ n ih =>
    have hplace : bs[n]? = some bs[n] := List.getElem?_eq_getElem h
    rw [firstBytes, ih (by omega), byteAt_eq hplace, List.take_add_one, hplace]
    rfl

theorem firstBytes_eq (bs : Bytes) : firstBytes bs bs.length = .ok bs := by
  rw [firstBytes_take (Nat.le_refl _), List.take_length]

theorem caught_eq (found : Except ClassFault α) : caught (found.mapError .fault) = .ok found := by
  cases found <;> rfl

end

/-! ## Texts -/

section
variable {lead b : UInt8} {tail bs : Bytes} {done : List Nat}

theorem continuation?_le {low : Nat} (h : ModifiedUtf8.continuation? b = some low) : low ≤ 63 := by
  unfold ModifiedUtf8.continuation? at h
  split at h
  · cases h
    rw [UInt8.toNat_and]
    exact Nat.and_le_right
  · cases h

theorem continuationAt_zero (b : UInt8) (tail : Bytes) :
    continuationAt (b :: tail) 0 = ModifiedUtf8.continuation? b := rfl

theorem toNat_and_le (lead mask : UInt8) : (lead &&& mask).toNat ≤ mask.toNat := by
  rw [UInt8.toNat_and]
  exact Nat.and_le_right

theorem unitOfTwo_eq {high low : Nat} (hhigh : high ≤ 31) (hlow : low ≤ 63) :
    unitOfTwo high low = .ok (high * 64 + low) := by
  rw [unitOfTwo, mul_eq (by omega), ok_bind, add_eq (by omega)]

theorem unitOfThree_eq {high middle low : Nat} (hhigh : high ≤ 15) (hmiddle : middle ≤ 63)
    (hlow : low ≤ 63) :
    unitOfThree high middle low = .ok (high * 4096 + middle * 64 + low) := by
  rw [unitOfThree, mul_eq (by omega), ok_bind, mul_eq (by omega), ok_bind, add_eq (by omega),
    ok_bind, add_eq (by omega)]

/-- A group is within the bytes and spells the unit that is read, or there is no group. -/
def SameUnit (lead : UInt8) (tail : Bytes) : Prop :=
  (∃ u used, used ≤ tail.length ∧ unit lead tail = .ok (some (u, used)) ∧
    ∀ done, ModifiedUtf8.unitsFrom done (lead :: tail) =
      ModifiedUtf8.unitsFrom (u :: done) (tail.drop used)) ∨
  (unit lead tail = .ok none ∧ ∀ done, ModifiedUtf8.unitsFrom done (lead :: tail) = none)

theorem sameUnit_two (hone : ¬ (0x01 ≤ lead ∧ lead ≤ 0x7F)) (htwo : 0xC0 ≤ lead ∧ lead ≤ 0xDF)
    (tail : Bytes) : SameUnit lead tail := by
  have hhigh : (lead &&& 0x1F).toNat ≤ 31 := toNat_and_le lead 0x1F
  match tail with
  | [] =>
    refine .inr ⟨?_, fun done => by simp [ModifiedUtf8.unitsFrom, hone, htwo]⟩
    rw [unit, if_neg hone, if_pos htwo]
    rfl
  | b :: rest =>
    cases hlow : ModifiedUtf8.continuation? b with
    | none =>
      refine .inr ⟨?_, fun done => by simp [ModifiedUtf8.unitsFrom, hone, htwo, hlow]⟩
      rw [unit, if_neg hone, if_pos htwo, continuationAt_zero, hlow]
      rfl
    | some low =>
      refine .inl ⟨(lead &&& 0x1F).toNat * 64 + low, 1, by simp, ?_, fun done => ?_⟩
      · rw [unit, if_neg hone, if_pos htwo, continuationAt_zero, hlow]
        simp only [unitOfTwo_eq hhigh (continuation?_le hlow), ok_bind]
        rfl
      · simp [ModifiedUtf8.unitsFrom, hone, htwo, hlow]

theorem sameUnit_three (hone : ¬ (0x01 ≤ lead ∧ lead ≤ 0x7F))
    (htwo : ¬ (0xC0 ≤ lead ∧ lead ≤ 0xDF)) (hthree : 0xE0 ≤ lead ∧ lead ≤ 0xEF) (tail : Bytes) :
    SameUnit lead tail := by
  have hhigh : (lead &&& 0x0F).toNat ≤ 15 := toNat_and_le lead 0x0F
  match tail with
  | [] =>
    refine .inr ⟨?_, fun done => by simp [ModifiedUtf8.unitsFrom, hone, htwo, hthree]⟩
    rw [unit, if_neg hone, if_neg htwo, if_pos hthree]
    rfl
  | [b] =>
    refine .inr ⟨?_, fun done => by simp [ModifiedUtf8.unitsFrom, hone, htwo, hthree]⟩
    rw [unit, if_neg hone, if_neg htwo, if_pos hthree, continuationAt_zero]
    cases ModifiedUtf8.continuation? b <;> rfl
  | b :: b' :: rest =>
    have hsecond : continuationAt (b :: b' :: rest) 1 = ModifiedUtf8.continuation? b' := rfl
    cases hmiddle : ModifiedUtf8.continuation? b with
    | none =>
      refine .inr ⟨?_, fun done => by simp [ModifiedUtf8.unitsFrom, hone, htwo, hthree, hmiddle]⟩
      rw [unit, if_neg hone, if_neg htwo, if_pos hthree, continuationAt_zero, hmiddle]
      rfl
    | some middle =>
      cases hlow : ModifiedUtf8.continuation? b' with
      | none =>
        refine .inr ⟨?_,
          fun done => by simp [ModifiedUtf8.unitsFrom, hone, htwo, hthree, hmiddle, hlow]⟩
        rw [unit, if_neg hone, if_neg htwo, if_pos hthree, continuationAt_zero, hsecond, hmiddle,
          hlow]
        rfl
      | some low =>
        refine .inl ⟨(lead &&& 0x0F).toNat * 4096 + middle * 64 + low, 2, by simp, ?_, fun done => ?_⟩
        · rw [unit, if_neg hone, if_neg htwo, if_pos hthree, continuationAt_zero, hsecond, hmiddle,
            hlow]
          simp only [unitOfThree_eq hhigh (continuation?_le hmiddle) (continuation?_le hlow),
            ok_bind]
          rfl
        · simp [ModifiedUtf8.unitsFrom, hone, htwo, hthree, hmiddle, hlow]

theorem sameUnit (lead : UInt8) (tail : Bytes) : SameUnit lead tail := by
  by_cases hone : 0x01 ≤ lead ∧ lead ≤ 0x7F
  · exact .inl ⟨lead.toNat, 0, Nat.zero_le _, if_pos hone,
      fun done => by simp [ModifiedUtf8.unitsFrom.eq_def done, hone]⟩
  · by_cases htwo : 0xC0 ≤ lead ∧ lead ≤ 0xDF
    · exact sameUnit_two hone htwo tail
    · by_cases hthree : 0xE0 ≤ lead ∧ lead ≤ 0xEF
      · exact sameUnit_three hone htwo hthree tail
      · refine .inr ⟨?_, fun done => ?_⟩
        · rw [unit, if_neg hone, if_neg htwo, if_neg hthree]
          rfl
        · simp only [ModifiedUtf8.unitsFrom.eq_def done, hone, htwo, hthree, if_false]

/-- With a turn for every byte no turn is missing, by induction on the turns. -/
theorem unitsFrom_eq {turns : Nat} (h : bs.length ≤ turns) :
    unitsFrom turns done bs = .ok (ModifiedUtf8.unitsFrom done bs) := by
  induction turns generalizing done bs with
  | zero =>
    obtain rfl : bs = [] := List.eq_nil_of_length_eq_zero (Nat.le_zero.1 h)
    rfl
  | succ turns ih =>
    match bs with
    | [] => rfl
    | lead :: tail =>
      rw [unitsFrom]
      rcases sameUnit lead tail with ⟨u, used, hused, hunit, hsame⟩ | ⟨hunit, hnone⟩
      · have hlength : (tail.drop used).length ≤ turns := by
          rw [List.length_drop]
          simp only [List.length_cons] at h
          omega
        rw [hunit, hsame, ok_bind]
        simp only [slice_behind hused, ok_bind]
        exact ih hlength
      · rw [hunit, hnone]
        rfl

theorem text_eq (bs : Bytes) : text bs = .ok (ModifiedUtf8.decode bs) := by
  rw [text, unitsFrom_eq (Nat.le_refl _), ok_bind, ModifiedUtf8.decode, ModifiedUtf8.units?]
  cases ModifiedUtf8.unitsFrom [] bs with
  | none => rfl
  | some units =>
    show Except.ok ((ModifiedUtf8.charsFrom [] units).map String.ofList) =
      .ok ((ModifiedUtf8.charsFrom [] units).bind fun chars => some (String.ofList chars))
    rw [Option.map_eq_bind]
    rfl

end

section
variable (pool : Pool) (index : UInt16)

theorem utf8_eq : utf8 pool index = (pool.utf8 index).mapError .fault := by
  rw [utf8, Pool.utf8, ofLookup]
  cases pool.utf8Bytes index with
  | error fault => rfl
  | ok bs =>
    simp only [mapError_of_ok, ok_bind, text_eq]
    cases ModifiedUtf8.decode bs <;> rfl

theorem className_eq : className pool index = (pool.className index).mapError .fault := by
  rw [className, Pool.className, ofLookup]
  cases pool.get index with
  | error fault => rfl
  | ok constant =>
    cases constant with
    | classEntry name => exact utf8_eq pool name
    | _ => rfl

end
end Checked

/-! ## Readers -/

namespace Machine

open CheckedReader

section
variable {m : Machine} {α β : Type}

/-- The cursor at a position in the file. -/
def cursor (m : Machine) (pos : Nat) : Cursor := ⟨pos, m.file.drop pos⟩

/-- From every position in the file both readers find the same fault, or they read the same and come
to the same position in the file. -/
def Agrees (m : Machine) (r : Reader α) (c : CheckedReader α) : Prop :=
  ∀ pos ≤ m.file.length,
    (∃ fault, r (m.cursor pos) = .error fault ∧ c pos = .error (.fault fault)) ∨
    ∃ a stop, stop ≤ m.file.length ∧ r (m.cursor pos) = .ok (a, m.cursor stop) ∧
      c pos = .ok (a, stop)

theorem agrees_pure (a : α) : m.Agrees (pure a) (pure a) :=
  fun pos hpos => .inr ⟨a, pos, hpos, rfl, rfl⟩

theorem agrees_fail (fault : ClassFault) :
    m.Agrees (Reader.fail fault : Reader α) (CheckedReader.fail fault) :=
  fun _ _ => .inl ⟨fault, rfl, rfl⟩

theorem agrees_bind {r : Reader α} {c : CheckedReader α} {k : α → Reader β}
    {l : α → CheckedReader β} (hr : m.Agrees r c) (hk : ∀ a, m.Agrees (k a) (l a)) :
    m.Agrees (r >>= k) (c >>= l) := by
  intro pos hpos
  have hbind : (c >>= l) pos = c pos >>= fun p => l p.1 p.2 := rfl
  rcases hr pos hpos with ⟨fault, hread, hcheck⟩ | ⟨a, stop, hstop, hread, hcheck⟩
  · exact .inl ⟨fault, by rw [Reader.bind_apply, hread], by rw [hbind, hcheck]; rfl⟩
  · rw [Reader.bind_apply, hread, hbind, hcheck]
    exact hk a stop hstop

theorem agrees_lookup {found : Except ClassFault α} {result : Checked α}
    (h : result = found.mapError .fault) : m.Agrees (Reader.lookup found) (calculate result) := by
  subst h
  cases found with
  | error fault => exact agrees_fail fault
  | ok a => exact agrees_pure a

theorem agrees_manyFrom {r : Reader α} {c : CheckedReader α} (hr : m.Agrees r c) (n : Nat)
    (done : List α) : m.Agrees (Reader.manyFrom r n done) (manyFrom c n done) := by
  induction n generalizing done with
  | zero => exact agrees_pure done.reverse
  | succ n ih =>
    rw [Reader.manyFrom_succ]
    exact agrees_bind hr fun a => ih (a :: done)

theorem calculate_bind (a : α) (l : α → CheckedReader β) : calculate (.ok a) >>= l = l a := rfl

end

/-! ### Words -/

section
variable {m : Machine} (hfile : m.file.length ≤ m.largest)
include hfile

theorem agrees_bytes (n : Nat) : m.Agrees (Reader.bytes n) (m.bytes n) := by
  intro pos hpos
  have hrest : (m.cursor pos).rest.length = m.file.length - pos := List.length_drop
  have hleft : Checked.sub m.file.length pos = .ok (m.file.length - pos) := Checked.sub_eq hpos
  rw [Reader.bytes_eq, hrest, bytes, hleft, Checked.ok_bind]
  by_cases hlen : m.file.length - pos < n
  · rw [if_pos hlen, if_pos hlen, Checked.sub_eq (Nat.le_of_lt hlen)]
    exact .inl ⟨_, rfl, rfl⟩
  · rw [if_neg hlen, if_neg hlen, Checked.add_eq (by omega), Checked.ok_bind,
      Checked.slice_eq (Nat.le_add_right pos n) (by omega), Nat.add_sub_cancel_left]
    refine .inr ⟨_, pos + n, by omega, ?_, rfl⟩
    rw [cursor, cursor, List.drop_drop]

theorem agrees_number (width : Nat) : m.Agrees (Reader.number width) (m.number width) := by
  intro pos hpos
  have hbind : m.number width pos = m.bytes width pos >>= fun p =>
      (do return beValue (← calculate (Checked.firstBytes p.1 width)) : CheckedReader Nat) p.2 := rfl
  rw [Reader.number, Reader.bind_apply, hbind]
  rcases agrees_bytes hfile width pos hpos with
    ⟨fault, hread, hcheck⟩ | ⟨bs, stop, hstop, hread, hcheck⟩
  · rw [hread, hcheck]
    exact .inl ⟨fault, rfl, rfl⟩
  · -- The slice has as many bytes as are looked up in it.
    obtain ⟨rfl, _⟩ := Reader.bytes_ok_iff.1 hread
    rw [hread, hcheck, Checked.ok_bind, Checked.firstBytes_eq, calculate_bind]
    exact .inr ⟨beValue bs, stop, hstop, rfl, rfl⟩

theorem agrees_u8 : m.Agrees Reader.u8 m.u8 :=
  agrees_bind (agrees_number hfile 1) fun _ => agrees_pure _

theorem agrees_u16 : m.Agrees Reader.u16 m.u16 :=
  agrees_bind (agrees_number hfile 2) fun _ => agrees_pure _

theorem agrees_u32 : m.Agrees Reader.u32 m.u32 :=
  agrees_bind (agrees_number hfile 4) fun _ => agrees_pure _

theorem agrees_u64 : m.Agrees Reader.u64 m.u64 :=
  agrees_bind (agrees_number hfile 8) fun _ => agrees_pure _

theorem agrees_table {α : Type} {r : Reader α} {c : CheckedReader α} (hr : m.Agrees r c) :
    m.Agrees (Reader.table r) (m.table c) :=
  agrees_bind (agrees_u16 hfile) fun count => agrees_manyFrom hr count.toNat []

/-! ### Constants and slots -/

theorem agrees_readTagged (index : Nat) (tag : UInt8) :
    m.Agrees (Unseal.readTagged index tag) (m.readTagged index tag) := by
  have h8 := agrees_u8 hfile
  have h16 := agrees_u16 hfile
  have h32 := agrees_u32 hfile
  have h64 := agrees_u64 hfile
  unfold Unseal.readTagged
  split
  case h_1 => exact agrees_bind h16 fun _ => agrees_bind (agrees_bytes hfile _) fun _ => agrees_pure _
  case h_18 =>
    -- No tag that one table knows is unknown to the other.
    unfold Machine.readTagged
    split
    case h_18 => exact agrees_fail _
    all_goals contradiction
  all_goals
    first
    | exact agrees_bind h16 fun _ => agrees_pure _
    | exact agrees_bind h32 fun _ => agrees_pure _
    | exact agrees_bind h64 fun _ => agrees_pure _
    | exact agrees_bind h16 fun _ => agrees_bind h16 fun _ => agrees_pure _
    | exact agrees_bind h8 fun _ => agrees_bind h16 fun _ => agrees_pure _

theorem agrees_readConstant (index : Nat) :
    m.Agrees (Unseal.readConstant index) (m.readConstant index) :=
  agrees_bind (agrees_u8 hfile) fun tag => agrees_readTagged hfile index tag

/-- With a turn for every slot that is left no turn is missing, and the index fits its word, by
induction on the turns. -/
theorem agrees_readSlots {count : Nat} (hcount : count ≤ 65535) {turns left index : Nat}
    (hleft : left = count - index) (hturns : left ≤ turns) (done : List Slot) :
    m.Agrees (Unseal.readSlots left index done) (m.readSlots count turns index done) := by
  induction turns generalizing left index done with
  | zero =>
    obtain rfl : left = 0 := Nat.le_zero.1 hturns
    have hend : ¬ index < count := by omega
    rw [Machine.readSlots, if_neg hend]
    exact agrees_pure done.reverse
  | succ turns ih =>
    match left with
    | 0 =>
      have hend : ¬ index < count := by omega
      rw [Machine.readSlots, if_neg hend]
      exact agrees_pure done.reverse
    | 1 =>
      have hindex : index < count := by omega
      rw [Machine.readSlots, if_pos hindex, Reader.readSlots_last]
      refine agrees_bind (agrees_readConstant hfile index) fun constant => ?_
      rw [Checked.add_eq (by omega), calculate_bind, calculate_bind]
      cases constant.isWide with
      | true =>
        rw [if_pos rfl, if_pos rfl, if_pos (by omega)]
        exact agrees_fail _
      | false =>
        have hnone : 0 = count - (index + 1) := by omega
        exact ih hnone (Nat.zero_le turns) (some constant :: done)
    | left + 2 =>
      have hindex : index < count := by omega
      rw [Machine.readSlots, if_pos hindex, Reader.readSlots_next]
      refine agrees_bind (agrees_readConstant hfile index) fun constant => ?_
      rw [Checked.add_eq (by omega), calculate_bind, calculate_bind]
      cases constant.isWide with
      | true =>
        -- The second slot is still in the pool, so the index behind it is at most the count.
        rw [if_pos rfl, if_pos rfl, if_neg (by omega), Checked.add_eq (by omega), calculate_bind]
        exact ih (by omega) (by omega) (none :: some constant :: done)
      | false => exact ih (by omega) (by omega) (some constant :: done)

theorem agrees_readPool : m.Agrees Unseal.readPool m.readPool := by
  refine agrees_bind (agrees_u16 hfile) fun count => ?_
  have hcount : count.toNat ≤ 65535 := Nat.le_of_lt_succ count.toNat_lt
  exact agrees_bind (agrees_readSlots hfile hcount rfl (Nat.le_refl _) []) fun _ => agrees_pure _

/-! ### Whole files -/

theorem agrees_readAttributes (hwide : 4294967295 ≤ m.largest) :
    m.Agrees Unseal.readAttributes m.readAttributes := by
  refine agrees_table hfile ?_
  refine agrees_bind (agrees_u16 hfile) fun nameIndex => agrees_bind (agrees_u32 hfile) fun length => ?_
  have hsize : m.size length = (pure length.toNat : CheckedReader Nat) := by
    have hlength := length.toNat_lt
    funext pos
    exact if_pos (by omega)
  rw [hsize]
  exact agrees_bind (agrees_bytes hfile length.toNat) fun body => agrees_pure _

theorem agrees_readField (hwide : 4294967295 ≤ m.largest) :
    m.Agrees Unseal.readField m.readField :=
  agrees_bind (agrees_u16 hfile) fun _ => agrees_bind (agrees_u16 hfile) fun _ =>
    agrees_bind (agrees_u16 hfile) fun _ =>
      agrees_bind (agrees_readAttributes hfile hwide) fun _ => agrees_pure _

theorem agrees_readMethod (hwide : 4294967295 ≤ m.largest) (pool : Pool) :
    m.Agrees (Unseal.readMethod pool) (m.readMethod pool) :=
  agrees_bind (agrees_u16 hfile) fun _ => agrees_bind (agrees_u16 hfile) fun nameIndex =>
    agrees_bind (agrees_u16 hfile) fun descriptorIndex =>
      agrees_bind (agrees_readAttributes hfile hwide) fun _ =>
        agrees_bind (agrees_lookup (Checked.utf8_eq pool nameIndex)) fun _ =>
          agrees_bind (agrees_lookup (Checked.utf8_eq pool descriptorIndex)) fun _ => agrees_pure _

theorem agrees_readParts (hwide : 4294967295 ≤ m.largest) :
    m.Agrees Unseal.readParts m.readParts := by
  refine agrees_bind (agrees_u32 hfile) fun found => ?_
  extract_lets behindMagic checkedBehindMagic
  have hbehind : ∀ u, m.Agrees (behindMagic u) (checkedBehindMagic u) := fun _ =>
    agrees_bind (agrees_u16 hfile) fun _ => agrees_bind (agrees_u16 hfile) fun _ =>
      agrees_bind (agrees_readPool hfile) fun pool =>
        agrees_bind (agrees_u16 hfile) fun _ => agrees_bind (agrees_u16 hfile) fun _ =>
          agrees_bind (agrees_u16 hfile) fun _ =>
            agrees_bind (agrees_table hfile (agrees_u16 hfile)) fun _ =>
              agrees_bind (agrees_table hfile (agrees_readField hfile hwide)) fun _ =>
                agrees_bind (agrees_table hfile (agrees_readMethod hfile hwide pool)) fun _ =>
                  agrees_bind (agrees_readAttributes hfile hwide) fun _ => agrees_pure _
  split
  · exact hbehind ()
  · exact agrees_bind (agrees_fail _) hbehind

end

/-! ### The own entry -/

section
variable {m : Machine} {pool : Pool} {name : String} {body : Bytes}

/-- The bytes of an entry are within the body, by induction on the entries that are left. -/
theorem ownEntryFrom_eq {left number : Nat}
    (hbody : body.length = 2 + (number + left) * innerEntrySize) (hlargest : body.length ≤ m.largest) :
    m.ownEntryFrom pool name body left number =
      .ok ((Unseal.ownEntryFrom pool name left number (body.drop (2 + number * innerEntrySize))).map
        fun k => 2 + k * innerEntrySize + 6) := by
  induction left generalizing number with
  | zero => rfl
  | succ left ih =>
    have hsize : innerEntrySize = 8 := rfl
    simp only [hsize] at hbody ih ⊢
    have hbelow : body.length = 2 + (number + 1 + left) * 8 := by omega
    have hrest := ih hbelow
    generalize hoffset : 2 + number * 8 = offset at hrest ⊢
    have hhigh : offset < body.length := by omega
    have hlow : offset + 1 < body.length := by omega
    have hrow : body.drop offset = body[offset] :: body[offset + 1] :: body.drop (offset + 2) := by
      rw [List.drop_eq_getElem_cons hhigh, List.drop_eq_getElem_cons hlow]
    have hnext : (body.drop (offset + 2)).drop (innerEntrySize - 2) =
        body.drop (2 + (number + 1) * 8) := by
      rw [List.drop_drop]
      congr 1
      omega
    rw [Machine.ownEntryFrom, hsize, Checked.mul_eq (by omega), Checked.ok_bind,
      Checked.add_eq (by omega), Checked.ok_bind, hoffset,
      Checked.byteAt_eq (List.getElem?_eq_getElem hhigh), Checked.ok_bind,
      Checked.add_eq (by omega), Checked.ok_bind,
      Checked.byteAt_eq (List.getElem?_eq_getElem hlow), Checked.ok_bind,
      Checked.className_eq, Checked.caught_eq, Checked.ok_bind, hrow, Unseal.ownEntryFrom, hnext]
    cases pool.className (UInt16.ofNat (beValue [body[offset], body[offset + 1]])) with
    | error fault => exact hrest
    | ok found =>
      by_cases hfound : found = name
      · rw [Checked.add_eq (by omega)]
        simp only [hfound, if_true, Checked.ok_bind, Option.map_some, hoffset]
        rfl
      · simp only [hfound, if_false]
        exact hrest

theorem ownEntryIn_eq (hwide : 4294967295 ≤ m.largest) :
    m.ownEntryIn pool name body =
      match Unseal.ownEntryIn pool name body with
      | .ok found => .ok (found.map fun k => 2 + k * innerEntrySize + 6)
      | .error flaw => .error (.fault (.malformedInnerClasses flaw)) := by
  match body with
  | [] | [_] => rfl
  | high :: low :: row =>
    have hcount : beValue [high, low] < 65536 := beValue_lt [high, low]
    have hexpected : 2 + beValue [high, low] * innerEntrySize ≤ m.largest := by
      rw [show innerEntrySize = 8 from rfl]
      omega
    have hfront : Checked.slice (high :: low :: row) 0 2 = .ok [high, low] :=
      Checked.slice_eq (by omega) (by simp)
    have hlong : ¬ (high :: low :: row).length < 2 := by simp
    rw [Machine.ownEntryIn, if_neg hlong, hfront, Checked.ok_bind,
      Checked.byteAt_eq (b := high) rfl, Checked.ok_bind, Checked.byteAt_eq (b := low) rfl,
      Checked.ok_bind, Unseal.ownEntryIn]
    dsimp only
    rw [Checked.mul_eq (by omega), Checked.ok_bind, Checked.add_eq hexpected, Checked.ok_bind]
    by_cases hlength : (high :: low :: row).length = 2 + beValue [high, low] * innerEntrySize
    · simp only [hlength, if_true]
      exact ownEntryFrom_eq (by rw [hlength, Nat.zero_add]) (by rw [hlength]; exact hexpected)
    · simp only [hlength, if_false]

theorem findOwnEntryFrom_eq (hwide : 4294967295 ≤ m.largest) (number : Nat)
    (attributes : List Attribute) :
    m.findOwnEntryFrom pool name number attributes =
      (Unseal.findOwnEntryFrom pool name number attributes).mapError .fault := by
  induction attributes generalizing number with
  | nil => rfl
  | cons attr rest ih =>
    rw [Machine.findOwnEntryFrom, Unseal.findOwnEntryFrom, Checked.ofLookup]
    cases pool.utf8Bytes attr.nameIndex with
    | error fault => rfl
    | ok text =>
      by_cases hinner : text = innerClassesName
      · simp only [mapError_of_ok, Checked.ok_bind, hinner, if_true, ownEntryIn_eq hwide]
        cases Unseal.ownEntryIn pool name attr.body with
        | error flaw => rfl
        | ok found =>
          cases found with
          | none => exact ih (number + 1)
          | some k => rfl
      · simp only [mapError_of_ok, Checked.ok_bind, hinner, if_false]
        exact ih (number + 1)

theorem identify_eq (hwide : 4294967295 ≤ m.largest) (parts : ClassFile) :
    m.identify parts = parts.identify.mapError .fault := by
  rw [identify, ClassFile.identify, Checked.className_eq]
  cases parts.pool.className parts.thisClass with
  | error fault => rfl
  | ok slashed =>
    simp only [mapError_of_ok, Checked.ok_bind, findOwnEntryFrom_eq hwide, findOwnEntry]
    cases Unseal.findOwnEntryFrom parts.pool slashed 0 parts.attributes <;> rfl

/-- On a machine whose sizes hold every number of four bytes and the length of the file no check
fails, and the same class or fault is found as without checks. -/
theorem decode_eq (hwide : 4294967295 ≤ m.largest) (hfile : m.file.length ≤ m.largest) :
    m.decode = (ClassFile.decode m.file).mapError .fault := by
  have hstart : m.cursor 0 = ⟨0, m.file⟩ := rfl
  rw [decode, ClassFile.decode, ← hstart]
  rcases agrees_readParts hfile hwide 0 (Nat.zero_le _) with
    ⟨fault, hread, hcheck⟩ | ⟨parts, stop, hstop, hread, hcheck⟩
  · rw [hread, hcheck]
    rfl
  · have hrest : (m.cursor stop).rest.length = m.file.length - stop := List.length_drop
    have hempty : (m.cursor stop).rest.isEmpty = true ↔ ¬ 0 < m.file.length - stop := by
      rw [List.isEmpty_iff_length_eq_zero, hrest]
      omega
    rw [hread, hcheck]
    simp only [Checked.ok_bind, Checked.sub_eq hstop]
    by_cases hleft : 0 < m.file.length - stop
    · rw [if_pos hleft, if_neg (fun h => hempty.1 h hleft), hrest]
      rfl
    · rw [if_neg hleft, if_pos (hempty.2 hleft)]
      exact identify_eq hwide parts

end

/-! ### What no bytes can bring about -/

/-- From every position in the file the reader finds a fault or comes to a position in the file. No
check fails. -/
def Passes (m : Machine) {α : Type} (c : CheckedReader α) : Prop :=
  ∀ pos ≤ m.file.length,
    (∃ fault, c pos = .error (.fault fault)) ∨ ∃ a stop, stop ≤ m.file.length ∧ c pos = .ok (a, stop)

theorem Agrees.passes {m : Machine} {α : Type} {r : Reader α} {c : CheckedReader α}
    (h : m.Agrees r c) : m.Passes c := by
  intro pos hpos
  rcases h pos hpos with ⟨fault, _, hcheck⟩ | ⟨a, stop, hstop, _, hcheck⟩
  · exact .inl ⟨fault, hcheck⟩
  · exact .inr ⟨a, stop, hstop, hcheck⟩

theorem length_of_readSlots {m : Machine} (hfile : m.file.length ≤ m.largest) {count pos stop : Nat}
    (hcount : count ≤ 65535) (hpos : pos ≤ m.file.length) {slots : List Slot}
    (h : m.readSlots count (count - 1) 1 [] pos = .ok (slots, stop)) : slots.length = count - 1 := by
  rcases agrees_readSlots hfile hcount rfl (Nat.le_refl _) [] pos hpos with
    ⟨fault, _, hcheck⟩ | ⟨a, stop', _, hread, hcheck⟩
  · cases hcheck.symm.trans h
  · cases hcheck.symm.trans h
    obtain ⟨new, rfl, hlength, _⟩ := readSlots_ok_iff.1 hread
    exact hlength

/-- On a machine whose sizes have four bytes or more, no check fails for any file that is in memory: the
same class or fault is found as without checks; every read stays in the file; and the loop over the pool
ends after no more constants than one less than the count, when it succeeds with so many slots. -/
theorem decode_passes (m : Machine) (hwide : 4294967295 ≤ m.largest)
    (hfile : m.file.length ≤ m.largest) :
    m.decode = (ClassFile.decode m.file).mapError .fault ∧
    (∀ trap, m.decode ≠ .error (.trap trap)) ∧
    (∀ n, m.Passes (m.bytes n)) ∧
    m.Passes m.readParts ∧
    ∀ count ≤ 65535, m.Passes (m.readSlots count (count - 1) 1 []) ∧
      ∀ pos ≤ m.file.length, ∀ slots stop,
        m.readSlots count (count - 1) 1 [] pos = .ok (slots, stop) → slots.length = count - 1 := by
  have hsame := decode_eq hwide hfile
  refine ⟨hsame, fun trap => ?_, fun n => (agrees_bytes hfile n).passes,
    (agrees_readParts hfile hwide).passes, fun count hcount => ⟨?_, ?_⟩⟩
  · rw [hsame]
    intro h
    cases hdecode : ClassFile.decode m.file with
    | error fault =>
      rw [hdecode] at h
      cases h
    | ok parts =>
      rw [hdecode] at h
      cases h
  · exact (agrees_readSlots hfile hcount rfl (Nat.le_refl _) []).passes
  · intro pos hpos slots stop h
    exact length_of_readSlots hfile hcount hpos h

/-- A class file in the memory of a machine whose sizes have eight bytes. -/
theorem sealedBytes_passes :
    4294967295 ≤ (Machine.mk sealedBytes 18446744073709551615).largest ∧
    sealedBytes.length ≤ 18446744073709551615 ∧
    (Machine.mk sealedBytes 18446744073709551615).decode = .ok sealedClass := by
  have hpasses := decode_passes ⟨sealedBytes, 18446744073709551615⟩ (by decide) (by decide)
  refine ⟨by decide, by decide, hpasses.1.trans ?_⟩
  rw [decode_sealedBytes]
  rfl

/-- A wide constant at the last index that there is: the fault names the index of its second slot, and
an index behind that one would not fit its word. -/
example : (Machine.mk [5, 0, 0, 0, 0, 0, 0, 0, 7] 4294967295).readSlots 65535 1 65534 [] 0 =
      .error (.fault (.invalidConstantIndex 65535)) ∧
    Checked.add 65535 65534 2 = .error (.trap .overflow) :=
  ⟨rfl, rfl⟩

end Machine
end Unseal
