import Unseal.Proofs.ClassFile.RoundTrip
/-
  Layout — where the parts of a class stand in its bytes

  The size of a part is told by the part alone, so the offset of every part in
  the file is told by the parts in front of it. Three kinds of places hold
  flags: the class itself, each method, and the own entry inside the body of an
  attribute. Their offsets are given here from the sizes, and it is shown that
  the flags stand there.

  What is proved:
    1. `Pool.length_of_encode` and the like — every part takes as many bytes as
       its size says.
    2. `encode_ok_iff_framed`, `encodeAll_at` — how the bytes of a class are cut at
       its flags, at a method or at an attribute.
    3. `flagsStandIn_of_encode` — in the bytes of a class the flags stand at these
       offsets.
-/

namespace Unseal

/-! ## Sizes -/

/-- The number of bytes that a constant takes, with its tag. -/
def Constant.size : Constant → Nat
  | .utf8 text => 3 + text.length
  | .integer _ | .float _ => 5
  | .long _ | .double _ => 9
  | .classEntry _ | .string _ | .methodType _ | .moduleEntry _ | .packageEntry _ => 3
  | .methodHandle _ _ => 4
  | .fieldRef _ _ | .methodRef _ _ | .interfaceMethodRef _ _ | .nameAndType _ _ | .dynamic _ _
  | .invokeDynamic _ _ => 5

def slotSize : Slot → Nat
  | some constant => constant.size
  | none => 0

/-- The number of bytes that a row of items takes, one behind the other. -/
def rowSize {α : Type} (size : α → Nat) : List α → Nat
  | [] => 0
  | x :: xs => size x + rowSize size xs

def Pool.size (pool : Pool) : Nat := 2 + rowSize slotSize pool.slots.toList

def Attribute.size (a : Attribute) : Nat := 6 + a.body.length

/-- The number of bytes that a table of attributes takes, with its count. -/
def attributesSize (as : List Attribute) : Nat := 2 + rowSize Attribute.size as

def Field.size (f : Field) : Nat := 6 + attributesSize f.attributes

def Method.size (m : Method) : Nat := 6 + attributesSize m.attributes

@[simp] theorem length_u16Bytes (v : UInt16) : (u16Bytes v).length = 2 := length_beBytes 2 _
@[simp] theorem length_u32Bytes (v : UInt32) : (u32Bytes v).length = 4 := length_beBytes 4 _
@[simp] theorem length_u64Bytes (v : UInt64) : (u64Bytes v).length = 8 := length_beBytes 8 _

section
variable {α : Type} {item : α → Except ClassFault Bytes} {size : α → Nat}

theorem length_of_encodeAll (hsize : ∀ x bs, item x = .ok bs → bs.length = size x) {xs : List α}
    {bs : Bytes} (h : encodeAll item xs = .ok bs) : bs.length = rowSize size xs := by
  induction xs generalizing bs with
  | nil =>
    cases h
    rfl
  | cons x xs ih =>
    obtain ⟨as, has, cs, hcs, rfl⟩ := encodeAll_cons_ok_iff.1 h
    rw [List.length_append, hsize x as has, ih hcs, rowSize]

theorem length_of_encodeTable (hsize : ∀ x bs, item x = .ok bs → bs.length = size x)
    {what : Quantity} {xs : List α} {bs : Bytes} (h : encodeTable what item xs = .ok bs) :
    bs.length = 2 + rowSize size xs := by
  obtain ⟨_, cs, hcs, rfl⟩ := encodeTable_ok_iff.1 h
  rw [List.length_append, length_beBytes, length_of_encodeAll hsize hcs]

end

theorem Constant.length_of_encode (k : Constant) (bs : Bytes) (h : k.encode = .ok bs) :
    bs.length = k.size := by
  cases k with
  | utf8 text =>
    simp only [encode, bind_ok_iff, pure_ok_iff, encodeLength_ok_iff] at h
    obtain ⟨_, ⟨_, rfl⟩, rfl⟩ := h
    simp only [List.length_cons, List.length_append, length_beBytes, size]
    omega
  | _ =>
    cases h
    simp [size, u8Bytes]

theorem Pool.length_of_encode {pool : Pool} {bs : Bytes} (h : pool.encode = .ok bs) :
    bs.length = pool.size := by
  have hslot : ∀ s bs, encodeSlot s = .ok bs → bs.length = slotSize s := by
    intro s bs hs
    cases s with
    | none =>
      cases hs
      rfl
    | some k => exact Constant.length_of_encode k bs hs
  obtain ⟨_, cs, hcs, rfl⟩ := pool_encode_ok_iff.1 h
  rw [List.length_append, length_beBytes, length_of_encodeAll hslot hcs, size]

theorem Attribute.length_of_encode (a : Attribute) (bs : Bytes) (h : a.encode = .ok bs) :
    bs.length = a.size := by
  simp only [encode, bind_ok_iff, pure_ok_iff, encodeLength_ok_iff] at h
  obtain ⟨_, ⟨_, rfl⟩, rfl⟩ := h
  rw [List.length_append, List.length_append, length_u16Bytes, length_beBytes, size]

theorem length_of_encodeAttributes {as : List Attribute} {bs : Bytes}
    (h : encodeAttributes as = .ok bs) : bs.length = attributesSize as :=
  length_of_encodeTable Attribute.length_of_encode h

theorem Field.length_of_encode (f : Field) (bs : Bytes) (h : f.encode = .ok bs) :
    bs.length = f.size := by
  simp only [encode, bind_ok_iff, pure_ok_iff] at h
  obtain ⟨as, has, rfl⟩ := h
  simp only [List.length_append, length_u16Bytes, length_of_encodeAttributes has, size]

theorem Method.length_of_encode (m : Method) (bs : Bytes) (h : m.encode = .ok bs) :
    bs.length = m.size := by
  simp only [encode, bind_ok_iff, pure_ok_iff] at h
  obtain ⟨as, has, rfl⟩ := h
  simp only [List.length_append, length_u16Bytes, length_of_encodeAttributes has, size]

theorem length_of_encodeInterfaces {is : List UInt16} {bs : Bytes}
    (h : encodeTable .interfaces (fun i => .ok (u16Bytes i)) is = .ok bs) :
    bs.length = 2 + 2 * is.length := by
  have hitem : ∀ (i : UInt16) (bs : Bytes),
      (Except.ok (u16Bytes i) : Except ClassFault Bytes) = .ok bs → bs.length = 2 := by
    intro i bs hbs
    cases hbs
    exact length_u16Bytes i
  have hrow : rowSize (fun _ => 2) is = 2 * is.length := by
    clear h
    induction is with
    | nil => rfl
    | cons i is ih =>
      calc rowSize (fun _ => 2) (i :: is) = 2 + 2 * is.length := by rw [rowSize, ih]
        _ = 2 * (i :: is).length := by rw [List.length_cons]; omega
  rw [length_of_encodeTable hitem h, hrow]

/-! ## Offsets -/

namespace ClassFile

/-- The offset of the flags of the class: behind the magic number, the version and the pool. -/
def accessOffset (c : ClassFile) : Nat := 8 + c.pool.size

/-- The offset of the first method: behind the flags, the names of the class and of its parent,
the interfaces, the fields and the number of methods. -/
def methodsOffset (c : ClassFile) : Nat :=
  c.accessOffset + 6 + (2 + 2 * c.interfaces.length) + (2 + rowSize Field.size c.fields) + 2

/-- The offset of the method of this number. -/
def methodOffset (c : ClassFile) (n : Nat) : Nat :=
  c.methodsOffset + rowSize Method.size (c.methods.take n)

/-- The offset of the first attribute: behind the methods and the number of attributes. -/
def attributesOffset (c : ClassFile) : Nat :=
  c.methodsOffset + rowSize Method.size c.methods + 2

/-- The offset of the flags at a place inside the body of an attribute, which begins behind the
name of the attribute and its length. -/
def placeOffset (c : ClassFile) (place : EntryPlace) : Nat :=
  c.attributesOffset + rowSize Attribute.size (c.attributes.take place.number) + 6 + place.offset

end ClassFile

/-! ## Cutting the bytes of a class -/

/-- An item of a row is written behind the items in front of it, and another in its place leaves
what is around it. -/
theorem encodeAll_at {α : Type} {item : α → Except ClassFault Bytes} {size : α → Nat}
    (hsize : ∀ x bs, item x = .ok bs → bs.length = size x) {xs : List α} {n : Nat} {x : α}
    {bs : Bytes} (hx : xs[n]? = some x) (h : encodeAll item xs = .ok bs) :
    ∃ before mid after, item x = .ok mid ∧ bs = before ++ mid ++ after ∧
      before.length = rowSize size (xs.take n) ∧
      ∀ y new, item y = .ok new → encodeAll item (xs.set n y) = .ok (before ++ new ++ after) := by
  induction xs generalizing n bs with
  | nil => simp at hx
  | cons z xs ih =>
    obtain ⟨as, has, cs, hcs, rfl⟩ := encodeAll_cons_ok_iff.1 h
    cases n with
    | zero =>
      obtain rfl : z = x := by simpa using hx
      refine ⟨[], as, cs, has, rfl, rfl, fun y new hy => ?_⟩
      exact encodeAll_cons_ok_iff.2 ⟨new, hy, cs, hcs, rfl⟩
    | succ n =>
      obtain ⟨before, mid, after, hmid, rfl, hlen, hset⟩ := ih hx hcs
      refine ⟨as ++ before, mid, after, hmid, by simp, ?_, fun y new hy => ?_⟩
      · rw [List.length_append, hsize z as has, hlen, List.take_succ_cons, rowSize]
      · exact encodeAll_cons_ok_iff.2 ⟨as, has, _, hset y new hy, by simp⟩

/-- The bytes in front of the flags of a class, and those between its flags and its methods. -/
def ClassFile.FramedBy (c : ClassFile) (front middle : Bytes) : Prop :=
  ∃ ps, c.pool.encode = .ok ps ∧
    ∃ is, encodeTable .interfaces (fun i => .ok (u16Bytes i)) c.interfaces = .ok is ∧
      ∃ fs, encodeTable .fields Field.encode c.fields = .ok fs ∧
        front = u32Bytes magic ++ u16Bytes c.minorVersion ++ u16Bytes c.majorVersion ++ ps ∧
        middle = u16Bytes c.thisClass ++ u16Bytes c.superClass ++ is ++ fs

theorem encode_ok_iff_framed {c : ClassFile} {bs : Bytes} :
    c.encode = .ok bs ↔ ∃ front middle, c.FramedBy front middle ∧
      ∃ ms, encodeTable .methods Method.encode c.methods = .ok ms ∧
        ∃ as, encodeAttributes c.attributes = .ok as ∧
          bs = front ++ u16Bytes c.access.bits ++ middle ++ ms ++ as := by
  simp only [ClassFile.encode, bind_ok_iff, pure_ok_iff, ClassFile.FramedBy]
  refine ⟨?_, ?_⟩
  · intro h
    obtain ⟨ps, hps, is, his, fs, hfs, ms, hms, as, has, rfl⟩ := h
    exact ⟨_, _, ⟨ps, hps, is, his, fs, hfs, rfl, rfl⟩, ms, hms, as, has, by simp⟩
  · intro h
    obtain ⟨_, _, ⟨ps, hps, is, his, fs, hfs, rfl, rfl⟩, ms, hms, as, has, rfl⟩ := h
    exact ⟨ps, hps, is, his, fs, hfs, ms, hms, as, has, by simp⟩

theorem length_of_framed {c : ClassFile} {front middle : Bytes} (h : c.FramedBy front middle) :
    front.length = c.accessOffset ∧ c.accessOffset + 2 + middle.length + 2 = c.methodsOffset := by
  obtain ⟨ps, hps, is, his, fs, hfs, rfl, rfl⟩ := h
  have hp := Pool.length_of_encode hps
  have hi := length_of_encodeInterfaces his
  have hf := length_of_encodeTable Field.length_of_encode hfs
  refine ⟨?_, ?_⟩
  · simp only [List.length_append, length_u32Bytes, length_u16Bytes, hp, ClassFile.accessOffset]
  · simp only [List.length_append, length_u16Bytes, hi, hf, ClassFile.methodsOffset]
    omega

/-! ## Flags at their offsets -/

theorem flagsAt_append (front rest : Bytes) (a : Access) :
    flagsAt front.length (front ++ u16Bytes a.bits ++ rest) = some a := by
  have hval : beValue (beBytes 2 a.bits.toNat) = a.bits.toNat := by
    rw [beValue_beBytes]
    exact Nat.mod_eq_of_lt a.bits.toNat_lt
  rw [flagsAt, List.append_assoc, List.drop_left, u16Bytes]
  simp only [beBytes] at hval ⊢
  simp only [List.cons_append, List.nil_append, hval, UInt16.ofNat_toNat]

theorem eq_append_of_flagsAt {offset : Nat} {body : Bytes} {a : Access}
    (h : flagsAt offset body = some a) :
    ∃ head tail, body = head ++ u16Bytes a.bits ++ tail ∧ head.length = offset := by
  unfold flagsAt at h
  split at h
  · rename_i high low rest hdrop
    cases h
    have hword : u16Bytes (UInt16.ofNat (beValue [high, low])) = [high, low] := by
      rw [u16Bytes, UInt16.toNat_ofNat_of_lt' (beValue_lt [high, low])]
      exact beBytes_beValue [high, low]
    refine ⟨body.take offset, rest, ?_, ?_⟩
    · rw [hword, List.append_assoc, List.cons_append, List.cons_append, List.nil_append, ← hdrop,
        List.take_append_drop]
    · have := congrArg List.length hdrop
      rw [List.length_drop, List.length_cons] at this
      rw [List.length_take]
      omega
  · cases h

theorem flagsAt_accessOffset {c : ClassFile} {bs : Bytes} (h : c.encode = .ok bs) :
    flagsAt c.accessOffset bs = some c.access := by
  obtain ⟨front, middle, hframe, ms, _, as, _, rfl⟩ := encode_ok_iff_framed.1 h
  rw [← (length_of_framed hframe).1]
  simpa using flagsAt_append front (middle ++ ms ++ as) c.access

theorem flagsAt_methodOffset {c : ClassFile} {bs : Bytes} (h : c.encode = .ok bs) {n : Nat}
    {m : Method} (hm : c.methods[n]? = some m) : flagsAt (c.methodOffset n) bs = some m.access := by
  obtain ⟨front, middle, hframe, _, htable, as, _, rfl⟩ := encode_ok_iff_framed.1 h
  obtain ⟨_, ms, hms, rfl⟩ := encodeTable_ok_iff.1 htable
  -- The table is cut at the method, and the flags are the first thing in the method.
  obtain ⟨before, mid, after, hmid, rfl, hlen, _⟩ := encodeAll_at Method.length_of_encode hm hms
  simp only [Method.encode, bind_ok_iff, pure_ok_iff] at hmid
  obtain ⟨body, _, rfl⟩ := hmid
  have hoffset : (front ++ u16Bytes c.access.bits ++ middle ++ beBytes 2 c.methods.length ++
      before).length = c.methodOffset n := by
    rw [ClassFile.methodOffset, ← (length_of_framed hframe).2, ← (length_of_framed hframe).1]
    simp only [List.length_append, length_u16Bytes, length_beBytes, hlen]
  rw [← hoffset]
  simpa using flagsAt_append
    (front ++ u16Bytes c.access.bits ++ middle ++ beBytes 2 c.methods.length ++ before)
    (u16Bytes m.nameIndex ++ u16Bytes m.descriptorIndex ++ body ++ after ++ as) m.access

theorem flagsAt_placeOffset {c : ClassFile} {bs : Bytes} (h : c.encode = .ok bs)
    {place : EntryPlace} {attr : Attribute} (hattr : c.attributes[place.number]? = some attr)
    {a : Access} (ha : flagsAt place.offset attr.body = some a) :
    flagsAt (c.placeOffset place) bs = some a := by
  obtain ⟨front, middle, hframe, ms, hms, _, htable, rfl⟩ := encode_ok_iff_framed.1 h
  obtain ⟨_, as, has, rfl⟩ := encodeTable_ok_iff.1 htable
  obtain ⟨before, mid, after, hmid, rfl, hlen, _⟩ :=
    encodeAll_at Attribute.length_of_encode hattr has
  simp only [Attribute.encode, bind_ok_iff, pure_ok_iff, encodeLength_ok_iff] at hmid
  obtain ⟨_, ⟨_, rfl⟩, rfl⟩ := hmid
  -- The flags are somewhere inside the body, so the body is cut at them as well.
  obtain ⟨head, tail, hbody, hhead⟩ := eq_append_of_flagsAt ha
  have hmethods := length_of_encodeTable Method.length_of_encode hms
  obtain ⟨hfront, hmiddle⟩ := length_of_framed hframe
  have hoffset : (front ++ u16Bytes c.access.bits ++ middle ++ ms ++
      beBytes 2 c.attributes.length ++ before ++ u16Bytes attr.nameIndex ++
      beBytes 4 attr.body.length ++ head).length = c.placeOffset place := by
    simp only [List.length_append, length_u16Bytes, length_beBytes, hlen, hmethods, hhead,
      ClassFile.placeOffset, ClassFile.attributesOffset]
    omega
  rw [← hoffset]
  simpa [hbody] using flagsAt_append
    (front ++ u16Bytes c.access.bits ++ middle ++ ms ++ beBytes 2 c.attributes.length ++ before ++
      u16Bytes attr.nameIndex ++ beBytes 4 attr.body.length ++ head) (tail ++ after) a

/-- The flags of the class, of its methods and of its own entry stand in the bytes at their
offsets. -/
structure ClassFile.FlagsStandIn (c : ClassFile) (bs : Bytes) : Prop where
  own : flagsAt c.accessOffset bs = some c.access
  methods : ∀ n m, c.methods[n]? = some m → flagsAt (c.methodOffset n) bs = some m.access
  inner : ∀ place a, c.ownEntry = some place → c.innerAccess = some a →
    flagsAt (c.placeOffset place) bs = some a

theorem innerAccess_eq_some_iff {c : ClassFile} {a : Access} :
    c.innerAccess = some a ↔ ∃ place attr, c.ownEntry = some place ∧
      c.attributes[place.number]? = some attr ∧ flagsAt place.offset attr.body = some a := by
  unfold ClassFile.innerAccess
  refine ⟨?_, ?_⟩
  · intro h
    split at h
    · cases h
    · next place hplace =>
      split at h
      · cases h
      · next attr hattr => exact ⟨place, attr, hplace, hattr, h⟩
  · intro h
    obtain ⟨place, attr, hplace, hattr, ha⟩ := h
    simp only [hplace, hattr, ha]

theorem flagsStandIn_of_encode {c : ClassFile} {bs : Bytes} (h : c.encode = .ok bs) :
    c.FlagsStandIn bs := by
  refine ⟨flagsAt_accessOffset h, fun n m hm => flagsAt_methodOffset h hm, ?_⟩
  intro place a hplace ha
  obtain ⟨place', attr, hplace', hattr, ha'⟩ := innerAccess_eq_some_iff.1 ha
  obtain rfl : place = place' := Option.some.inj (hplace.symm.trans hplace')
  exact flagsAt_placeOffset h hattr ha'

end Unseal
