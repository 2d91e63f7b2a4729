import Unseal.Proofs.ClassFile.Faults
import Unseal.Proofs.ClassFile.RoundTrip
/-
  Truncation — what reading makes of a class file that is cut short or goes on

  Reading goes from left to right, and what it does at a place depends on the bytes
  in front of that place only. So more bytes behind the last one do not change a
  result or a fault of content; and where bytes are missing, fewer of them are
  missing then, or the reader gets past the place where it stopped. This is said of
  a reader by `Steady` and holds of every reader that is made of runs of bytes.

  What is proved:
    1. `Made.steady` — readers of class files are steady.
    2. `decode_more` — what is missing is told exactly, and a wrong beginning or an
       unknown constant is told whatever follows.
    3. `decode_cut` — a class file that is cut short lacks bytes, no more than were
       cut off, and one that goes on has trailing bytes.
-/

namespace Unseal

/-- The cursor when these bytes follow behind the last one. -/
def Cursor.more (c : Cursor) (x : Bytes) : Cursor := ⟨c.offset, c.rest ++ x⟩

namespace Reader

section
variable {α β : Type} {r : Reader α} {k : α → Reader β} {c d : Cursor} {offset missing : Nat}

/-- What the reader comes to lies behind the offset, or it finds a fault. -/
def Past (offset : Nat) : Except ClassFault (α × Cursor) → Prop
  | .ok (_, d) => offset < d.offset
  | .error (.truncated offset' _) => offset < offset'
  | .error _ => True

/-- The reader stops at the offset until so many bytes have been added. -/
structure Lacks (r : Reader α) (c : Cursor) (offset missing : Nat) : Prop where
  ahead : c.offset ≤ offset
  within : offset ≤ c.offset + c.rest.length
  positive : 0 < missing
  fewer : ∀ x : Bytes, x.length < missing →
    r (c.more x) = .error (.truncated offset (missing - x.length))
  enough : ∀ x : Bytes, missing ≤ x.length → Past offset (r (c.more x))

/-- Bytes behind the last one matter to the reader only where it lacks bytes. -/
structure Steady (r : Reader α) : Prop where
  forward : ∀ {c d a}, r c = .ok (a, d) →
    c.offset ≤ d.offset ∧ d.offset + d.rest.length = c.offset + c.rest.length
  result : ∀ {c d a}, r c = .ok (a, d) → ∀ x, r (c.more x) = .ok (a, d.more x)
  refused : ∀ {c fault}, r c = .error fault → fault.OfContent → ∀ x, r (c.more x) = .error fault
  truncated : ∀ {c offset missing}, r c = .error (.truncated offset missing) →
    Lacks r c offset missing

theorem steady_pure (a : α) : Steady (pure a : Reader α) := by
  refine ⟨fun h => ?_, fun h x => ?_, fun h => ?_, fun h => ?_⟩
  · cases h
    exact ⟨Nat.le_refl _, rfl⟩
  · cases h
    rfl
  · cases h
  · cases h

theorem steady_fail {fault : ClassFault} (h : fault.OfContent) :
    Steady (fail fault : Reader α) := by
  refine ⟨fun h => ?_, fun h => ?_, fun h _ _ => h, fun hr => ?_⟩
  · cases h
  · cases h
  · cases hr
    exact h.elim

theorem steady_bytes (n : Nat) : Steady (bytes n) := by
  have hmore : ∀ (c : Cursor) (x : Bytes), bytes n (c.more x) =
      if c.rest.length + x.length < n then
        .error (.truncated c.offset (n - (c.rest.length + x.length)))
      else .ok ((c.rest ++ x).take n, ⟨c.offset + n, (c.rest ++ x).drop n⟩) := by
    intro c x
    rw [bytes_eq, Cursor.more, List.length_append]
  refine ⟨fun {c d a} h => ?_, fun {c d a} h x => ?_, fun {c fault} h hcontent => ?_,
    fun {c offset missing} h => ?_⟩
  · rw [bytes_eq] at h
    split at h
    · cases h
    · next hlen =>
      cases h
      refine ⟨Nat.le_add_right _ n, ?_⟩
      simp only [List.length_drop]
      omega
  · rw [bytes_eq] at h
    split at h
    · cases h
    · next hlen =>
      cases h
      have hle : n ≤ c.rest.length := Nat.le_of_not_lt hlen
      rw [hmore, if_neg (by omega), List.take_append_of_le_length hle,
        List.drop_append_of_le_length hle]
      rfl
  · rw [bytes_eq] at h
    split at h
    · cases h
      exact hcontent.elim
    · cases h
  · rw [bytes_eq] at h
    split at h
    · next hlen =>
      cases h
      refine ⟨Nat.le_refl _, Nat.le_add_right _ _, Nat.sub_pos_of_lt hlen, fun x hx => ?_,
        fun x hx => ?_⟩
      · rw [hmore, if_pos (by omega), Nat.sub_add_eq]
      · rw [hmore, if_neg (by omega)]
        show c.offset < c.offset + n
        omega
    · cases h

theorem Steady.past (hk : ∀ a, Steady (k a)) {a : α} (h : offset < d.offset) :
    Past offset (k a d) := by
  cases hresult : k a d with
  | ok p =>
    have hforward := ((hk a).forward hresult).1
    exact Nat.lt_of_lt_of_le h hforward
  | error fault =>
    cases fault with
    | truncated offset' missing =>
      exact Nat.lt_of_lt_of_le h ((hk a).truncated hresult).ahead
    | _ => trivial

theorem steady_bind (hr : Steady r) (hk : ∀ a, Steady (k a)) : Steady (r >>= k) := by
  refine ⟨fun {c d b} h => ?_, fun {c d b} h x => ?_, fun {c fault} h hcontent x => ?_,
    fun {c offset missing} h => ?_⟩
  · obtain ⟨a, e, hfirst, hsecond⟩ := bind_read_iff.1 h
    obtain ⟨hforward, hlength⟩ := hr.forward hfirst
    obtain ⟨hforward', hlength'⟩ := (hk a).forward hsecond
    exact ⟨Nat.le_trans hforward hforward', hlength'.trans hlength⟩
  · obtain ⟨a, e, hfirst, hsecond⟩ := bind_read_iff.1 h
    exact bind_read_iff.2 ⟨a, e.more x, hr.result hfirst x, (hk a).result hsecond x⟩
  · rw [bind_apply] at h ⊢
    cases hfirst : r c with
    | error e =>
      rw [hfirst] at h
      cases h
      rw [hr.refused hfirst hcontent x]
    | ok p =>
      rw [hfirst] at h
      rw [hr.result hfirst x]
      exact (hk p.1).refused h hcontent x
  · rw [bind_apply] at h
    cases hfirst : r c with
    | error e =>
      -- The first reader stops; with enough bytes it gets past, and then so does the second.
      rw [hfirst] at h
      cases h
      have hlacks := hr.truncated hfirst
      refine ⟨hlacks.ahead, hlacks.within, hlacks.positive, fun x hx => ?_, fun x hx => ?_⟩
      · rw [bind_apply, hlacks.fewer x hx]
      · have hpast := hlacks.enough x hx
        rw [bind_apply]
        cases hagain : r (c.more x) with
        | error e =>
          rw [hagain] at hpast
          cases e <;> exact hpast
        | ok p =>
          rw [hagain] at hpast
          exact Steady.past hk hpast
    | ok p =>
      obtain ⟨a, d⟩ := p
      rw [hfirst] at h
      obtain ⟨hforward, hlength⟩ := hr.forward hfirst
      have hlacks := (hk a).truncated h
      have hmore : ∀ x, (r >>= k) (c.more x) = k a (d.more x) := by
        intro x
        rw [bind_apply, hr.result hfirst x]
      refine ⟨Nat.le_trans hforward hlacks.ahead, hlength ▸ hlacks.within, hlacks.positive,
        fun x hx => ?_, fun x hx => ?_⟩
      · rw [hmore]
        exact hlacks.fewer x hx
      · rw [hmore]
        exact hlacks.enough x hx

/-- A reader that is made of runs of bytes is steady. -/
theorem Made.steady (h : Made r) : Steady r := by
  induction h with
  | pure a => exact steady_pure a
  | fail h => exact steady_fail h
  | bytes n => exact steady_bytes n
  | bind _ _ ihr ihk => exact steady_bind ihr ihk

end

end Reader

/-! ## Whole files -/

namespace ClassFile

open Reader

variable {bs : Bytes} {parts : ClassFile} {d : Cursor} {fault : ClassFault}

theorem decode_of_fault (h : readParts ⟨0, bs⟩ = .error fault) : decode bs = .error fault := by
  rw [decode, h]

theorem decode_of_parts (h : readParts ⟨0, bs⟩ = .ok (parts, d)) :
    decode bs = if d.rest.isEmpty then parts.identify else .error (.trailingBytes d.rest.length) := by
  rw [decode, h]

theorem fault_of_parts (h : readParts ⟨0, bs⟩ = .ok (parts, d)) (hfault : decode bs = .error fault) :
    fault.OfLookup ∨ fault = .trailingBytes d.rest.length := by
  rw [decode_of_parts h] at hfault
  split at hfault
  · exact .inl (identify_fault hfault)
  · cases hfault
    exact .inr rfl

theorem readParts_of_decode (h : decode bs = .error fault) (hlookup : ¬ fault.OfLookup)
    (htrailing : ∀ count, fault ≠ .trailingBytes count) : readParts ⟨0, bs⟩ = .error fault := by
  cases hparts : readParts ⟨0, bs⟩ with
  | error e =>
    rw [decode_of_fault hparts] at h
    cases h
    rfl
  | ok p =>
    rcases fault_of_parts hparts h with hfault | hfault
    · exact absurd hfault hlookup
    · exact absurd hfault (htrailing _)

/-- What is missing is told exactly: with fewer bytes added so many fewer are missing, at the same
place, and with enough of them nothing is missing there. A wrong beginning and an unknown constant are
told whatever follows. -/
theorem decode_more (bs : Bytes) :
    (∀ offset missing, decode bs = .error (.truncated offset missing) →
      offset ≤ bs.length ∧ 1 ≤ missing ∧
      (∀ x : Bytes, x.length < missing →
        decode (bs ++ x) = .error (.truncated offset (missing - x.length))) ∧
      ∀ x : Bytes, missing ≤ x.length → ∀ offset' missing',
        decode (bs ++ x) = .error (.truncated offset' missing') → offset < offset') ∧
    (∀ found, decode bs = .error (.badMagic found) →
      ∀ x, decode (bs ++ x) = .error (.badMagic found)) ∧
    ∀ tag index, decode bs = .error (.unknownConstantTag tag index) →
      ∀ x, decode (bs ++ x) = .error (.unknownConstantTag tag index) := by
  have hsteady := made_readParts.steady
  have hsettled : ∀ fault, decode bs = .error fault → fault.OfContent → ¬ fault.OfLookup →
      ∀ x, decode (bs ++ x) = .error fault := by
    intro fault h hcontent hlookup x
    have hparts := readParts_of_decode h hlookup (by rintro count rfl; exact hcontent)
    exact decode_of_fault (hsteady.refused hparts hcontent x)
  refine ⟨fun offset missing h => ?_, fun found h => hsettled _ h trivial id,
    fun tag index h => hsettled _ h trivial id⟩
  have hlacks := hsteady.truncated (readParts_of_decode h id (by simp))
  refine ⟨by simpa using hlacks.within, hlacks.positive,
    fun x hx => decode_of_fault (hlacks.fewer x hx), fun x hx offset' missing' h' => ?_⟩
  have hpast := hlacks.enough x hx
  rw [show (Cursor.mk 0 bs).more x = ⟨0, bs ++ x⟩ from rfl,
    readParts_of_decode h' id (by simp)] at hpast
  exact hpast

/-- A class file that is cut off in a wide constant, and the two faults that stay. -/
theorem sealedBytes_more :
    decode (sealedBytes.take 20) = .error (.truncated 18 6) ∧
    decode (sealedBytes.take 20 ++ [0, 0]) = .error (.truncated 18 4) ∧
    (∀ missing, decode (sealedBytes.take 20 ++ [0, 0, 0, 0, 0, 7]) ≠ .error (.truncated 18 missing)) ∧
    decode ([0, 0, 0, 0] ++ sealedBytes) = .error (.badMagic 0) ∧
    decode ((sealedBytes.take 10 ++ [2]) ++ sealedBytes) = .error (.unknownConstantTag 2 1) := by
  have hcut : decode (sealedBytes.take 20) = .error (.truncated 18 6) := rfl
  obtain ⟨_, _, hfewer, henough⟩ := (decode_more (sealedBytes.take 20)).1 18 6 hcut
  refine ⟨hcut, hfewer [0, 0] (by decide), fun missing h => ?_,
    (decode_more [0, 0, 0, 0]).2.1 0 rfl sealedBytes,
    (decode_more (sealedBytes.take 10 ++ [2])).2.2 2 1 rfl sealedBytes⟩
  exact Nat.lt_irrefl 18 (henough [0, 0, 0, 0, 0, 7] (by decide) 18 missing h)

/-- A class file that is cut short lacks bytes, no more than were cut off, and has no other fault; one
that goes on has so many trailing bytes. -/
theorem decode_cut {c : ClassFile} (h : decode bs = .ok c) :
    (∀ front rest, front ++ rest = bs → rest ≠ [] → ∃ offset missing,
      decode front = .error (.truncated offset missing) ∧ offset ≤ front.length ∧ 1 ≤ missing ∧
        front.length + missing ≤ bs.length) ∧
    ∀ x : Bytes, x ≠ [] → decode (bs ++ x) = .error (.trailingBytes x.length) := by
  have hsteady := made_readParts.steady
  obtain ⟨parts, d, hparts⟩ : ∃ parts d, readParts ⟨0, bs⟩ = .ok (parts, d) := by
    cases hread : readParts ⟨0, bs⟩ with
    | error e =>
      rw [decode_of_fault hread] at h
      cases h
    | ok p => exact ⟨p.1, p.2, rfl⟩
  have hend : d.rest = [] := by
    rw [decode_of_parts hparts] at h
    split at h
    · next hempty => exact List.isEmpty_iff.1 hempty
    · cases h
  refine ⟨fun front rest hbs hrest => ?_, fun x hx => ?_⟩
  · have hmore : (Cursor.mk 0 front).more rest = ⟨0, bs⟩ := by rw [Cursor.more, hbs]
    -- What reads the whole file does not read the front to its end, and finds nothing wrong there.
    cases hread : readParts ⟨0, front⟩ with
    | ok p =>
      have hwhole := hsteady.result hread rest
      rw [hmore, hparts] at hwhole
      cases hwhole
      exact absurd (List.append_eq_nil_iff.1 hend).2 hrest
    | error fault =>
      rcases made_readParts.fault hread with ⟨offset, missing, rfl⟩ | hcontent
      · have hlacks := hsteady.truncated hread
        refine ⟨offset, missing, decode_of_fault hread, by simpa using hlacks.within,
          hlacks.positive, ?_⟩
        apply Nat.le_of_not_lt
        intro hlong
        rw [← hbs, List.length_append] at hlong
        have hstill := hlacks.fewer rest (by omega)
        rw [hmore, hparts] at hstill
        cases hstill
      · have hwhole := hsteady.refused hread hcontent rest
        rw [hmore, hparts] at hwhole
        cases hwhole
  · have hlonger : readParts ⟨0, bs ++ x⟩ = .ok (parts, d.more x) := hsteady.result hparts x
    have hrest : (d.more x).rest = x := by rw [Cursor.more, hend, List.nil_append]
    rw [decode_of_parts hlonger, hrest, if_neg (by simpa using hx)]

/-- A class file that lacks its last byte, and one with a byte too many. -/
theorem sealedBytes_cut : decode sealedBytes = .ok sealedClass ∧
    (∃ offset missing, decode sealedBytes.dropLast = .error (.truncated offset missing) ∧
      missing = 1) ∧
    decode (sealedBytes ++ [0]) = .error (.trailingBytes 1) := by
  obtain ⟨hshort, hlong⟩ := decode_cut decode_sealedBytes
  obtain ⟨offset, missing, hfault, _, hpositive, hmissing⟩ :=
    hshort sealedBytes.dropLast [0x19] rfl (by simp)
  refine ⟨decode_sealedBytes, ⟨offset, missing, hfault, ?_⟩, hlong [0] (by simp)⟩
  have hlength : sealedBytes.length = sealedBytes.dropLast.length + 1 := rfl
  omega

end ClassFile

end Unseal
