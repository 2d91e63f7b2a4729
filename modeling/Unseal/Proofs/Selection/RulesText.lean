import Mathlib.Data.List.Nodup
import Unseal.Selection.RulesText
import Unseal.Proofs.Json.Spelling
/-
  Rules as text — reading rules however they are written

  Rules can be written in many ways. In an object the keys stand in any order, and
  a key whose value is the one of the rules that choose nothing may be left out. In
  a list the values stand in the order of their keys, and such values may be left
  out at the end. Either text can have blanks between its tokens, and every
  character of a key or a value can be written in each of its ways. All these texts
  are read as the same rules. A text that goes wrong in its keys only, because one
  is there twice or is none of the five, is refused for what it holds and not for
  its grammar, whatever the other keys are and wherever the fault stands.

  What is proved:
    1. `keyValue_reads` — the value of a key is read, however it is written.
    2. `entriesFrom_keys`, `listValues_keys` — the entries of an object and the values
       of a list put the values of their keys into the draft.
    3. `entriesFrom_fault` — entries with a key twice or an unknown key are refused.
    4. `Rules.ofText_spelled` — rules are read back from every text that writes them,
       and a text with such a key is refused.
-/

namespace Unseal

open Json RulesText

/-! ## Values -/

/-- The value that rules have for a key. -/
inductive RuleValue where
  | texts (l : List String)
  | flag (b : Bool)

def RuleValue.tokens : RuleValue → List Token
  | .texts l => listTokens (l.map fun s => [.text s])
  | .flag true => [.plain ['t', 'r', 'u', 'e']]
  | .flag false => [.plain ['f', 'a', 'l', 's', 'e']]

theorem RuleValue.tokens_head (v : RuleValue) : ∃ t ts c, v.tokens = t :: ts ∧
    t.head? = some c ∧ isBlank c = false ∧ c ≠ ']' := by
  cases v with
  | texts l => exact ⟨_, _, '[', rfl, rfl, rfl, by decide⟩
  | flag b =>
    cases b with
    | true => exact ⟨_, _, 't', rfl, rfl, rfl, by decide⟩
    | false => exact ⟨_, _, 'f', rfl, rfl, rfl, by decide⟩

namespace Rules

def value (r : Rules) : RuleKey → RuleValue
  | .classes => .texts r.classes
  | .excludedClasses => .texts r.excludedClasses
  | .packages => .texts r.packages
  | .excludedPackages => .texts r.excludedPackages
  | .includeSubpackages => .flag r.includeSubpackages

/-- The keys that are left out have the values of the rules that choose nothing. -/
def Suffice (r : Rules) (keys : List RuleKey) : Prop :=
  ∀ key, key ∉ keys → r.value key = Rules.none.value key

/-- The rules as an object with the keys, in this order. -/
def asObject (r : Rules) (keys : List RuleKey) : List Token :=
  objectTokens (keys.map fun key => (key.text, (r.value key).tokens))

/-- The rules as a list of the values of the keys, in this order. -/
def asList (r : Rules) (keys : List RuleKey) : List Token :=
  listTokens (keys.map fun key => (r.value key).tokens)

theorem eq_of_value {r r' : Rules} (h : ∀ key, r.value key = r'.value key) : r = r' := by
  have hclasses := h .classes
  have hexcluded := h .excludedClasses
  have hpackages := h .packages
  have hexcludedPackages := h .excludedPackages
  have hsubpackages := h .includeSubpackages
  simp only [value, RuleValue.texts.injEq, RuleValue.flag.injEq] at *
  cases r
  cases r'
  simp only at *
  subst_vars
  rfl

end Rules

theorem RuleKey.ofText?_text (key : RuleKey) : RuleKey.ofText? key.text = some key := by
  cases key <;> rfl

theorem RuleKey.text_of_ofText? {s : String} {key : RuleKey} (h : RuleKey.ofText? s = some key) :
    key.text = s := by
  rw [RuleKey.ofText?] at h
  have hfound := List.find?_some h
  exact eq_of_beq hfound

theorem RuleKey.text_injective {key key' : RuleKey} (h : key.text = key'.text) : key = key' := by
  rw [← Option.some.injEq, ← key.ofText?_text, h, key'.ofText?_text]

/-! ## Drafts -/

namespace RulesText.Draft

/-- The draft with the value that the rules have for the key. -/
def set (d : Draft) (r : Rules) : RuleKey → Draft
  | .classes => { d with classes := some r.classes }
  | .excludedClasses => { d with excludedClasses := some r.excludedClasses }
  | .packages => { d with packages := some r.packages }
  | .excludedPackages => { d with excludedPackages := some r.excludedPackages }
  | .includeSubpackages => { d with includeSubpackages := some r.includeSubpackages }

/-- The draft holds the values of the rules for the keys and no others. -/
def Holds (d : Draft) (r : Rules) (keys : List RuleKey) : Prop :=
  ∀ key, (d.has key = true ↔ key ∈ keys) ∧ (key ∈ keys → d.rules.value key = r.value key)

theorem has_set (d : Draft) (r : Rules) (key key' : RuleKey) :
    (d.set r key).has key' = (decide (key' = key) || d.has key') := by
  cases key <;> cases key' <;> rfl

theorem rules_set (d : Draft) (r : Rules) (key key' : RuleKey) :
    (d.set r key).rules.value key' =
      if key' = key then r.value key' else d.rules.value key' := by
  cases key <;> cases key' <;> rfl

theorem rules_of_not_has {d : Draft} {key : RuleKey} (h : ¬ d.has key = true) :
    d.rules.value key = Rules.none.value key := by
  cases key <;> simp only [has, Option.not_isSome_iff_eq_none] at h <;>
    simp only [Rules.value, rules, h] <;> rfl

theorem empty_holds (r : Rules) : Draft.empty.Holds r [] := by
  intro key
  refine ⟨?_, fun h => absurd h List.not_mem_nil⟩
  cases key <;> simp [empty, has]

theorem Holds.set {d : Draft} {r : Rules} {keys : List RuleKey} (h : d.Holds r keys)
    (key : RuleKey) : (d.set r key).Holds r (keys ++ [key]) := by
  intro key'
  obtain ⟨hhas, hvalue⟩ := h key'
  refine ⟨?_, ?_⟩
  · rw [has_set, Bool.or_eq_true, decide_eq_true_eq, hhas, List.mem_append, List.mem_singleton]
    exact or_comm
  · intro hmem
    rw [rules_set]
    split
    · rfl
    · next hne =>
      rcases List.mem_append.1 hmem with hmem | hmem
      · exact hvalue hmem
      · exact absurd (List.mem_singleton.1 hmem) hne

theorem Holds.rules_eq {d : Draft} {r : Rules} {keys : List RuleKey} (h : d.Holds r keys)
    (hsuffice : r.Suffice keys) : d.rules = r := by
  apply Rules.eq_of_value
  intro key
  obtain ⟨hhas, hvalue⟩ := h key
  by_cases hmem : key ∈ keys
  · exact hvalue hmem
  · rw [hsuffice key hmem, rules_of_not_has (mt hhas.1 hmem)]

end RulesText.Draft

namespace RulesText

/-! ## Reading values -/

theorem textValue_reads (s : String) : Reads [.text s] textValue s := by
  intro ts cs h
  obtain ⟨body, rest, hskip, hread, hrest, hlt⟩ := h.text
  refine ⟨rest, ?_, hrest, hlt⟩
  simp only [textValue, hskip]
  exact hread

theorem boolValue_reads (b : Bool) : Reads (RuleValue.flag b).tokens boolValue b := by
  intro ts cs h
  cases b with
  | true =>
    obtain ⟨rest, hskip, hrest, hlt⟩ := h.word rfl
    refine ⟨rest, ?_, hrest, hlt⟩
    simp only [boolValue, hskip, if_true, readWord_append]
    rfl
  | false =>
    obtain ⟨rest, hskip, hrest, hlt⟩ := h.word rfl
    refine ⟨rest, ?_, hrest, hlt⟩
    simp only [boolValue, hskip, readWord_append]
    rfl

section
variable {first : Bool} {ts : List Token} {cs : List Char}

theorem nextItem_end (first : Bool) (h : Spells (.mark ']' :: ts) cs) :
    nextItem first cs = .ok none ∧
      ∃ rest, endList cs = .ok rest ∧ Spells ts rest ∧ rest.length < cs.length := by
  obtain ⟨rest, hskip, hrest, hlt⟩ := h.mark rfl
  refine ⟨?_, rest, ?_, hrest, hlt⟩
  · simp only [nextItem, hskip, if_true]
  · simp only [endList, hskip, if_true]

theorem nextItem_item {t : Token} {item : List Token} {items : List (List Token)} {c : Char}
    (h : Spells (separated first ((t :: item) :: items) ++ ts) cs) (hhead : t.head? = some c)
    (hblank : isBlank c = false) (hend : c ≠ ']') :
    ∃ text, nextItem first cs = .ok (some text) ∧
      Spells (t :: item ++ (separated false items ++ ts)) text ∧ text.length ≤ cs.length := by
  cases first with
  | true =>
    rw [separated, List.append_assoc] at h
    obtain ⟨behind, hskip, htext, hlt⟩ := h.skip hhead hblank
    exact ⟨_, by simp only [nextItem, hskip, if_neg hend, if_true], htext, hlt⟩
  | false =>
    rw [separated, List.cons_append, List.append_assoc] at h
    obtain ⟨rest, hcomma, hrest, hlt⟩ := h.mark rfl
    obtain ⟨behind, hskip, htext, hlt'⟩ := hrest.skip hhead hblank
    refine ⟨_, ?_, htext, Nat.le_trans hlt' hlt.le⟩
    simp only [nextItem, hcomma, hskip, if_neg hend]
    rfl

theorem textsFrom_reads {l : List String} {steps : Nat} (hsteps : cs.length < steps)
    (done : List String)
    (h : Spells (separated first (l.map fun s => [.text s]) ++ .mark ']' :: ts) cs) :
    ∃ rest, textsFrom steps first done cs = .ok (done.reverse ++ l, rest) ∧ Spells ts rest ∧
      rest.length < cs.length := by
  induction l generalizing first steps done cs with
  | nil =>
    obtain ⟨steps, rfl⟩ := Nat.exists_eq_add_one_of_ne_zero (Nat.ne_zero_of_lt hsteps)
    obtain ⟨hnext, rest, hend, hrest, hlt⟩ := nextItem_end first (by simpa [separated] using h)
    refine ⟨rest, ?_, hrest, hlt⟩
    simp only [textsFrom, hnext, hend, List.append_nil]
    rfl
  | cons s l ih =>
    obtain ⟨steps, rfl⟩ := Nat.exists_eq_add_one_of_ne_zero (Nat.ne_zero_of_lt hsteps)
    obtain ⟨text, hnext, htext, hle⟩ := nextItem_item h rfl rfl (by decide)
    obtain ⟨rest, hread, hrest, hlt⟩ := textValue_reads s _ _ htext
    have hsteps' : rest.length < steps := by omega
    obtain ⟨last, hlist, hlast, hlt'⟩ := ih hsteps' (s :: done) hrest
    refine ⟨last, ?_, hlast, by omega⟩
    simp only [textsFrom, hnext, hread, hlist, List.reverse_cons, List.append_assoc,
      List.singleton_append]

end

theorem textsValue_reads (l : List String) : Reads (RuleValue.texts l).tokens textsValue l := by
  intro ts cs h
  rw [RuleValue.tokens, listTokens, List.cons_append, List.append_assoc] at h
  obtain ⟨items, hskip, hitems, hlt⟩ := h.mark rfl
  obtain ⟨rest, hlist, hrest, hlt'⟩ := textsFrom_reads (Nat.lt_succ_self _) [] hitems
  refine ⟨rest, ?_, hrest, by omega⟩
  simp only [textsValue, hskip, if_true]
  exact hlist

/-- The value of a key is read, however it is written. -/
theorem keyValue_reads (d : Draft) (r : Rules) (key : RuleKey) :
    Reads (r.value key).tokens (keyValue key d) (d.set r key) := by
  cases key with
  | includeSubpackages =>
    exact (boolValue_reads r.includeSubpackages).map
      fun v => { d with includeSubpackages := some v }
  | classes => exact (textsValue_reads r.classes).map fun v => { d with classes := some v }
  | excludedClasses =>
    exact (textsValue_reads r.excludedClasses).map fun v => { d with excludedClasses := some v }
  | packages => exact (textsValue_reads r.packages).map fun v => { d with packages := some v }
  | excludedPackages =>
    exact (textsValue_reads r.excludedPackages).map fun v => { d with excludedPackages := some v }

/-! ## Lists -/

/-- The values of a list are put into the draft; `more` are the keys whose values are left out. -/
theorem listValues_keys {r : Rules} {keys : List RuleKey} {more : List RuleKey} {first : Bool}
    {d : Draft} {before : List RuleKey} {ts : List Token} {cs : List Char}
    (hd : d.Holds r before)
    (h : Spells (separated first (keys.map fun key => (r.value key).tokens) ++ .mark ']' :: ts)
      cs) :
    ∃ d' rest, listValues first (keys ++ more) d cs = .ok (d', rest) ∧
      d'.Holds r (before ++ keys) ∧ Spells ts rest := by
  induction keys generalizing first d before cs with
  | nil =>
    obtain ⟨hnext, rest, hend, hrest, _⟩ := nextItem_end first (by simpa [separated] using h)
    refine ⟨d, rest, ?_, by rwa [List.append_nil], hrest⟩
    cases more with
    | nil => simp only [List.nil_append, listValues, hend]; rfl
    | cons key more => simp only [List.nil_append, listValues, hnext, hend]; rfl
  | cons key keys ih =>
    obtain ⟨t, item, c, htokens, hhead, hblank, hne⟩ := (r.value key).tokens_head
    rw [List.map_cons, htokens] at h
    obtain ⟨text, hnext, htext, _⟩ := nextItem_item h hhead hblank hne
    rw [← htokens] at htext
    obtain ⟨rest, hread, hrest, _⟩ := keyValue_reads d r key _ _ htext
    obtain ⟨d', last, hlist, hholds, hlast⟩ := ih (hd.set key) hrest
    refine ⟨d', last, ?_, by rwa [List.append_assoc] at hholds, hlast⟩
    simp only [List.cons_append, listValues, hnext, hread, hlist]

/-! ## Objects -/

/-- The tokens of a key and its value. -/
def memberTokens (m : String × List Token) : List Token := .text m.1 :: .mark ':' :: m.2

section
variable {first : Bool} {ts : List Token} {cs : List Char}

theorem nextKey_end (first : Bool) (h : Spells (.mark '\x7d' :: ts) cs) :
    nextKey first cs = .ok none ∧ ∃ rest, endObject cs = .ok rest ∧ Spells ts rest := by
  obtain ⟨rest, hskip, hrest, _⟩ := h.mark rfl
  refine ⟨?_, rest, ?_, hrest⟩
  · simp only [nextKey, hskip, if_true]
  · simp only [endObject, hskip, if_true]

theorem nextKey_member {m : String × List Token} {members : List (List Token)}
    (h : Spells (separated first (memberTokens m :: members) ++ ts) cs) :
    ∃ text rest, nextKey first cs = .ok (some text) ∧ readText text = .ok (m.1, rest) ∧
      Spells (.mark ':' :: (m.2 ++ (separated false members ++ ts))) rest ∧
      rest.length < cs.length := by
  cases first with
  | true =>
    rw [separated, List.append_assoc] at h
    obtain ⟨text, rest, hskip, hread, hrest, hlt⟩ := h.text
    refine ⟨text, rest, ?_, hread, hrest, hlt⟩
    simp only [nextKey, hskip]
    rfl
  | false =>
    rw [separated, List.cons_append, List.append_assoc] at h
    obtain ⟨behind, hcomma, hbehind, hlt⟩ := h.mark rfl
    obtain ⟨text, rest, hskip, hread, hrest, hlt'⟩ := hbehind.text
    refine ⟨text, rest, ?_, hread, hrest, by omega⟩
    simp only [nextKey, hcomma, hskip]
    rfl

end

theorem readEntry_set {d : Draft} {r : Rules} {key : RuleKey} {ts : List Token}
    {text rest : List Char} (hread : readText text = .ok (key.text, rest))
    (hnew : d.has key = false) (h : Spells (.mark ':' :: ((r.value key).tokens ++ ts)) rest) :
    ∃ last, readEntry d text = .ok (d.set r key, last) ∧ Spells ts last ∧
      last.length < rest.length := by
  obtain ⟨value, hcolon, hvalue, hlt⟩ := h.mark rfl
  obtain ⟨last, hkey, hlast, hlt'⟩ := keyValue_reads d r key ts value hvalue
  refine ⟨last, ?_, hlast, by omega⟩
  simp only [readEntry, hread, key.ofText?_text, hnew, readColon, hcolon, if_true, hkey]
  rfl

/-- The entries of an object with different keys are put into the draft. -/
theorem entriesFrom_keys {r : Rules} {keys : List RuleKey} {first : Bool} {d : Draft}
    {before : List RuleKey} {ts : List Token} {cs : List Char} {steps : Nat}
    (hsteps : cs.length < steps) (hd : d.Holds r before) (hnodup : (before ++ keys).Nodup)
    (h : Spells (separated first (keys.map fun key => memberTokens (key.text, (r.value key).tokens))
      ++ .mark '\x7d' :: ts) cs) :
    ∃ d' rest, entriesFrom steps first d cs = .ok (d', rest) ∧ d'.Holds r (before ++ keys) ∧
      Spells ts rest := by
  induction keys generalizing first d before cs steps with
  | nil =>
    obtain ⟨steps, rfl⟩ := Nat.exists_eq_add_one_of_ne_zero (Nat.ne_zero_of_lt hsteps)
    obtain ⟨hnext, rest, hend, hrest⟩ := nextKey_end first (by simpa [separated] using h)
    refine ⟨d, rest, ?_, by rwa [List.append_nil], hrest⟩
    simp only [entriesFrom, hnext, hend]
    rfl
  | cons key keys ih =>
    obtain ⟨steps, rfl⟩ := Nat.exists_eq_add_one_of_ne_zero (Nat.ne_zero_of_lt hsteps)
    have hsplit : before ++ [key] ++ keys = before ++ key :: keys := by
      rw [List.append_assoc, List.singleton_append]
    have hnew : d.has key = false := by
      rw [← Bool.not_eq_true, (hd key).1]
      intro hmem
      exact (List.nodup_append.1 hnodup).2.2 key hmem key List.mem_cons_self rfl
    obtain ⟨text, rest, hnext, hread, hrest, hlt⟩ := nextKey_member h
    obtain ⟨last, hentry, hlast, hlt'⟩ := readEntry_set hread hnew hrest
    have hsteps' : last.length < steps := by omega
    obtain ⟨d', final, hentries, hholds, hfinal⟩ :=
      ih hsteps' (hd.set key) (by rwa [hsplit]) hlast
    refine ⟨d', final, ?_, by rwa [← hsplit], hfinal⟩
    simp only [entriesFrom, hnext, hentry, hentries]

/-! ## Keys that are refused -/

/-- The first value of each key that has not been read is one that rules can have. The values
behind a key that is there again are free. -/
def Fit (d : Draft) (members : List (String × List Token)) : Prop :=
  ∀ key v, d.has key = false → members.lookup key.text = some v →
    ∃ r : Rules, v = (r.value key).tokens

/-- A name is there twice, or it is that of no key but those that have been read. -/
def Faulty (d : Draft) (names : List String) : Prop :=
  ¬ names.Nodup ∨ ∃ name ∈ names, ∀ key : RuleKey, key.text = name → d.has key = true

section
variable {d : Draft} {r : Rules} {key : RuleKey}

theorem has_set_iff {key' : RuleKey} :
    (d.set r key).has key' = true ↔ key' = key ∨ d.has key' = true := by
  rw [Draft.has_set, Bool.or_eq_true, decide_eq_true_eq]

theorem Fit.behind {v : List Token} {members : List (String × List Token)}
    (h : Fit d ((key.text, v) :: members)) : Fit (d.set r key) members := by
  intro key' v' hnot hlookup
  rw [← Bool.not_eq_true, has_set_iff, not_or, Bool.not_eq_true] at hnot
  have hne : (key'.text == key.text) = false :=
    beq_eq_false_iff_ne.2 (mt RuleKey.text_injective hnot.1)
  exact h key' v' hnot.2 (by rw [List.lookup_cons, hne, hlookup])

theorem Faulty.behind {names : List String} (h : Faulty d (key.text :: names))
    (hnew : d.has key = false) : Faulty (d.set r key) names := by
  rcases h with htwice | ⟨name, hname, hseen⟩
  · rw [List.nodup_cons, not_and_or, not_not] at htwice
    refine htwice.symm.imp_right fun hagain => ?_
    exact ⟨key.text, hagain, fun key' hkey' => has_set_iff.2 (.inl (RuleKey.text_injective hkey'))⟩
  · rcases List.mem_cons.1 hname with rfl | hname
    · rw [hseen key rfl] at hnew
      cases hnew
    · exact .inr ⟨name, hname, fun key' hkey' => has_set_iff.2 (.inr (hseen key' hkey'))⟩

end

/-- Entries with a key twice or an unknown key are refused for what they hold: a key is looked at
before its value, and what is in front of the first such key is read. -/
theorem entriesFrom_fault {members : List (String × List Token)} {first : Bool} {d : Draft}
    {ts : List Token} {cs : List Char} {steps : Nat} (hsteps : cs.length < steps)
    (hfit : Fit d members) (hfault : Faulty d (members.map Prod.fst))
    (h : Spells (separated first (members.map memberTokens) ++ ts) cs) :
    ∃ fault, entriesFrom steps first d cs = .error fault ∧ fault.kind = .data := by
  induction members generalizing first d cs steps with
  | nil =>
    rcases hfault with hfault | ⟨name, hname, _⟩
    · exact absurd List.nodup_nil hfault
    · cases hname
  | cons m members ih =>
    obtain ⟨name, v⟩ := m
    obtain ⟨steps, rfl⟩ := Nat.exists_eq_add_one_of_ne_zero (Nat.ne_zero_of_lt hsteps)
    obtain ⟨text, rest, hnext, hread, hrest, hlt⟩ := nextKey_member h
    cases hkey : RuleKey.ofText? name with
    | none =>
      refine ⟨.unknownKey name, ?_, rfl⟩
      simp only [entriesFrom, hnext, readEntry, hread, hkey]
    | some key =>
      obtain rfl : key.text = name := RuleKey.text_of_ofText? hkey
      cases hnew : d.has key with
      | true =>
        refine ⟨.duplicateKey key.text, ?_, rfl⟩
        simp only [entriesFrom, hnext, readEntry, hread, hkey, hnew, if_true]
      | false =>
        obtain ⟨r, rfl⟩ := hfit key v hnew List.lookup_cons_self
        obtain ⟨last, hentry, hlast, hlt'⟩ := readEntry_set hread hnew hrest
        have hsteps' : last.length < steps := by omega
        have hfit' : Fit (d.set r key) members := hfit.behind
        obtain ⟨fault, hentries, hkind⟩ := ih hsteps' hfit' (hfault.behind hnew) hlast
        refine ⟨fault, ?_, hkind⟩
        simp only [entriesFrom, hnext, hentry, hentries]

/-! ## Texts -/

theorem spells_objectTokens {members : List (String × List Token)} {cs : List Char}
    (h : Spells (objectTokens members) cs) :
    ∃ rest, skipBlanks cs = '\x7b' :: rest ∧
      Spells (separated true (members.map memberTokens) ++ [.mark '\x7d']) rest := by
  obtain ⟨rest, hskip, hrest, _⟩ := h.mark rfl
  exact ⟨rest, hskip, hrest⟩

theorem rulesValue_asObject {r : Rules} {keys : List RuleKey} {cs : List Char}
    (hnodup : keys.Nodup) (h : Spells (r.asObject keys) cs) :
    ∃ d rest, rulesValue cs = .ok (d, rest) ∧ d.Holds r keys ∧ Spells [] rest := by
  obtain ⟨rest, hskip, hrest⟩ := spells_objectTokens h
  rw [List.map_map] at hrest
  obtain ⟨d, last, hentries, hholds, hlast⟩ :=
    entriesFrom_keys (Nat.lt_succ_self _) (Draft.empty_holds r) hnodup hrest
  refine ⟨d, last, ?_, hholds, hlast⟩
  simp only [rulesValue, hskip]
  exact hentries

theorem rulesValue_asList {r : Rules} {keys : List RuleKey} {cs : List Char}
    (hkeys : keys <+: RuleKey.all) (h : Spells (r.asList keys) cs) :
    ∃ d rest, rulesValue cs = .ok (d, rest) ∧ d.Holds r keys ∧ Spells [] rest := by
  obtain ⟨more, hmore⟩ := hkeys
  obtain ⟨rest, hskip, hrest, _⟩ := h.mark rfl
  obtain ⟨d, last, hlist, hholds, hlast⟩ := listValues_keys (Draft.empty_holds r) hrest
  refine ⟨d, last, ?_, hholds, hlast⟩
  simp only [rulesValue, hskip, if_true, ← hmore]
  exact hlist

end RulesText

namespace Rules

theorem ofText_of_rulesValue {s : String} {r : Rules} {keys : List RuleKey} {d : Draft}
    {rest : List Char} (hread : rulesValue s.toList = .ok (d, rest)) (hholds : d.Holds r keys)
    (hsuffice : r.Suffice keys) (hrest : Spells [] rest) : Rules.ofText s = .ok r := by
  simp only [Rules.ofText, hread, hrest.end, List.isEmpty_nil, if_true, hholds.rules_eq hsuffice]

/-- Rules are read back from every text that writes them, as an object with its keys in any order
or as a list that may end early, where what is left out is what it is in the rules that choose
nothing. An object whose values are those of rules and in which a key is there twice or is none of
the five is refused for what it holds. -/
theorem ofText_spelled (s : String) :
    (∀ (r : Rules) (keys : List RuleKey), keys.Nodup → r.Suffice keys →
      Spells (r.asObject keys) s.toList → Rules.ofText s = .ok r) ∧
    (∀ (r : Rules) (keys : List RuleKey), keys <+: RuleKey.all → r.Suffice keys →
      Spells (r.asList keys) s.toList → Rules.ofText s = .ok r) ∧
    ∀ members : List (String × List Token),
      (∀ (key : RuleKey) (v : List Token), members.lookup key.text = some v →
        ∃ r : Rules, v = (r.value key).tokens) →
      (¬ (members.map Prod.fst).Nodup ∨ ∃ m ∈ members, ∀ key : RuleKey, key.text ≠ m.1) →
      Spells (objectTokens members) s.toList →
      ∃ fault, Rules.ofText s = .error fault ∧ fault.kind = .data := by
  refine ⟨?_, ?_, ?_⟩
  · intro r keys hnodup hsuffice hspells
    obtain ⟨d, rest, hread, hholds, hrest⟩ := rulesValue_asObject hnodup hspells
    exact ofText_of_rulesValue hread hholds hsuffice hrest
  · intro r keys hkeys hsuffice hspells
    obtain ⟨d, rest, hread, hholds, hrest⟩ := rulesValue_asList hkeys hspells
    exact ofText_of_rulesValue hread hholds hsuffice hrest
  · intro members hfit hfault hspells
    obtain ⟨rest, hskip, hrest⟩ := spells_objectTokens hspells
    have hfaulty : Faulty Draft.empty (members.map Prod.fst) := by
      refine hfault.imp_right fun ⟨m, hm, hunknown⟩ => ?_
      exact ⟨m.1, List.mem_map_of_mem hm, fun key hkey => absurd hkey (hunknown key)⟩
    obtain ⟨fault, hentries, hkind⟩ :=
      entriesFrom_fault (Nat.lt_succ_self _) (fun key v _ => hfit key v) hfaulty hrest
    refine ⟨fault, ?_, hkind⟩
    have hvalue : rulesValue s.toList = .error fault := by
      simp only [rulesValue, hskip]
      exact hentries
    simp only [Rules.ofText, hvalue]

/-- A character beyond the basic plane by its numbers, keys out of order, a list that ends early,
and a key that is there again. -/
theorem ofText_samples :
    Rules.ofText "\x7b\"includeSubpackages\":true,\n \"\\u0070ackages\":[\"\\uD83d\\ude00\"]\x7d" =
        .ok ⟨[], [], ["😀"], [], true⟩ ∧
      Rules.ofText " [[], [\"a\\/b\" ]]" = .ok ⟨[], ["a/b"], [], [], false⟩ ∧
      ∃ fault, Rules.ofText "\x7b\"packages\":[], \"packages\":null\x7d" = .error fault ∧
        fault.kind = .data := by
  refine ⟨?_, ?_, ?_⟩
  · apply (ofText_spelled _).1 _ [.includeSubpackages, .packages] (by decide)
    · intro key hkey
      cases key <;> first | rfl | simp at hkey
    · have hflag := @written_plain "includeSubpackages".toList rfl
      have hkey : List.Forall₂ WrittenChar "packages".toList
          (['\\', 'u', '0', '0', '7', '0'] :: "ackages".toList.map fun c => [c]) := by
        refine .cons ?_ (written_plain rfl)
        exact @WrittenChar.units 'p' [_]
          (.cons (.digits (by decide) (by decide) (by decide) (by decide)) .nil)
      have hvalue : List.Forall₂ WrittenChar "😀".toList
          [['\\', 'u', 'D', '8', '3', 'd', '\\', 'u', 'd', 'e', '0', '0']] := by
        refine .cons ?_ .nil
        exact @WrittenChar.units '😀' [_, _]
          (.cons (.digits (by decide) (by decide) (by decide) (by decide))
            (.cons (.digits (by decide) (by decide) (by decide) (by decide)) .nil))
      refine .sign (.quoted hflag (.sign (.unquoted (.sign (.blank rfl (.blank rfl ?_))))))
      exact .quoted hkey (.sign (.sign (.quoted hvalue (.sign (.sign (.nil blanks_nil))))))
  · apply (ofText_spelled _).2.1 _ [.classes, .excludedClasses] (by decide)
    · intro key hkey
      cases key <;> first | rfl | simp at hkey
    · have hvalue : List.Forall₂ WrittenChar "a/b".toList [['a'], ['\\', '/'], ['b']] :=
        .cons (.plain (by decide) (by decide) (by decide))
          (.cons (.short (by decide)) (written_plain rfl))
      exact .blank rfl (.sign (.sign (.sign (.sign (.blank rfl (.sign (.quoted hvalue
        (.blank rfl (.sign (.sign (.nil blanks_nil)))))))))))
  · apply (ofText_spelled _).2.2 [("packages", listTokens []), ("packages", [.plain "null".toList])]
    · intro key v hlookup
      cases key with
      | packages => exact ⟨Rules.none, (Option.some.inj hlookup).symm⟩
      | classes | excludedClasses | excludedPackages | includeSubpackages => cases hlookup
    · exact .inl (by decide)
    · have hkey := @written_plain "packages".toList rfl
      refine .sign (.quoted hkey (.sign (.sign (.sign (.sign (.blank rfl ?_))))))
      exact .quoted hkey (.sign (.unquoted (.sign (.nil blanks_nil))))

end Rules

end Unseal
