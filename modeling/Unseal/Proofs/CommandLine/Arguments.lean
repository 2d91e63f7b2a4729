import Mathlib.Data.List.Count
import Mathlib.Data.List.TakeDrop
import Mathlib.Data.List.TakeWhile
import Unseal.CommandLine.Parse
import Unseal.Proofs.Results
/-
  Arguments — what the words of a command line say

  An argument is an option with its value, an option without one, or an operand,
  and it is written as one word. What a line of arguments comes to depends on the
  values of each option, in their order, and on the operands in theirs.

  The reader holds an operand back until the word behind it is accepted. `Settles`
  says what a progress comes to once that is done, and so the words can be followed
  one by one.

  What is proved:
    1. `ofText_option`, `ofText_switch`, `ofText_operand` — the reader knows an argument
       by its dashes and its equals sign.
    2. `take_adds`, `takeAll_adds` — an argument adds the value that it gives and
       changes nothing else.
    3. `Collected.Fits.takeAll` — a line is taken whole if nothing that may stand once
       stands in it twice.
    4. `read_take`, `readAll_takeAll` — to read the text of arguments is to take them.
-/

namespace Unseal

def Format.name : Format → String
  | .json => "json"
  | .text => "text"

namespace CommandLine

/-! ## What is written -/

/-- The name of an option, which is written behind two dashes. -/
def Valued.name : Valued → String
  | .config => "config"
  | .className => "class"
  | .excludeClass => "exclude-class"
  | .package => "package"
  | .excludePackage => "exclude-package"
  | .format => "format"

def Switch.name : Switch → String
  | .includeSubpackages => "include-subpackages"
  | .parallel => "parallel"
  | .help => "help"

/-- What one word of a command line says. -/
inductive Argument where
  | option (v : Valued) (value : String)
  | switch (s : Switch)
  | operand (value : String)
  deriving DecidableEq

def Argument.text : Argument → String
  | .option v value => "--" ++ v.name ++ "=" ++ value
  | .switch s => "--" ++ s.name
  | .operand value => value

/-- The value for this option that the argument gives. -/
def Argument.value? (v : Valued) : Argument → Option String
  | .option w value => if w = v then some value else none
  | _ => none

def Argument.operand? : Argument → Option String
  | .operand value => some value
  | _ => none

/-- The values of an option, in their order. -/
def valuesOf (v : Valued) (line : List Argument) : List String := line.filterMap (Argument.value? v)

def operandsOf (line : List Argument) : List String := line.filterMap Argument.operand?

/-- The word stands for itself: it is not empty, and no dash begins it. -/
def IsOperand (value : String) : Prop := value ≠ "" ∧ value.toList.head? ≠ some '-'

variable {line : List Argument} {argument : Argument} {c c' : Collected} {p : Progress}

section Lines

variable (v w : Valued) (s : Switch) (value : String) (line more : List Argument)

@[simp] theorem valuesOf_nil : valuesOf v [] = [] := rfl

@[simp] theorem valuesOf_option : valuesOf v (.option w value :: line) =
    if w = v then value :: valuesOf v line else valuesOf v line := by
  by_cases h : w = v <;> simp [valuesOf, Argument.value?, h]

@[simp] theorem valuesOf_switch : valuesOf v (.switch s :: line) = valuesOf v line := rfl

@[simp] theorem valuesOf_operand : valuesOf v (.operand value :: line) = valuesOf v line := rfl

theorem valuesOf_append : valuesOf v (line ++ more) = valuesOf v line ++ valuesOf v more :=
  List.filterMap_append

@[simp] theorem operandsOf_nil : operandsOf [] = [] := rfl

@[simp] theorem operandsOf_option : operandsOf (.option v value :: line) = operandsOf line := rfl

@[simp] theorem operandsOf_switch : operandsOf (.switch s :: line) = operandsOf line := rfl

@[simp] theorem operandsOf_operand :
    operandsOf (.operand value :: line) = value :: operandsOf line := rfl

theorem operandsOf_append : operandsOf (line ++ more) = operandsOf line ++ operandsOf more :=
  List.filterMap_append

end Lines

theorem mem_operandsOf {value : String} (h : .operand value ∈ line) : value ∈ operandsOf line :=
  List.mem_filterMap.2 ⟨_, h, rfl⟩

theorem valuesOf_cons (v : Valued) (argument : Argument) (line : List Argument) :
    valuesOf v (argument :: line) = valuesOf v [argument] ++ valuesOf v line :=
  valuesOf_append v [argument] line

theorem operandsOf_cons (argument : Argument) (line : List Argument) :
    operandsOf (argument :: line) = operandsOf [argument] ++ operandsOf line :=
  operandsOf_append [argument] line

theorem count_switch_cons (s : Switch) (argument : Argument) (line : List Argument) :
    (argument :: line).count (.switch s) =
      [argument].count (.switch s) + line.count (.switch s) := by
  rw [← List.count_append, List.singleton_append]

theorem Valued.eq_config_of_name {v : Valued} (h : v.name = "config") : v = .config := by
  revert h
  cases v <;> decide

/-! ## Words -/

theorem splitValue_name {name : String} (hname : '=' ∉ name.toList) :
    splitValue name.toList = (name, none) ∧
      ∀ value : String, splitValue (name.toList ++ '=' :: value.toList) = (name, some value) := by
  have hplain : ∀ c ∈ name.toList, decide (c ≠ '=') = true := by
    intro c hc
    exact decide_eq_true fun h => hname (h ▸ hc)
  refine ⟨?_, ?_⟩
  · unfold splitValue
    rw [List.span_eq_takeWhile_dropWhile, List.takeWhile_eq_self_iff.2 hplain,
      List.dropWhile_eq_nil_iff.2 hplain]
    simp only [String.ofList_toList]
  · intro value
    unfold splitValue
    rw [List.span_eq_takeWhile_dropWhile, List.takeWhile_append_of_pos hplain,
      List.dropWhile_append_of_pos hplain]
    simp [String.ofList_toList]

theorem ofText_dashes {cs : List Char} {a : String} (h : a.toList = '-' :: '-' :: cs)
    (hcs : cs ≠ []) : Word.ofText a = .long (splitValue cs).1 (splitValue cs).2 := by
  unfold Word.ofText
  rw [h]
  cases cs with
  | nil => exact absurd rfl hcs
  | cons c cs => rfl

theorem ofText_option (v : Valued) (value : String) :
    Word.ofText (Argument.option v value).text = .long v.name (some value) := by
  have htext : (Argument.option v value).text.toList =
      '-' :: '-' :: (v.name.toList ++ '=' :: value.toList) := by
    simp [Argument.text, String.toList_append]
  have hname : '=' ∉ v.name.toList := by cases v <;> decide
  rw [ofText_dashes htext (by simp), (splitValue_name hname).2]

theorem ofText_switch (s : Switch) :
    Word.ofText (Argument.switch s).text = .long s.name none := by
  have htext : (Argument.switch s).text.toList = '-' :: '-' :: s.name.toList := by
    simp [Argument.text, String.toList_append]
  have hname : '=' ∉ s.name.toList := by cases s <;> decide
  have hletters : s.name.toList ≠ [] := by cases s <;> decide
  rw [ofText_dashes htext hletters, (splitValue_name hname).1]

/-- Where no dash begins an operand it is taken for none of the options. -/
theorem ofText_operand {value : String} (h : value.toList.head? ≠ some '-') :
    Word.ofText value = .plain := by
  unfold Word.ofText
  split <;> simp_all

/-! ## What an argument adds -/

/-- Takes an argument. -/
def Collected.take (c : Collected) : Argument → Except UsageFault Collected
  | .option v value => c.store v value
  | .switch s => c.turnOn s
  | .operand value => c.addOperand value

/-- The values of an option that were collected, in their order. -/
def Collected.values (c : Collected) : Valued → List String
  | .config => c.config.toList
  | .className => c.classes
  | .excludeClass => c.excludedClasses
  | .package => c.packages
  | .excludePackage => c.excludedPackages
  | .format => c.format.toList.map Format.name

def Collected.isOn (c : Collected) : Switch → Bool
  | .includeSubpackages => c.includeSubpackages
  | .parallel => c.parallel
  | .help => false

/-- What the line gives was added, and nothing else is changed. -/
structure Collected.Adds (line : List Argument) (c c' : Collected) : Prop where
  values : ∀ v, c'.values v = c.values v ++ valuesOf v line
  switches : ∀ s, (c'.isOn s).toNat = (c.isOn s).toNat + line.count (.switch s)
  operands : c'.operands = c.operands ++ operandsOf line

theorem name_of_ofText {value : String} {f : Format} (h : Format.ofText? value = some f) :
    f.name = value := by
  unfold Format.ofText? at h
  split at h
  · next hjson => cases h; exact hjson.symm
  · split at h
    · next htext => cases h; exact htext.symm
    · cases h

theorem ofText_name (f : Format) : Format.ofText? f.name = some f := by
  cases f <;> rfl

theorem store_ok {v : Valued} {value : String} (h : c.store v value = .ok c') :
    (∀ w, c'.values w = c.values w ++ if v = w then [value] else []) ∧
      (∀ s, c'.isOn s = c.isOn s) ∧ c'.operands = c.operands := by
  cases v with
  | config =>
    simp only [Collected.store] at h
    split at h
    · cases h
    · next hconfig =>
      split at h
      · cases h
      · cases h
        refine ⟨?_, fun s => by cases s <;> rfl, rfl⟩
        intro w
        cases w <;> simp_all [Collected.values]
  | format =>
    simp only [Collected.store] at h
    split at h
    · cases h
    · next hformat =>
      split at h
      · next f hf =>
        cases h
        refine ⟨?_, fun s => by cases s <;> rfl, rfl⟩
        intro w
        cases w <;> simp_all [Collected.values, name_of_ofText hf]
      · cases h
  | _ =>
    cases h
    refine ⟨?_, fun s => by cases s <;> rfl, rfl⟩
    intro w
    cases w <;> simp [Collected.values]

theorem turnOn_ok {s : Switch} (h : c.turnOn s = .ok c') :
    (∀ v, c'.values v = c.values v) ∧
      (∀ t, (c'.isOn t).toNat = (c.isOn t).toNat + if s = t then 1 else 0) ∧
      c'.operands = c.operands := by
  cases s with
  | help => cases h
  | _ =>
    simp only [Collected.turnOn] at h
    split at h
    · cases h
    · next hoff =>
      cases h
      refine ⟨fun v => by cases v <;> rfl, ?_, rfl⟩
      intro t
      cases t <;> simp_all [Collected.isOn]

theorem addOperand_ok {value : String} (h : c.addOperand value = .ok c') :
    c' = { c with operands := c.operands ++ [value] } := by
  unfold Collected.addOperand at h
  split at h
  · cases h
  · cases h
    rfl

theorem take_adds (h : c.take argument = .ok c') : Collected.Adds [argument] c c' := by
  cases argument with
  | option v value =>
    obtain ⟨hvalues, hswitches, hoperands⟩ := store_ok h
    refine ⟨?_, ?_, ?_⟩
    · intro w
      rw [hvalues w]
      simp
    · intro s
      simp [hswitches s]
    · simp [hoperands]
  | switch s =>
    obtain ⟨hvalues, hswitches, hoperands⟩ := turnOn_ok h
    refine ⟨?_, ?_, ?_⟩
    · intro v
      simp [hvalues v]
    · intro t
      rw [hswitches t, List.count_singleton]
      simp
    · simp [hoperands]
  | operand value =>
    obtain rfl := addOperand_ok h
    refine ⟨?_, ?_, ?_⟩
    · intro v
      cases v <;> simp [Collected.values]
    · intro s
      cases s <;> simp [Collected.isOn]
    · simp

theorem Collected.Adds.cons {c₁ : Collected} (h : Collected.Adds [argument] c c₁)
    (hline : Collected.Adds line c₁ c') : Collected.Adds (argument :: line) c c' := by
  refine ⟨?_, ?_, ?_⟩
  · intro v
    rw [hline.values v, h.values v, valuesOf_cons v argument line, List.append_assoc]
  · intro s
    rw [hline.switches s, h.switches s, count_switch_cons s argument line, Nat.add_assoc]
  · rw [hline.operands, h.operands, operandsOf_cons argument line, List.append_assoc]

/-- A line that is taken adds what it gives. The induction is on the line. -/
theorem takeAll_adds (h : line.foldlM Collected.take c = .ok c') : Collected.Adds line c c' := by
  induction line generalizing c with
  | nil =>
    cases h
    exact ⟨by simp, by simp, by simp⟩
  | cons argument line ih =>
    rw [List.foldlM_cons, bind_ok_iff] at h
    obtain ⟨c₁, htake, hline⟩ := h
    exact (take_adds htake).cons (ih hline)

/-- The line can be taken: what may stand once does not stand there twice, nothing that names a file
is empty, and no help is asked for. -/
structure Collected.Fits (c : Collected) (line : List Argument) : Prop where
  config : (c.values .config ++ valuesOf .config line).length ≤ 1
  format : (c.values .format ++ valuesOf .format line).length ≤ 1
  configs : "" ∉ valuesOf .config line
  formats : ∀ value ∈ valuesOf .format line, ∃ f : Format, value = f.name
  switches : ∀ s, (c.isOn s).toNat + line.count (.switch s) ≤ 1
  help : line.count (.switch .help) = 0
  operands : "" ∉ operandsOf line

theorem Collected.Fits.store {v : Valued} {value : String}
    (h : c.Fits (.option v value :: line)) : ∃ c', c.store v value = .ok c' := by
  cases v with
  | config =>
    have hnone : c.config = none := by
      cases hc : c.config with
      | none => rfl
      | some file =>
        have hone := h.config
        simp [Collected.values, hc] at hone
    have hvalue : value ≠ "" := by
      rintro rfl
      exact h.configs (by simp)
    refine ⟨{ c with config := some value }, ?_⟩
    simp [Collected.store, hnone, hvalue]
  | format =>
    have hnone : c.format = none := by
      cases hc : c.format with
      | none => rfl
      | some f =>
        have hone := h.format
        simp [Collected.values, hc] at hone
    obtain ⟨f, rfl⟩ := h.formats value (by simp)
    refine ⟨{ c with format := some f }, ?_⟩
    simp [Collected.store, hnone, ofText_name]
  | _ => exact ⟨_, rfl⟩

theorem Collected.Fits.turnOn {s : Switch} (h : c.Fits (.switch s :: line)) :
    ∃ c', c.turnOn s = .ok c' := by
  have hone := h.switches s
  rw [List.count_cons_self] at hone
  have hoff : c.isOn s = false := by
    cases hs : c.isOn s with
    | false => rfl
    | true =>
      rw [hs, Bool.toNat_true] at hone
      omega
  cases s with
  | help =>
    have hhelp := h.help
    rw [List.count_cons_self] at hhelp
    omega
  | includeSubpackages =>
    have hoff : c.includeSubpackages = false := hoff
    exact ⟨{ c with includeSubpackages := true }, by simp [Collected.turnOn, hoff]⟩
  | parallel =>
    have hoff : c.parallel = false := hoff
    exact ⟨{ c with parallel := true }, by simp [Collected.turnOn, hoff]⟩

theorem Collected.Fits.take (h : c.Fits (argument :: line)) : ∃ c', c.take argument = .ok c' := by
  cases argument with
  | option v value => exact h.store
  | switch s => exact h.turnOn
  | operand value =>
    have hvalue : value ≠ "" := by
      rintro rfl
      exact h.operands (by simp)
    exact ⟨{ c with operands := c.operands ++ [value] },
      by simp [Collected.take, Collected.addOperand, hvalue]⟩

theorem Collected.Fits.tail (h : c.Fits (argument :: line))
    (hadds : Collected.Adds [argument] c c') : c'.Fits line := by
  have hsplit : ∀ v,
      c'.values v ++ valuesOf v line = c.values v ++ valuesOf v (argument :: line) := by
    intro v
    rw [hadds.values v, valuesOf_cons v argument line, List.append_assoc]
  have hmem : ∀ {v value}, value ∈ valuesOf v line → value ∈ valuesOf v (argument :: line) := by
    intro v value hvalue
    rw [valuesOf_cons v argument line]
    exact List.mem_append_right _ hvalue
  refine ⟨?_, ?_, ?_, ?_, ?_, ?_, ?_⟩
  · rw [hsplit]
    exact h.config
  · rw [hsplit]
    exact h.format
  · exact fun hempty => h.configs (hmem hempty)
  · exact fun value hvalue => h.formats value (hmem hvalue)
  · intro s
    have hone := h.switches s
    rw [count_switch_cons s argument line] at hone
    rw [hadds.switches s]
    omega
  · have hnone := h.help
    rw [count_switch_cons _ argument line] at hnone
    omega
  · intro hempty
    apply h.operands
    rw [operandsOf_cons argument line]
    exact List.mem_append_right _ hempty

/-- A line that fits is taken whole. The induction is on the line. -/
theorem Collected.Fits.takeAll (h : c.Fits line) : ∃ c', line.foldlM Collected.take c = .ok c' := by
  induction line generalizing c with
  | nil => exact ⟨c, rfl⟩
  | cons argument line ih =>
    obtain ⟨c₁, htake⟩ := h.take
    obtain ⟨c', hall⟩ := ih (h.tail (take_adds htake))
    refine ⟨c', ?_⟩
    rw [List.foldlM_cons, htake]
    exact hall

/-! ## Following the words -/

/-- What was read comes to this, and options are still read. -/
structure Progress.Settles (p : Progress) (c : Collected) : Prop where
  settled : p.settled = .ok c
  ended : p.ended = false

theorem Progress.Settles.pending_ne (h : p.Settles c) (v : Valued) :
    p.pending ≠ some (.awaiting v) := by
  intro hv
  have hsettled := h.settled
  rw [Progress.settled, hv] at hsettled
  cases hsettled

theorem Progress.settles_start : Progress.start.Settles Collected.empty := ⟨rfl, rfl⟩

theorem Progress.Settles.operandCount (h : p.Settles c) : p.operandCount = c.operands.length := by
  have hsettled := h.settled
  unfold Progress.settled Collected.settle at hsettled
  unfold Progress.operandCount
  split at hsettled
  · next hpending =>
    cases hsettled
    simp [hpending]
  · cases hsettled
  · next v value hpending =>
    simp [hpending, (store_ok hsettled).2.2]
  · next value hpending =>
    simp [hpending, addOperand_ok hsettled]

/-- To read the text of an argument is to take the argument, where there is room for it. -/
theorem read_take (h : p.Settles c) (htake : c.take argument = .ok c')
    (hplain : ∀ value, argument = .operand value → value.toList.head? ≠ some '-')
    (hroom : c'.operands.length ≤ 2) :
    ∃ q, p.read .run argument.text = .ok q ∧ q.Settles c' := by
  unfold Progress.read
  rw [if_neg (by simp [h.ended])]
  cases argument with
  | option v value =>
    have hlong : Scope.run.long? v.name = some (.valued v) := by cases v <;> rfl
    have hstore : c.store v value = .ok c' := htake
    refine ⟨{ p with collected := c', pending := none }, ?_, rfl, h.ended⟩
    simp [ofText_option, hlong, Progress.readFlag, h.settled, hstore]
  | switch s =>
    have hlong : Scope.run.long? s.name = some (.switch s) := by cases s <;> rfl
    have hturn : c.turnOn s = .ok c' := htake
    refine ⟨{ p with collected := c', pending := none }, ?_, rfl, h.ended⟩
    simp [ofText_switch, hlong, Progress.readFlag, h.settled, hturn]
  | operand value =>
    -- it is held back, and to check it is to take it
    refine ⟨{ p with collected := c, pending := some (.operand value) }, ?_, htake, h.ended⟩
    have hword : Word.ofText (Argument.operand value).text = .plain :=
      ofText_operand (hplain value rfl)
    have hfree : p.operandCount < Scope.run.operands := by
      rw [addOperand_ok htake, List.length_append] at hroom
      rw [h.operandCount]
      exact Nat.lt_of_succ_le hroom
    rw [hword]
    show p.readPlain .run value = _
    unfold Progress.readPlain
    split
    · next v hv _ => exact absurd hv (h.pending_ne v)
    · simp [Progress.readOperand, hfree, h.settled]

/-- To read a line to its end is to take it. The induction is on the line. -/
theorem readAll_takeAll (h : p.Settles c) (htake : line.foldlM Collected.take c = .ok c')
    (hplain : ∀ value ∈ operandsOf line, IsOperand value) (hroom : c'.operands.length ≤ 2) :
    p.readAll .run (line.map Argument.text) = .ok c' := by
  induction line generalizing p c with
  | nil =>
    cases htake
    exact h.settled
  | cons argument line ih =>
    rw [List.foldlM_cons, bind_ok_iff] at htake
    obtain ⟨c₁, hfirst, hline⟩ := htake
    have hoperands := (takeAll_adds hline).operands
    -- operands are added and never taken away, so there is room for this one
    have hroom₁ : c₁.operands.length ≤ 2 := by
      rw [hoperands, List.length_append] at hroom
      omega
    have hfirstPlain : ∀ value, argument = .operand value → value.toList.head? ≠ some '-' := by
      rintro value rfl
      exact (hplain value (by simp)).2
    have hplain₁ : ∀ value ∈ operandsOf line, IsOperand value := by
      intro value hvalue
      apply hplain
      rw [operandsOf_cons argument line]
      exact List.mem_append_right _ hvalue
    obtain ⟨q, hread, hq⟩ := read_take h hfirst hfirstPlain hroom₁
    rw [List.map_cons, Progress.readAll, hread]
    exact ih hq hline hplain₁

end CommandLine

end Unseal
