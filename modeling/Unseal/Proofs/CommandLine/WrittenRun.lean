import Unseal.Proofs.CommandLine.Arguments
import Unseal.Proofs.CommandLine.ImpliedRun
/-
  Written runs — a run is read as it was written, in any order

  A run is written down when the values of its options stand on the line in their
  order, and its operands in theirs; how they are mixed is left open. The file of
  rules may be named anywhere among them. Where it is named first and the command
  is left out, the command is put in behind it.

  What is proved:
    1. `runLine_writesRun`, `WritesRun.of_perm` — every run can be written, and so
       mixed that the values of each option keep their order.
    2. `readCommand_writesRun` — what is read behind the command.
    3. `WritesRun.groups_eq` — the groups in front of a written run are none or the
       one word that names its file of rules.
    4. `ofCommandLine_writesRun` — all of this, for whole command lines.
-/

namespace Unseal

namespace CommandLine

/-- The line writes down a run and its file of rules, in whatever order. The format may be left out
where it is the one that is taken then. -/
structure WritesRun (line : List Argument) (config : Option String) (args : RunArguments) :
    Prop where
  config : valuesOf .config line = config.toList
  classes : valuesOf .className line = args.classes
  excludedClasses : valuesOf .excludeClass line = args.excludedClasses
  packages : valuesOf .package line = args.packages
  excludedPackages : valuesOf .excludePackage line = args.excludedPackages
  format : valuesOf .format line = [args.format.name] ∨
    (valuesOf .format line = [] ∧ args.format = .json)
  includeSubpackages : line.count (.switch .includeSubpackages) = args.includeSubpackages.toNat
  parallel : line.count (.switch .parallel) = args.parallel.toNat
  help : line.count (.switch .help) = 0
  operands : operandsOf line = [args.input, args.output]

variable {line : List Argument} {argument : Argument} {c : Collected} {p : Progress}
  {config : Option String} {args : RunArguments} {groups rest : List String}

/-! ## Runs that are written -/

/-- A run written down, one kind of argument behind the other. -/
def runLine (config : Option String) (args : RunArguments) : List Argument :=
  config.toList.map (.option .config) ++ args.classes.map (.option .className) ++
    args.excludedClasses.map (.option .excludeClass) ++ args.packages.map (.option .package) ++
    args.excludedPackages.map (.option .excludePackage) ++ [.option .format args.format.name] ++
    List.replicate args.includeSubpackages.toNat (.switch .includeSubpackages) ++
    List.replicate args.parallel.toNat (.switch .parallel) ++
    [.operand args.input, .operand args.output]

theorem valuesOf_map_option (v w : Valued) (values : List String) :
    valuesOf v (values.map (.option w)) = if w = v then values else [] := by
  by_cases h : w = v <;> simp [valuesOf, Argument.value?, h, Function.comp_def]

theorem operandsOf_map_option (v : Valued) (values : List String) :
    operandsOf (values.map (.option v)) = [] := by
  simp [operandsOf, Argument.operand?]

theorem count_map_option (s : Switch) (v : Valued) (values : List String) :
    (values.map (Argument.option v)).count (.switch s) = 0 :=
  List.count_eq_zero.2 (by simp)

theorem valuesOf_replicate_switch (v : Valued) (s : Switch) (n : Nat) :
    valuesOf v (List.replicate n (.switch s)) = [] := by
  simp [valuesOf, Argument.value?]

theorem operandsOf_replicate_switch (s : Switch) (n : Nat) :
    operandsOf (List.replicate n (.switch s)) = [] := by
  simp [operandsOf, Argument.operand?]

/-- Every run can be written. -/
theorem runLine_writesRun (config : Option String) (args : RunArguments) :
    WritesRun (runLine config args) config args := by
  refine ⟨?_, ?_, ?_, ?_, ?_, .inl ?_, ?_, ?_, ?_, ?_⟩ <;>
    simp [runLine, valuesOf_append, valuesOf_map_option, valuesOf_replicate_switch,
      operandsOf_append, operandsOf_map_option, operandsOf_replicate_switch,
      count_map_option, List.count_replicate]

/-- A run stays written when its arguments are mixed, as long as the values of each option and the
operands keep their order. -/
theorem WritesRun.of_perm (h : line.Perm (runLine config args))
    (hvalues : ∀ v, valuesOf v line = valuesOf v (runLine config args))
    (hoperands : operandsOf line = operandsOf (runLine config args)) :
    WritesRun line config args := by
  have hrun := runLine_writesRun config args
  exact {
    config := (hvalues .config).trans hrun.config
    classes := (hvalues .className).trans hrun.classes
    excludedClasses := (hvalues .excludeClass).trans hrun.excludedClasses
    packages := (hvalues .package).trans hrun.packages
    excludedPackages := (hvalues .excludePackage).trans hrun.excludedPackages
    format := hvalues .format ▸ hrun.format
    includeSubpackages := (h.count_eq _).trans hrun.includeSubpackages
    parallel := (h.count_eq _).trans hrun.parallel
    help := (h.count_eq _).trans hrun.help
    operands := hoperands.trans hrun.operands }

theorem name_injective {f g : Format} (h : f.name = g.name) : f = g := by
  have hsome : some f = some g := by rw [← ofText_name f, ← ofText_name g, h]
  exact Option.some.inj hsome

theorem WritesRun.isOperand (h : WritesRun line config args) (hinput : IsOperand args.input)
    (houtput : IsOperand args.output) : ∀ value ∈ operandsOf line, IsOperand value := by
  intro value hvalue
  rw [h.operands] at hvalue
  simp only [List.mem_cons, List.not_mem_nil, or_false] at hvalue
  rcases hvalue with rfl | rfl
  · exact hinput
  · exact houtput

theorem WritesRun.fits (h : WritesRun line config args) (hconfig : config ≠ some "")
    (hplain : ∀ value ∈ operandsOf line, IsOperand value) : Collected.empty.Fits line := by
  refine ⟨?_, ?_, ?_, ?_, ?_, h.help, ?_⟩
  · rw [h.config]
    cases config <;> simp [Collected.empty, Collected.values]
  · rcases h.format with hformat | ⟨hformat, _⟩ <;>
      simp [hformat, Collected.empty, Collected.values]
  · rw [h.config]
    cases config <;> simp_all [eq_comm]
  · intro value hvalue
    rcases h.format with hformat | ⟨hformat, _⟩
    · rw [hformat, List.mem_singleton] at hvalue
      exact ⟨args.format, hvalue⟩
    · simp [hformat] at hvalue
  · intro s
    cases s with
    | includeSubpackages =>
      rw [h.includeSubpackages]
      simpa [Collected.isOn, Collected.empty] using Bool.toNat_le _
    | parallel =>
      rw [h.parallel]
      simpa [Collected.isOn, Collected.empty] using Bool.toNat_le _
    | help =>
      rw [h.help]
      decide
  · intro hempty
    exact (hplain "" hempty).1 rfl

theorem WritesRun.run_of_adds (h : WritesRun line config args)
    (hadds : Collected.Adds line Collected.empty c) :
    c.config = config ∧ c.run = .ok (.run args) := by
  have hvalues : ∀ v, c.values v = valuesOf v line := by
    intro v
    rw [hadds.values v]
    cases v <;> rfl
  have hclasses : c.classes = args.classes := (hvalues .className).trans h.classes
  have hexcluded : c.excludedClasses = args.excludedClasses :=
    (hvalues .excludeClass).trans h.excludedClasses
  have hpackages : c.packages = args.packages := (hvalues .package).trans h.packages
  have hexcludedPackages : c.excludedPackages = args.excludedPackages :=
    (hvalues .excludePackage).trans h.excludedPackages
  have hisOn : ∀ s b, line.count (.switch s) = Bool.toNat b → c.isOn s = b := by
    intro s b hcount
    have hadded := hadds.switches s
    rw [hcount] at hadded
    have hoff : Collected.empty.isOn s = false := by cases s <;> rfl
    cases hs : c.isOn s <;> cases b <;> simp_all
  have hsubpackages : c.includeSubpackages = args.includeSubpackages :=
    hisOn .includeSubpackages _ h.includeSubpackages
  have hparallel : c.parallel = args.parallel := hisOn .parallel _ h.parallel
  have hformat : c.format.getD .json = args.format := by
    have hnames : c.format.toList.map Format.name = valuesOf .format line := hvalues .format
    cases hf : c.format with
    | none =>
      rcases h.format with hwritten | ⟨_, hjson⟩
      · simp [hwritten, hf] at hnames
      · exact hjson.symm
    | some f =>
      rcases h.format with hwritten | ⟨hwritten, _⟩
      · simp only [hwritten, hf, Option.toList_some, List.map_cons, List.map_nil,
          List.cons.injEq, and_true] at hnames
        exact name_injective hnames
      · simp [hwritten, hf] at hnames
  have hoperands : c.operands = [args.input, args.output] := hadds.operands.trans h.operands
  refine ⟨?_, ?_⟩
  · have hfile : c.config.toList = config.toList := (hvalues .config).trans h.config
    cases hc : c.config <;> cases config <;> simp_all
  · rw [Collected.run, hoperands, hclasses, hexcluded, hpackages, hexcludedPackages,
      hsubpackages, hparallel, hformat]

/-- Behind its command a written run is read; what was read before the command counts where no file
of rules is named behind it. -/
theorem readCommand_writesRun (h : WritesRun line config args) (hinput : IsOperand args.input)
    (houtput : IsOperand args.output) (hconfig : config ≠ some "") (hp : p.settled = .ok c) :
    readCommand p .run Collected.run (line.map Argument.text) =
      .ok ⟨config <|> c.config, .run args⟩ := by
  have hplain := h.isOperand hinput houtput
  obtain ⟨c', htake⟩ := (h.fits hconfig hplain).takeAll
  have hadds := takeAll_adds htake
  have hroom : c'.operands.length ≤ 2 := by
    rw [hadds.operands, h.operands]
    exact Nat.le_refl 2
  have hread := readAll_takeAll Progress.settles_start htake hplain hroom
  obtain ⟨hfile, hrun⟩ := h.run_of_adds hadds
  simp [readCommand, hread, hrun, hp, hfile]

/-! ### Groups in front -/

theorem eq_config_of_text (hplain : ∀ value, argument = .operand value → IsOperand value) :
    argument.text ≠ "--config" ∧
      ∀ value, argument.text = "--config=" ++ value → argument = .option .config value := by
  have hnone : Word.ofText "--config" = .long "config" none := by decide
  have hsome : ∀ value, Word.ofText ("--config=" ++ value) = .long "config" (some value) :=
    ofText_option .config
  cases argument with
  | option v value =>
    have hword := ofText_option v value
    refine ⟨?_, ?_⟩
    · intro h
      rw [h, hnone] at hword
      injection hword with _ hvalue
      cases hvalue
    · intro value' h
      rw [h, hsome value'] at hword
      injection hword with hname hvalue
      obtain rfl := Option.some.inj hvalue
      rw [Valued.eq_config_of_name hname.symm]
  | switch s =>
    have hword := ofText_switch s
    refine ⟨?_, ?_⟩
    · intro h
      rw [h, hnone] at hword
      injection hword with hname
      exact absurd hname (by cases s <;> decide)
    · intro value h
      rw [h, hsome value] at hword
      injection hword with _ hvalue
      cases hvalue
  | operand value =>
    have hword : Word.ofText (Argument.operand value).text = .plain :=
      ofText_operand (hplain value rfl).2
    refine ⟨?_, ?_⟩
    · intro h
      rw [h, hnone] at hword
      cases hword
    · intro value' h
      rw [h, hsome value'] at hword
      cases hword

theorem WritesRun.behind_config {value : String}
    (h : WritesRun (.option .config value :: line) config args) :
    config = some value ∧ WritesRun line none args := by
  have hvalues : ∀ v, v ≠ .config →
      valuesOf v (.option .config value :: line) = valuesOf v line := by
    intro v hv
    rw [valuesOf_option, if_neg hv.symm]
  have hcount : ∀ s, (Argument.option .config value :: line).count (.switch s) =
      line.count (.switch s) := by
    intro s
    rw [count_switch_cons s _ line]
    simp
  have hfile := h.config
  rw [valuesOf_cons .config _ line] at hfile
  have hone : value :: valuesOf .config line = config.toList := hfile
  obtain ⟨hconfig, hnone⟩ : config = some value ∧ valuesOf .config line = [] := by
    cases config with
    | none => cases hone
    | some file =>
      injection hone with hvalue hrest
      exact ⟨by rw [hvalue], hrest⟩
  exact ⟨hconfig, {
    config := hnone
    classes := (hvalues .className (by decide)).symm.trans h.classes
    excludedClasses := (hvalues .excludeClass (by decide)).symm.trans h.excludedClasses
    packages := (hvalues .package (by decide)).symm.trans h.packages
    excludedPackages := (hvalues .excludePackage (by decide)).symm.trans h.excludedPackages
    format := hvalues .format (by decide) ▸ h.format
    includeSubpackages := (hcount .includeSubpackages).symm.trans h.includeSubpackages
    parallel := (hcount .parallel).symm.trans h.parallel
    help := (hcount .help).symm.trans h.help
    operands := h.operands }⟩

/-- The groups in front of a written run are none, or the one word that names its file of rules. -/
theorem WritesRun.groups_eq (h : WritesRun line config args)
    (hplain : ∀ value ∈ operandsOf line, IsOperand value)
    (hgroups : ConfigGroups groups) (hsplit : line.map Argument.text = groups ++ rest) :
    (groups = [] ∧ rest = line.map Argument.text) ∨
      ∃ value after, line = .option .config value :: after ∧ groups = ["--config=" ++ value] ∧
        rest = after.map Argument.text := by
  have hmem : ∀ argument ∈ line, ∀ value, argument = .operand value → IsOperand value := by
    rintro _ hargument value rfl
    exact hplain value (mem_operandsOf hargument)
  cases hgroups with
  | none => exact .inl ⟨rfl, hsplit.symm⟩
  | spaced value hgroups =>
    obtain ⟨argument, after, rfl, htext, _⟩ := List.map_eq_cons_iff.1 hsplit
    exact absurd htext (eq_config_of_text (hmem argument (by simp))).1
  | @attached value groups hgroups =>
    obtain ⟨argument, after, rfl, htext, hafter⟩ := List.map_eq_cons_iff.1 hsplit
    obtain rfl := (eq_config_of_text (hmem argument (by simp))).2 value htext
    have hnone := h.behind_config.2.config
    cases hgroups with
    | none => exact .inr ⟨value, after, rfl, rfl, hafter.symm⟩
    | spaced value' hgroups =>
      obtain ⟨argument, more, rfl, htext, _⟩ := List.map_eq_cons_iff.1 hafter
      exact absurd htext (eq_config_of_text (hmem argument (by simp))).1
    | attached value' hgroups =>
      -- the option would have two values
      obtain ⟨argument, more, rfl, htext, _⟩ := List.map_eq_cons_iff.1 hafter
      obtain rfl := (eq_config_of_text (hmem argument (by simp))).2 value' htext
      simp at hnone

/-! ## Whole command lines -/

theorem readTop_run (h : p.Settles c) (words : List String) :
    readTop p ("run" :: words) = readCommand p .run Collected.run words := by
  have hwait : p.isAwaiting = false := by
    unfold Progress.isAwaiting
    split
    · next v hpending => exact absurd hpending (h.pending_ne v)
    · rfl
  rw [readTop]
  simp [h.ended, hwait]

theorem readTop_config {value : String} (hvalue : value ≠ "") :
    ∃ q : Progress, q.Settles { Collected.empty with config := some value } ∧
      ∀ words, readTop Progress.start (("--config=" ++ value) :: words) = readTop q words := by
  have hword : Word.ofText ("--config=" ++ value) = .long "config" (some value) :=
    ofText_option .config value
  have hother : ∀ c ∈ commandWords, "--config=" ++ value ≠ c := by
    rintro c hc rfl
    have hfalse := isConfigWithValue_of_mem hc
    rw [isConfigWithValue_iff.2 ⟨value, rfl⟩] at hfalse
    cases hfalse
  have hrun := hother "run" (by decide)
  have hinspect := hother "inspect" (by decide)
  have hhelp := hother "help" (by decide)
  have hstore : Collected.empty.store .config value =
      .ok { Collected.empty with config := some value } := by
    simp [Collected.store, Collected.empty, hvalue]
  have hread : Progress.start.read .top ("--config=" ++ value) =
      .ok ⟨{ Collected.empty with config := some value }, none, false⟩ := by
    have hsettled : Progress.start.settled = .ok Collected.empty := rfl
    have hlong : Scope.top.long? "config" = some (.valued .config) := rfl
    have hended : Progress.start.ended = false := rfl
    simp [Progress.read, hended, hword, hlong, Progress.readFlag, hsettled, hstore]
  refine ⟨⟨{ Collected.empty with config := some value }, none, false⟩, ⟨rfl, rfl⟩, ?_⟩
  intro words
  rw [readTop]
  simp [hrun, hinspect, hhelp, hread]

theorem WritesRun.ofArguments (h : WritesRun line config args) (hinput : IsOperand args.input)
    (houtput : IsOperand args.output) (hconfig : config ≠ some "") (hgroups : ConfigGroups groups)
    (hsplit : line.map Argument.text = groups ++ rest) :
    Invocation.ofArguments (groups ++ "run" :: rest) = .ok ⟨config, .run args⟩ := by
  rcases h.groups_eq (h.isOperand hinput houtput) hgroups hsplit with
    ⟨rfl, rfl⟩ | ⟨value, after, rfl, rfl, rfl⟩
  · calc Invocation.ofArguments ("run" :: line.map Argument.text)
        = readCommand Progress.start .run Collected.run (line.map Argument.text) :=
          readTop_run Progress.settles_start _
      _ = .ok ⟨config <|> none, .run args⟩ :=
          readCommand_writesRun h hinput houtput hconfig Progress.settles_start.settled
      _ = .ok ⟨config, .run args⟩ := by cases config <;> rfl
  · obtain ⟨rfl, hafter⟩ := h.behind_config
    have hvalue : value ≠ "" := fun hempty => hconfig (congrArg some hempty)
    obtain ⟨q, hq, htop⟩ := readTop_config hvalue
    calc Invocation.ofArguments (("--config=" ++ value) :: "run" :: after.map Argument.text)
        = readTop q ("run" :: after.map Argument.text) := htop _
      _ = readCommand q .run Collected.run (after.map Argument.text) := readTop_run hq _
      _ = .ok ⟨none <|> some value, .run args⟩ :=
          readCommand_writesRun hafter hinput houtput (by simp) hq.settled
      _ = .ok ⟨some value, .run args⟩ := rfl

/-- What stands behind the groups in front of a written run lacks its command, unless it begins
with a word that stands for itself. -/
theorem WritesRun.lacksCommand (h : WritesRun line config args)
    (hplain : ∀ value ∈ operandsOf line, IsOperand value) (hgroups : ConfigGroups groups)
    (hsplit : line.map Argument.text = groups ++ rest)
    (hother : ∀ a, rest.head? = some a → a ∉ commandWords) : LacksCommand rest := by
  obtain ⟨behind, hsub, rfl, hoperands⟩ : ∃ behind : List Argument,
      behind ⊆ line ∧ rest = behind.map Argument.text ∧ operandsOf behind = operandsOf line := by
    rcases h.groups_eq hplain hgroups hsplit with ⟨_, rfl⟩ | ⟨value, after, rfl, _, rfl⟩
    · exact ⟨line, fun _ ha => ha, rfl, rfl⟩
    · exact ⟨after, List.subset_cons_self _ _, rfl, rfl⟩
  cases behind with
  | nil =>
    -- the operands stand behind the groups
    rw [h.operands] at hoperands
    cases hoperands
  | cons argument behind =>
    refine ⟨argument.text, behind.map Argument.text, rfl, ?_, hother _ rfl⟩
    have hargument : ∀ value, argument = .operand value → IsOperand value := by
      rintro value rfl
      exact hplain value (mem_operandsOf (hsub List.mem_cons_self))
    exact (eq_config_of_text hargument).1

end CommandLine

open CommandLine

/-- A run that is written down, in whatever order, is read as it was written: with its command in
front, with it behind the groups that name a file of rules, and without it where the word behind
those groups is no command and asks for no help. -/
theorem ofCommandLine_writesRun {line : List Argument} {config : Option String}
    {args : RunArguments} (h : WritesRun line config args) (hinput : IsOperand args.input)
    (houtput : IsOperand args.output) (hconfig : config ≠ some "") :
    Invocation.ofCommandLine ("run" :: line.map Argument.text) = .ok ⟨config, .run args⟩ ∧
      ∃ groups rest, GroupsBefore (line.map Argument.text) groups rest ∧
        Invocation.ofCommandLine (groups ++ "run" :: rest) = .ok ⟨config, .run args⟩ ∧
        ((∀ a, rest.head? = some a → a ∉ commandWords) →
          Invocation.ofCommandLine (line.map Argument.text) = .ok ⟨config, .run args⟩) := by
  obtain ⟨groups, rest, hsplit, hgroups, hrest⟩ := exists_groups (line.map Argument.text)
  -- words with the command in them are read as they stand
  have hwritten : ∀ {groups rest}, ConfigGroups groups →
      line.map Argument.text = groups ++ rest →
      Invocation.ofCommandLine (groups ++ "run" :: rest) = .ok ⟨config, .run args⟩ := by
    intro groups rest hgroups hsplit
    have hcommand : BeforeCommand (groups ++ "run" :: rest) :=
      ⟨groups, "run", rest, rfl, hgroups, by decide⟩
    rw [Invocation.ofCommandLine, hcommand.withImpliedRun]
    exact h.ofArguments hinput houtput hconfig hgroups hsplit
  refine ⟨hwritten .none rfl, groups, rest, ?_, hwritten hgroups hsplit, ?_⟩
  · rw [hsplit]
    exact groupsBefore_of_noGroup hgroups hrest
  · intro hother
    have hlacks := h.lacksCommand (h.isOperand hinput houtput) hgroups hsplit hother
    have hput : withImpliedRun (line.map Argument.text) = groups ++ "run" :: rest := by
      rw [hsplit, withImpliedRun_groups hgroups, (withImpliedRun_noGroup hrest).1 hlacks]
    rw [Invocation.ofCommandLine, hput]
    exact h.ofArguments hinput houtput hconfig hgroups hsplit

/-- Mixed words, of which one value is empty, others look like options or hold equals signs, and an
operand is called as a command is. -/
theorem mixedWords_writesRun :
    Invocation.ofCommandLine ["--config=a=b.json", "--class=", "in", "--parallel",
        "--class=--x,y=z w", "run", "--format=text"] =
      .ok ⟨some "a=b.json", .run {
        input := "in", output := "run", classes := ["", "--x,y=z w"], excludedClasses := [],
        packages := [], excludedPackages := [], includeSubpackages := false, parallel := true,
        format := .text }⟩ := by
  have hwritten : WritesRun
      [.option .config "a=b.json", .option .className "", .operand "in", .switch .parallel,
        .option .className "--x,y=z w", .operand "run", .option .format "text"]
      (some "a=b.json") {
        input := "in", output := "run", classes := ["", "--x,y=z w"], excludedClasses := [],
        packages := [], excludedPackages := [], includeSubpackages := false, parallel := true,
        format := .text } := by
    constructor <;> decide
  obtain ⟨_, groups, rest, hbefore, _, himplied⟩ :=
    ofCommandLine_writesRun hwritten ⟨by decide, by decide⟩ ⟨by decide, by decide⟩ (by decide)
  have hnot : NoGroup ["--class=", "in", "--parallel", "--class=--x,y=z w", "run",
      "--format=text"] := by
    refine ⟨?_, by simp⟩
    rintro _ _ ⟨⟩
    decide
  have hfirst := groupsBefore_of_noGroup (.attached "a=b.json" .none) hnot
  obtain ⟨rfl, rfl⟩ := hbefore.unique hfirst
  exact himplied (by simp [commandWords])

end Unseal
