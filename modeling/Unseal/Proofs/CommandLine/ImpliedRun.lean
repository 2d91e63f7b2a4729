import Mathlib.Data.List.TakeDrop
import Unseal.CommandLine.Answer
import Unseal.Proofs.Results
/-
  The implied run — what is left alone by it

  To put in the command that is not given one has to find where it would stand,
  and that is read off the words alone: behind the longest row of groups that name
  a file of rules. The reader of command lines finds the place by itself. Both
  agree on every command line that is understood as it stands, since before its
  command nothing but such groups is accepted; a value of a group may well be
  the name of a command, or look like a group.

  What is proved:
    1. `exists_groups`, `groupsBefore_of_noGroup` — every command line is a longest row
       of groups and what stands behind it.
    2. `withImpliedRun_groups` — groups are passed over, and only what stands behind them
       decides.
    3. `read_top_ok`, `beforeCommand_of_readTop` — before a command only groups are
       accepted, so they are all that stands there if the command line is understood.
    4. `withImpliedRun_conservative` — all of this, and that doing it twice is
       doing it once.
-/

namespace Unseal

/-- Groups in a row that name a file of rules: `--config` and any word, or one word with an equals
sign. -/
inductive ConfigGroups : List String → Prop where
  | none : ConfigGroups []
  | spaced (value : String) {rest : List String} (h : ConfigGroups rest) :
    ConfigGroups ("--config" :: value :: rest)
  | attached (value : String) {rest : List String} (h : ConfigGroups rest) :
    ConfigGroups (("--config=" ++ value) :: rest)

/-- The words are groups and what stands behind them, and no longer beginning of the words is
groups. -/
structure GroupsBefore (words groups rest : List String) : Prop where
  split : words = groups ++ rest
  areGroups : ConfigGroups groups
  longest : ∀ more, ConfigGroups more → more <+: words → more <+: groups

/-- The words begin with one that is no command, asks for no help and is not the option of the file
of rules without its value. -/
def LacksCommand (rest : List String) : Prop :=
  ∃ a more, rest = a :: more ∧ a ≠ "--config" ∧ a ∉ commandWords

variable {words groups rest more : List String} {a : String}

theorem isConfigWithValue_iff : isConfigWithValue a = true ↔ ∃ value, a = "--config=" ++ value := by
  rw [isConfigWithValue, List.isPrefixOf_iff_prefix]
  refine ⟨?_, ?_⟩
  · rintro ⟨value, hvalue⟩
    refine ⟨String.ofList value, String.toList_inj.1 ?_⟩
    calc a.toList
        = "--config=".toList ++ value := hvalue.symm
      _ = ("--config=" ++ String.ofList value).toList := by
          rw [String.toList_append, String.toList_ofList (l := value)]
  · rintro ⟨value, rfl⟩
    rw [String.toList_append]
    exact List.prefix_append _ _

theorem config_ne_attached (value : String) : "--config" ≠ "--config=" ++ value := by
  intro h
  have hlist := congrArg String.toList h
  rw [String.toList_append] at hlist
  exact absurd (congrArg List.length hlist) (by simp)

theorem isConfigWithValue_of_mem (h : a ∈ commandWords) : isConfigWithValue a = false := by
  revert a
  decide

/-! ## The longest row of groups -/

/-- No group begins here. -/
def NoGroup (rest : List String) : Prop :=
  (∀ a more, rest = a :: more → isConfigWithValue a = false) ∧
    ∀ value more, rest ≠ "--config" :: value :: more

theorem ConfigGroups.eq_nil_of_noGroup (h : ConfigGroups more) (hrest : NoGroup rest)
    (hfront : more <+: rest) : more = [] := by
  obtain ⟨behind, rfl⟩ := hfront
  cases h with
  | none => rfl
  | spaced value h => exact absurd rfl (hrest.2 value _)
  | attached value h =>
    have hfalse := hrest.1 _ _ rfl
    rw [isConfigWithValue_iff.2 ⟨value, rfl⟩] at hfalse
    cases hfalse

/-- Where no group begins behind them, groups are the longest row, by induction on them. -/
theorem groupsBefore_of_noGroup (h : ConfigGroups groups) (hrest : NoGroup rest) :
    GroupsBefore (groups ++ rest) groups rest := by
  refine ⟨rfl, h, ?_⟩
  induction h with
  | none =>
    intro more hmore hprefix
    obtain rfl := hmore.eq_nil_of_noGroup hrest hprefix
    exact List.nil_prefix
  | @spaced value groups h ih =>
    intro more hmore hprefix
    cases hmore with
    | none => exact List.nil_prefix
    | spaced value' hmore =>
      rw [List.cons_append, List.cons_append] at hprefix
      obtain ⟨_, hvalue⟩ := List.cons_prefix_cons.1 hprefix
      obtain ⟨rfl, hbehind⟩ := List.cons_prefix_cons.1 hvalue
      have hbelow := ih _ hmore hbehind
      exact List.cons_prefix_cons.2 ⟨rfl, List.cons_prefix_cons.2 ⟨rfl, hbelow⟩⟩
    | attached value' hmore =>
      exact absurd (List.cons_prefix_cons.1 hprefix).1.symm (config_ne_attached value')
  | @attached value groups h ih =>
    intro more hmore hprefix
    cases hmore with
    | none => exact List.nil_prefix
    | spaced value' hmore =>
      exact absurd (List.cons_prefix_cons.1 hprefix).1 (config_ne_attached value)
    | attached value' hmore =>
      obtain ⟨hvalue, hprefix⟩ := List.cons_prefix_cons.1 hprefix
      exact List.cons_prefix_cons.2 ⟨hvalue, ih _ hmore hprefix⟩

theorem GroupsBefore.unique {groups' rest' : List String} (h : GroupsBefore words groups rest)
    (h' : GroupsBefore words groups' rest') : groups = groups' ∧ rest = rest' := by
  have hle : groups <+: groups' := h'.longest groups h.areGroups ⟨rest, h.split.symm⟩
  have hge : groups' <+: groups := h.longest groups' h'.areGroups ⟨rest', h'.split.symm⟩
  obtain rfl := hle.eq_of_length_le hge.length_le
  exact ⟨rfl, List.append_cancel_left (h.split.symm.trans h'.split)⟩

/-- Every command line is a row of groups and what stands behind it, where no group begins. -/
theorem exists_groups : (words : List String) →
    ∃ groups rest, words = groups ++ rest ∧ ConfigGroups groups ∧ NoGroup rest
  | [] => ⟨[], [], rfl, .none, by simp, by simp⟩
  | [a] => by
    by_cases hattached : isConfigWithValue a = true
    · obtain ⟨value, rfl⟩ := isConfigWithValue_iff.1 hattached
      exact ⟨_, [], rfl, .attached value .none, by simp, by simp⟩
    · exact ⟨[], [a], rfl, .none, by simpa using hattached, by simp⟩
  | a :: b :: words => by
    by_cases hspaced : a = "--config"
    · obtain ⟨groups, rest, rfl, hgroups, hrest⟩ := exists_groups words
      subst hspaced
      exact ⟨_, rest, rfl, .spaced b hgroups, hrest⟩
    · by_cases hattached : isConfigWithValue a = true
      · obtain ⟨groups, rest, hsplit, hgroups, hrest⟩ := exists_groups (b :: words)
        obtain ⟨value, rfl⟩ := isConfigWithValue_iff.1 hattached
        exact ⟨_, rest, by rw [hsplit]; rfl, .attached value hgroups, hrest⟩
      · exact ⟨[], a :: b :: words, rfl, .none, by simpa using hattached, by simp [hspaced]⟩

/-! ## Words that are put in -/

/-- Groups are passed over. -/
theorem withImpliedRun_groups (h : ConfigGroups groups) (rest : List String) :
    withImpliedRun (groups ++ rest) = groups ++ withImpliedRun rest := by
  induction h with
  | none => rfl
  | spaced value h ih => simp [withImpliedRun, ih]
  | @attached value groups h ih =>
    have hspaced : "--config=" ++ value ≠ "--config" := (config_ne_attached value).symm
    have hattached : isConfigWithValue ("--config=" ++ value) = true :=
      isConfigWithValue_iff.2 ⟨value, rfl⟩
    rw [List.cons_append, List.cons_append, ← ih]
    cases groups ++ rest with
    | nil => simp [withImpliedRun, hattached]
    | cons b more => simp [withImpliedRun, hattached, hspaced]

theorem withImpliedRun_noGroup (hrest : NoGroup rest) :
    (LacksCommand rest → withImpliedRun rest = "run" :: rest) ∧
      (¬ LacksCommand rest → withImpliedRun rest = rest) := by
  match rest with
  | [] => simp [LacksCommand, withImpliedRun]
  | [a] =>
    have hattached : isConfigWithValue a = false := hrest.1 a [] rfl
    by_cases hspaced : a = "--config" <;> by_cases hcommand : a ∈ commandWords <;>
      simp [LacksCommand, withImpliedRun, hattached, hspaced, hcommand]
  | a :: b :: more =>
    have hattached : isConfigWithValue a = false := hrest.1 a (b :: more) rfl
    have hspaced : a ≠ "--config" := fun h => hrest.2 b more (by rw [h])
    by_cases hcommand : a ∈ commandWords <;>
      simp [LacksCommand, withImpliedRun, hattached, hspaced, hcommand]

/-- The words are groups, then one that stands for itself, and whatever follows. -/
def BeforeCommand (words : List String) : Prop :=
  ∃ groups c more, words = groups ++ c :: more ∧ ConfigGroups groups ∧ c ∈ commandWords

theorem BeforeCommand.withImpliedRun (h : BeforeCommand words) : withImpliedRun words = words := by
  obtain ⟨groups, c, more, rfl, hgroups, hcommand⟩ := h
  have hnot : NoGroup (c :: more) := by
    refine ⟨?_, ?_⟩
    · rintro _ _ ⟨⟩
      exact isConfigWithValue_of_mem hcommand
    · rintro value more ⟨⟩
      exact absurd hcommand (by decide)
  have hlacks : ¬ LacksCommand (c :: more) := by
    rintro ⟨_, _, ⟨⟩, _, hother⟩
    exact hother hcommand
  rw [withImpliedRun_groups hgroups, (withImpliedRun_noGroup hnot).2 hlacks]

/-! ## Command lines that are understood -/

namespace CommandLine

variable {p q : Progress} {inv : Invocation}

theorem readOperand_top (p : Progress) (a : String) :
    ∃ fault, p.readOperand .top a = .error fault := by
  have hnone : ¬ p.operandCount < Scope.top.operands := Nat.not_lt_zero _
  unfold Progress.readOperand
  rw [if_neg hnone, if_pos rfl]
  split
  · exact ⟨_, rfl⟩
  · exact ⟨_, rfl⟩

theorem readTop_ended (h : p.ended = true) (words : List String) : readTop p words ≠ .ok inv := by
  intro hread
  cases words with
  | nil =>
    rw [readTop] at hread
    split at hread
    · cases hread
    · split at hread <;> cases hread
  | cons a words =>
    obtain ⟨fault, hfault⟩ := readOperand_top p a
    simp [readTop, Progress.read, h, hfault] at hread

/-! ### Words that are accepted before a command -/

theorem eq_of_splitValue {cs : List Char} {name : String} :
    (splitValue cs = (name, none) → cs = name.toList) ∧
      ∀ value, splitValue cs = (name, some value) → cs = name.toList ++ '=' :: value.toList := by
  have hsplit := List.takeWhile_append_dropWhile (p := fun c => decide (c ≠ '=')) (l := cs)
  have hfirst := List.head?_dropWhile_not (fun c => decide (c ≠ '=')) cs
  unfold splitValue
  rw [List.span_eq_takeWhile_dropWhile]
  split
  · next name' c value' heq =>
    obtain ⟨rfl, hdrop⟩ := Prod.mk.inj heq
    rw [hdrop] at hsplit hfirst
    obtain rfl : c = '=' := by simpa using hfirst
    refine ⟨by simp, ?_⟩
    intro value h
    cases h
    rw [String.toList_ofList, String.toList_ofList, hsplit]
  · next name' heq =>
    obtain ⟨rfl, hdrop⟩ := Prod.mk.inj heq
    rw [hdrop, List.append_nil] at hsplit
    refine ⟨?_, by simp⟩
    intro h
    cases h
    rw [String.toList_ofList, hsplit]

theorem config_of_ofText :
    (Word.ofText a = .long "config" none → a = "--config") ∧
      ∀ value, Word.ofText a = .long "config" (some value) → isConfigWithValue a = true := by
  unfold Word.ofText
  split
  · simp
  · next cs _ hcs =>
    obtain ⟨hnone, hsome⟩ := @eq_of_splitValue cs "config"
    refine ⟨?_, ?_⟩
    · intro h
      have hname : splitValue cs = ("config", none) := by
        injection h with hname hvalue
        exact Prod.ext hname hvalue
      apply String.toList_inj.1
      rw [hcs, hnone hname]
      rfl
    · intro value h
      have hname : splitValue cs = ("config", some value) := by
        injection h with hname hvalue
        exact Prod.ext hname hvalue
      refine isConfigWithValue_iff.2 ⟨value, String.toList_inj.1 ?_⟩
      rw [hcs, hsome value hname, String.toList_append]
      rfl
  · simp
  · simp

theorem top_long? {name : String} {flag : Flag} (h : Scope.top.long? name = some flag) :
    (name = "config" ∧ flag = .valued .config) ∨ flag = .switch .help := by
  unfold Scope.long? at h
  split at h
  · next hname =>
    cases h
    exact .inl ⟨hname, rfl⟩
  · split at h
    · cases h
      exact .inr rfl
    · simp at h

theorem top_short? {letter : Char} {flag : Flag} (h : Scope.top.short? letter = some flag) :
    flag = .switch .help := by
  unfold Scope.short? at h
  split at h
  · cases h
    rfl
  · simp at h

theorem readFlag_help (p : Progress) (value : Option String) :
    p.readFlag (.switch .help) value ≠ .ok q := by
  intro h
  cases value with
  | some value => cases h
  | none =>
    simp only [Progress.readFlag, bind_ok_iff] at h
    obtain ⟨_, _, _, hhelp, _⟩ := h
    cases hhelp

theorem readFlag_valued_ok {v : Valued} {value : Option String}
    (h : p.readFlag (.valued v) value = .ok q) :
    (∃ c, p.settled = .ok c) ∧ q.ended = p.ended ∧
      (value = none → q.pending = some (.awaiting v)) ∧ (value.isSome → q.pending = none) := by
  cases value with
  | some value =>
    simp only [Progress.readFlag, bind_ok_iff, pure_ok_iff] at h
    obtain ⟨c, hc, _, _, rfl⟩ := h
    exact ⟨⟨c, hc⟩, rfl, by simp, fun _ => rfl⟩
  | none =>
    simp only [Progress.readFlag, bind_ok_iff, pure_ok_iff] at h
    obtain ⟨c, hc, rfl⟩ := h
    exact ⟨⟨c, hc⟩, rfl, fun _ => rfl, by simp⟩

/-- What is accepted before a command: two dashes; `--config`, or a group of one word, where no
value is awaited; and a word without dashes where one is. -/
theorem read_top_ok (hended : p.ended = false) (h : p.read .top a = .ok q) :
    q.ended = true ∨ q.ended = false ∧
      ((a = "--config" ∧ p.isAwaiting = false ∧ q.isAwaiting = true) ∨
        (isConfigWithValue a = true ∧ p.isAwaiting = false ∧ q.isAwaiting = false) ∨
        (p.isAwaiting = true ∧ q.isAwaiting = false)) := by
  unfold Progress.read at h
  rw [if_neg (by simp [hended])] at h
  split at h
  · cases h
    exact .inl rfl
  · next name value hword =>
    split at h
    · next flag hflag =>
      rcases top_long? hflag with ⟨rfl, rfl⟩ | rfl
      · obtain ⟨⟨c, hc⟩, hq, hawaited, hgiven⟩ := readFlag_valued_ok h
        have hwait : p.isAwaiting = false := by
          unfold Progress.isAwaiting
          split
          · next v hpending => simp [Progress.settled, hpending, Collected.settle] at hc
          · rfl
        refine .inr ⟨hq.trans hended, ?_⟩
        cases value with
        | none =>
          refine .inl ⟨config_of_ofText.1 hword, hwait, ?_⟩
          simp [Progress.isAwaiting, hawaited rfl, hq, hended]
        | some value =>
          refine .inr (.inl ⟨config_of_ofText.2 value hword, hwait, ?_⟩)
          simp [Progress.isAwaiting, hgiven rfl]
      · exact absurd h (readFlag_help p value)
    · cases h
  · next letter more hword =>
    split at h
    · next v hflag => cases top_short? hflag
    · next s hflag =>
      cases top_short? hflag
      exact absurd h (readFlag_help p none)
    · cases h
  · unfold Progress.readPlain at h
    split at h
    · next v hpending _ =>
      cases h
      refine .inr ⟨hended, .inr (.inr ⟨?_, rfl⟩)⟩
      simp [Progress.isAwaiting, hpending, hended]
    · obtain ⟨fault, hfault⟩ := readOperand_top p a
      rw [hfault] at h
      cases h

/-! ### Whole command lines -/

theorem readTop_cons_ok (hended : p.ended = false) (hwait : p.isAwaiting = false)
    {words : List String} (h : readTop p (a :: words) = .ok inv) :
    a ∈ commandWords ∨ ∃ q, p.read .top a = .ok q ∧ readTop q words = .ok inv := by
  rw [readTop] at h
  simp only [hended, hwait, Bool.not_false, true_and] at h
  split at h
  · next hrun => exact .inl (by simp [commandWords, hrun])
  · split at h
    · next hinspect => exact .inl (by simp [commandWords, hinspect])
    · split at h
      · cases h
      · split at h
        · cases h
        · next q hq => exact .inr ⟨q, hq, h⟩

theorem readTop_awaited_ok (hwait : p.isAwaiting = true) {words : List String}
    (h : readTop p (a :: words) = .ok inv) :
    ∃ q, p.read .top a = .ok q ∧ readTop q words = .ok inv := by
  rw [readTop] at h
  simp only [hwait, Bool.not_true, Bool.false_eq_true, false_and, and_false, if_false] at h
  split at h
  · cases h
  · next q hq => exact ⟨q, hq, h⟩

/-- Groups stand before the command of a command line that is understood, and behind an awaited
value so they do. The induction is on the words. -/
theorem beforeCommand_of_readTop (hended : p.ended = false) (h : readTop p words = .ok inv) :
    (p.isAwaiting = false → BeforeCommand words) ∧
      (p.isAwaiting = true → ∃ value rest, words = value :: rest ∧ BeforeCommand rest) := by
  induction words generalizing p with
  | nil =>
    rw [readTop] at h
    split at h
    · cases h
    · split at h <;> cases h
  | cons a words ih =>
    refine ⟨?_, ?_⟩
    · intro hwait
      rcases readTop_cons_ok hended hwait h with hcommand | ⟨q, hread, hrest⟩
      · exact ⟨[], a, words, rfl, .none, hcommand⟩
      · rcases read_top_ok hended hread with
          hq | ⟨hq, ⟨rfl, _, hawaits⟩ | ⟨hgroup, _, hdone⟩ | ⟨hwas, _⟩⟩
        · exact absurd hrest (readTop_ended hq words)
        · obtain ⟨value, rest, rfl, groups, c, more, rfl, hgroups, hcommand⟩ :=
            (ih hq hrest).2 hawaits
          exact ⟨"--config" :: value :: groups, c, more, rfl, .spaced value hgroups, hcommand⟩
        · obtain ⟨groups, c, more, rfl, hgroups, hcommand⟩ := (ih hq hrest).1 hdone
          obtain ⟨value, rfl⟩ := isConfigWithValue_iff.1 hgroup
          exact ⟨("--config=" ++ value) :: groups, c, more, rfl, .attached value hgroups, hcommand⟩
        · rw [hwait] at hwas
          cases hwas
    · intro hwait
      obtain ⟨q, hread, hrest⟩ := readTop_awaited_ok hwait h
      rcases read_top_ok hended hread with hq | ⟨hq, ⟨_, hnot, _⟩ | ⟨_, hnot, _⟩ | ⟨_, hdone⟩⟩
      · exact absurd hrest (readTop_ended hq words)
      · rw [hwait] at hnot
        cases hnot
      · rw [hwait] at hnot
        cases hnot
      · exact ⟨a, words, rfl, (ih hq hrest).1 hdone⟩

end CommandLine

/-- The implied run leaves a command line alone, or is put in once behind its longest row of groups;
to do it twice is to do it once; and a command line that is understood is left alone. -/
theorem withImpliedRun_conservative (words : List String) :
    (∃ groups rest, GroupsBefore words groups rest ∧
      (LacksCommand rest → withImpliedRun words = groups ++ "run" :: rest) ∧
      (¬ LacksCommand rest → withImpliedRun words = words)) ∧
    withImpliedRun (withImpliedRun words) = withImpliedRun words ∧
    ∀ inv, Invocation.ofArguments words = .ok inv →
      withImpliedRun words = words ∧ Invocation.ofCommandLine words = .ok inv := by
  obtain ⟨groups, rest, rfl, hgroups, hrest⟩ := exists_groups words
  obtain ⟨hput, hleft⟩ := withImpliedRun_noGroup hrest
  have hpass := withImpliedRun_groups hgroups rest
  refine ⟨⟨groups, rest, groupsBefore_of_noGroup hgroups hrest, ?_, ?_⟩, ?_, ?_⟩
  · intro hlacks
    rw [hpass, hput hlacks]
  · intro hlacks
    rw [hpass, hleft hlacks]
  · by_cases hlacks : LacksCommand rest
    · have hput : withImpliedRun (groups ++ rest) = groups ++ "run" :: rest := by
        rw [hpass, hput hlacks]
      have hcommand : BeforeCommand (groups ++ "run" :: rest) :=
        ⟨groups, "run", rest, rfl, hgroups, by decide⟩
      rw [hput, hcommand.withImpliedRun]
    · rw [hpass, hleft hlacks, withImpliedRun_groups hgroups, hleft hlacks]
  · intro inv hinv
    have hcommand := (CommandLine.beforeCommand_of_readTop rfl hinv).1 rfl
    have hsame := hcommand.withImpliedRun
    exact ⟨hsame, by rw [Invocation.ofCommandLine, hsame, hinv]⟩

/-- A file of rules that is called as a command is does not stand for the command. -/
theorem configNamedRun_conservative :
    Invocation.ofArguments ["--config", "run", "inspect", "A.class"] =
      .ok ⟨some "run", .inspect "A.class"⟩ ∧
    withImpliedRun ["--config", "run", "inspect", "A.class"] =
      ["--config", "run", "inspect", "A.class"] := by
  have hread : Invocation.ofArguments ["--config", "run", "inspect", "A.class"] =
      .ok ⟨some "run", .inspect "A.class"⟩ := by rfl
  exact ⟨hread, ((withImpliedRun_conservative _).2.2 _ hread).1⟩

end Unseal
