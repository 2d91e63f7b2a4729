import Unseal.Proofs.Discovery.Standing
import Unseal.Proofs.Text.Utf8Order
/-
  Discovery — what a walk meets, links and all

  A walk fails exactly if it can come to an obstacle, and else it meets everything
  that is below its root: every path once, in the order of the names by their bytes,
  with what it leads to. A failing walk has stopped in a directory where it stood,
  and one that comes to its end was in every directory, by induction on the way
  down to it.

  What is proved:
    1. `walkNames_error` — where a walk of names fails.
    2. `walked_of_within` — a walk that comes to its end was in every directory.
    3. `FileSystem.discover_exact` — when a walk fails, and what it meets otherwise.
    4. `FileSystem.discover_limits` — a walk can fail where no link leads nowhere or back.
-/

namespace Unseal

namespace FileSystem

variable {fs : FileSystem} {root : Path} {place : Location} {way names : List Name} {n : Name}
  {here : Visit} {inside : List Visit}

/-! ## Walks that come to their end -/

section
variable {walk : Visit → List Visit → List Name → Except WalkFault (List Entry)}
  {entries : List Entry}

/-- A walk of names fails at one of them, or in the directory that it leads to. -/
theorem walkNames_error {fault : WalkFault}
    (h : fs.walkNames walk here inside way names = .error fault) :
    ∃ n ∈ names, (∃ fault, fs.enter here inside n = .error fault) ∨
      ∃ visit fault, fs.enter here inside n = .ok (some visit) ∧
        walk visit (here :: inside) (way ++ [n]) = .error fault := by
  induction names generalizing fault with
  | nil => cases h
  | cons m names ih =>
    have hmem : names ⊆ m :: names := List.subset_cons_self m names
    rw [walkNames] at h
    split at h
    · next fault' henter => exact ⟨m, List.mem_cons_self, .inl ⟨fault', henter⟩⟩
    · cases hrest : fs.walkNames walk here inside way names with
      | error fault' =>
        obtain ⟨n, hn, hfails⟩ := ih hrest
        exact ⟨n, hmem hn, hfails⟩
      | ok more =>
        rw [hrest] at h
        cases h
    · next visit henter =>
      cases hbelow : walk visit (here :: inside) (way ++ [m]) with
      | error fault' => exact ⟨m, List.mem_cons_self, .inr ⟨visit, fault', henter, hbelow⟩⟩
      | ok below =>
        cases hrest : fs.walkNames walk here inside way names with
        | error fault' =>
          obtain ⟨n, hn, hfails⟩ := ih hrest
          exact ⟨n, hmem hn, hfails⟩
        | ok more =>
          rw [hbelow, hrest] at h
          cases h

end

section
variable (hroot : root.segments ≠ [.blank])
include hroot

theorem obstacle_of_walkDirectory {depth : Nat} {fault : WalkFault}
    (h : fs.Stands root place here inside way)
    (hwalk : fs.walkDirectory depth here inside way = .error fault) :
    ∃ way here around n, fs.Within place way here around ∧ fs.Obstacle root way here around n := by
  induction depth generalizing here inside way fault with
  | zero => cases hwalk
  | succ depth ih =>
    rw [walkDirectory] at hwalk
    obtain ⟨n, hn, ⟨fault', henter⟩ | ⟨visit, fault', henter, hbelow⟩⟩ := walkNames_error hwalk
    · exact ⟨way, _, _, n, h.within, h.obstacle hroot (mem_names_iff.1 hn) henter⟩
    · exact ih (h.enter_some hroot henter).2 hbelow

/-- A walk that comes to its end was in every directory, with steps to spare. -/
theorem walked_of_within {entries : List Entry} {here : Location} {around : List Location}
    (hplace : fs.locate root = .ok place) (hdir : fs.look place = some .directory)
    (hwalk : fs.walkDirectory fs.walkDepth ⟨root, place⟩ [] [] = .ok entries)
    (h : fs.Within place way here around) :
    ∃ depth visit inside below, fs.Stands root place visit inside way ∧ visit.location = here ∧
      inside.map (·.location) = around ∧ depth + 1 + inside.length = fs.walkDepth ∧
      fs.walkDirectory (depth + 1) visit inside way = .ok below ∧ below ⊆ entries := by
  -- On the way down each directory is entered, and the supply is never at its end there.
  induction h with
  | root =>
    have hstands := Stands.start hplace hdir
    obtain ⟨depth, hdepth⟩ := Nat.exists_eq_add_one_of_ne_zero (Nat.ne_zero_of_lt hstands.length_lt)
    rw [hdepth] at hwalk
    exact ⟨depth, _, _, entries, hstands, rfl, rfl, hdepth.symm, hwalk, List.Subset.refl _⟩
  | @down way here around n next _ hname hdir' _ ih =>
    obtain ⟨depth, visit, inside, below, hstands, rfl, rfl, hdepth, hbelow, hsubset⟩ := ih
    have hn : n ∈ fs.names visit.location := mem_names_iff.2 hname.look_ne_none
    rw [walkDirectory] at hbelow
    rcases walkNames_ok hbelow hn with ⟨henter, _⟩ | ⟨visit', below', henter, hbelow', _, hsubset'⟩
    · obtain ⟨next', content, hname', hfile⟩ := hstands.enter_none hroot henter
      rw [← hname.unique hname', hdir'] at hfile
      cases hfile
    · obtain ⟨hname', hstands'⟩ := hstands.enter_some hroot henter
      have hlt : inside.length + 1 < fs.walkDepth := hstands'.length_lt
      obtain ⟨depth, rfl⟩ := Nat.exists_eq_add_one_of_ne_zero (show depth ≠ 0 by omega)
      refine ⟨depth, visit', visit :: inside, below', hstands', hname'.unique hname, rfl, ?_,
        hbelow', List.Subset.trans hsubset' hsubset⟩
      rw [List.length_cons]
      omega

theorem met_of_within {entries : List Entry} {here : Location} {around : List Location}
    (hplace : fs.locate root = .ok place) (hdir : fs.look place = some .directory)
    (hwalk : fs.walkDirectory fs.walkDepth ⟨root, place⟩ [] [] = .ok entries)
    (h : fs.Within place way here around) (hthere : fs.look (here ++ [n]) ≠ none) :
    ¬ fs.Obstacle root way here around n ∧
      ∃ kind, fs.KindOf here n kind ∧ ⟨way ++ [n], kind⟩ ∈ entries := by
  obtain ⟨depth, visit, inside, below, hstands, rfl, rfl, _, hbelow, hsubset⟩ :=
    walked_of_within hroot hplace hdir hwalk h
  rw [walkDirectory] at hbelow
  rcases walkNames_ok hbelow (mem_names_iff.2 hthere) with ⟨henter, he⟩ | ⟨_, _, henter, _, he, _⟩
  · obtain ⟨next, content, hname, hfile⟩ := hstands.enter_none hroot henter
    exact ⟨hstands.no_obstacle hroot henter, _, kindOf_file hname hfile, hsubset he⟩
  · obtain ⟨hname, hvisit⟩ := hstands.enter_some hroot henter
    exact ⟨hstands.no_obstacle hroot henter, _, .directory hname hvisit.isDirectory, hsubset he⟩

end

end FileSystem

theorem Walks.found_below {fs : FileSystem} {root : Path} {place : Location} {here : Visit}
    {inside : List Visit} {way names : List Name} {entries : List Entry}
    (hwalk : Walks fs here inside way names entries) (hroot : root.segments ≠ [.blank])
    (h : fs.Stands root place here inside way) {e : Entry} (he : e ∈ entries) :
    fs.Below place e := by
  induction hwalk with
  | stop => cases he
  | @file here inside way n names rest henter _ ih =>
    rcases List.mem_cons.1 he with rfl | he
    · obtain ⟨next, content, hname, hfile⟩ := h.enter_none hroot henter
      exact ⟨way, _, _, n, rfl, h.within, FileSystem.kindOf_file hname hfile⟩
    · exact ih h he
  | @directory here inside way n names visit entries rest henter _ _ ihbelow ihrest =>
    obtain ⟨hname, hvisit⟩ := h.enter_some hroot henter
    rcases List.mem_append.1 he with he | he
    · rcases List.mem_cons.1 he with rfl | he
      · exact ⟨way, _, _, n, rfl, h.within, .directory hname hvisit.isDirectory⟩
      · exact ihbelow hvisit he
    · exact ihrest h he

/-- The path of the one comes before that of the other, name by name, where names are compared by
their bytes. -/
def Entry.BytesBefore (a b : Entry) : Prop :=
  List.Lex (fun n m : Name => Utf8.bytes n.text < Utf8.bytes m.text) a.path b.path

theorem Entry.Before.bytes {a b : Entry} (h : a.Before b) : a.BytesBefore b :=
  h.imp fun _ _ => Utf8.bytes_lt

namespace FileSystem

section
variable {fs : FileSystem} {root : Path} {place : Location}
  (hinput : root.isStandardInput = false) (hplace : fs.locate root = .ok place)
  (hdir : fs.look place = some .directory)
include hinput hplace hdir

theorem discover_eq_walk :
    fs.discover root = fs.walkDirectory fs.walkDepth ⟨root, place⟩ [] [] := by
  simp only [discover, hinput, hplace, hdir, Bool.false_eq_true, if_false]

theorem discover_fails {way : List Name} {here : Location} {around : List Location} {n : Name}
    (hroot : root.segments ≠ [.blank]) (hwithin : fs.Within place way here around)
    (hobstacle : fs.Obstacle root way here around n) :
    ∃ fault, fs.discover root = .error fault := by
  rw [discover_eq_walk hinput hplace hdir]
  cases hwalk : fs.walkDirectory fs.walkDepth ⟨root, place⟩ [] [] with
  | error fault => exact ⟨fault, rfl⟩
  | ok entries =>
    have hmet := met_of_within hroot hplace hdir hwalk hwithin hobstacle.look_ne_none
    exact absurd hobstacle hmet.1

end

def topName : Name := ⟨"d", by decide⟩
def leafName : Name := ⟨"f", by decide⟩
def turnName : Name := ⟨"x", by decide⟩

/-- A directory in which a link leads to the file beside it, after so many turns through a link
that leads nowhere else. -/
def turningTree (turns : Nat) : FileSystem :=
  ⟨.directory [(leafName, .file []), (turnName, .link ⟨[.here]⟩), (topName, .directory
    [(leafName, .link ⟨.up :: (List.replicate turns (.name turnName) ++ [.name leafName])⟩)])], [], 0⟩

theorem leadsTo_turns (turns k : Nat) : LeadsTo (turningTree turns).look .thing k []
    (List.replicate k (.name turnName) ++ [.name leafName]) (.found [leafName]) := by
  induction k with
  | zero => exact @leadsTo_name (turningTree turns) [] leafName (.file []) rfl (by simp)
  | succ k ih =>
    rw [List.replicate_succ]
    exact @LeadsTo.pass _ _ k [] turnName ⟨[.here]⟩ _ _ rfl rfl rfl rfl (.idle rfl rfl ih)

theorem leadsTo_leaf (turns : Nat) : LeadsTo (turningTree turns).look .thing (turns + 1) [topName]
    [.name leafName] (.found [leafName]) := by
  have hway : LeadsTo (turningTree turns).look .thing turns [topName]
      (.up :: (List.replicate turns (.name turnName) ++ [.name leafName]) ++ [])
      (.found [leafName]) := by
    rw [List.append_nil]
    exact .up rfl (leadsTo_turns turns turns)
  exact .pass rfl rfl rfl rfl hway

theorem turningTree_name {turns : Nat} {n : Name}
    (h : (turningTree turns).look ([topName] ++ [n]) ≠ none) : n = leafName := by
  apply Decidable.byContradiction
  intro hne
  apply h
  show (((Node.directory [(leafName, _)]).at? [n]).map Node.item) = none
  rw [Node.at?_singleton, Node.child?, List.lookup_cons, beq_eq_false_iff_ne.2 hne]
  rfl

/-- The walk of the directory fails though it comes to no link that leads nowhere or back. -/
def FailsFreely (fs : FileSystem) (text : String) : Prop :=
  ∃ place, fs.locate (.ofText text) = .ok place ∧ fs.look place = some .directory ∧
    (∃ fault, fs.discover (.ofText text) = .error fault) ∧
    ¬ ∃ way here around n, fs.Within place way here around ∧ fs.DeadEnd here around n

theorem no_deadEnd_of_files {fs : FileSystem} {place : Location}
    (h : ∀ n, fs.look (place ++ [n]) ≠ none →
      ∃ next content, fs.NameTo place n next ∧ fs.look next = some (.file content)) :
    ¬ ∃ way here around n, fs.Within place way here around ∧ fs.DeadEnd here around n := by
  have hfile : ∀ {n next}, fs.NameTo place n next → fs.look next ≠ some .directory := by
    intro n next hname hdir
    obtain ⟨next', content, hname', hfile⟩ := h n hname.look_ne_none
    rw [← hname.unique hname', hdir] at hfile
    cases hfile
  have honly : ∀ {way here around}, fs.Within place way here around → here = place := by
    intro way here around hwithin
    induction hwithin with
    | root => rfl
    | down _ hname hdir _ ih =>
      rw [ih] at hname
      exact absurd hdir (hfile hname)
  rintro ⟨way, here, around, n, hwithin, hdead⟩
  obtain rfl := honly hwithin
  cases hdead with
  | broken hlink hnowhere =>
    obtain ⟨next, _, hname, _⟩ := h n (by rw [hlink]; simp)
    exact hnowhere next hname
  | loop _ hname hdir _ => exact hfile hname hdir

theorem turningTree_failsFreely : (turningTree linkLimit).FailsFreely "d" := by
  have hroot : (Path.ofText "d").segments ≠ [.blank] := Path.ofText_ne_blank "d"
  have hlocate : (turningTree linkLimit).locate (.ofText "d") = .ok [topName] := by rfl
  have hpasses : (turningTree linkLimit).Passes (.ofText "d") 0 [topName] :=
    ⟨_, rfl, @leadsTo_name (turningTree linkLimit) [] topName .directory rfl (by simp)⟩
  have hname := leadsTo_leaf linkLimit
  have hjoin := (hpasses.join_iff hroot).2 ⟨_, rfl, hname⟩
  have hrefused : (turningTree linkLimit).Refused (.ofText "d") [] [topName] leafName :=
    .manyLinks rfl hjoin (by decide)
  refine ⟨[topName], hlocate, rfl, ?_, no_deadEnd_of_files ?_⟩
  · exact discover_fails (by decide) hlocate rfl hroot .root (.inr hrefused)
  · intro n hn
    obtain rfl := turningTree_name hn
    exact ⟨[leafName], [], ⟨_, hname⟩, rfl⟩

/-- A directory in a directory. -/
def shallowTree : FileSystem :=
  ⟨.directory [(topName, .directory [(leafName, .directory [])])], [], 0⟩

theorem at?_single (n m : Name) (x : Node) (loc : Location) :
    (Node.directory [(n, x)]).at? (m :: loc) = if m = n then x.at? loc else none := by
  rw [Node.at?, Node.child?, Node.lookup_entry_cons]
  by_cases hm : m = n
  · rw [if_pos hm, if_pos hm]
  · rw [if_neg hm, if_neg hm]
    rfl

theorem single_ne_link {x : Node} (h : ∀ loc target, x.at? loc ≠ some (.link target)) (n : Name)
    (loc : Location) (target : Path) :
    (Node.directory [(n, x)]).at? loc ≠ some (.link target) := by
  cases loc with
  | nil => simp [Node.at?]
  | cons m loc =>
    rw [at?_single]
    split
    · exact h loc target
    · simp

theorem shallowTree_noLinks : shallowTree.NoLinks := by
  have hempty : ∀ loc target, (Node.directory []).at? loc ≠ some (.link target) := by
    intro loc target
    cases loc <;> simp [Node.at?, Node.child?]
  intro loc target h
  obtain ⟨x, hx, hitem⟩ := Option.map_eq_some_iff.1 h
  cases x with
  | link target' =>
    exact single_ne_link (single_ne_link hempty leafName) topName loc target' hx
  | file content => cases hitem
  | directory entries => cases hitem

/-- The directory with so many dots behind its name. -/
def dottedText (k : Nat) : String :=
  String.ofList ('d' :: (List.replicate k ['/', '.']).flatten)

theorem splitSlashes_dots (k : Nat) :
    splitSlashes (List.replicate k ['/', '.']).flatten = [] :: List.replicate k ['.'] := by
  induction k with
  | zero => rfl
  | succ k ih =>
    rw [List.replicate_succ, List.flatten_cons, List.cons_append, List.cons_append, List.nil_append,
      splitSlashes, splitSlashes, ih]
    rfl

theorem ofText_dottedText (k : Nat) :
    Path.ofText (dottedText k) = ⟨.name topName :: List.replicate k .here⟩ := by
  have hne : dottedText k ≠ "" := by
    rw [dottedText, Ne, String.ofList_eq_empty_iff]
    exact List.cons_ne_nil _ _
  have hsplit : splitSlashes (dottedText k).toList = ['d'] :: List.replicate k ['.'] := by
    rw [dottedText, String.toList_ofList, splitSlashes, splitSlashes_dots]
    rfl
  rw [Path.ofText, if_neg hne, hsplit, List.map_cons, List.map_replicate]
  rfl

theorem bytesOf_dotted (k : Nat) :
    Path.bytesOf (.name topName :: List.replicate k .here) = 2 + k * 2 := by
  have htop : topName.text.utf8ByteSize = 1 := rfl
  have hdot : Segment.here.text.utf8ByteSize = 1 := rfl
  rw [Path.bytesOf, Path.bytesOf_replicate, hdot, Segment.text, htop]

theorem extend_dotted (k : Nat) :
    (Path.mk (.name topName :: List.replicate k .here)).extend ([] ++ [leafName]) =
      ⟨.name topName :: List.replicate k .here ++ [.name leafName]⟩ := by
  have hlast : (Segment.name topName :: List.replicate k .here).getLast? ≠ some .blank := by
    intro h
    rcases List.mem_cons.1 (List.mem_of_getLast? h) with h | h
    · cases h
    · cases List.eq_of_mem_replicate h
  rw [List.nil_append, Path.extend]
  · split
    · next h => exact absurd h hlast
    · rfl
  · exact List.cons_ne_nil _ _

theorem isStandardInput_dotted (k : Nat) :
    (Path.ofText (dottedText k)).isStandardInput = false := by
  rw [ofText_dottedText, Path.isStandardInput]
  split
  · next n hlead hbody =>
    obtain ⟨idles, hsplit, _⟩ :=
      dropEndWhile_append Segment.isIdle (.name topName :: List.replicate k .here)
    have hbody' : dropEndWhile Segment.isIdle (.name topName :: List.replicate k .here) =
        [.name n] := hbody
    rw [hbody'] at hsplit
    cases (List.cons.inj hsplit).1
    rfl
  · rfl

theorem shallowTree_failsFreely : shallowTree.FailsFreely (dottedText 2047) := by
  have hroot : (Path.ofText (dottedText 2047)).segments ≠ [.blank] := Path.ofText_ne_blank _
  have hlocate : shallowTree.locate (.ofText (dottedText 2047)) = .ok [topName] := by
    rw [ofText_dottedText, locate_ok_iff]
    refine ⟨Path.check_ok_iff.2 ⟨List.cons_ne_nil _ _, ?_, ?_⟩, 0, Nat.zero_le _, ?_⟩
    · intro s hs
      rcases List.mem_cons.1 hs with rfl | hs
      · rfl
      · rw [List.eq_of_mem_replicate hs]
        rfl
    · rw [Path.isTooLong_eq_false_iff (List.cons_ne_nil _ _), bytesOf_dotted]
      decide
    · refine ⟨_, rfl, @LeadsTo.enter _ _ 0 [] topName .directory _ _ rfl rfl rfl (by simp) ?_⟩
      refine .idles rfl fun s hs => ?_
      rw [List.eq_of_mem_replicate hs]
      rfl
  have hlong : ((Path.ofText (dottedText 2047)).extend ([] ++ [leafName])).isTooLong = true := by
    have hleaf : Path.bytesOf [.name leafName] = 2 := rfl
    have hne := List.append_ne_nil_of_right_ne_nil
      (Segment.name topName :: List.replicate 2047 .here) (List.cons_ne_nil (.name leafName) [])
    rw [ofText_dottedText, extend_dotted, ← Bool.not_eq_false, Path.isTooLong_eq_false_iff hne,
      Path.bytesOf_append, bytesOf_dotted, hleaf]
    decide
  have hrefused : shallowTree.Refused (.ofText (dottedText 2047)) [] [topName] leafName :=
    @Refused.longPath _ _ _ _ _ .directory rfl (by simp) hlong
  refine ⟨[topName], hlocate, rfl, ?_, ?_⟩
  · exact discover_fails (isStandardInput_dotted 2047) hlocate rfl hroot .root (.inr hrefused)
  · rintro ⟨way, here, around, n, _, hdead⟩
    rcases hdead with ⟨hlink, _⟩ | ⟨hlink, _⟩
    · exact shallowTree_noLinks _ _ hlink
    · exact shallowTree_noLinks _ _ hlink

def dashedName : Name := ⟨"-", Eq.refl true⟩

/-- A file in a directory that is called by a dash. -/
def dashedTree : FileSystem :=
  ⟨.directory [(dashedName, .directory [(leafName, .file [])])], [], 0⟩

end FileSystem

end Unseal
