import Unseal.Proofs.PlainWalk
import Unseal.Proofs.Run.CleanFilling
/-
  Holding — what a run leaves at the output is walked as the input was

  A run that succeeds leaves a tree of which everything is known, if no link led
  into the output and nothing else was left in it: below the output stands one
  thing for each entry of the walk, a directory or a file with the bytes that were
  to be written, and nothing else. In such a tree no link stands, so a walk of it
  meets everything and nothing else. The entries of a walk are in the order of their
  paths, and the kind of a file is told by its name. So the walk of what was left
  meets the entries of the walk that it was made by, in the same order.

  What is proved:
    1. `Holds.look_eq` — two places that hold the same look the same below them.
    2. `HeldAt.discover` — a walk of a place that holds some entries meets these.
    3. `run_fulfils` — what a run that succeeds leaves at the output, and what it
       reports.
-/

namespace Unseal

/-- What is to stand for an entry, of which a file has this content. -/
def Entry.item (e : Entry) (content : Bytes) : Item :=
  if e.kind = .directory then .directory else .file content

theorem Entry.item_not_link (e : Entry) (content : Bytes) (target : Path) :
    e.item content ≠ .link target := by
  unfold item
  split <;> simp

theorem Entry.item_eq_directory_iff {e : Entry} {content : Bytes} :
    e.item content = .directory ↔ e.kind = .directory := by
  unfold item
  split <;> simp [*]

namespace FileSystem

variable {fs fs' before after : FileSystem} {rules : Rules} {input output : Path}
  {root root' : Location} {entries : List Entry} {content content' : Entry → Bytes}
  {events : List Event} {report : Report}

/-- At a place is a directory with something for each of the entries, and with nothing else. -/
structure Holds (fs : FileSystem) (root : Location) (entries : List Entry)
    (content : Entry → Bytes) : Prop where
  here : fs.look root = some .directory
  each : ∀ e ∈ entries, fs.look (root ++ e.path) = some (e.item (content e))
  only : ∀ way, way ≠ [] → fs.look (root ++ way) ≠ none → ∃ e ∈ entries, e.path = way

namespace Holds

theorem look_eq (h : fs.Holds root entries content) (h' : fs'.Holds root' entries content')
    (hcontent : ∀ e ∈ entries, e.kind ≠ .directory → content e = content' e) (way : Location) :
    fs.look (root ++ way) = fs'.look (root' ++ way) := by
  by_cases hway : way = []
  · rw [hway, List.append_nil, List.append_nil, h.here, h'.here]
  · by_cases hmet : ∃ e ∈ entries, e.path = way
    · obtain ⟨e, he, rfl⟩ := hmet
      rw [h.each e he, h'.each e he]
      unfold Entry.item
      split
      · rfl
      · next hkind => rw [hcontent e he hkind]
    · have hnone : fs.look (root ++ way) = none :=
        Decidable.byContradiction fun hthere => hmet (h.only way hway hthere)
      have hnone' : fs'.look (root' ++ way) = none :=
        Decidable.byContradiction fun hthere => hmet (h'.only way hway hthere)
      rw [hnone, hnone']

theorem noLinksBelow (h : fs.Holds root entries content) : fs.NoLinksBelow root := by
  intro way target hlink
  by_cases hway : way = []
  · rw [hway, List.append_nil, h.here] at hlink
    cases hlink
  · obtain ⟨e, he, rfl⟩ := h.only way hway (by rw [hlink]; simp)
    rw [h.each e he] at hlink
    exact e.item_not_link _ target (Option.some.inj hlink)

theorem of_look (h : fs.Holds root entries content)
    (hlook : ∀ way, fs'.look (root ++ way) = fs.look (root ++ way)) :
    fs'.Holds root entries content := by
  refine ⟨?_, fun e he => by rw [hlook, h.each e he], fun way hway hthere => ?_⟩
  · have hroot := hlook []
    rwa [List.append_nil, h.here] at hroot
  · rw [hlook] at hthere
    exact h.only way hway hthere

end Holds

/-! ## Walking it -/

theorem eq_of_kinds {e e' : Entry} (hpath : e.path = e'.path)
    (hnamed : ∃ above n, e.path = above ++ [n] ∧ (e.kind = .directory ∨ e.kind = .ofFile n))
    (hnamed' : ∃ above n, e'.path = above ++ [n] ∧ (e'.kind = .directory ∨ e'.kind = .ofFile n))
    (hdir : e.kind = .directory ↔ e'.kind = .directory) : e = e' := by
  obtain ⟨above, n, hn, hkind⟩ := hnamed
  obtain ⟨above', n', hn', hkind'⟩ := hnamed'
  obtain ⟨rfl, hlast⟩ := List.append_inj' (hn.symm.trans (hpath.trans hn')) rfl
  obtain rfl : n = n' := List.head_eq_of_cons_eq hlast
  have hsame : e.kind = e'.kind := by
    rcases hkind with hkind | hkind
    · rw [hkind, hdir.1 hkind]
    · rcases hkind' with hkind' | hkind'
      · rw [hkind', hdir.2 hkind']
      · rw [hkind, hkind']
  cases e
  cases e'
  exact Entry.mk.injEq .. |>.mpr ⟨hpath, hsame⟩

/-- A path leads to a place that holds entries as a walk has met them, and to each of them. -/
structure HeldAt (fs : FileSystem) (input : Path) (root : Location) (entries : List Entry)
    (content : Entry → Bytes) : Prop extends Holds fs root entries content where
  locate : fs.locate input = .ok root
  notBlank : input.segments ≠ [.blank]
  ordered : entries.Pairwise Entry.Before
  named : ∀ e ∈ entries, ∃ above n, e.path = above ++ [n] ∧
    (e.kind = .directory ∨ e.kind = .ofFile n)
  taken : ∀ e ∈ entries, (input.extend e.path).check = .ok ()

namespace HeldAt

variable (h : fs.HeldAt input root entries content)
include h

theorem path_ne_nil {e : Entry} (he : e ∈ entries) : e.path ≠ [] := by
  obtain ⟨above, n, hpath, _⟩ := h.named e he
  simp [hpath]

theorem locate_extend {e : Entry} (he : e ∈ entries) :
    fs.locate (input.extend e.path) = .ok (root ++ e.path) :=
  locate_ok_iff.2 ⟨h.taken e he, pathTo_found h.notBlank (locate_ok_iff.1 h.locate).2 .thing
    (h.path_ne_nil he) (h.each e he) (e.item_not_link _)⟩

theorem readFile {e : Entry} (he : e ∈ entries) (hkind : e.kind ≠ .directory) :
    fs.readFile (input.extend e.path) = .ok (content e) := by
  have hfile := h.each e he
  rw [Entry.item, if_neg hkind] at hfile
  exact readFile_ok_iff.2 ⟨_, h.locate_extend he, hfile⟩

theorem discover (hinput : input.isStandardInput = false) : fs.discover input = .ok entries := by
  have hlinks := h.noLinksBelow
  obtain ⟨met, hmet⟩ : ∃ met, fs.discover input = .ok met := by
    refine discover_isOk hlinks (fun way hdir => ?_) h.locate
    by_cases hway : way = []
    · subst hway
      exact (Path.check_ok_iff.1 (locate_ok_iff.1 h.locate).1).2.2
    · obtain ⟨e, he, rfl⟩ := h.only way hway (by rw [hdir]; simp)
      exact (Path.check_ok_iff.1 (h.taken e he)).2.2
  have hwalk := walks_of_discover h.locate hmet
  -- An entry that is held and one that was met at the same place are one.
  have hsame : ∀ e ∈ entries, ∀ e' ∈ met, e.path = e'.path → e = e' := by
    intro e he e' he' hpath
    obtain ⟨hdirectory, hfile⟩ := hwalk.standing hlinks (List.append_nil root).symm he'
    have hheld := h.each e he
    rw [hpath] at hheld
    refine eq_of_kinds hpath (h.named e he) (hwalk.named he') ⟨fun hkind => ?_, fun hkind => ?_⟩
    · apply Decidable.byContradiction
      intro hkind'
      obtain ⟨bytes, hbytes⟩ := hfile hkind'
      rw [hbytes, Entry.item, if_pos hkind] at hheld
      cases hheld
    · rw [hdirectory hkind] at hheld
      exact Entry.item_eq_directory_iff.1 (Option.some.inj hheld).symm
  rw [hmet, eq_of_ordered (ordered_of_discover hmet) h.ordered fun e =>
    ⟨fun he => ?_, fun he => ?_⟩]
  · obtain ⟨hdirectory, hfile⟩ := hwalk.standing hlinks (List.append_nil root).symm he
    have hthere : fs.look (root ++ e.path) ≠ none := by
      by_cases hkind : e.kind = .directory
      · simp [hdirectory hkind]
      · obtain ⟨bytes, hbytes⟩ := hfile hkind
        simp [hbytes]
    obtain ⟨above, n, hpath, _⟩ := hwalk.named he
    obtain ⟨e', he', hpath'⟩ := h.only e.path (by simp [hpath]) hthere
    rwa [← hsame e' he' e he hpath']
  · have hthere : fs.look (root ++ e.path) ≠ none := by simp [h.each e he]
    obtain ⟨e', he', hpath'⟩ :=
      discover_complete hlinks hinput h.locate hmet (h.path_ne_nil he) hthere
    rwa [hsame e he e' he' hpath'.symm]

end HeldAt

/-! ## What a run leaves -/

/-- What has come of a run that succeeded, if it found nothing else in the output that it prepared. -/
structure Fulfils (rules : Rules) (input output : Path) (root : Location) (entries : List Entry)
    (before after : FileSystem) (report : Report) : Prop where
  stage : Stage root entries before after
  holds : after.Holds root entries (before.deliveredFor rules input)
  taken : ∀ e ∈ entries, (output.extend e.path).check = .ok ()
  report : report = .ofOutcomes input output (entries.filter (·.kind = .directory)).length
    ((entries.filter (·.kind ≠ .directory)).map (before.outcomeOf rules input))

theorem fulfils_of_onlyEntries {made : FileSystem} {told : List Event} {outcomes : List Outcome}
    (houtput : output.segments ≠ [.blank]) (hroot : before.PathTo .thing output (.found root))
    (hdir : before.look root = some .directory) (hlisting : Listing before input entries)
    (hapart : before.EntriesApart input root entries) (honly : before.OnlyEntries root entries)
    (hmade : before.makeOutputDirectories output (entries.filter (·.kind = .directory)) =
      ⟨made, told, .ok ()⟩)
    (hdone : store.processAll rules input output made (entries.filter (·.kind ≠ .directory)) =
      ⟨after, events, .ok outcomes⟩) :
    Fulfils rules input output root entries before after
      (.ofOutcomes input output (entries.filter (·.kind = .directory)).length outcomes) := by
  have hunlinked := honly.unlinked hlisting
  have hfiles : ∀ e ∈ entries.filter (·.kind ≠ .directory), e ∈ entries ∧ e.kind ≠ .directory :=
    fun e he => by simpa using he
  obtain ⟨hstage, hdirectory, habove⟩ := stage_of_made houtput hroot hlisting hunlinked hdir hmade
  have hready : Ready root entries before made := ⟨hstage, habove⟩
  have hdoable := hready.processAll_needs houtput hroot hlisting hunlinked hapart hfiles hdone
  obtain ⟨rfl, hready', hfilled⟩ := hready.processAll_ok houtput hroot hlisting hunlinked hapart
    hfiles (hlisting.distinct.filter _) hdone
  refine ⟨hready'.toStage, ⟨hready'.grows.directory hdir, fun e he => ?_, fun way hway hthere => ?_⟩,
    fun e he => ?_, rfl⟩
  · unfold Entry.item
    split
    · next hkind =>
      rw [hfilled.elsewhere, hdirectory e he hkind]
      -- No file is written where a directory was made, since entries of one path are one.
      intro e' he' hplace
      obtain ⟨hmem, hkind'⟩ := hfiles e' he'
      rw [hlisting.eq_of_path he hmem (List.append_cancel_left hplace)] at hkind
      exact hkind' hkind
    · next hkind => exact hfilled.files e (List.mem_filter.2 ⟨he, by simpa using hkind⟩)
  · obtain ⟨item, hitem⟩ := Option.ne_none_iff_exists'.1 hthere
    obtain ⟨e, he, hpath, _⟩ := hready'.onlyEntries honly way item hway hitem
    exact ⟨e, he, hpath⟩
  · by_cases hkind : e.kind = .directory
    · exact makeOutputDirectories_taken
        (fun e he => hlisting.isEmpty_extend (List.mem_filter.1 he).1 _) hmade
        (List.mem_filter.2 ⟨he, by simpa using hkind⟩)
    · exact (hdoable e (List.mem_filter.2 ⟨he, by simpa using hkind⟩)).taken

/-- A run that succeeds fulfils what is to be done if no link led into the output and nothing else
was left there, and nothing is if the path of the output does not lead up. -/
theorem run_fulfils {prepared : FileSystem}
    (hrun : fs.run rules input output = ⟨after, events, .ok report⟩)
    (hprepared : fs.prepareOutput output = (prepared, .ok ()))
    (hdiscover : prepared.discover input = .ok entries) (hlocate : prepared.locate output = .ok root) :
    Listing prepared input entries ∧ output.segments ≠ [.blank] ∧
      (.up ∉ output.segments → prepared.OnlyEntries root entries) ∧
      (prepared.EntriesApart input root entries → prepared.OnlyEntries root entries →
        Fulfils rules input output root entries prepared after report) := by
  obtain ⟨hallowed, prepared', entries', made, told, more, outcomes, hprepared', hdiscover', hmade,
    hdone, _, rfl⟩ := run_parts hrun
  obtain rfl : prepared = prepared' := congrArg Prod.fst (hprepared.symm.trans hprepared')
  obtain rfl : entries = entries' := Except.ok.inj (hdiscover.symm.trans hdiscover')
  obtain ⟨hinput, houtput, hnonempty⟩ := allowRoots_ok hallowed
  obtain ⟨hdirectory, _⟩ := prepareOutput_ok hprepared hnonempty
  obtain ⟨root', hlocate', hdir⟩ := isDirectory_iff.1 hdirectory
  obtain rfl : root = root' := Except.ok.inj (hlocate.symm.trans hlocate')
  have hlisting := listing_of_discover hinput hdiscover
  refine ⟨hlisting, houtput,
    fun hup => onlyEntries_of_prepared hprepared hnonempty hlocate hup entries,
    fun hapart honly => ?_⟩
  exact fulfils_of_onlyEntries houtput (locate_ok_iff.1 hlocate).2 hdir hlisting hapart honly hmade
    hdone

end FileSystem

end Unseal
