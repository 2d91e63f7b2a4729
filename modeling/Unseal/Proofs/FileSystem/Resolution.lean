import Mathlib.Data.List.Induction
import Unseal.FileSystem.Resolve
import Unseal.Proofs.FileSystem.Look
/-
  Resolution — where a path leads, as a relation

  A path is followed by a machine that counts the links it may still pass. What
  the machine finds is said here by a derivation with one rule for each kind of
  step (`LeadsTo`), which counts the links that were passed. Derivations can be put
  together and cut apart at any segment, and they carry over to a file system in
  which nothing that they rest on is gone.

  What is proved:
    1. `follow_ok_iff` — the machine finds a target exactly if there is a
       derivation that passes no more links than it may.
    2. `LeadsTo.append`, `LeadsTo.split` — derivations are put together and cut apart;
       `LeadsTo.follow_append` — so is what the machine does.
    3. `Keeps.leadsTo`, `Keeps.settled` — a place that is found is found as well when
       more is there, and so is a vacant place once something is put there.
    4. `LeadsTo.of_climb` — out of removed directories segments lead up through what
       stands where these stood.
-/

namespace Unseal

/-- The segments lead from a place to a target, through so many links. -/
inductive LeadsTo (look : Location → Option Item) (ending : Ending) :
    Nat → Location → List Segment → Target → Prop where
  | done {loc} : LeadsTo look ending 0 loc [] (.found loc)
  | idle {k loc segment rest t} (hdir : look loc = some .directory)
    (hidle : segment.isIdle = true) (h : LeadsTo look ending k loc rest t) :
    LeadsTo look ending k loc (segment :: rest) t
  | up {k loc rest t} (hdir : look loc = some .directory)
    (h : LeadsTo look ending k loc.dropLast rest t) :
    LeadsTo look ending k loc (.up :: rest) t
  | vacant {loc n} (hdir : look loc = some .directory) (hnone : look (loc ++ [n]) = none) :
    LeadsTo look ending 0 loc [.name n] (.vacant loc n)
  | enter {k loc n item rest t} (hdir : look loc = some .directory)
    (hslash : (ending = .file && onlySlashes rest) = false)
    (hitem : look (loc ++ [n]) = some item) (hlink : ∀ target, item ≠ .link target)
    (h : LeadsTo look ending k (loc ++ [n]) rest t) :
    LeadsTo look ending k loc (.name n :: rest) t
  | stop {loc n target} (hdir : look loc = some .directory) (hentry : ending = .entry)
    (hitem : look (loc ++ [n]) = some (.link target)) :
    LeadsTo look ending 0 loc [.name n] (.found (loc ++ [n]))
  | pass {k loc n target rest t} (hdir : look loc = some .directory)
    (hslash : (ending = .file && onlySlashes rest) = false)
    (hentry : (ending = .entry && rest.isEmpty) = false)
    (hitem : look (loc ++ [n]) = some (.link target))
    (h : LeadsTo look ending k (if target.isAbsolute then [] else loc) (target.segments ++ rest) t) :
    LeadsTo look ending (k + 1) loc (.name n :: rest) t

section
variable {look : Location → Option Item} {ending : Ending} {k b : Nat} {loc : Location}
  {segments : List Segment} {t : Target}

theorem leadsTo_of_advance :
    (∀ t, advance look ending loc segments = .arrived t → LeadsTo look ending 0 loc segments t) ∧
    ∀ loc' segments' k t, advance look ending loc segments = .redirected loc' segments' →
      LeadsTo look ending k loc' segments' t → LeadsTo look ending (k + 1) loc segments t := by
  induction segments generalizing loc with
  | nil =>
    refine ⟨?_, ?_⟩
    · intro t h
      cases h
      exact .done
    · intro loc' segments' k t h
      cases h
  | cons segment rest ih =>
    unfold advance
    split
    · simp
    · simp
    · simp
    · next hdir =>
      split
      · exact ⟨fun t h => .idle hdir rfl (ih.1 t h),
          fun _ _ k t h h' => .idle hdir rfl (ih.2 _ _ k t h h')⟩
      · exact ⟨fun t h => .idle hdir rfl (ih.1 t h),
          fun _ _ k t h h' => .idle hdir rfl (ih.2 _ _ k t h h')⟩
      · exact ⟨fun t h => .up hdir (ih.1 t h), fun _ _ k t h h' => .up hdir (ih.2 _ _ k t h h')⟩
      · simp
      · next n =>
        split
        · simp
        · next hslash =>
          have hslash := Bool.not_eq_true _ ▸ hslash
          split
          · next hnone =>
            split
            · next hempty =>
              obtain rfl := List.isEmpty_iff.1 hempty
              refine ⟨fun t h => ?_, by simp⟩
              cases h
              exact .vacant hdir hnone
            · simp
          · next target hitem =>
            split
            · next hentry =>
              obtain ⟨he, hempty⟩ := Bool.and_eq_true_iff.1 hentry
              obtain rfl := List.isEmpty_iff.1 hempty
              refine ⟨fun t h => ?_, by simp⟩
              cases h
              exact .stop hdir (of_decide_eq_true he) hitem
            · next hentry =>
              refine ⟨by simp, fun loc' segments' k t h h' => ?_⟩
              cases h
              exact .pass hdir hslash (Bool.not_eq_true _ ▸ hentry) hitem h'
          · next item hlink hitem =>
            exact ⟨fun t h => .enter hdir hslash hitem hlink (ih.1 t h),
              fun _ _ k t h h' => .enter hdir hslash hitem hlink (ih.2 _ _ k t h h')⟩

theorem follow_eq (step : Location → List Segment → Advance) (b : Nat) (loc : Location)
    (segments : List Segment) : follow step b loc segments =
      match step loc segments with
      | .arrived target => .ok target
      | .refused fault => .error fault
      | .redirected loc segments =>
        match b with
        | 0 => .error .tooManyLinks
        | b + 1 => follow step b loc segments :=
  follow.eq_def step b loc segments

theorem follow_congr {step : Location → List Segment → Advance} {loc' : Location}
    {segments' : List Segment} (h : step loc segments = step loc' segments') :
    follow step b loc segments = follow step b loc' segments' := by
  rw [follow_eq, h, ← follow_eq]

theorem follow_arrived {step : Location → List Segment → Advance}
    (h : step loc segments = .arrived t) : follow step b loc segments = .ok t := by
  rw [follow_eq, h]

theorem leadsTo_of_follow (h : follow (advance look ending) b loc segments = .ok t) :
    ∃ k, k ≤ b ∧ LeadsTo look ending k loc segments t := by
  -- Between two links the machine goes on by itself, so the induction is on the links left.
  induction b generalizing loc segments with
  | zero =>
    rw [follow_eq] at h
    cases hstep : advance look ending loc segments with
    | arrived target =>
      obtain rfl : target = t := by simpa [hstep] using h
      exact ⟨0, Nat.le_refl 0, leadsTo_of_advance.1 _ hstep⟩
    | refused fault => simp [hstep] at h
    | redirected loc' segments' => simp [hstep] at h
  | succ b ih =>
    rw [follow_eq] at h
    cases hstep : advance look ending loc segments with
    | arrived target =>
      obtain rfl : target = t := by simpa [hstep] using h
      exact ⟨0, Nat.zero_le _, leadsTo_of_advance.1 _ hstep⟩
    | refused fault => simp [hstep] at h
    | redirected loc' segments' =>
      obtain ⟨k, hk, hleads⟩ := ih (by simpa [hstep] using h)
      exact ⟨k + 1, Nat.succ_le_succ hk, leadsTo_of_advance.2 _ _ _ _ hstep hleads⟩

theorem follow_of_leadsTo (hleads : LeadsTo look ending k loc segments t) (hk : k ≤ b) :
    follow (advance look ending) b loc segments = .ok t := by
  induction hleads generalizing b with
  | done => exact follow_arrived rfl
  | @idle k loc segment rest t hdir hidle _ ih =>
    rw [← ih hk]
    apply follow_congr
    cases segment with
    | blank | here => simp only [advance, hdir]
    | up | name _ | unfit _ => cases hidle
  | up hdir _ ih =>
    rw [← ih hk]
    apply follow_congr
    simp only [advance, hdir]
  | vacant hdir hnone =>
    apply follow_arrived
    simp [advance, hdir, hnone, onlySlashes]
  | @enter k loc n item rest t hdir hslash hitem hlink _ ih =>
    rw [← ih hk]
    apply follow_congr
    simp only [advance, hdir, hslash, hitem]
    cases item with
    | link target => exact absurd rfl (hlink target)
    | file content => rfl
    | directory => rfl
  | stop hdir hentry hitem =>
    apply follow_arrived
    simp [advance, hdir, hitem, hentry]
  | pass hdir hslash hentry hitem _ ih =>
    -- Only here a link is used up, and the derivation has counted it.
    obtain ⟨b, rfl⟩ := Nat.exists_eq_add_of_le' (Nat.le_trans (Nat.le_add_left 1 _) hk)
    rw [follow_eq]
    simp only [advance, hdir, hslash, hitem, hentry]
    exact ih (Nat.le_of_succ_le_succ hk)

/-- The machine finds a target exactly if it is led to it through no more links than it may pass. -/
theorem follow_ok_iff :
    follow (advance look ending) b loc segments = .ok t ↔
      ∃ k, k ≤ b ∧ LeadsTo look ending k loc segments t := by
  refine ⟨leadsTo_of_follow, ?_⟩
  intro h
  obtain ⟨k, hk, hleads⟩ := h
  exact follow_of_leadsTo hleads hk

end

namespace LeadsTo

variable {look : Location → Option Item} {ending : Ending} {k : Nat} {loc : Location}
  {segments rest : List Segment} {t : Target}

theorem thing_of_file (h : LeadsTo look .file k loc segments t) :
    LeadsTo look .thing k loc segments t := by
  induction h with
  | done => exact .done
  | idle hdir hidle _ ih => exact .idle hdir hidle ih
  | up hdir _ ih => exact .up hdir ih
  | vacant hdir hnone => exact .vacant hdir hnone
  | enter hdir _ hitem hlink _ ih => exact .enter hdir rfl hitem hlink ih
  | stop _ hentry _ => cases hentry
  | pass hdir _ _ hitem _ ih => exact .pass hdir rfl rfl hitem ih

theorem thing_of_entry {parent : Location} {n : Name}
    (h : LeadsTo look .entry k loc segments (.vacant parent n)) :
    LeadsTo look .thing k loc segments (.vacant parent n) := by
  generalize ht : Target.vacant parent n = t at h
  induction h with
  | done => cases ht
  | idle hdir hidle _ ih => exact .idle hdir hidle (ih ht)
  | up hdir _ ih => exact .up hdir (ih ht)
  | vacant hdir hnone => exact .vacant hdir hnone
  | enter hdir _ hitem hlink _ ih => exact .enter hdir rfl hitem hlink (ih ht)
  | stop => cases ht
  | pass hdir _ _ hitem _ ih => exact .pass hdir rfl rfl hitem (ih ht)

theorem thing_of_entry_found {found : Location}
    (h : LeadsTo look .entry k loc segments (.found found))
    (hlink : ∀ target, look found ≠ some (.link target)) :
    LeadsTo look .thing k loc segments (.found found) := by
  generalize ht : Target.found found = t at h ⊢
  induction h with
  | done => exact .done
  | idle hdir hidle _ ih => exact .idle hdir hidle (ih ht)
  | up hdir _ ih => exact .up hdir (ih ht)
  | vacant => cases ht
  | enter hdir _ hitem hlink' _ ih => exact .enter hdir rfl hitem hlink' (ih ht)
  | @stop loc n target _ _ hitem =>
    cases ht
    exact absurd hitem (hlink target)
  | pass hdir _ _ hitem _ ih => exact .pass hdir rfl rfl hitem (ih ht)

theorem before_vacant {parent : Location} {n : Name}
    (h : LeadsTo look .entry k loc segments (.vacant parent n)) :
    ∃ front, segments = front ++ [.name n] ∧ LeadsTo look .thing k loc front (.found parent) := by
  generalize ht : Target.vacant parent n = t at h
  induction h with
  | done | stop => cases ht
  | @idle _ _ segment _ _ hdir hidle _ ih =>
    obtain ⟨front, rfl, hfront⟩ := ih ht
    exact ⟨segment :: front, rfl, .idle hdir hidle hfront⟩
  | up hdir _ ih =>
    obtain ⟨front, rfl, hfront⟩ := ih ht
    exact ⟨.up :: front, rfl, .up hdir hfront⟩
  | vacant hdir hnone =>
    cases ht
    exact ⟨[], rfl, .done⟩
  | @enter _ _ m _ _ _ hdir _ hitem hlink _ ih =>
    obtain ⟨front, rfl, hfront⟩ := ih ht
    exact ⟨.name m :: front, rfl, .enter hdir rfl hitem hlink hfront⟩
  | @pass _ _ m target rest _ hdir _ hentry hitem _ ih =>
    -- The name stands behind the link, since an entry that is a link is not passed.
    have hne : rest ≠ [] := by
      rintro rfl
      cases hentry
    obtain ⟨front, hsplit, hfront⟩ := ih ht
    obtain ⟨init, last, rfl⟩ := (List.eq_nil_or_concat rest).resolve_left hne
    rw [List.concat_eq_append, ← List.append_assoc] at hsplit
    obtain ⟨rfl, hlast⟩ := List.append_inj' hsplit rfl
    refine ⟨.name m :: init, ?_, .pass hdir rfl rfl hitem hfront⟩
    rw [List.concat_eq_append, hlast]
    rfl

theorem unique {j : Nat} {t' : Target} (h : LeadsTo look ending k loc segments t)
    (h' : LeadsTo look ending j loc segments t') : t = t' := by
  have hk := follow_of_leadsTo h (Nat.le_max_left k j)
  have hj := follow_of_leadsTo h' (Nat.le_max_right k j)
  exact Except.ok.inj (hk.symm.trans hj)

theorem links_unique {j : Nat} {t' : Target} (h : LeadsTo look ending k loc segments t)
    (h' : LeadsTo look ending j loc segments t') : k = j := by
  induction h generalizing j with
  | done =>
    cases h'
    rfl
  | idle _ hidle _ ih =>
    cases h' with
    | idle _ _ h' => exact ih h'
    | up | vacant | enter | stop | pass => cases hidle
  | up _ _ ih =>
    cases h' with
    | idle _ hidle => cases hidle
    | up _ h' => exact ih h'
  | vacant _ hnone =>
    cases h' with
    | idle _ hidle => cases hidle
    | vacant | stop => rfl
    | enter _ _ hitem | pass _ _ _ hitem =>
      rw [hnone] at hitem
      cases hitem
  | enter _ _ hitem hlink _ ih =>
    cases h' with
    | idle _ hidle => cases hidle
    | vacant _ hnone =>
      rw [hitem] at hnone
      cases hnone
    | enter _ _ _ _ h' => exact ih h'
    | stop _ _ hitem' | pass _ _ _ hitem' =>
      rw [hitem] at hitem'
      exact absurd (Option.some.inj hitem') (hlink _)
  | stop _ hentry hitem =>
    cases h' with
    | idle _ hidle => cases hidle
    | vacant | stop => rfl
    | enter _ _ hitem' hlink =>
      rw [hitem] at hitem'
      exact absurd (Option.some.inj hitem').symm (hlink _)
    | pass _ _ hnot =>
      rw [hentry] at hnot
      cases hnot
  | pass _ _ hentry hitem _ ih =>
    cases h' with
    | idle _ hidle => cases hidle
    | vacant _ hnone =>
      rw [hitem] at hnone
      cases hnone
    | enter _ _ hitem' hlink =>
      rw [hitem] at hitem'
      exact absurd (Option.some.inj hitem').symm (hlink _)
    | stop _ hentry' =>
      rw [hentry'] at hentry
      cases hentry
    | pass _ _ _ hitem' h' =>
      rw [hitem] at hitem'
      cases hitem'
      rw [ih h']

theorem straight {found : Location} {way : List Name}
    (h : LeadsTo look ending k loc segments (.found found))
    (hway : segments.filter (!·.isIdle) = way.map .name)
    (hlink : ∀ front, front <+: way → ∀ target, look (loc ++ front) ≠ some (.link target)) :
    found = loc ++ way := by
  generalize ht : Target.found found = t at h
  induction h generalizing way with
  | done =>
    cases ht
    rw [List.map_eq_nil_iff.1 hway.symm, List.append_nil]
  | idle _ hidle _ ih =>
    rw [List.filter_cons_of_neg (by simp [hidle])] at hway
    exact ih hway hlink ht
  | up =>
    rw [List.filter_cons_of_pos rfl] at hway
    cases way <;> cases hway
  | vacant => cases ht
  | @enter _ _ n _ _ _ _ _ _ _ _ ih =>
    rw [List.filter_cons_of_pos rfl] at hway
    cases way with
    | nil => cases hway
    | cons m way =>
      obtain ⟨hn, hrest⟩ := List.cons.inj hway
      cases hn
      rw [List.append_cons]
      refine ih hrest (fun front hfront target => ?_) ht
      rw [List.append_assoc]
      exact hlink (n :: front) (List.cons_prefix_cons.2 ⟨rfl, hfront⟩) target
  | @stop _ n target _ _ hitem | @pass _ _ n target _ _ _ _ _ hitem _ _ =>
    rw [List.filter_cons_of_pos rfl] at hway
    cases way with
    | nil => cases hway
    | cons m way =>
      obtain ⟨hn, _⟩ := List.cons.inj hway
      cases hn
      exact absurd hitem (hlink [n] (List.cons_prefix_cons.2 ⟨rfl, List.nil_prefix⟩) target)

theorem entry_of_thing {found : Location} (h : LeadsTo look .thing k loc segments (.found found)) :
    ∃ k' found', k' ≤ k ∧ LeadsTo look .entry k' loc segments (.found found') := by
  generalize ht : Target.found found = t at h
  induction h with
  | done => exact ⟨0, _, Nat.le_refl 0, .done⟩
  | idle hdir hidle _ ih =>
    obtain ⟨k', found', hk, h⟩ := ih ht
    exact ⟨k', found', hk, .idle hdir hidle h⟩
  | up hdir _ ih =>
    obtain ⟨k', found', hk, h⟩ := ih ht
    exact ⟨k', found', hk, .up hdir h⟩
  | vacant => cases ht
  | enter hdir _ hitem hlink _ ih =>
    obtain ⟨k', found', hk, h⟩ := ih ht
    exact ⟨k', found', hk, .enter hdir rfl hitem hlink h⟩
  | stop _ hentry _ => cases hentry
  | @pass k loc n target rest t hdir _ _ hitem _ ih =>
    -- A link at the end is an entry itself, wherever it leads.
    cases hrest : rest.isEmpty with
    | true =>
      obtain rfl := List.isEmpty_iff.1 hrest
      exact ⟨0, _, Nat.zero_le _, .stop hdir rfl hitem⟩
    | false =>
      obtain ⟨k', found', hk, h⟩ := ih ht
      exact ⟨k' + 1, found', Nat.succ_le_succ hk, .pass hdir rfl (by simp [hrest]) hitem h⟩

theorem onlySlashes_of_name {n : Name} (h : .name n ∈ rest) : onlySlashes rest = false := by
  have hall : rest.all (· = .blank) = false := by
    rw [List.all_eq_false]
    exact ⟨_, h, by simp⟩
  rw [onlySlashes, hall, Bool.and_false]

/-- Derivations are put together. What is done at the end does not matter before a name. -/
theorem append {mid : Location} {j : Nat} (h : LeadsTo look .thing k loc segments (.found mid))
    (h' : LeadsTo look ending j mid rest t) (hend : ending = .thing ∨ ∃ n, .name n ∈ rest) :
    LeadsTo look ending (k + j) loc (segments ++ rest) t := by
  have hslash : ∀ rest', (ending = .file && onlySlashes (rest' ++ rest)) = false := by
    intro rest'
    rcases hend with rfl | ⟨n, hn⟩
    · rfl
    · rw [onlySlashes_of_name (List.mem_append_right rest' hn), Bool.and_false]
  have hentry : ∀ rest', (ending = .entry && (rest' ++ rest).isEmpty) = false := by
    intro rest'
    rcases hend with rfl | ⟨n, hn⟩
    · rfl
    · have hne : rest' ++ rest ≠ [] := List.append_ne_nil_of_right_ne_nil rest' (List.ne_nil_of_mem hn)
      rw [Bool.eq_false_iff.2 (mt List.isEmpty_iff.1 hne), Bool.and_false]
  -- The two tests look at all segments that are left, so a name behind them settles both.
  generalize hs : Target.found mid = s at h
  induction h with
  | done =>
    cases hs
    simpa using h'
  | idle hdir hidle _ ih => exact .idle hdir hidle (ih hs)
  | up hdir _ ih => exact .up hdir (ih hs)
  | vacant => cases hs
  | @enter _ _ _ _ rest' _ hdir _ hitem hlink _ ih =>
    exact .enter hdir (hslash rest') hitem hlink (ih hs)
  | stop _ hentry _ => cases hentry
  | @pass _ _ _ _ rest' _ hdir _ _ hitem _ ih =>
    rw [Nat.add_right_comm]
    exact .pass hdir (hslash rest') (hentry rest') hitem (by simpa using ih hs)

/-- Derivations are cut apart. -/
theorem split (h : LeadsTo look .thing k loc (segments ++ rest) t) (hrest : rest ≠ []) :
    ∃ i j mid, k = i + j ∧ LeadsTo look .thing i loc segments (.found mid) ∧
      LeadsTo look .thing j mid rest t := by
  have hnil : ∀ {k loc all t}, [] ++ rest = all → LeadsTo look .thing k loc all t →
      ∃ i j mid, k = i + j ∧ LeadsTo look .thing i loc [] (.found mid) ∧
        LeadsTo look .thing j mid rest t := by
    rintro k loc all t rfl h
    exact ⟨0, k, loc, (Nat.zero_add k).symm, .done, h⟩
  -- The cut falls in front of a step, or the step stays in the first part.
  generalize hall : segments ++ rest = all at h
  induction h generalizing segments with
  | done => exact absurd (List.append_eq_nil_iff.1 hall).2 hrest
  | idle hdir hidle h ih =>
    cases segments with
    | nil => exact hnil hall (.idle hdir hidle h)
    | cons segment segments =>
      obtain ⟨rfl, htail⟩ := List.cons.inj hall
      obtain ⟨i, j, mid, rfl, hi, hj⟩ := ih htail
      exact ⟨i, j, mid, rfl, .idle hdir hidle hi, hj⟩
  | up hdir h ih =>
    cases segments with
    | nil => exact hnil hall (.up hdir h)
    | cons segment segments =>
      obtain ⟨rfl, htail⟩ := List.cons.inj hall
      obtain ⟨i, j, mid, rfl, hi, hj⟩ := ih htail
      exact ⟨i, j, mid, rfl, .up hdir hi, hj⟩
  | vacant hdir hnone =>
    cases segments with
    | nil => exact hnil hall (.vacant hdir hnone)
    | cons segment segments =>
      exact absurd (List.append_eq_nil_iff.1 (List.cons.inj hall).2).2 hrest
  | enter hdir hslash hitem hlink h ih =>
    cases segments with
    | nil => exact hnil hall (.enter hdir hslash hitem hlink h)
    | cons segment segments =>
      obtain ⟨rfl, htail⟩ := List.cons.inj hall
      obtain ⟨i, j, mid, rfl, hi, hj⟩ := ih htail
      exact ⟨i, j, mid, rfl, .enter hdir rfl hitem hlink hi, hj⟩
  | stop _ hentry _ => cases hentry
  | pass hdir hslash hentry hitem h ih =>
    cases segments with
    | nil => exact hnil hall (.pass hdir hslash hentry hitem h)
    | cons segment segments =>
      obtain ⟨rfl, htail⟩ := List.cons.inj hall
      -- The target of the link is put before the segments, and the cut moves behind it.
      obtain ⟨i, j, mid, rfl, hi, hj⟩ := ih (by rw [← htail]; exact List.append_assoc _ _ _)
      exact ⟨i + 1, j, mid, Nat.add_right_comm i j 1, .pass hdir rfl rfl hitem hi, hj⟩

/-- Behind what segments lead to the machine goes on from there, with the links that are left, if a
name follows. -/
theorem follow_append {mid : Location} {b : Nat} (h : LeadsTo look .thing k loc segments (.found mid))
    (hk : k ≤ b) (hname : ∃ n, .name n ∈ rest) :
    follow (advance look ending) b loc (segments ++ rest) =
      follow (advance look ending) (b - k) mid rest := by
  obtain ⟨n, hn⟩ := hname
  have hslash : ∀ rest', (ending = .file && onlySlashes (rest' ++ rest)) = false := fun rest' => by
    rw [onlySlashes_of_name (List.mem_append_right rest' hn), Bool.and_false]
  have hentry : ∀ rest', (ending = .entry && (rest' ++ rest).isEmpty) = false := fun rest' => by
    have hne := List.append_ne_nil_of_right_ne_nil rest' (List.ne_nil_of_mem hn)
    rw [List.isEmpty_eq_false_iff.2 hne, Bool.and_false]
  generalize hs : Target.found mid = s at h
  induction h generalizing b with
  | done =>
    cases hs
    rfl
  | @idle _ loc segment _ _ hdir hidle _ ih =>
    rw [← ih hk hs]
    apply follow_congr
    cases segment with
    | blank | here => simp only [List.cons_append, advance, hdir]
    | up | name _ | unfit _ => cases hidle
  | up hdir _ ih =>
    rw [← ih hk hs]
    apply follow_congr
    simp only [List.cons_append, advance, hdir]
  | vacant => cases hs
  | @enter _ loc m item rest' _ hdir _ hitem hlink _ ih =>
    rw [← ih hk hs]
    apply follow_congr
    simp only [List.cons_append, advance, hdir, hslash rest', hitem]
    cases item with
    | link target => exact absurd rfl (hlink target)
    | file content => rfl
    | directory => rfl
  | stop _ hentry _ => cases hentry
  | @pass k loc m target rest' _ hdir _ _ hitem _ ih =>
    obtain ⟨b, rfl⟩ := Nat.exists_eq_add_of_le' (Nat.le_trans (Nat.le_add_left 1 _) hk)
    rw [follow_eq]
    simp only [List.cons_append, advance, hdir, hslash rest', hentry rest', hitem]
    rw [Nat.add_sub_add_right, ← ih (Nat.le_of_succ_le_succ hk) hs, List.append_assoc]
    rfl

theorem moves {found : Location} (h : LeadsTo look .thing k loc segments t)
    (ht : t = .found found) : ∀ front rest, front ++ rest = segments →
      LeadsTo look .thing k loc (front ++ rest.filter (!·.isIdle)) t := by
  -- A link puts its target before the segments that are left, so these are kept apart.
  induction h with
  | done =>
    intro front rest hall
    obtain ⟨rfl, rfl⟩ := List.append_eq_nil_iff.1 hall
    exact .done
  | idle hdir hidle h ih =>
    intro front rest hall
    cases front with
    | nil =>
      obtain rfl := hall
      rw [List.filter_cons_of_neg (by simp [hidle])]
      exact ih ht [] _ rfl
    | cons segment front =>
      obtain ⟨rfl, hrest⟩ := List.cons.inj hall
      exact .idle hdir hidle (ih ht front rest hrest)
  | up hdir _ ih =>
    intro front rest hall
    cases front with
    | nil =>
      obtain rfl := hall
      exact .up hdir (ih ht [] _ rfl)
    | cons segment front =>
      obtain ⟨rfl, hrest⟩ := List.cons.inj hall
      exact .up hdir (ih ht front rest hrest)
  | vacant => cases ht
  | enter hdir _ hitem hlink _ ih =>
    intro front rest hall
    cases front with
    | nil =>
      obtain rfl := hall
      exact .enter hdir rfl hitem hlink (ih ht [] _ rfl)
    | cons segment front =>
      obtain ⟨rfl, hrest⟩ := List.cons.inj hall
      exact .enter hdir rfl hitem hlink (ih ht front rest hrest)
  | stop _ hentry _ => cases hentry
  | @pass k loc m target rest' _ hdir _ _ hitem _ ih =>
    intro front rest hall
    cases front with
    | nil =>
      obtain rfl := hall
      exact .pass hdir rfl rfl hitem (ih ht target.segments _ rfl)
    | cons segment front =>
      obtain ⟨rfl, hrest⟩ := List.cons.inj hall
      have hnext := ih ht (target.segments ++ front) rest
        ((List.append_assoc ..).trans (congrArg (target.segments ++ ·) hrest))
      rw [List.append_assoc] at hnext
      exact .pass hdir rfl rfl hitem hnext

theorem directory (h : LeadsTo look ending k loc rest t) (hrest : rest ≠ []) :
    look loc = some .directory := by
  cases h with
  | done => exact absurd rfl hrest
  | idle hdir | up hdir | vacant hdir | enter hdir | stop hdir | pass hdir => exact hdir

theorem directory_start {found : Location} (h : LeadsTo look ending k loc rest (.found found))
    (hdir : look found = some .directory) : look loc = some .directory := by
  by_cases hrest : rest = []
  · subst hrest
    cases h
    exact hdir
  · exact h.directory hrest

theorem behind_idles (hdir : look loc = some .directory) (hidle : ∀ s ∈ segments, s.isIdle = true)
    (h : LeadsTo look ending k loc rest t) : LeadsTo look ending k loc (segments ++ rest) t := by
  induction segments with
  | nil => exact h
  | cons segment segments ih =>
    obtain ⟨hsegment, hsegments⟩ := List.forall_mem_cons.1 hidle
    exact .idle hdir hsegment (ih hsegments)

theorem idles (hdir : look loc = some .directory) (hidle : ∀ s ∈ segments, s.isIdle = true) :
    LeadsTo look ending 0 loc segments (.found loc) := by
  simpa using behind_idles hdir hidle .done

theorem skip_idles (h : LeadsTo look ending k loc (segments ++ rest) t)
    (hidle : ∀ s ∈ segments, s.isIdle = true) : LeadsTo look ending k loc rest t := by
  induction segments with
  | nil => exact h
  | cons segment segments ih =>
    obtain ⟨hsegment, hsegments⟩ := List.forall_mem_cons.1 hidle
    rw [List.cons_append] at h
    generalize hall : segments ++ rest = all at h
    cases h with
    | idle _ _ h =>
      subst hall
      exact ih h hsegments
    | up | vacant | enter | stop | pass => cases hsegment

theorem moves_cons {front tail : List Segment} {segment : Segment}
    (h : segment :: tail = front ++ rest.filter (!·.isIdle)) :
    (∃ front', front = segment :: front' ∧ tail = front' ++ rest.filter (!·.isIdle)) ∨
      ∃ idles rest', front = [] ∧ rest = idles ++ segment :: rest' ∧ segment.isIdle = false ∧
        (∀ s ∈ idles, s.isIdle = true) ∧ tail = rest'.filter (!·.isIdle) := by
  cases front with
  | nil =>
    obtain ⟨idles, rest', hrest, hidles, hmoves, htail⟩ := List.filter_eq_cons_iff.1 h.symm
    exact .inr ⟨idles, rest', rfl, hrest, by simpa using hmoves, by simpa using hidles, htail.symm⟩
  | cons s front =>
    obtain ⟨rfl, htail⟩ := List.cons.inj h
    exact .inl ⟨front, rfl, htail⟩

theorem of_moves {found : Location} (h : LeadsTo look .thing k loc segments t) (ht : t = .found found)
    (hdir : look found = some .directory) : ∀ front rest,
      segments = front ++ rest.filter (!·.isIdle) → LeadsTo look .thing k loc (front ++ rest) t := by
  induction h with
  | done =>
    intro front rest hall
    obtain ⟨rfl, hrest⟩ := List.append_eq_nil_iff.1 hall.symm
    obtain rfl := Target.found.inj ht
    exact .idles hdir (by simpa using List.filter_eq_nil_iff.1 hrest)
  | idle hdir' hidle _ ih =>
    intro front rest hall
    rcases moves_cons hall with ⟨front', rfl, htail⟩ | ⟨_, _, _, _, hmoves, _⟩
    · exact .idle hdir' hidle (ih ht front' rest htail)
    · rw [hidle] at hmoves
      cases hmoves
  | up hdir' _ ih =>
    intro front rest hall
    rcases moves_cons hall with ⟨front', rfl, htail⟩ | ⟨idles, rest', rfl, rfl, _, hidles, htail⟩
    · exact .up hdir' (ih ht front' rest htail)
    · rw [List.nil_append]
      exact .behind_idles hdir' hidles (.up hdir' (ih ht [] rest' htail))
  | vacant => cases ht
  | enter hdir' _ hitem hlink _ ih =>
    intro front rest hall
    rcases moves_cons hall with ⟨front', rfl, htail⟩ | ⟨idles, rest', rfl, rfl, _, hidles, htail⟩
    · exact .enter hdir' rfl hitem hlink (ih ht front' rest htail)
    · rw [List.nil_append]
      exact .behind_idles hdir' hidles (.enter hdir' rfl hitem hlink (ih ht [] rest' htail))
  | stop _ hentry _ => cases hentry
  | @pass k loc m target _ _ hdir' _ _ hitem _ ih =>
    intro front rest hall
    rcases moves_cons hall with ⟨front', rfl, htail⟩ | ⟨idles, rest', rfl, rfl, _, hidles, htail⟩
    · have hnext := ih ht (target.segments ++ front') rest (by rw [htail, List.append_assoc])
      rw [List.append_assoc] at hnext
      exact .pass hdir' rfl rfl hitem hnext
    · rw [List.nil_append]
      refine .behind_idles hdir' hidles (.pass hdir' rfl rfl hitem ?_)
      exact ih ht target.segments rest' (congrArg _ htail)

theorem vacancy {parent : Location} {n : Name}
    (h : LeadsTo look ending k loc segments (.vacant parent n)) :
    look parent = some .directory ∧ look (parent ++ [n]) = none := by
  generalize ht : Target.vacant parent n = t at h
  induction h with
  | done | stop => cases ht
  | idle _ _ _ ih | up _ _ ih | enter _ _ _ _ _ ih | pass _ _ _ _ _ ih => exact ih ht
  | vacant hdir hnone =>
    cases ht
    exact ⟨hdir, hnone⟩

end LeadsTo

section
variable {look look' : Location → Option Item} {ending : Ending} {k : Nat} {loc found : Location}
  {segments : List Segment}

theorem Keeps.leadsTo (hkeeps : Keeps look look')
    (h : LeadsTo look ending k loc segments (.found found)) :
    LeadsTo look' ending k loc segments (.found found) := by
  generalize ht : Target.found found = t at h ⊢
  induction h with
  | done => exact .done
  | idle hdir hidle _ ih => exact .idle (hkeeps.directory hdir) hidle (ih ht)
  | up hdir _ ih => exact .up (hkeeps.directory hdir) (ih ht)
  | vacant => cases ht
  | enter hdir hslash hitem hlink _ ih =>
    obtain ⟨item', hitem', hlink'⟩ := hkeeps.other hitem hlink
    exact .enter (hkeeps.directory hdir) hslash hitem' hlink' (ih ht)
  | stop hdir hentry hitem => exact .stop (hkeeps.directory hdir) hentry (hkeeps.link hitem)
  | pass hdir hslash hentry hitem _ ih =>
    exact .pass (hkeeps.directory hdir) hslash hentry (hkeeps.link hitem) (ih ht)

theorem Keeps.settled (hkeeps : Keeps look look') {parent : Location} {n : Name} {item : Item}
    (h : LeadsTo look .thing k loc segments (.vacant parent n))
    (hitem : look' (parent ++ [n]) = some item) (hlink : ∀ target, item ≠ .link target) :
    LeadsTo look' .thing k loc segments (.found (parent ++ [n])) := by
  generalize ht : Target.vacant parent n = t at h
  induction h with
  | done | stop => cases ht
  | idle hdir hidle _ ih => exact .idle (hkeeps.directory hdir) hidle (ih ht)
  | up hdir _ ih => exact .up (hkeeps.directory hdir) (ih ht)
  | vacant hdir hnone =>
    cases ht
    exact .enter (hkeeps.directory hdir) rfl hitem hlink .done
  | enter hdir hslash hold hlink' _ ih =>
    obtain ⟨item', hitem', hlink'⟩ := hkeeps.other hold hlink'
    exact .enter (hkeeps.directory hdir) hslash hitem' hlink' (ih ht)
  | pass hdir hslash hentry hold _ ih =>
    exact .pass (hkeeps.directory hdir) hslash hentry (hkeeps.link hold) (ih ht)

end

/-! ## Leading up out of what is removed -/

section
variable {segments rest : List Segment} {i j : Nat}

theorem climb_succ_ok_iff : climb (j + 1) segments = some rest ↔
    ∃ above, segments.dropWhile Segment.isIdle = .up :: above ∧ climb j above = some rest := by
  rw [climb]
  split
  · next above habove => simp [habove]
  · next hnot => simpa using fun above habove => absurd habove (hnot above)

theorem climb_suffix (h : climb j segments = some rest) : rest <:+ segments := by
  induction j generalizing segments with
  | zero =>
    cases h
    exact List.suffix_refl _
  | succ j ih =>
    obtain ⟨above, habove, h⟩ := climb_succ_ok_iff.1 h
    have hsuffix : above <:+ segments.dropWhile Segment.isIdle := habove ▸ List.suffix_cons _ above
    exact (ih h).trans (hsuffix.trans (List.dropWhile_suffix _))

theorem climb_append (h : climb j segments = some rest) (more : List Segment) :
    climb j (segments ++ more) = some (rest ++ more) := by
  induction j generalizing segments with
  | zero =>
    cases h
    rfl
  | succ j ih =>
    obtain ⟨above, habove, h⟩ := climb_succ_ok_iff.1 h
    refine climb_succ_ok_iff.2 ⟨above ++ more, ?_, ih h⟩
    rw [List.dropWhile_append, habove]
    rfl

theorem climb_before {more : List Segment} (h : climb j (segments ++ more) = some rest)
    (hmore : ∀ above, more.dropWhile Segment.isIdle ≠ .up :: above) :
    ∃ front, climb j segments = some front ∧ rest = front ++ more := by
  induction j generalizing segments with
  | zero =>
    cases h
    exact ⟨segments, rfl, rfl⟩
  | succ j ih =>
    obtain ⟨above, habove, h⟩ := climb_succ_ok_iff.1 h
    rw [List.dropWhile_append] at habove
    split at habove
    · exact absurd habove (hmore above)
    · next hne =>
      obtain ⟨s, behind, hs⟩ := List.exists_cons_of_ne_nil (mt List.isEmpty_iff.2 hne)
      rw [hs] at habove
      obtain ⟨rfl, rfl⟩ := List.cons.inj habove
      obtain ⟨front, hfront, hrest⟩ := ih h
      exact ⟨front, climb_succ_ok_iff.2 ⟨behind, hs, hfront⟩, hrest⟩

theorem no_step_up (idles : List Segment) (hidles : ∀ s ∈ idles, s.isIdle = true)
    (hmore : rest = [] ∨ ∃ n more, rest = .name n :: more) (above : List Segment) :
    (idles ++ rest).dropWhile Segment.isIdle ≠ .up :: above := by
  induction idles with
  | nil =>
    rcases hmore with rfl | ⟨n, more, rfl⟩
    · simp
    · simp [Segment.isIdle]
  | cons s idles ih =>
    obtain ⟨hs, hidles⟩ := List.forall_mem_cons.1 hidles
    rw [List.cons_append, List.dropWhile_cons_of_pos hs]
    exact ih hidles

theorem climb_add (h : climb (i + j) segments = some rest) :
    ∃ mid, climb i segments = some mid ∧ climb j mid = some rest := by
  induction i generalizing segments with
  | zero =>
    rw [Nat.zero_add] at h
    exact ⟨segments, rfl, h⟩
  | succ i ih =>
    rw [Nat.add_right_comm] at h
    obtain ⟨above, habove, h⟩ := climb_succ_ok_iff.1 h
    obtain ⟨mid, hmid, hrest⟩ := ih h
    exact ⟨mid, climb_succ_ok_iff.2 ⟨above, habove, hmid⟩, hrest⟩

theorem climb_eq_zero (h : climb j segments = some rest) (hup : .up ∉ segments) : j = 0 := by
  cases j with
  | zero => rfl
  | succ j =>
    obtain ⟨above, habove, _⟩ := climb_succ_ok_iff.1 h
    have hmem : Segment.up ∈ segments.dropWhile Segment.isIdle := by simp [habove]
    exact absurd ((List.dropWhile_sublist _).subset hmem) hup

end

namespace LeadsTo

variable {look : Location → Option Item} {ending : Ending} {k : Nat} {base loc : Location}
  {segments rest : List Segment} {t : Target}

/-- Segments that lead out of removed directories lead up through the directories that stand where
these stood. -/
theorem of_climb {lost : Location}
    (hthere : ∀ front, front <+: lost → look (base ++ front) = some .directory)
    (hclimb : climb lost.length segments = some rest) (h : LeadsTo look ending k base rest t) :
    LeadsTo look ending k (base ++ lost) segments t := by
  induction lost using List.reverseRecOn generalizing segments with
  | nil =>
    cases hclimb
    rwa [List.append_nil]
  | append_singleton lost n ih =>
    rw [List.length_append, List.length_singleton] at hclimb
    obtain ⟨above, habove, hclimb⟩ := climb_succ_ok_iff.1 hclimb
    have hdir := hthere _ (List.prefix_refl _)
    have hnext := ih (fun front hfront => hthere front (hfront.trans (List.prefix_append lost [n])))
      hclimb
    have hup : LeadsTo look ending k (base ++ (lost ++ [n])) (.up :: above) t := by
      refine .up hdir ?_
      rwa [← List.append_assoc, List.dropLast_concat]
    rw [← List.takeWhile_append_dropWhile (p := Segment.isIdle) (l := segments), habove]
    exact hup.behind_idles hdir fun s hs => List.all_eq_true.1 List.all_takeWhile s hs

end LeadsTo

namespace FileSystem

variable {fs : FileSystem} {loc : Location}

theorem look_dropLast (h : fs.look loc = some .directory) : fs.look loc.dropLast = some .directory := by
  rcases List.eq_nil_or_concat loc with rfl | ⟨init, n, rfl⟩
  · exact h
  · rw [List.concat_eq_append] at h ⊢
    rw [List.dropLast_concat]
    exact look_above h

end FileSystem

namespace LeadsTo

variable {fs : FileSystem} {ending : Ending} {k : Nat} {loc found : Location}
  {segments : List Segment}

theorem look_found (h : LeadsTo fs.look ending k loc segments (.found found))
    (hloc : fs.look loc ≠ none) : fs.look found ≠ none := by
  generalize ht : Target.found found = t at h
  induction h with
  | done =>
    cases ht
    exact hloc
  | idle _ _ _ ih => exact ih hloc ht
  | up hdir _ ih => exact ih (by simp [FileSystem.look_dropLast hdir]) ht
  | vacant => cases ht
  | enter _ _ hitem _ _ ih => exact ih (by simp [hitem]) ht
  | stop _ _ hitem =>
    cases ht
    rw [hitem]
    simp
  | @pass _ _ _ target _ _ hdir _ _ _ _ ih =>
    refine ih ?_ ht
    split
    · simp [FileSystem.look, Node.at?]
    · rw [hdir]
      simp

theorem look_name {n : Name} {rest : List Segment}
    (h : LeadsTo fs.look ending k loc (.name n :: rest) (.found found)) :
    fs.look (loc ++ [n]) ≠ none := by
  cases h with
  | idle _ hidle => cases hidle
  | enter _ _ hitem | stop _ _ hitem | pass _ _ _ hitem =>
    rw [hitem]
    simp

end LeadsTo

end Unseal
