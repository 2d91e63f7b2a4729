import Unseal.FileSystem.Resolve
/-
  Parts of paths — how paths are cut and put together

  Paths are cut at their end in three ways: slashes there are dropped, the last
  component is dropped together with what stays where it is around it, and names
  are put behind what is left. Each way is told by the segments alone: the path is
  what was left of it, followed by what was dropped.

  What is proved:
    1. `segments_withoutTrailingSlash`, `segments_parent` — a path is its beginning
       and what is dropped from it; the root is an exception to both.
    2. `segments_extend`, `extend_append` — names are put behind a path one by one or
       at once.
    3. `check_ok_iff`, `check_extend` — which paths are taken by operations.
-/

namespace Unseal

/-! ## Ends of lists -/

theorem dropEndWhile_append {α : Type} (p : α → Bool) (xs : List α) :
    ∃ ys, xs = dropEndWhile p xs ++ ys ∧ ∀ y ∈ ys, p y = true := by
  refine ⟨(xs.reverse.takeWhile p).reverse, ?_, fun y hy => ?_⟩
  · rw [dropEndWhile, ← List.reverse_append, List.takeWhile_append_dropWhile, List.reverse_reverse]
  · exact List.all_eq_true.1 List.all_takeWhile y (List.mem_reverse.1 hy)

theorem dropEndWhile_concat {α : Type} {p : α → Bool} {x : α} (h : p x = false) (xs : List α) :
    dropEndWhile p (xs ++ [x]) = xs ++ [x] := by
  rw [dropEndWhile, List.reverse_append, List.reverse_singleton, List.singleton_append,
    List.dropWhile_cons_of_neg (by simp [h]), List.reverse_cons, List.reverse_reverse]

theorem dropEndWhile_last {α : Type} {p : α → Bool} {xs init : List α} {x : α}
    (h : dropEndWhile p xs = init ++ [x]) : p x = false := by
  have hdrop := congrArg List.reverse h
  rw [dropEndWhile, List.reverse_reverse, List.reverse_concat] at hdrop
  have hnot := List.head?_dropWhile_not p xs.reverse
  rw [hdrop] at hnot
  simpa using hnot

namespace Path

/-! ## Beginnings -/

theorem isAbsolute_eq_of_append {p q : Path} {rest : List Segment}
    (h : p.segments = q.segments ++ rest) (hq : q.segments ≠ []) : p.isAbsolute = q.isAbsolute := by
  obtain ⟨s, segments, hcons⟩ := List.exists_cons_of_ne_nil hq
  rw [isAbsolute, isAbsolute, h, hcons]
  rfl

/-- Without slashes at its end a path is that of the root, or its beginning. -/
theorem segments_withoutTrailingSlash {p : Path} (hp : p.segments ≠ []) :
    (p.withoutTrailingSlash.segments = [.blank, .blank] ∧ p.isAbsolute = true) ∨
      ∃ blanks, p.segments = p.withoutTrailingSlash.segments ++ blanks ∧
        (∀ s ∈ blanks, s = .blank) ∧ p.withoutTrailingSlash.segments ≠ [] := by
  obtain ⟨blanks, hsplit, hblanks⟩ := dropEndWhile_append (· = Segment.blank) p.segments
  have hblanks : ∀ s ∈ blanks, s = .blank := fun s hs => of_decide_eq_true (hblanks s hs)
  unfold withoutTrailingSlash
  split
  · next h => exact absurd h hp
  · next hnil _ =>
    rw [hnil, List.nil_append] at hsplit
    refine .inl ⟨rfl, ?_⟩
    obtain ⟨s, rest, hcons⟩ := List.exists_cons_of_ne_nil hp
    rw [isAbsolute, hcons, hblanks s (by simp [← hsplit, hcons])]
    rfl
  · next hne => exact .inr ⟨blanks, hsplit, hblanks, hne⟩

theorem withoutTrailingSlash_ne_nil {p : Path} (hp : p.segments ≠ []) :
    p.withoutTrailingSlash.segments ≠ [] := by
  rcases segments_withoutTrailingSlash hp with ⟨hroot, _⟩ | ⟨_, _, _, hne⟩
  · simp [hroot]
  · exact hne

theorem withoutTrailingSlash_ne_blank {p : Path} (hp : p.segments ≠ []) :
    p.withoutTrailingSlash.segments ≠ [.blank] := by
  unfold withoutTrailingSlash
  split
  · next h => exact absurd h hp
  · simp
  · intro hblank
    simpa using dropEndWhile_last (hblank.trans (List.nil_append _).symm)

theorem withoutTrailingSlash_of_name {p : Path} {init : List Segment} {n : Name}
    (hp : p.segments = init ++ [.name n]) : p.withoutTrailingSlash = p := by
  have hdrop : dropEndWhile (· = Segment.blank) p.segments = p.segments := by
    rw [hp, dropEndWhile_concat (by simp)]
  have hne : p.segments ≠ [] := by simp [hp]
  unfold withoutTrailingSlash
  rw [hdrop]
  split
  · next h => exact absurd h hne
  · next h _ => exact absurd h hne
  · rfl

theorem lead_append (p : Path) : p.segments = p.lead ++ p.segments.drop p.lead.length := by
  unfold lead
  split <;> simp_all

/-- A path goes on from its parent with a segment that moves, or so does one slash from that of
the root. -/
theorem segments_parent {p q : Path} (h : p.parent? = some q) (hq : q.segments ≠ []) :
    ∃ front idles last idles', p.segments = front ++ (idles ++ last :: idles') ∧
      last.isIdle = false ∧ (∀ s ∈ idles, s.isIdle = true) ∧ (∀ s ∈ idles', s.isIdle = true) ∧
      (q.segments = front ∨ (front = [.blank] ∧ q.segments = [.blank, .blank])) := by
  obtain ⟨idles', hsplit, hidles'⟩ := dropEndWhile_append Segment.isIdle (p.segments.drop p.lead.length)
  have hsegments := p.lead_append
  rw [hsplit] at hsegments
  change p.segments = p.lead ++ (p.body ++ idles') at hsegments
  unfold parent? at h
  split at h
  · cases h
  · cases h
    exact absurd rfl hq
  · cases h
  · next hbody _ _ =>
    obtain ⟨init, last, hlast⟩ := (List.eq_nil_or_concat p.body).resolve_left hbody
    rw [List.concat_eq_append] at hlast
    have hidle : last.isIdle = false := dropEndWhile_last hlast
    obtain ⟨idles, hinit, hidles⟩ := dropEndWhile_append Segment.isIdle init
    rw [hlast, List.dropLast_concat] at h
    have hcut : p.segments =
        p.lead ++ dropEndWhile Segment.isIdle init ++ (idles ++ last :: idles') := by
      rw [hsegments, hlast]
      conv => lhs; rw [hinit]
      simp
    refine ⟨_, idles, last, idles', hcut, hidle, hidles, hidles', ?_⟩
    split at h
    · next hlead hnil =>
      cases h
      exact .inr ⟨by rw [hlead, hnil]; rfl, rfl⟩
    · cases h
      exact .inl rfl

theorem last_move_unique {front front' idles idles' : List Segment} {last last' : Segment}
    (h : front ++ last :: idles = front' ++ last' :: idles') (hlast : last.isIdle = false)
    (hlast' : last'.isIdle = false) (hidles : ∀ s ∈ idles, s.isIdle = true)
    (hidles' : ∀ s ∈ idles', s.isIdle = true) : front = front' ∧ last = last' := by
  rcases List.append_eq_append_iff.1 h with ⟨more, rfl, hmore⟩ | ⟨more, rfl, hmore⟩
  · cases more with
    | nil => exact ⟨(List.append_nil front).symm, (List.cons.inj hmore).1⟩
    | cons s more =>
      have hmem : last' ∈ idles := by simp [(List.cons.inj hmore).2]
      rw [hidles last' hmem] at hlast'
      cases hlast'
  · cases more with
    | nil => exact ⟨List.append_nil front', (List.cons.inj hmore).1.symm⟩
    | cons s more =>
      have hmem : last ∈ idles' := by simp [(List.cons.inj hmore).2]
      rw [hidles' last hmem] at hlast
      cases hlast

theorem mem_of_mem_parent {p q : Path} (h : p.parent? = some q) {s : Segment}
    (hs : s ∈ q.segments) (hblank : s ≠ .blank) : s ∈ p.segments := by
  obtain ⟨front, idles, last, rest, hsplit, _, _, _, hfront | ⟨_, hroot⟩⟩ :=
    segments_parent h (List.ne_nil_of_mem hs)
  · rw [hsplit, ← hfront]
    exact List.mem_append_left _ hs
  · rw [hroot] at hs
    simp [hblank] at hs

/-! ## Paths that are taken -/

theorem segments_ne_nil_of_check {p : Path} (h : p.check = .ok ()) : p.segments ≠ [] := by
  intro hp
  rw [check, isEmpty, hp] at h
  cases h

theorem check_error {p : Path} (hp : p.segments ≠ []) {fault : FileFault}
    (h : p.check = .error fault) : fault ≠ .missing := by
  unfold check at h
  split at h
  · next hempty => exact absurd (List.isEmpty_iff.1 hempty) hp
  · split at h
    · cases h
      simp
    · split at h
      · cases h
        simp
      · cases h

theorem check_ok_iff {p : Path} : p.check = .ok () ↔
    p.segments ≠ [] ∧ (∀ s ∈ p.segments, s.holdsZero = false) ∧ p.isTooLong = false := by
  have hzero : p.segments.any Segment.holdsZero = false ↔ ∀ s ∈ p.segments, s.holdsZero = false := by
    simp
  rw [check, isEmpty, ← hzero]
  cases p.segments with
  | nil => simp
  | cons s segments =>
    cases (s :: segments).any Segment.holdsZero <;> cases p.isTooLong <;> simp

/-! ## Paths that go on -/

/-- The segments that names are put behind: a slash at the end is used and not doubled. -/
def front (p : Path) : List Segment :=
  if p.segments.getLast? = some .blank then p.segments.dropLast else p.segments

theorem segments_front (p : Path) :
    p.segments = p.front ∨ p.segments = p.front ++ [.blank] := by
  unfold front
  split
  · next h =>
    right
    obtain ⟨segments, hsegments⟩ := List.getLast?_eq_some_iff.1 h
    rw [hsegments, List.dropLast_concat]
  · exact .inl rfl

theorem segments_extend (p : Path) {way : List Name} (hway : way ≠ []) :
    (p.extend way).segments = p.front ++ way.map .name := by
  cases way with
  | nil => exact absurd rfl hway
  | cons n way =>
    simp only [extend, front]
    split
    · next h => rw [if_pos h]
    · next h => rw [if_neg h]

theorem front_extend (p : Path) {way : List Name} (hway : way ≠ []) :
    (p.extend way).front = (p.extend way).segments := by
  obtain ⟨init, n, rfl⟩ := List.eq_nil_or_concat way |>.resolve_left hway
  rw [front, segments_extend p hway, if_neg]
  simp

theorem extend_append (p : Path) (way more : List Name) :
    p.extend (way ++ more) = (p.extend way).extend more := by
  by_cases hway : way = []
  · subst hway
    rfl
  · by_cases hmore : more = []
    · subst hmore
      rw [List.append_nil]
      rfl
    · have hsegments : (p.extend (way ++ more)).segments = ((p.extend way).extend more).segments := by
        rw [segments_extend p (by simp [hway]), segments_extend _ hmore, front_extend p hway,
          segments_extend p hway, List.map_append, List.append_assoc]
      exact congrArg Path.mk hsegments

theorem isAbsolute_parent {p q : Path} (h : p.parent? = some q) (hq : q.segments ≠ []) :
    p.isAbsolute = q.isAbsolute := by
  obtain ⟨front, idles, last, rest, hsplit, _, _, _, hfront⟩ := segments_parent h hq
  rcases hfront with rfl | ⟨rfl, hroot⟩
  · exact isAbsolute_eq_of_append hsplit hq
  · rw [isAbsolute, isAbsolute, hsplit, hroot]
    rfl

theorem isAbsolute_rooted (segments : List Segment) : (rooted segments).isAbsolute = true := by
  cases segments <;> rfl

theorem isAbsolute_extend {p : Path} (hp : p.segments ≠ [.blank]) (way : List Name) :
    (p.extend way).isAbsolute = p.isAbsolute := by
  cases way with
  | nil => rfl
  | cons n way =>
    rw [isAbsolute, segments_extend p (List.cons_ne_nil n way), isAbsolute]
    rcases p.segments_front with hfront | hfront
    · rw [← hfront]
      cases p.segments <;> simp
    · rw [hfront] at hp ⊢
      cases hcases : p.front with
      | nil => simp [hcases] at hp
      | cons segment rest => rfl

theorem extend_ne_blank {p : Path} (hp : p.segments ≠ [.blank]) (way : List Name) :
    (p.extend way).segments ≠ [.blank] := by
  by_cases hway : way = []
  · subst hway
    exact hp
  · obtain ⟨init, n, rfl⟩ := (List.eq_nil_or_concat way).resolve_left hway
    rw [segments_extend p hway]
    intro h
    have := congrArg List.getLast? h
    simp at this

theorem extend_injective {p : Path} {way way' : List Name} (h : p.extend way = p.extend way') :
    way = way' := by
  have hends : ∀ {way}, way ≠ [] → p.extend way ≠ p := by
    intro way hway heq
    have hsegments := p.segments_extend hway
    rw [heq] at hsegments
    rcases p.segments_front with hfront | hfront
    · have hnil := List.append_right_eq_self.1 (hfront ▸ hsegments).symm
      exact hway (List.map_eq_nil_iff.1 hnil)
    · have hblank := List.append_cancel_left (hfront.symm.trans hsegments)
      have hmem : Segment.blank ∈ way.map Segment.name := hblank ▸ List.mem_singleton_self _
      simp at hmem
  by_cases hway : way = []
  · by_cases hway' : way' = []
    · rw [hway, hway']
    · rw [hway] at h
      exact absurd h.symm (hends hway')
  · by_cases hway' : way' = []
    · rw [hway'] at h
      exact absurd h (hends hway)
    · have hsegments := congrArg Path.segments h
      rw [segments_extend p hway, segments_extend p hway'] at hsegments
      exact (List.map_inj_right fun _ _ hname => Segment.name.inj hname).1
        (List.append_cancel_left hsegments)

theorem segments_extend_concat (p : Path) (way : List Name) (n : Name) :
    ∃ init, (p.extend (way ++ [n])).segments = init ++ [.name n] := by
  refine ⟨p.front ++ way.map .name, ?_⟩
  rw [segments_extend p (by simp), List.map_append, List.append_assoc]
  rfl

theorem isEmpty_extend_concat (p : Path) (way : List Name) (n : Name) :
    (p.extend (way ++ [n])).isEmpty = false := by
  obtain ⟨init, hinit⟩ := segments_extend_concat p way n
  rw [isEmpty, hinit]
  simp

theorem check_extend {p : Path} {way : List Name} (hp : p.check = .ok ())
    (hshort : (p.extend way).isTooLong = false) : (p.extend way).check = .ok () := by
  by_cases hway : way = []
  · subst hway
    exact hp
  · obtain ⟨hne, hzero, _⟩ := check_ok_iff.1 hp
    refine check_ok_iff.2 ⟨?_, ?_, hshort⟩
    · rw [segments_extend p hway]
      simp [hway]
    · rw [segments_extend p hway]
      intro s hs
      rcases List.mem_append.1 hs with hs | hs
      · apply hzero s
        rcases p.segments_front with hfront | hfront
        · rwa [hfront]
        · rw [hfront]
          exact List.mem_append_left _ hs
      · obtain ⟨n, _, rfl⟩ := List.mem_map.1 hs
        rfl

end Path

end Unseal
