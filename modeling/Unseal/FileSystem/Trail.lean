import Unseal.FileSystem.Basic
/-
  Trails — the nodes on a way down

  A trail holds the nodes that were passed on the way down from a root, the last
  one first. One more step down or up is taken without going the whole way
  again, so a long path is followed in as many steps as it has segments.

  What is proved:
    1. `at?_location` — the last node of a trail is what stands at its place.
    2. `leads_of_reach?`, `reach?_eq_none_iff` — a trail to a place is found exactly
       if something stands there, and it leads to that place.
-/

namespace Unseal

namespace Node

theorem at?_append (x : Node) (loc rest : Location) :
    x.at? (loc ++ rest) = (x.at? loc).bind (·.at? rest) := by
  induction loc generalizing x with
  | nil => rfl
  | cons n loc ih =>
    simp only [List.cons_append, at?]
    cases x.child? n with
    | none => rfl
    | some y => exact ih y

theorem at?_singleton (x : Node) (n : Name) : x.at? [n] = x.child? n := by
  simp only [at?]
  cases x.child? n <;> rfl

end Node

/-- The nodes passed on a way down, each with its name, the last one first. -/
abbrev Trail := List (Name × Node)

namespace Trail

/-- The place to which a trail leads. -/
def location (t : Trail) : Location := (t.map (·.1)).reverse

/-- The node to which a trail from the root leads. -/
def node (root : Node) : Trail → Node
  | [] => root
  | (_, x) :: _ => x

/-- Every node of the trail is an entry of the one before it. -/
def Leads (root : Node) : Trail → Prop
  | [] => True
  | (n, x) :: t => (node root t).child? n = some x ∧ Leads root t

/-- The trail that goes on from a node along these names, if there are such entries. -/
def extend? (t : Trail) (x : Node) : Location → Option Trail
  | [] => some t
  | n :: loc =>
    match x.child? n with
    | some y => extend? ((n, y) :: t) y loc
    | none => none

/-- The trail to a place. -/
def reach? (root : Node) (loc : Location) : Option Trail := extend? [] root loc

theorem location_cons (n : Name) (x : Node) (t : Trail) :
    location ((n, x) :: t) = location t ++ [n] := by
  simp [location]

theorem location_tail (t : Trail) : location t.tail = (location t).dropLast := by
  cases t with
  | nil => rfl
  | cons e t => rw [List.tail_cons, location_cons, List.dropLast_concat]

theorem Leads.tail {root : Node} {t : Trail} (h : Leads root t) : Leads root t.tail := by
  cases t with
  | nil => trivial
  | cons e t => exact h.2

/-- The last node of a trail stands at its place. -/
theorem at?_location {root : Node} {t : Trail} (h : Leads root t) :
    root.at? (location t) = some (node root t) := by
  induction t with
  | nil => rfl
  | cons e t ih =>
    rw [location_cons, Node.at?_append, ih h.2, Option.bind_some, Node.at?_singleton]
    exact h.1

theorem at?_location_append {root : Node} {t : Trail} (h : Leads root t) (n : Name) :
    root.at? (location t ++ [n]) = (node root t).child? n := by
  rw [Node.at?_append, at?_location h, Option.bind_some, Node.at?_singleton]

theorem extend?_eq_none_iff {t : Trail} {x : Node} {loc : Location} :
    extend? t x loc = none ↔ x.at? loc = none := by
  induction loc generalizing t x with
  | nil => simp [extend?, Node.at?]
  | cons n loc ih =>
    simp only [extend?, Node.at?]
    cases x.child? n with
    | none => simp
    | some y => exact ih

theorem leads_of_extend? {root : Node} {t u : Trail} {loc : Location} (ht : Leads root t)
    (h : extend? t (node root t) loc = some u) :
    Leads root u ∧ location u = location t ++ loc := by
  induction loc generalizing t with
  | nil =>
    obtain rfl : t = u := by simpa [extend?] using h
    exact ⟨ht, (List.append_nil _).symm⟩
  | cons n loc ih =>
    simp only [extend?] at h
    cases hy : (node root t).child? n with
    | none => simp [hy] at h
    | some y =>
      rw [hy] at h
      have hnext : Leads root ((n, y) :: t) := ⟨hy, ht⟩
      obtain ⟨hu, hl⟩ := ih hnext h
      exact ⟨hu, by rw [hl, location_cons, List.append_assoc, List.singleton_append]⟩

/-- No trail to a place is found exactly if nothing stands there. -/
theorem reach?_eq_none_iff {root : Node} {loc : Location} :
    reach? root loc = none ↔ root.at? loc = none :=
  extend?_eq_none_iff

theorem leads_of_reach? {root : Node} {loc : Location} {t : Trail} (h : reach? root loc = some t) :
    Leads root t ∧ location t = loc := by
  have hnil : Leads root [] := trivial
  simpa [location] using leads_of_extend? hnil h

end Trail
end Unseal
