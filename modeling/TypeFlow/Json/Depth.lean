import TypeFlow.Json

/-!
How deep the arrays and objects of a value stand inside one another, and a value cut off at a
depth.

What stands deeper than the cut is illegible: it can be skipped, but nothing reads it. A value
that is not deeper than the cut stays as it is.
-/

namespace TypeFlow.Json

mutual

/-- The number of arrays and objects around the innermost value, itself included. -/
def depth : Json → Nat
  | .array js => itemsDepth js + 1
  | .object ms => membersDepth ms + 1
  | _ => 0
termination_by structural j => j

def itemsDepth : List Json → Nat
  | [] => 0
  | j :: js => max j.depth (itemsDepth js)
termination_by structural js => js

def membersDepth : List (String × Json) → Nat
  | [] => 0
  | (_, j) :: ms => max j.depth (membersDepth ms)
termination_by structural ms => ms

end

mutual

def truncate : Json → Nat → Json
  | .array js, n =>
    match n with
    | 0 => .illegible
    | n + 1 => .array (truncateItems js n)
  | .object ms, n =>
    match n with
    | 0 => .illegible
    | n + 1 => .object (truncateMembers ms n)
  | j, _ => j
termination_by structural j => j

def truncateItems : List Json → Nat → List Json
  | [], _ => []
  | j :: js, n => j.truncate n :: truncateItems js n
termination_by structural js => js

def truncateMembers : List (String × Json) → Nat → List (String × Json)
  | [], _ => []
  | (k, j) :: ms, n => (k, j.truncate n) :: truncateMembers ms n
termination_by structural ms => ms

end

mutual

theorem truncate_eq_self : ∀ (j : Json) (n : Nat), j.depth ≤ n → j.truncate n = j
  | .array _, 0, h => by simp [depth] at h
  | .array js, n + 1, h => by
    rw [depth, Nat.add_le_add_iff_right] at h
    rw [truncate, truncateItems_eq_self js n h]
  | .object _, 0, h => by simp [depth] at h
  | .object ms, n + 1, h => by
    rw [depth, Nat.add_le_add_iff_right] at h
    rw [truncate, truncateMembers_eq_self ms n h]
  | .null, _, _ => rfl
  | .bool _, _, _ => rfl
  | .int _, _, _ => rfl
  | .real _, _, _ => rfl
  | .str _, _, _ => rfl
  | .illegible, _, _ => rfl

theorem truncateItems_eq_self :
    ∀ (js : List Json) (n : Nat), itemsDepth js ≤ n → truncateItems js n = js
  | [], _, _ => rfl
  | j :: js, n, h => by
    rw [itemsDepth, Nat.max_le] at h
    rw [truncateItems, truncate_eq_self j n h.1, truncateItems_eq_self js n h.2]

theorem truncateMembers_eq_self :
    ∀ (ms : List (String × Json)) (n : Nat), membersDepth ms ≤ n → truncateMembers ms n = ms
  | [], _, _ => rfl
  | (k, j) :: ms, n, h => by
    rw [membersDepth, Nat.max_le] at h
    rw [truncateMembers, truncate_eq_self j n h.1, truncateMembers_eq_self ms n h.2]

end

end TypeFlow.Json
