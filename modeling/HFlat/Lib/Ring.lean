/-
  Doubly linked lists as rings.

  The nodes of a list and a sentinel form a ring. An iterator is the address of a node, or `none`
  for the sentinel, which is the end of the list. `prev` goes backwards around the ring: from the
  sentinel to the last node, from the first node to the sentinel. A position between two parts of
  the list is given by its iterator, that of the first node behind it (`first`); moving back and
  erasing then follow the split of the list (`prev_append`, `erase_append`).
-/
import Mathlib.Data.List.Nodup

namespace HFlat.Lib

/-- A node of the list, at its address. -/
structure Node (α : Type) where
  address : Nat
  value : α
  deriving DecidableEq, Repr

namespace Ring

variable {α : Type} {xs ys : List (Node α)} {n : Node α}

/-- The addresses of the nodes are distinct. -/
def Distinct (ring : List (Node α)) : Prop := (ring.map Node.address).Nodup

/-- The iterator of the first node. -/
def first (ring : List (Node α)) : Option Nat := ring.head?.map Node.address

/-- The iterator of the last node. -/
def last (ring : List (Node α)) : Option Nat := ring.getLast?.map Node.address

/-- The node before an iterator; `none` is the end. -/
def prev (ring : List (Node α)) : Option Nat → Option Nat
  | none => last ring
  | some a => last (ring.takeWhile fun n => n.address ≠ a)

/-- The node of an address. -/
def node (ring : List (Node α)) (a : Nat) : Option (Node α) := ring.find? fun n => n.address = a

/-- The list without a node. -/
def erase (ring : List (Node α)) (a : Nat) : List (Node α) := ring.eraseP fun n => n.address = a

theorem distinct_append : Distinct (xs ++ ys) ↔
    Distinct xs ∧ Distinct ys ∧ ∀ x ∈ xs, ∀ y ∈ ys, x.address ≠ y.address := by
  unfold Distinct
  rw [List.map_append, List.nodup_append]
  simp

theorem distinct_cons : Distinct (n :: xs) ↔ (∀ x ∈ xs, x.address ≠ n.address) ∧ Distinct xs := by
  unfold Distinct
  rw [List.map_cons, List.nodup_cons]
  simp

/-- Nodes before the one at an address. -/
theorem apart_of_distinct (h : Distinct (xs ++ n :: ys)) :
    (∀ x ∈ xs, x.address ≠ n.address) ∧ ∀ y ∈ ys, y.address ≠ n.address := by
  obtain ⟨-, hys, hapart⟩ := distinct_append.mp h
  exact ⟨fun x hx => hapart x hx n List.mem_cons_self, (distinct_cons.mp hys).1⟩

/-- The node before a position. -/
theorem prev_append (h : Distinct (xs ++ ys)) : prev (xs ++ ys) (first ys) = last xs := by
  cases ys with
  | nil => rw [List.append_nil]; rfl
  | cons y ys =>
    obtain ⟨hxs, -⟩ := apart_of_distinct h
    have htake : (xs ++ y :: ys).takeWhile (fun n => n.address ≠ y.address) = xs := by
      rw [List.takeWhile_append_of_pos fun x hx => decide_eq_true (hxs x hx)]
      rw [List.takeWhile_cons_of_neg (by simp), List.append_nil]
    exact congrArg last htake

/-- A position is the first one if there is nothing before it. -/
theorem first_append_iff (h : Distinct (xs ++ ys)) : first ys = first (xs ++ ys) ↔ xs = [] := by
  cases xs with
  | nil => simp
  | cons x xs =>
    refine iff_of_false (fun he => ?_) (List.cons_ne_nil x xs)
    cases ys with
    | nil => cases he
    | cons y ys =>
      obtain ⟨hx, -⟩ := distinct_cons.mp h
      exact hx y (List.mem_append_right _ List.mem_cons_self) (Option.some.inj he)

theorem last_concat (xs : List (Node α)) (n : Node α) : last (xs ++ [n]) = some n.address := by
  unfold last
  rw [List.getLast?_concat]
  rfl

theorem node_append (h : Distinct (xs ++ n :: ys)) : node (xs ++ n :: ys) n.address = some n := by
  obtain ⟨hxs, -⟩ := apart_of_distinct h
  unfold node
  rw [List.find?_append, List.find?_eq_none.mpr fun x hx => by simpa using hxs x hx]
  rw [Option.none_or, List.find?_cons_of_pos (by simp)]

theorem erase_append (h : Distinct (xs ++ n :: ys)) : erase (xs ++ n :: ys) n.address = xs ++ ys := by
  obtain ⟨hxs, -⟩ := apart_of_distinct h
  unfold erase
  rw [List.eraseP_append_right _ fun x hx => by simpa using hxs x hx, List.eraseP_cons_of_pos (by simp)]

theorem node_of_mem {ring : List (Node α)} (h : Distinct ring) (hn : n ∈ ring) :
    node ring n.address = some n := by
  obtain ⟨xs, ys, rfl⟩ := List.append_of_mem hn
  exact node_append h

/-- Nodes with one address are one node. -/
theorem eq_of_address {ring : List (Node α)} (h : Distinct ring) {m : Node α} (hm : m ∈ ring) (hn : n ∈ ring)
    (he : m.address = n.address) : m = n := by
  have hnode := node_of_mem h hm
  rw [he, node_of_mem h hn] at hnode
  exact (Option.some.inj hnode).symm

theorem mem_erase {ring : List (Node α)} (h : Distinct ring) (hn : n ∈ ring) {m : Node α} :
    m ∈ erase ring n.address ↔ m ∈ ring ∧ m ≠ n := by
  obtain ⟨xs, ys, rfl⟩ := List.append_of_mem hn
  obtain ⟨hxs, hys⟩ := apart_of_distinct h
  rw [erase_append h]
  constructor
  · intro hm
    obtain hm | hm := List.mem_append.mp hm
    · exact ⟨List.mem_append_left _ hm, fun he => hxs m hm (by rw [he])⟩
    · exact ⟨List.mem_append_right _ (List.mem_cons_of_mem _ hm), fun he => hys m hm (by rw [he])⟩
  · rintro ⟨hm, hne⟩
    obtain hm | hm := List.mem_append.mp hm
    · exact List.mem_append_left _ hm
    · exact List.mem_append_right _ ((List.mem_cons.mp hm).resolve_left hne)

theorem Distinct.erase {ring : List (Node α)} (h : Distinct ring) (a : Nat) : Distinct (erase ring a) :=
  List.Nodup.sublist (List.eraseP_sublist.map _) h

end Ring

end HFlat.Lib
