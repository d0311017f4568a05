import Mathlib.Data.List.Pairwise
import Relational.Proofs.IntMap.Enumeration

/-!
# Iterating step by step

The slots of a trie are listed with a node's own slot before those below it, and those in the order
of the branches: this is the lexicographic order of paths in which a path comes before those that go
on from it. An iterator gives the entries in this order one at a time, and what it counts down is
the number of the entries that its stack still stands for.
-/
namespace Relational.IntMap

universe u

variable {V : Type u}

namespace Trie

/-- Whatever is below one branch comes before whatever is below a later one. -/
theorem lt_of_mem_below {left right : Branch} (earlier : left < right)
    (lefts rights : List (List Branch)) :
    ∀ before ∈ lefts.map (left :: ·), ∀ after ∈ rights.map (right :: ·), before < after := by
  intro before inLefts after inRights
  obtain ⟨_, _, rfl⟩ := List.mem_map.mp inLefts
  obtain ⟨_, _, rfl⟩ := List.mem_map.mp inRights
  exact List.cons_lt_cons_iff.mpr (.inl earlier)

/-- A node's own slot comes before whatever is below a branch. -/
theorem own_lt_of_mem_below (value : Option V) (branch : Branch) (slots : List (List Branch)) :
    ∀ before ∈ (if value.isSome then [([] : List Branch)] else []),
      ∀ after ∈ slots.map (branch :: ·), before < after := by
  intro before own after below
  obtain ⟨path, _, rfl⟩ := List.mem_map.mp below
  split at own
  · rw [List.mem_singleton.mp own]
    exact List.nil_lt_cons branch path
  · cases own

/-- The slots of a trie come in the order of their paths, each of them once. -/
theorem pairwise_slots (trie : Trie V) : trie.slots.Pairwise (· < ·) := by
  induction trie with
  | empty => exact List.Pairwise.nil
  | node value size zero one two three first second third fourth =>
    have below (branch : Branch) {slots : List (List Branch)} (inner : slots.Pairwise (· < ·)) :
        (slots.map (branch :: ·)).Pairwise (· < ·) :=
      List.pairwise_map.mpr (inner.imp fun less => List.cons_lt_cons_iff.mpr (.inr ⟨rfl, less⟩))
    have own : (if value.isSome then [([] : List Branch)] else []).Pairwise (· < ·) := by
      split <;> simp
    rw [slots, ← List.flatten_cons, List.pairwise_flatten]
    simp only [branches, List.zipWith_cons_cons, List.zipWith_nil_left, List.forall_mem_cons,
      List.pairwise_cons, List.not_mem_nil, false_imp_iff, implies_true, and_true,
      List.Pairwise.nil]
    refine ⟨⟨own, below 0 first, below 1 second, below 2 third, below 3 fourth⟩,
      ⟨?_, ?_, ?_, ?_⟩, ⟨?_, ?_, ?_⟩, ⟨?_, ?_⟩, ?_⟩
    · exact own_lt_of_mem_below value 0 _
    · exact own_lt_of_mem_below value 1 _
    · exact own_lt_of_mem_below value 2 _
    · exact own_lt_of_mem_below value 3 _
    · exact lt_of_mem_below (by decide) _ _
    · exact lt_of_mem_below (by decide) _ _
    · exact lt_of_mem_below (by decide) _ _
    · exact lt_of_mem_below (by decide) _ _
    · exact lt_of_mem_below (by decide) _ _
    · exact lt_of_mem_below (by decide) _ _

end Trie

namespace Iterator

/-- The position after so many more pulls. -/
def advance (iterator : Iterator V) : Nat → Iterator V
  | 0 => iterator
  | count + 1 => (iterator.advance count).next.2

/-- What is counted down is the number of the entries to come. -/
def Counts (iterator : Iterator V) : Prop :=
  iterator.remaining = (pending iterator.stack).length

/-- A pull gives the first entry to come, if there is one, leaves the others to come, and counts
down by one for it. -/
theorem Counts.next {iterator : Iterator V} (counts : iterator.Counts) :
    iterator.next.1 = (pending iterator.stack).head? ∧
      pending iterator.next.2.stack = (pending iterator.stack).tail ∧
        iterator.next.2.Counts := by
  have first := visit_eq iterator.stack
  unfold Counts at counts ⊢
  unfold Iterator.next
  rcases found : visit iterator.stack with _ | ⟨entry, rest⟩
  · simp only [found] at first
    rw [first] at counts ⊢
    exact ⟨rfl, rfl, counts⟩
  · simp only [found] at first
    rw [first, List.length_cons] at counts
    rw [first, counts, Nat.add_sub_cancel]
    exact ⟨rfl, rfl, rfl⟩

/-- Pulls give up the entries to come one after another, and the count stays right. -/
theorem Counts.advance {iterator : Iterator V} (counts : iterator.Counts) (count : Nat) :
    pending (iterator.advance count).stack = (pending iterator.stack).drop count ∧
      (iterator.advance count).Counts := by
  induction count with
  | zero => exact ⟨rfl, counts⟩
  | succ count before =>
    obtain ⟨left, stays⟩ := before
    obtain ⟨_, rest, counted⟩ := stays.next
    exact ⟨by rw [Iterator.advance, rest, left, List.tail_drop], counted⟩

end Iterator

/-- A map has as many entries as its size says. -/
theorem length_toList (map : IntMap V) : map.toList.length = map.size := by
  rw [toList_eq_entries, Trie.length_entries, Trie.length_slots map.sound]
  rfl

/-- The entries of a map come in the order of the paths of their keys. -/
theorem pairwise_toList (map : IntMap V) :
    map.toList.Pairwise fun before after => path before.1 < path after.1 := by
  have paths : map.toList.map (fun entry => path entry.1) = map.root.slots := by
    have same := congrArg (List.map Prod.fst) map.toList_eq
    rw [List.map_map, List.map_map] at same
    exact same.trans (List.map_id _)
  have ordered := map.root.pairwise_slots
  rw [← paths, List.pairwise_map] at ordered
  exact ordered

/-- The position after any number of pulls from the start of a map. -/
theorem advance_iterator (map : IntMap V) (count : Nat) :
    (map.iterator.advance count).next.1 = map.toList[count]? ∧
      (map.iterator.advance count).remaining = map.size - count := by
  have counts : map.iterator.Counts := by
    rw [Iterator.Counts, pending_iterator, ← toList_eq_entries, length_toList]
    rfl
  obtain ⟨left, stays⟩ := counts.advance count
  obtain ⟨given, _, _⟩ := stays.next
  rw [pending_iterator, ← toList_eq_entries] at left
  constructor
  · rw [given, left, List.head?_drop]
  · rw [stays, left, List.length_drop, length_toList]

/-- Iterating over a map gives every key that has a value with this value, and nothing else, in the
strictly increasing order of the paths of the keys, so each of them once. After any number of pulls
the next one gives the entry at that place, or nothing from the end on; both bounds of the size hint
are the number of entries that are still to come; and when an entry is given they were not zero and
go down by one. -/
theorem iterator_enumerates (map : IntMap V) :
    (∀ key value, (key, value) ∈ map.toList ↔ map.get? key = some value) ∧
      map.toList.Pairwise (fun before after => path before.1 < path after.1) ∧
      map.toList.length = map.size ∧
      ∀ count,
        (map.iterator.advance count).next.1 = map.toList[count]? ∧
          (map.iterator.advance count).sizeHint =
            ((map.toList.drop count).length, (map.toList.drop count).length) ∧
          ((map.iterator.advance count).next.1.isSome →
            (map.iterator.advance count).remaining =
              (map.iterator.advance (count + 1)).remaining + 1) ∧
          (map.size ≤ count → (map.iterator.advance count).next.1 = none) := by
  refine ⟨fun key value => mem_toList, map.pairwise_toList, map.length_toList, fun count => ?_⟩
  obtain ⟨given, remaining⟩ := map.advance_iterator count
  obtain ⟨_, after⟩ := map.advance_iterator (count + 1)
  refine ⟨given, ?_, fun there => ?_, fun past => ?_⟩
  · rw [Iterator.sizeHint, remaining, List.length_drop, length_toList]
  · rw [given, isSome_getElem?, length_toList] at there
    rw [remaining, after]
    omega
  · rw [given]
    exact List.getElem?_eq_none (map.length_toList.trans_le past)

/-- The slot of `5` is below that of `1` and before that of `2`, whenever they were made. -/
example : ((ofList [(2, "b"), (5, "c"), (1, "a"), (0, "o")]).toList.map (·.1)) = [0, 1, 5, 2] := by
  cbv

end Relational.IntMap
