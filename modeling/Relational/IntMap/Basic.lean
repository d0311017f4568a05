import Relational.IntMap.Trie

/-!
# Persistent maps with word keys

A map is a sound trie whose values all sit at paths of keys. Every operation makes a new map
and leaves the old one as it is. What a map holds is what `get?` finds; the layout follows
from it, so two maps that hold the same have the same entries in the same order.
-/
namespace Relational

universe u

/-!
## Iterating over a trie

An iterator keeps a stack of tries still to visit. Keys are not stored in a trie: a frame
carries the key of its root's own slot and the distance between the keys below neighbouring
branches, and both are words. A node's own slot comes before the slots below it, and those
come in the order of the branches, so the order depends on the trie alone.
-/

namespace IntMap

variable {V : Type u}

/-- A trie still to visit. -/
structure Frame (V : Type u) where
  /-- What is to be visited. -/
  trie : Trie V
  /-- The key of the root's own slot. -/
  key : UInt64
  /-- The distance between the keys of the slots below neighbouring branches. -/
  stride : UInt64

/-- Four times a stride, or the largest word where that does not fit. -/
def widen (stride : UInt64) : UInt64 :=
  if stride ≤ 0x3fffffffffffffff then stride * 4 else 0xffffffffffffffff

namespace Frame

/-- The frame below a branch. -/
def below (frame : Frame V) (branch : Branch) : Frame V where
  trie := frame.trie.child branch
  key := frame.key + frame.stride * UInt64.ofNat (branch.val + 1)
  stride := widen frame.stride

/-- Whether there is nothing to visit. -/
def isEmpty (frame : Frame V) : Bool :=
  match frame.trie with
  | .empty => true
  | .node .. => false

/-- The frames below a frame that have something to visit, in the order of their branches. -/
def children (frame : Frame V) : List (Frame V) :=
  (branches.map frame.below).filter fun child => !child.isEmpty

end Frame

/-- How many tries there are in a trie, itself and the empty ones included. -/
def Trie.extent : Trie V → Nat
  | .empty => 1
  | .node _ _ zero one two three => 1 + zero.extent + one.extent + two.extent + three.extent

/-- There is always the trie itself. -/
theorem Trie.extent_pos (trie : Trie V) : 0 < trie.extent := by
  cases trie with
  | empty => exact Nat.one_pos
  | node =>
    simp only [extent]
    omega

/-- How many tries there are in a stack of frames. -/
def extent : List (Frame V) → Nat
  | [] => 0
  | frame :: rest => frame.trie.extent + extent rest

/-- Extents add up. -/
theorem extent_append (left right : List (Frame V)) :
    extent (left ++ right) = extent left + extent right := by
  induction left with
  | nil => simp [extent]
  | cons frame left ih => simp [extent, ih, Nat.add_assoc]

/-- Leaving frames out makes no stack larger. -/
theorem extent_filter_le (keep : Frame V → Bool) (frames : List (Frame V)) :
    extent (frames.filter keep) ≤ extent frames := by
  induction frames with
  | nil => exact Nat.le_refl _
  | cons frame frames ih =>
    simp only [List.filter_cons, extent]
    split
    · simp only [extent]
      omega
    · omega

/-- The frames below a node's frame together have fewer tries than the frame. -/
theorem extent_children_lt {frame : Frame V} (something : frame.isEmpty = false) :
    extent frame.children < frame.trie.extent := by
  apply Nat.lt_of_le_of_lt (extent_filter_le _ _)
  cases shape : frame.trie with
  | empty => simp [Frame.isEmpty, shape] at something
  | node =>
    simp only [branches, List.map, Frame.below, shape, Trie.child, extent, Trie.extent]
    omega

/-- The next entry of a stack, with the stack that is left after it. -/
def visit : List (Frame V) → Option ((UInt64 × V) × List (Frame V))
  | [] => none
  | frame :: rest =>
    if _nothing : frame.isEmpty then visit rest
    else
      match frame.trie.value? with
      | some value => some ((frame.key, value), frame.children ++ rest)
      | none => visit (frame.children ++ rest)
termination_by frames => extent frames
decreasing_by
  · have := frame.trie.extent_pos
    simp only [extent]
    omega
  · have := extent_children_lt (Bool.eq_false_iff.mpr _nothing)
    simp only [extent, extent_append]
    omega

/-- A position in the entries of a map. -/
structure Iterator (V : Type u) where
  /-- What is still to visit, first things first. -/
  stack : List (Frame V)
  /-- How many entries are still to come. -/
  remaining : Nat

namespace Iterator

/-- The position before the first entry of a trie. -/
def start (trie : Trie V) : Iterator V where
  stack :=
    match trie with
    | .empty => []
    | .node .. => [⟨trie, 0, 1⟩]
  remaining := trie.size

/-- The next entry and the position after it; past the last entry there is none, and the
position stays. -/
def next (iterator : Iterator V) : Option (UInt64 × V) × Iterator V :=
  match visit iterator.stack with
  | some (entry, stack) => (some entry, ⟨stack, iterator.remaining - 1⟩)
  | none => (none, ⟨[], iterator.remaining⟩)

/-- How many entries are still to come, at least and at most. -/
def sizeHint (iterator : Iterator V) : Nat × Nat :=
  (iterator.remaining, iterator.remaining)

/-- The first entries from a position on, at most so many. -/
def take : Nat → Iterator V → List (UInt64 × V)
  | 0, _ => []
  | count + 1, iterator =>
    match iterator.next with
    | (some entry, iterator) => entry :: take count iterator
    | (none, _) => []

/-- The entries from a position on. -/
def toList (iterator : Iterator V) : List (UInt64 × V) :=
  iterator.take iterator.remaining

end Iterator

end IntMap

/-! ## Maps -/

/-- A finite map from words to values. -/
structure IntMap (V : Type u) where
  /-- Where the values are. -/
  root : IntMap.Trie V
  /-- The cached sizes are right and no node is without a value. -/
  sound : root.Sound
  /-- Values are stored at the paths of keys only. -/
  keyed : ∀ path, (root.get? path).isSome → ∃ key, IntMap.path key = path

namespace IntMap

variable {V : Type u}

/-- The map without entries. -/
def empty : IntMap V where
  root := .empty
  sound := trivial
  keyed path found := by simp [Trie.get?_empty] at found

instance : EmptyCollection (IntMap V) := ⟨empty⟩

instance : Inhabited (IntMap V) := ⟨empty⟩

/-- The value of a key. -/
def get? (map : IntMap V) (key : UInt64) : Option V := map.root.get? (path key)

/-- Whether a key has a value. -/
def contains (map : IntMap V) (key : UInt64) : Bool := (map.get? key).isSome

/-- The number of keys with a value. -/
def size (map : IntMap V) : Nat := map.root.size

/-- Whether no key has a value. -/
def isEmpty (map : IntMap V) : Bool :=
  match map.root with
  | .empty => true
  | .node .. => false

/-- The map in which a key has the given value, or none, and every other key is as before. -/
def set (map : IntMap V) (key : UInt64) (value : Option V) : IntMap V where
  root := map.root.set value (path key)
  sound := Trie.set_sound value (path key) map.sound
  keyed other found := by
    rw [Trie.get?_set value (path key) other map.sound] at found
    split at found
    · next same => exact ⟨key, same.symm⟩
    · exact map.keyed other found

/-- The map in which a key has the given value. -/
def insert (map : IntMap V) (key : UInt64) (value : V) : IntMap V := map.set key (some value)

/-- The map in which a key has no value. -/
def erase (map : IntMap V) (key : UInt64) : IntMap V := map.set key none

/-- The map of some entries; of several entries of a key the last one counts. -/
def ofList (entries : List (UInt64 × V)) : IntMap V :=
  entries.foldl (fun map entry => map.insert entry.1 entry.2) empty

/-- The position before the first entry. -/
def iterator (map : IntMap V) : Iterator V := .start map.root

/-- The entries in the order of iteration. -/
def toList (map : IntMap V) : List (UInt64 × V) := map.iterator.toList

/-- The keys with a value in the order of iteration. -/
def keys (map : IntMap V) : List UInt64 := map.toList.map (·.1)

/-- The values in the order of iteration. -/
def values (map : IntMap V) : List V := map.toList.map (·.2)

/-- Maps of equal size with equal entries in the order of iteration are equal. -/
instance [BEq V] : BEq (IntMap V) where
  beq left right := left.size == right.size && left.toList == right.toList

/-- The empty map has no value for any key. -/
@[simp] theorem get?_empty (key : UInt64) : (empty : IntMap V).get? key = none :=
  Trie.get?_empty (path key)

end IntMap

end Relational
