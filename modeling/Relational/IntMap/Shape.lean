import Mathlib.Data.List.Forall2
import Mathlib.Data.Set.Card
import Relational.Json.State
import Relational.Text.State

/-!
# The shape of maps

What a map shows of its layout are its nodes with the sizes they cache, the order in which its
entries come, and its texts. All of it has to follow from what the map holds: a node is there
because of the keys whose paths go through it.
-/
namespace Relational.IntMap

universe u v

variable {V : Type u}

namespace Trie

/-- The trie at the end of a path. -/
def descend : List Branch → Trie V → Trie V
  | [], trie => trie
  | branch :: steps, trie => descend steps (trie.child branch)

/-- Two tries have the same nodes, which cache the same sizes and have related values in their own
slots. -/
inductive Alike {W : Type v} (related : V → W → Prop) : Trie V → Trie W → Prop where
  /-- No node on either side. -/
  | empty : Alike related .empty .empty
  /-- A node on each side. -/
  | node {value : Option V} {value' : Option W} {size : Nat} {zero one two three : Trie V}
    {zero' one' two' three' : Trie W} (own : Option.Rel related value value')
    (first : Alike related zero zero') (second : Alike related one one')
    (third : Alike related two two') (fourth : Alike related three three') :
    Alike related (.node value size zero one two three) (.node value' size zero' one' two' three')

end Trie

/-- The keys with a value whose paths start with some steps. -/
def keysThrough (map : IntMap V) (steps : List Branch) : Set UInt64 :=
  {key | steps <+: path key ∧ (map.get? key).isSome}

/-- Every node of a map is there because of the keys at or below it. -/
structure Counted (map : IntMap V) : Prop where
  /-- A node caches how many keys with a value there are at or below it. -/
  size : ∀ steps, (map.root.descend steps).size = (map.keysThrough steps).ncard
  /-- Where there is no such key there is no node, and where there is one there is a node. -/
  empty : ∀ steps, map.root.descend steps = .empty ↔ map.keysThrough steps = ∅

/-- Nothing that two maps show tells them apart. -/
structure Indistinct [BEq V] (left right : IntMap V) : Prop where
  /-- They have the same shape, node for node. -/
  nodes : left.root.Alike (· == ·) right.root
  /-- Their entries come in the same order. -/
  order : List.Forall₂ (fun one other => one.1 = other.1 ∧ one.2 == other.2)
    left.toList right.toList
  /-- They have the same structure text wherever equal values have. -/
  layout : ∀ value : V → Layout, (∀ one other, one == other → value one = value other) →
    left.layout value = right.layout value
  /-- They have the same JSON text wherever equal values have. -/
  json : ∀ value : V → Json.Writer, (∀ one other, one == other → value one = value other) →
    Json.intMap value left = Json.intMap value right

/-!
## Key arithmetic

The loops of a map with every subtraction, product and sum of words in view. On the way down from a
key one is taken from it at every step. On the way through the entries the key of a node is computed
from that of the node above it, by a stride that is multiplied by four at every step and stays at
the largest word where that is no word. The ways down below are the same as paths, but fail where
one would be taken from zero and where they go on for too long.
-/

/-- One less, or nothing where that would be below zero. -/
def minusOne? (key : UInt64) : Option UInt64 := if 1 ≤ key then some (key - 1) else none

/-- One step down from a key: the branch and the key below it, or nothing where one would be taken
from zero. -/
def descend? (key : UInt64) : Option (Branch × UInt64) :=
  (minusOne? key).map fun rest =>
    (⟨(rest % 4).toNat, by
      rw [UInt64.toNat_mod]
      exact Nat.mod_lt _ (by decide)⟩, rest / 4)

namespace Trie

/-- Looks a key up in at most so many steps, or fails. A way down may end before the key is used up,
where there is no trie. -/
def getWithin? : Nat → UInt64 → Trie V → Option (Option V)
  | _, _, .empty => some none
  | 0, key, trie@(.node ..) => if key = 0 then some trie.value? else none
  | limit + 1, key, trie@(.node ..) =>
    if key = 0 then some trie.value?
    else (descend? key).bind fun (branch, rest) => getWithin? limit rest (trie.child branch)

/-- Stores a value for a key, or clears its slot, in at most so many steps, or fails. Where there is
no trie nothing needs to be cleared. -/
def setWithin? (value : Option V) : Nat → UInt64 → Trie V → Option (Trie V)
  | limit, key, trie =>
    match trie, value with
    | .empty, none => some .empty
    | _, _ =>
      if key = 0 then some (trie.withValue value)
      else match limit with
        | 0 => none
        | limit + 1 => (descend? key).bind fun (branch, rest) =>
          (setWithin? value limit rest (trie.child branch)).map (trie.withChild branch)

end Trie

/-- One round of the loop of an iterator takes a frame off its stack and puts those below it
there. -/
def pass : List (Frame V) → List (Frame V)
  | [] => []
  | frame :: rest => frame.children ++ rest

/-- The key below a branch of a frame is computed without leaving the words and from a stride that
has not come to its limit. -/
structure Frame.ExactBelow (frame : Frame V) (steps : List Branch) (branch : Branch) : Prop where
  /-- The stride is the distance between neighbours, which is a word. -/
  stride : frame.stride.toNat = 4 ^ steps.length
  /-- The product is a word. -/
  product : frame.stride.toNat * (branch.val + 1) < UInt64.size
  /-- The sum is a word. -/
  sum : frame.key.toNat + frame.stride.toNat * (branch.val + 1) < UInt64.size
  /-- The way down from the key that is computed ends below the branch. -/
  key : path (frame.below branch).key = steps ++ [branch]

/-- A frame is for the node of a map at the end of some steps. -/
structure Frame.Exact (map : IntMap V) (steps : List Branch) (frame : Frame V) : Prop where
  /-- What is visited is the node there. -/
  node : frame.trie = map.root.descend steps
  /-- The way down from the key of the frame ends there. -/
  key : path frame.key = steps
  /-- Wherever there is a node below, its key is computed exactly. -/
  below : ∀ branch, (frame.below branch).isEmpty = false → frame.ExactBelow steps branch

end Relational.IntMap
