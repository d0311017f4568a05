import Mathlib.Logic.Function.Iterate
import Relational.IntMap.Shape
import Relational.Proofs.IntMap.Canonical
import Relational.Proofs.IntMap.Iteration

/-!
# Key arithmetic is exact

A way down divides a key by four at every step, so the paths of words have thirty-two branches at
most, and one is only taken from keys that are not zero. An iterator goes the other way. It meets a
node only on the way to a key that is stored, and that key is a word; so the key of the node, which
counts for no more, is a word as well, and so is the weight of the last branch on the way there. The
weight of the branches below, which may be no word any more, is then used for no key, as there is no
node below whose key would be one.
-/
namespace Relational.IntMap

universe u

variable {V : Type u}

/-- The path of a number is as long as the number is large. -/
theorem four_pow_length_le (steps : List Branch) : 4 ^ steps.length ≤ 3 * number steps + 1 := by
  induction steps with
  | nil => exact Nat.le_refl 1
  | cons branch steps bound =>
    rw [List.length_cons, Nat.pow_succ, number]
    omega

/-- No word has a path of more than thirty-two branches. -/
theorem length_path_le (key : UInt64) : (path key).length ≤ 32 := by
  have bound := four_pow_length_le (path key)
  rw [number_path] at bound
  have word := key.toNat_lt
  by_contra long
  have large : 4 ^ 33 ≤ 4 ^ (path key).length := Nat.pow_le_pow_right (by decide) (by omega)
  omega

/-- The largest word has a path of that length. -/
example : (path 0xffffffffffffffff).length = 32 := by cbv

/-- One can be taken from every key but zero. -/
theorem descend?_eq {key : UInt64} (nonzero : key ≠ 0) :
    descend? key = some (branchOf key, below key) := by
  have positive : 1 ≤ key := by
    rw [UInt64.le_iff_toNat_le]
    exact Nat.pos_of_ne_zero fun zero => nonzero (UInt64.toNat_inj.mp zero)
  rw [descend?, minusOne?, if_pos positive]
  rfl

namespace Trie

/-- A key is looked up in as many steps as its path has branches. -/
theorem getWithin?_eq {limit : Nat} {key : UInt64} (enough : (path key).length ≤ limit)
    (trie : Trie V) : getWithin? limit key trie = some (trie.get? (path key)) := by
  induction limit generalizing key trie with
  | zero =>
    cases trie with
    | empty => rw [getWithin?, get?_empty]
    | node =>
      by_cases zero : key = 0
      · rw [zero, path_zero]
        rfl
      · rw [path_of_ne_zero zero] at enough
        exact absurd enough (Nat.not_succ_le_zero _)
  | succ limit further =>
    cases trie with
    | empty => rw [getWithin?, get?_empty]
    | node =>
      by_cases zero : key = 0
      · rw [zero, path_zero]
        rfl
      · rw [path_of_ne_zero zero] at enough ⊢
        rw [getWithin?, if_neg zero, descend?_eq zero, Option.bind_some]
        exact further (Nat.le_of_succ_le_succ enough) _

/-- Clearing a slot of the empty trie makes no node. -/
theorem set_none_empty (path : List Branch) : set none path (empty : Trie V) = empty := by
  rw [(set_sound none path empty_sound).eq_empty_iff]
  intro other
  rw [get?_set none path other empty_sound, get?_empty, ite_self]

/-- A value is stored in as many steps as the path of its key has branches. -/
theorem setWithin?_eq (value : Option V) {limit : Nat} {key : UInt64}
    (enough : (path key).length ≤ limit) (trie : Trie V) :
    setWithin? value limit key trie = some (trie.set value (path key)) := by
  induction limit generalizing key trie with
  | zero =>
    unfold setWithin?
    split
    · rw [set_none_empty]
    · by_cases zero : key = 0
      · rw [if_pos zero, zero, path_zero]
        rfl
      · rw [path_of_ne_zero zero] at enough
        exact absurd enough (Nat.not_succ_le_zero _)
  | succ limit further =>
    unfold setWithin?
    split
    · rw [set_none_empty]
    · by_cases zero : key = 0
      · rw [if_pos zero, zero, path_zero]
        rfl
      · rw [path_of_ne_zero zero] at enough ⊢
        rw [if_neg zero, descend?_eq zero]
        dsimp only
        rw [Option.bind_some, further (Nat.le_of_succ_le_succ enough), Option.map_some, set]

/-- The trie below a branch is one step further down. -/
theorem descend_concat (steps : List Branch) (branch : Branch) (trie : Trie V) :
    trie.descend (steps ++ [branch]) = (trie.descend steps).child branch := by
  induction steps generalizing trie with
  | nil => rfl
  | cons first steps below => exact below (trie.child first)

end Trie

/-- Where there is a node the number of the steps is a word. -/
theorem number_lt_of_descend_ne_empty (map : IntMap V) {steps : List Branch}
    (there : map.root.descend steps ≠ .empty) : number steps < UInt64.size := by
  have some_ : (map.keysThrough steps).Nonempty :=
    Set.nonempty_iff_ne_empty.mpr fun none => there ((map.counted.empty steps).mpr none)
  obtain ⟨key, ⟨rest, through⟩, _⟩ := some_
  calc
    number steps ≤ number (steps ++ rest) := number_le_append steps rest
    _ = key.toNat := by rw [through, number_path]
    _ < UInt64.size := key.toNat_lt

namespace Frame

/-- A frame has nothing to visit if its trie is empty. -/
theorem isEmpty_iff (frame : Frame V) : frame.isEmpty = true ↔ frame.trie = .empty := by
  unfold isEmpty
  cases frame.trie <;> simp

/-- A frame stands at the end of some steps. -/
structure At (map : IntMap V) (steps : List Branch) (frame : Frame V) : Prop where
  /-- What is visited is the node there. -/
  node : frame.trie = map.root.descend steps
  /-- The key and the stride stand for the steps. -/
  stands : Stands steps frame.key frame.stride

variable {map : IntMap V} {steps : List Branch} {frame : Frame V}

/-- Where there is a node below a branch the number of the steps to it is a word. -/
theorem At.number_lt (at_ : frame.At map steps) {branch : Branch}
    (there : (frame.below branch).isEmpty = false) : number (steps ++ [branch]) < UInt64.size := by
  apply map.number_lt_of_descend_ne_empty
  rw [Trie.descend_concat, ← at_.node]
  exact fun none => Bool.eq_false_iff.mp there ((isEmpty_iff _).mpr none)

/-- A node below a frame stands at the end of the steps to it. -/
theorem At.below (at_ : frame.At map steps) {branch : Branch}
    (there : (frame.below branch).isEmpty = false) :
    (frame.below branch).At map (steps ++ [branch]) where
  node := by
    rw [Trie.descend_concat, ← at_.node]
    rfl
  stands := at_.stands.below (at_.number_lt there)

/-- The keys below a frame that stands somewhere are computed exactly. The weight of a branch is no
larger than the number of the steps to it. -/
theorem At.exact (at_ : frame.At map steps) : frame.Exact map steps where
  node := at_.node
  key := at_.stands.path_eq
  below branch there := by
    have fits := at_.number_lt there
    have key := (at_.below there).stands.path_eq
    rw [number_concat] at fits
    have weight : 4 ^ steps.length ≤ 4 ^ steps.length * (branch.val + 1) :=
      Nat.le_mul_of_pos_right _ (Nat.succ_pos _)
    have stride : frame.stride.toNat = 4 ^ steps.length := by
      rw [at_.stands.stride]
      omega
    refine ⟨stride, ?_, ?_, key⟩
    · rw [stride]
      omega
    · rw [stride, at_.stands.key]
      exact fits

end Frame

/-- Every frame of a stack is exact. -/
theorem at_of_mem_pass {map : IntMap V} (passes : Nat) :
    ∀ frame ∈ pass^[passes] map.iterator.stack, ∃ steps, frame.At map steps := by
  induction passes with
  | zero =>
    intro frame member
    replace member : frame ∈ (Iterator.start map.root).stack := member
    cases shape : map.root with
    | empty =>
      rw [shape] at member
      exact nomatch member
    | node =>
      rw [shape] at member
      rw [List.mem_singleton.mp member]
      exact ⟨[], shape.symm, stands_root⟩
  | succ passes before =>
    rw [Function.iterate_succ_apply']
    cases stack : pass^[passes] map.iterator.stack with
    | nil => exact fun _ member => nomatch member
    | cons first rest =>
      rw [stack] at before
      obtain ⟨steps, at_⟩ := before first (List.mem_cons_self ..)
      intro frame member
      rcases List.mem_append.mp member with child | old
      · obtain ⟨made, there⟩ := List.mem_filter.mp child
        obtain ⟨branch, _, rfl⟩ := List.mem_map.mp made
        exact ⟨_, at_.below (by simpa using there)⟩
      · exact before frame (List.mem_cons_of_mem _ old)

/-- Below a frame without anything to visit there is nothing to visit. -/
theorem Frame.children_of_isEmpty {frame : Frame V} (nothing : frame.isEmpty = true) :
    frame.children = [] := by
  rw [children, List.filter_eq_nil_iff]
  intro child member
  obtain ⟨branch, _, rfl⟩ := List.mem_map.mp member
  have below : (frame.below branch).trie = .empty := by
    show frame.trie.child branch = .empty
    rw [frame.isEmpty_iff.mp nothing]
    rfl
  simpa using (isEmpty_iff _).mpr below

/-- A visit goes round the loop up to the first frame with a value. -/
theorem visit_cons (frame : Frame V) (rest : List (Frame V)) :
    visit (frame :: rest) =
      match frame.trie.value? with
      | some value => some ((frame.key, value), pass (frame :: rest))
      | none => visit (pass (frame :: rest)) := by
  rw [visit]
  split
  · next nothing =>
    rw [pass, frame.children_of_isEmpty nothing, frame.isEmpty_iff.mp nothing]
    rfl
  · rfl

/-- What a visit leaves is left after some rounds of the loop. -/
theorem exists_pass_of_visit (frames : List (Frame V)) :
    ∃ passes, pass^[passes] frames =
      match visit frames with
      | some (_, rest) => rest
      | none => [] := by
  fun_induction visit frames with
  | case1 => exact ⟨0, rfl⟩
  | case2 frame rest nothing later =>
    obtain ⟨passes, left⟩ := later
    refine ⟨passes + 1, ?_⟩
    rw [Function.iterate_succ_apply, pass, frame.children_of_isEmpty nothing]
    exact left
  | case3 frame rest => exact ⟨1, rfl⟩
  | case4 frame rest _ _ later =>
    obtain ⟨passes, left⟩ := later
    exact ⟨passes + 1, left⟩

/-- After any number of pulls the stack is what some rounds of the loop make of the first one. -/
theorem Iterator.exists_pass (iterator : Iterator V) (count : Nat) :
    ∃ passes, (iterator.advance count).stack = pass^[passes] iterator.stack := by
  induction count with
  | zero => exact ⟨0, rfl⟩
  | succ count before =>
    obtain ⟨passes, stack⟩ := before
    obtain ⟨more, left⟩ := exists_pass_of_visit (iterator.advance count).stack
    refine ⟨more + passes, ?_⟩
    rw [Function.iterate_add_apply, ← stack, left, advance, next]
    rcases visit (iterator.advance count).stack with _ | ⟨entry, rest⟩ <;> rfl

/-- Every key is looked up and stored in thirty-two steps at most, and on the way one is never taken
from zero; different keys go different ways. An iterator goes round its loop up to the next value,
over and over. Whatever the keys of the map are, at every round each frame of its stack has the key
of the slot of its node, and where there is a node below, the product and the sum that its key is
computed from are words, the stride in them has not come to its limit, and the key is that of the
slot below. -/
theorem key_arithmetic_exact :
    (∀ key : UInt64, (path key).length ≤ 32 ∧ ∀ (map : IntMap V) (value : Option V),
      map.root.getWithin? 32 key = some (map.get? key) ∧
        map.root.setWithin? value 32 key = some (map.set key value).root) ∧
    Function.Injective path ∧
    ∀ map : IntMap V,
      (∀ (frame : Frame V) (rest : List (Frame V)), visit (frame :: rest) =
        match frame.trie.value? with
        | some value => some ((frame.key, value), pass (frame :: rest))
        | none => visit (pass (frame :: rest))) ∧
      (∀ count, ∃ passes, (map.iterator.advance count).stack = pass^[passes] map.iterator.stack) ∧
      ∀ passes, ∀ frame ∈ pass^[passes] map.iterator.stack, ∃ steps, frame.Exact map steps := by
  refine ⟨fun key => ⟨length_path_le key, fun map value => ⟨?_, ?_⟩⟩, path_injective, fun map =>
    ⟨visit_cons, map.iterator.exists_pass, fun passes frame member => ?_⟩⟩
  · exact Trie.getWithin?_eq (length_path_le key) map.root
  · exact Trie.setWithin?_eq value (length_path_le key) map.root
  · obtain ⟨steps, at_⟩ := at_of_mem_pass passes frame member
    exact ⟨steps, at_.exact⟩

end Relational.IntMap
