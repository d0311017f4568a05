import Mathlib.Tactic.Ring
import Relational.Proofs.IntMap.Contents

/-!
# What iterating over a map gives

Keys are not stored. An iterator computes them on its way down from the key of a node and a stride,
both of them words. As long as there is a key below a branch, the key of the branch is a word and
the stride has not come to its limit, so what is computed is exact: the entries of a map come in the
order of its slots, and each one under the key whose path leads there.
-/
namespace Relational.IntMap

universe u

variable {V : Type u}

/-- The number that a path stands for: every branch is a digit from one to four, and the first one
counts least. -/
def number : List Branch → Nat
  | [] => 0
  | branch :: path => 4 * number path + branch.val + 1

/-- A key is the number of its path. -/
theorem number_path (key : UInt64) : number (path key) = key.toNat := by
  induction size : key.toNat using Nat.strong_induction_on generalizing key with
  | _ bound smaller =>
    by_cases zero : key = 0
    · subst zero
      rw [path_zero, number, ← size]
      rfl
    · have positive : 0 < key.toNat :=
        Nat.pos_of_ne_zero fun none => zero (UInt64.toNat_inj.mp none)
      have digit : (branchOf key).val = (key.toNat - 1) % 4 := by
        simp only [branchOf, UInt64.toNat_mod, toNat_sub_one zero]
        rfl
      have rest := smaller _ (size ▸ toNat_below_lt zero) (below key) rfl
      rw [toNat_below zero] at rest
      rw [path_of_ne_zero zero, number, rest, digit]
      omega

/-- What comes behind a path counts for more the longer the path is. -/
theorem number_append (front back : List Branch) :
    number (front ++ back) = number front + 4 ^ front.length * number back := by
  induction front with
  | nil => simp [number]
  | cons branch front counted =>
    rw [List.cons_append, number, counted, number, List.length_cons, Nat.pow_succ]
    ring

/-- Going on along a branch. -/
theorem number_concat (front : List Branch) (branch : Branch) :
    number (front ++ [branch]) = number front + 4 ^ front.length * (branch.val + 1) := by
  rw [number_append, number, number, Nat.mul_zero, Nat.zero_add]

/-- Paths that stand for one number are one path. -/
theorem number_injective : Function.Injective number := by
  intro left
  induction left with
  | nil =>
    intro right same
    cases right with
    | nil => rfl
    | cons branch right => simp [number] at same
  | cons branch left unique =>
    intro right same
    cases right with
    | nil => simp [number] at same
    | cons other right =>
      have digits : branch.val < 4 ∧ other.val < 4 := ⟨branch.isLt, other.isLt⟩
      simp only [number] at same
      have head : branch = other := Fin.ext (by omega)
      rw [head, unique (show number left = number right by omega)]

/-- Four times a stride is exact, or as large as a word can be. -/
theorem toNat_widen (stride : UInt64) :
    (widen stride).toNat = min (4 * stride.toNat) (UInt64.size - 1) := by
  unfold widen
  have bound := stride.toNat_lt
  have limit : (0x3fffffffffffffff : UInt64).toNat = 0x3fffffffffffffff := rfl
  split
  · next small =>
    have small := UInt64.le_iff_toNat_le.mp small
    rw [limit] at small
    have product : (stride * 4).toNat = stride.toNat * 4 % 2 ^ 64 := UInt64.toNat_mul stride 4
    rw [product]
    show _ = min (4 * stride.toNat) (2 ^ 64 - 1)
    omega
  · next large =>
    have large : ¬ stride.toNat ≤ 0x3fffffffffffffff := fun le =>
      large (UInt64.le_iff_toNat_le.mpr le)
    show 2 ^ 64 - 1 = min (4 * stride.toNat) (2 ^ 64 - 1)
    omega

/-- Where the slot below a branch of a frame is, given the number of the branch. -/
def slotBelow (key stride : UInt64) (branch : Nat) : UInt64 :=
  key + stride * UInt64.ofNat (branch + 1)

/-- The entries at and below the root of a trie in the order of iteration, given the key of the
root's own slot and the distance between the keys below neighbouring branches. -/
def Trie.entries (key stride : UInt64) : Trie V → List (UInt64 × V)
  | empty => []
  | node value _ zero one two three =>
    (value.map (key, ·)).toList ++
      (zero.entries (slotBelow key stride 0) (widen stride) ++
        (one.entries (slotBelow key stride 1) (widen stride) ++
          (two.entries (slotBelow key stride 2) (widen stride) ++
            three.entries (slotBelow key stride 3) (widen stride))))

/-- The entries of a frame in the order of iteration. -/
def Frame.entries (frame : Frame V) : List (UInt64 × V) :=
  frame.trie.entries frame.key frame.stride

/-- The entries of some frames in the order of iteration. -/
def pending (frames : List (Frame V)) : List (UInt64 × V) := frames.flatMap Frame.entries

/-- The entries of the first frame come first. -/
theorem pending_cons (frame : Frame V) (frames : List (Frame V)) :
    pending (frame :: frames) = frame.entries ++ pending frames :=
  List.flatMap_cons

/-- The entries of frames in front come in front. -/
theorem pending_append (front back : List (Frame V)) :
    pending (front ++ back) = pending front ++ pending back :=
  List.flatMap_append

/-- There are no entries in a frame without anything to visit. -/
theorem Frame.entries_of_isEmpty {frame : Frame V} (nothing : frame.isEmpty = true) :
    frame.entries = [] := by
  unfold Frame.entries
  cases shape : frame.trie with
  | empty => rfl
  | node => simp [isEmpty, shape] at nothing

/-- Leaving out frames without anything to visit leaves out no entry. -/
theorem pending_filter (frames : List (Frame V)) :
    pending (frames.filter fun frame => !frame.isEmpty) = pending frames := by
  induction frames with
  | nil => rfl
  | cons frame frames same =>
    rw [List.filter_cons, pending_cons]
    cases nothing : frame.isEmpty with
    | true =>
      rw [frame.entries_of_isEmpty nothing]
      exact same
    | false =>
      rw [← same]
      exact pending_cons frame _

/-- The entries of a frame are its own and those of the frames below it. -/
theorem Frame.entries_eq (frame : Frame V) :
    frame.entries = (frame.trie.value?.map (frame.key, ·)).toList ++ pending frame.children := by
  rw [children, pending_filter, branches, List.map_cons, List.map_cons, List.map_cons,
    List.map_cons, List.map_nil, pending_cons, pending_cons, pending_cons, pending_cons]
  unfold Frame.entries below
  cases shape : frame.trie with
  | empty => rfl
  | node value size zero one two three =>
    show _ ++ (_ ++ (_ ++ (_ ++ _))) = _ ++ (_ ++ (_ ++ (_ ++ (_ ++ []))))
    rw [List.append_nil]
    rfl

/-- A visit finds the first entry to come and leaves the others. -/
theorem visit_eq (frames : List (Frame V)) :
    match visit frames with
    | none => pending frames = []
    | some (entry, rest) => pending frames = entry :: pending rest := by
  fun_induction visit frames with
  | case1 => rfl
  | case2 frame rest nothing found =>
    rw [pending_cons, frame.entries_of_isEmpty nothing]
    exact found
  | case3 frame rest something value own =>
    show pending (frame :: rest) = (frame.key, value) :: pending (frame.children ++ rest)
    rw [pending_cons, frame.entries_eq, own, pending_append]
    rfl
  | case4 frame rest something own found =>
    have same : pending (frame :: rest) = pending (frame.children ++ rest) := by
      rw [pending_cons, frame.entries_eq, own, pending_append]
      rfl
    rw [same]
    exact found

/-- Pulling gives the entries to come in order. -/
theorem Iterator.take_eq (count : Nat) (iterator : Iterator V) :
    iterator.take count = (pending iterator.stack).take count := by
  induction count generalizing iterator with
  | zero => rfl
  | succ count further =>
    have first := visit_eq iterator.stack
    unfold take next
    rcases found : visit iterator.stack with _ | ⟨entry, rest⟩
    · simp only [found] at first
      rw [first]
      rfl
    · simp only [found] at first
      rw [first, List.take_succ_cons, ← further ⟨rest, _⟩]

/-- A key stands for a path and a stride for the paths of the same length: the stride is the weight
of the next digit, or as large as a word can be. -/
structure Stands (steps : List Branch) (key stride : UInt64) : Prop where
  /-- The key is the number of the path. -/
  key : key.toNat = number steps
  /-- The stride is the weight of the next digit if that is a word. -/
  stride : stride.toNat = min (4 ^ steps.length) (UInt64.size - 1)

/-- The root has the key zero and the stride one. -/
theorem stands_root : Stands [] 0 1 := ⟨rfl, rfl⟩

/-- Below a branch the key is that of the path with the branch, if that is a word. The weight times
the digit is a word then, so the stride has not come to its limit. -/
theorem Stands.below {steps : List Branch} {key stride : UInt64} (stands : Stands steps key stride)
    {branch : Branch} (fits : number (steps ++ [branch]) < UInt64.size) :
    Stands (steps ++ [branch]) (slotBelow key stride branch.val) (widen stride) := by
  rw [number_concat] at fits
  have weight : 4 ^ steps.length ≤ 4 ^ steps.length * (branch.val + 1) :=
    Nat.le_mul_of_pos_right _ (Nat.succ_pos _)
  have exact : stride.toNat = 4 ^ steps.length := by
    rw [stands.stride]
    omega
  have digit : (UInt64.ofNat (branch.val + 1)).toNat = branch.val + 1 :=
    UInt64.toNat_ofNat_of_lt' (by have := branch.isLt; show _ < 2 ^ 64; omega)
  constructor
  · unfold slotBelow
    rw [UInt64.toNat_add, UInt64.toNat_mul, digit, exact, stands.key, number_concat]
    show (_ + _ % UInt64.size) % UInt64.size = _
    have product : 4 ^ steps.length * (branch.val + 1) < UInt64.size := by omega
    rw [Nat.mod_eq_of_lt product, Nat.mod_eq_of_lt fits]
  · rw [toNat_widen, exact, List.length_append, List.length_singleton, Nat.pow_succ, Nat.mul_comm]

/-- Behind a path the numbers are larger. -/
theorem number_le_append (front back : List Branch) : number front ≤ number (front ++ back) := by
  rw [number_append]
  exact Nat.le_add_right _ _

/-- There are as many entries as slots, whatever the keys are. -/
theorem Trie.length_entries (trie : Trie V) (key stride : UInt64) :
    (trie.entries key stride).length = trie.slots.length := by
  induction trie generalizing key stride with
  | empty => rfl
  | node value size zero one two three first second third fourth =>
    have own : (value.map (key, ·)).toList.length =
        (if value.isSome then [([] : List Branch)] else []).length := by
      cases value <;> rfl
    rw [slots_node, entries]
    simp only [List.length_append, List.length_map, own, first, second, third, fourth]

/-- The path of the key that stands for a path. -/
theorem Stands.path_eq {steps : List Branch} {key stride : UInt64}
    (stands : Stands steps key stride) : path key = steps :=
  number_injective ((number_path key).trans stands.key)

namespace Trie

/-- The entries of a trie are its slots in order, each under the key of its path, wherever all these
keys are words. -/
def Listed (trie : Trie V) : Prop :=
  ∀ {steps : List Branch} {key stride : UInt64}, Stands steps key stride →
    (∀ slot ∈ trie.slots, number (steps ++ slot) < UInt64.size) →
      (trie.entries key stride).map (fun entry => (path entry.1, some entry.2)) =
        trie.slots.map fun slot => (steps ++ slot, trie.get? slot)

/-- The entries below a branch are the slots there. Some key goes through the branch, so the key of
the branch is a word. -/
theorem Listed.below {inner : Trie V} (listed : inner.Listed) {steps : List Branch}
    {key stride : UInt64} (stands : Stands steps key stride) {branch : Branch}
    (fits : ∀ slot ∈ inner.slots, number (steps ++ branch :: slot) < UInt64.size) :
    (inner.entries (slotBelow key stride branch.val) (widen stride)).map
        (fun entry => (path entry.1, some entry.2)) =
      inner.slots.map fun slot => (steps ++ branch :: slot, inner.get? slot) := by
  rcases shape : inner.slots with _ | ⟨slot, slots⟩
  · have none : inner.entries (slotBelow key stride branch.val) (widen stride) = [] :=
      List.eq_nil_of_length_eq_zero (by rw [length_entries, shape]; rfl)
    rw [none]
    rfl
  · have further : ∀ slot ∈ inner.slots, number ((steps ++ [branch]) ++ slot) < UInt64.size := by
      intro slot member
      rw [List.append_assoc]
      exact fits slot member
    have through : slot ∈ inner.slots := shape ▸ List.mem_cons_self ..
    have room : number (steps ++ [branch]) < UInt64.size :=
      Nat.lt_of_le_of_lt (number_le_append _ slot) (further slot through)
    rw [← shape, listed (stands.below room) further]
    simp only [List.append_assoc, List.singleton_append]

/-- The entries of every trie are its slots. -/
theorem listed (trie : Trie V) : trie.Listed := by
  induction trie with
  | empty => exact fun _ _ => rfl
  | node value size zero one two three first second third fourth =>
    intro steps key stride stands fits
    rw [slots_node] at fits ⊢
    simp only [List.forall_mem_append, List.forall_mem_map] at fits
    obtain ⟨_, fitsZero, fitsOne, fitsTwo, fitsThree⟩ := fits
    have own : (value.map (key, ·)).toList.map (fun entry => (path entry.1, some entry.2)) =
        (if value.isSome then [[]] else []).map fun slot =>
          (steps ++ slot, (node value size zero one two three).get? slot) := by
      cases value with
      | none => rfl
      | some value =>
        show [(path key, some value)] = [(steps ++ [], some value)]
        rw [stands.path_eq, List.append_nil]
    rw [entries]
    simp only [List.map_append, List.map_map, own]
    have last := congrArg₂ (· ++ ·) (third.below stands fitsTwo) (fourth.below stands fitsThree)
    have later := congrArg₂ (· ++ ·) (second.below stands fitsOne) last
    have all := congrArg₂ (· ++ ·) (first.below stands fitsZero) later
    exact congrArg (_ ++ ·) all

end Trie

/-- At the start of a map all its entries are to come. -/
theorem pending_iterator (map : IntMap V) :
    pending map.iterator.stack = map.root.entries 0 1 := by
  unfold iterator Iterator.start
  cases map.root with
  | empty => rfl
  | node => exact List.append_nil _

/-- All entries of a map come, and nothing behind them. -/
theorem toList_eq_entries (map : IntMap V) : map.toList = map.root.entries 0 1 := by
  have size : map.iterator.remaining = (map.root.entries 0 1).length := by
    rw [Trie.length_entries, Trie.length_slots map.sound]
    rfl
  rw [toList, Iterator.toList, Iterator.take_eq, pending_iterator, size, List.take_length]

/-- The entries of a map are its slots in order, each under its key. -/
theorem toList_eq (map : IntMap V) :
    map.toList.map (fun entry => (path entry.1, some entry.2)) =
      map.root.slots.map fun slot => (slot, map.root.get? slot) := by
  rw [toList_eq_entries, map.root.listed stands_root]
  · rfl
  · intro slot member
    obtain ⟨key, rfl⟩ := map.keyed slot ((map.root.mem_slots slot).mp member)
    rw [List.nil_append, number_path]
    exact key.toNat_lt

/-- The entries of a map are its keys with their values. -/
theorem mem_toList {map : IntMap V} {key : UInt64} {value : V} :
    (key, value) ∈ map.toList ↔ map.get? key = some value := by
  have paths : (key, value) ∈ map.toList ↔ (path key, some value) ∈
      map.toList.map fun entry => (path entry.1, some entry.2) := by
    rw [List.mem_map]
    constructor
    · exact fun member => ⟨_, member, rfl⟩
    · rintro ⟨⟨other, value'⟩, member, same⟩
      obtain ⟨samePath, sameValue⟩ := Prod.mk.inj same
      rw [← path_injective samePath, ← Option.some.inj sameValue]
      exact member
  rw [paths, toList_eq, List.mem_map]
  constructor
  · rintro ⟨slot, _, same⟩
    obtain ⟨rfl, found⟩ := Prod.mk.inj same
    exact found
  · intro found
    have there : (map.root.get? (path key)).isSome := by
      rw [show map.root.get? (path key) = some value from found]
      rfl
    exact ⟨path key, (map.root.mem_slots _).mpr there, congrArg _ found⟩

end Relational.IntMap
