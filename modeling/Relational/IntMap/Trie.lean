/-!
# Quaternary tries

A trie is empty, or a node with a slot of its own and four tries below it. A node caches the
number of values at or below it. `Trie.build` is the only place where the operations make a
node, and it makes none without a value at or below it; so a sound trie is determined by the
values it holds (`Trie.Sound`).
-/
namespace Relational.IntMap

/-!
## Paths of keys

A key is a 64-bit word and names one slot of a quaternary trie. Zero names the root's own
slot; any other key leaves through branch `(key - 1) % 4` and goes on below it with the key
`(key - 1) / 4`. This is the bijective numeration in base four, least significant digit
first, so distinct keys have distinct paths and every finite path belongs to one number.
-/

/-- One of the four ways down from a node. -/
abbrev Branch := Fin 4

/-- The branches in order. -/
def branches : List Branch := [0, 1, 2, 3]

/-- The branch through which a key other than zero leaves a node. -/
def branchOf (key : UInt64) : Branch :=
  ⟨((key - 1) % 4).toNat, by
    rw [UInt64.toNat_mod]
    exact Nat.mod_lt _ (by decide)⟩

/-- The key that names the same slot seen from below that branch. -/
def below (key : UInt64) : UInt64 := (key - 1) / 4

/-- The predecessor of a key other than zero does not wrap around. -/
theorem toNat_sub_one {key : UInt64} (nonzero : key ≠ 0) :
    (key - 1).toNat = key.toNat - 1 := by
  have positive : 0 < key.toNat := by
    apply Nat.pos_of_ne_zero
    intro zero
    exact nonzero (UInt64.toNat_inj.mp zero)
  exact UInt64.toNat_sub_of_le _ _ (UInt64.le_iff_toNat_le.mpr positive)

/-- The key below a branch, as a number. -/
theorem toNat_below {key : UInt64} (nonzero : key ≠ 0) :
    (below key).toNat = (key.toNat - 1) / 4 := by
  rw [below, UInt64.toNat_div, toNat_sub_one nonzero]
  rfl

/-- Every step down makes a key other than zero smaller. -/
theorem toNat_below_lt {key : UInt64} (nonzero : key ≠ 0) :
    (below key).toNat < key.toNat := by
  have positive : 0 < key.toNat := by
    apply Nat.pos_of_ne_zero
    intro zero
    exact nonzero (UInt64.toNat_inj.mp zero)
  rw [toNat_below nonzero]
  omega

/-- The branches that lead from the root to the slot of a key. -/
def path (key : UInt64) : List Branch :=
  if _zero : key = 0 then [] else branchOf key :: path (below key)
termination_by key.toNat
decreasing_by exact toNat_below_lt _zero

/-- Zero names the root's own slot. -/
theorem path_zero : path 0 = [] := by
  rw [path]
  simp

/-- Any other key names a slot below its branch. -/
theorem path_of_ne_zero {key : UInt64} (nonzero : key ≠ 0) :
    path key = branchOf key :: path (below key) := by
  rw [path]
  simp [nonzero]

/-! ## Tries -/

universe u

/-- Values stored at paths. -/
inductive Trie (V : Type u) where
  /-- The one trie without a value. -/
  | empty
  /-- A slot, the number of values at or below it, and the tries below branches 0 to 3. -/
  | node (value : Option V) (size : Nat) (zero one two three : Trie V)

namespace Trie

variable {V : Type u}

/-- How many values the trie holds, read off the root. -/
def size : Trie V → Nat
  | empty => 0
  | node _ size .. => size

/-- The value in the root's own slot. -/
def value? : Trie V → Option V
  | empty => none
  | node value .. => value

/-- The trie below a branch. -/
def child : Trie V → Branch → Trie V
  | empty, _ => empty
  | node _ _ zero one two three, branch =>
    match branch with
    | 0 => zero
    | 1 => one
    | 2 => two
    | 3 => three

/-- How many values a slot holds. -/
def held : Option V → Nat
  | none => 0
  | some _ => 1

/-- Joins a slot and four tries, and is empty if none of them holds a value. -/
def build (value : Option V) (zero one two three : Trie V) : Trie V :=
  let size := held value + zero.size + one.size + two.size + three.size
  if size = 0 then empty else node value size zero one two three

/-- The value stored at a path. -/
def get? : List Branch → Trie V → Option V
  | [], trie => trie.value?
  | branch :: path, trie => get? path (trie.child branch)

/-- The trie with another value, or none, in the root's own slot. -/
def withValue (value : Option V) : Trie V → Trie V
  | empty => build value empty empty empty empty
  | node _ _ zero one two three => build value zero one two three

/-- Joins a slot and four tries, one of them replaced. -/
def replace (value : Option V) (zero one two three : Trie V) (branch : Branch)
    (below : Trie V) : Trie V :=
  match branch with
  | 0 => build value below one two three
  | 1 => build value zero below two three
  | 2 => build value zero one below three
  | 3 => build value zero one two below

/-- The trie with another trie below a branch. -/
def withChild (trie : Trie V) (branch : Branch) (below : Trie V) : Trie V :=
  match trie with
  | empty => replace none empty empty empty empty branch below
  | node value _ zero one two three => replace value zero one two three branch below

/-- Stores a value at a path, or clears the slot; every other slot is left as it is. -/
def set (value : Option V) : List Branch → Trie V → Trie V
  | [], trie => trie.withValue value
  | branch :: path, trie => trie.withChild branch (set value path (trie.child branch))

/-- Every node caches the number of values at or below it, and that number is not zero. -/
def Sound : Trie V → Prop
  | empty => True
  | node value size zero one two three =>
    size = held value + zero.size + one.size + two.size + three.size ∧
      0 < size ∧ zero.Sound ∧ one.Sound ∧ two.Sound ∧ three.Sound

/-- The empty trie is sound. -/
theorem empty_sound : (empty : Trie V).Sound := trivial

/-- The tries below a sound trie are sound. -/
theorem Sound.child {trie : Trie V} (sound : trie.Sound) (branch : Branch) :
    (trie.child branch).Sound := by
  cases trie with
  | empty => trivial
  | node =>
    obtain ⟨_, _, zero, one, two, three⟩ := sound
    match branch with
    | 0 => exact zero
    | 1 => exact one
    | 2 => exact two
    | 3 => exact three

/-- Sound tries are joined to a sound trie. -/
theorem build_sound (value : Option V) {zero one two three : Trie V} (first : zero.Sound)
    (second : one.Sound) (third : two.Sound) (fourth : three.Sound) :
    (build value zero one two three).Sound := by
  unfold build
  dsimp only
  split
  · trivial
  · next positive => exact ⟨rfl, Nat.pos_of_ne_zero positive, first, second, third, fourth⟩

/-- Another value keeps a trie sound. -/
theorem withValue_sound (value : Option V) {trie : Trie V} (sound : trie.Sound) :
    (trie.withValue value).Sound := by
  cases trie with
  | empty => exact build_sound value empty_sound empty_sound empty_sound empty_sound
  | node =>
    obtain ⟨_, _, zero, one, two, three⟩ := sound
    exact build_sound value zero one two three

/-- A sound trie in the place of another keeps a join sound. -/
theorem replace_sound (value : Option V) {zero one two three below : Trie V} (first : zero.Sound)
    (second : one.Sound) (third : two.Sound) (fourth : three.Sound) (branch : Branch)
    (inner : below.Sound) : (replace value zero one two three branch below).Sound := by
  match branch with
  | 0 => exact build_sound value inner second third fourth
  | 1 => exact build_sound value first inner third fourth
  | 2 => exact build_sound value first second inner fourth
  | 3 => exact build_sound value first second third inner

/-- A sound trie below a branch keeps a trie sound. -/
theorem withChild_sound (branch : Branch) {below trie : Trie V} (inner : below.Sound)
    (sound : trie.Sound) : (trie.withChild branch below).Sound := by
  cases trie with
  | empty => exact replace_sound none empty_sound empty_sound empty_sound empty_sound branch inner
  | node value =>
    obtain ⟨_, _, zero, one, two, three⟩ := sound
    exact replace_sound value zero one two three branch inner

/-- Storing and clearing keep a trie sound. -/
theorem set_sound (value : Option V) (path : List Branch) {trie : Trie V}
    (sound : trie.Sound) : (trie.set value path).Sound := by
  induction path generalizing trie with
  | nil => exact withValue_sound value sound
  | cons branch path ih => exact withChild_sound branch (ih (sound.child branch)) sound

/-- A sound trie that counts no value is the empty one. -/
theorem eq_empty_of_size_eq_zero {trie : Trie V} (sound : trie.Sound)
    (nothing : trie.size = 0) : trie = empty := by
  cases trie with
  | empty => rfl
  | node => exact absurd nothing (Nat.ne_of_gt sound.2.1)

/-- Joining keeps the slot. -/
theorem value?_build (value : Option V) (zero one two three : Trie V) :
    (build value zero one two three).value? = value := by
  unfold build
  dsimp only
  split
  · next nothing =>
    cases value with
    | none => rfl
    | some => simp [held] at nothing
  · rfl

/-- Joining keeps the sound tries below. -/
theorem child_build (value : Option V) {zero one two three : Trie V} (first : zero.Sound)
    (second : one.Sound) (third : two.Sound) (fourth : three.Sound) (branch : Branch) :
    (build value zero one two three).child branch =
      (node value 0 zero one two three).child branch := by
  unfold build
  dsimp only
  split
  · next nothing =>
    have := eq_empty_of_size_eq_zero first (by omega)
    have := eq_empty_of_size_eq_zero second (by omega)
    have := eq_empty_of_size_eq_zero third (by omega)
    have := eq_empty_of_size_eq_zero fourth (by omega)
    subst_vars
    match branch with
    | 0 | 1 | 2 | 3 => rfl
  · match branch with
    | 0 | 1 | 2 | 3 => rfl

/-- A new trie below a branch leaves the slot. -/
theorem value?_withChild (branch : Branch) (below trie : Trie V) :
    (trie.withChild branch below).value? = trie.value? := by
  cases trie with
  | empty =>
    match branch with
    | 0 | 1 | 2 | 3 => exact value?_build _ _ _ _ _
  | node =>
    match branch with
    | 0 | 1 | 2 | 3 => exact value?_build _ _ _ _ _

/-- A new value leaves the tries below. -/
theorem child_withValue (value : Option V) {trie : Trie V} (sound : trie.Sound)
    (branch : Branch) : (trie.withValue value).child branch = trie.child branch := by
  cases trie with
  | empty =>
    rw [withValue, child_build value empty_sound empty_sound empty_sound empty_sound]
    match branch with
    | 0 | 1 | 2 | 3 => rfl
  | node =>
    obtain ⟨_, _, zero, one, two, three⟩ := sound
    rw [withValue, child_build value zero one two three]
    match branch with
    | 0 | 1 | 2 | 3 => rfl

/-- Below a join one trie is replaced and the others are not. -/
theorem child_replace (value : Option V) {zero one two three below : Trie V} (first : zero.Sound)
    (second : one.Sound) (third : two.Sound) (fourth : three.Sound) (branch : Branch)
    (inner : below.Sound) (other : Branch) :
    (replace value zero one two three branch below).child other =
      if other = branch then below else (node value 0 zero one two three).child other := by
  match branch with
  | 0 =>
    rw [replace, child_build value inner second third fourth]
    match other with
    | 0 | 1 | 2 | 3 => rfl
  | 1 =>
    rw [replace, child_build value first inner third fourth]
    match other with
    | 0 | 1 | 2 | 3 => rfl
  | 2 =>
    rw [replace, child_build value first second inner fourth]
    match other with
    | 0 | 1 | 2 | 3 => rfl
  | 3 =>
    rw [replace, child_build value first second third inner]
    match other with
    | 0 | 1 | 2 | 3 => rfl

/-- Below a trie one trie is replaced and the others are not. -/
theorem child_withChild {trie : Trie V} (branch : Branch) {below : Trie V} (inner : below.Sound)
    (sound : trie.Sound) (other : Branch) :
    (trie.withChild branch below).child other =
      if other = branch then below else trie.child other := by
  cases trie with
  | empty =>
    rw [withChild, child_replace none empty_sound empty_sound empty_sound empty_sound branch inner]
    match other with
    | 0 | 1 | 2 | 3 => rfl
  | node value =>
    obtain ⟨_, _, zero, one, two, three⟩ := sound
    rw [withChild, child_replace value zero one two three branch inner]
    match other with
    | 0 | 1 | 2 | 3 => rfl

/-- The empty trie stores nothing at any path. -/
theorem get?_empty (path : List Branch) : get? path (empty : Trie V) = none := by
  induction path with
  | nil => rfl
  | cons branch path ih => exact ih

/-- Storing changes what is found at its own path and nowhere else. -/
theorem get?_set (value : Option V) (path other : List Branch) {trie : Trie V}
    (sound : trie.Sound) :
    get? other (trie.set value path) = if other = path then value else get? other trie := by
  induction path generalizing trie other with
  | nil =>
    cases other with
    | nil =>
      cases trie with
      | empty => simp [set, get?, withValue, value?_build]
      | node => simp [set, get?, withValue, value?_build]
    | cons first rest => simp [set, get?, child_withValue value sound]
  | cons branch path ih =>
    have inner := set_sound value path (sound.child branch)
    cases other with
    | nil => simp [set, get?, value?_withChild]
    | cons first rest =>
      simp only [set, get?, child_withChild branch inner sound]
      by_cases same : first = branch
      · subst same
        simp [ih rest (sound.child first)]
      · simp [same]

end Trie

end Relational.IntMap
