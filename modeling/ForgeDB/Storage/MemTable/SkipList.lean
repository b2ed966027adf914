import Mathlib.Data.List.Perm.Subperm
import Mathlib.Data.List.TakeWhile
import ForgeDB.Data.Linked
import ForgeDB.Storage.WAL

/-!
The skip list of the table. Nodes live at addresses of an arena, the header first, and reading or writing
through what is not there has no result. A node of height `h` is linked into the levels below `h`, so every
level is a sorted chain through some of the nodes of the level under it.
-/

namespace ForgeDB.Storage.MemTable

open ForgeDB.Linked

def maxLevel : Nat := 16

structure SkipListNode where
  key : Bytes
  value : Bytes
  deleted : Bool
  forward : List (Option Nat)
  deriving DecidableEq, Repr

structure SkipList where
  nodes : List SkipListNode
  level : Nat
  deriving DecidableEq, Repr

def header : Nat := 0

def newSkipList : SkipList := ⟨[⟨[], [], false, List.replicate maxLevel none⟩], 1⟩

/-- The level goes up while the coins say so; the list holds what each draw says, the last one being no. -/
def climb (lvl : Nat) : List Bool → Nat
  | [] => lvl
  | coin :: coins => if lvl < maxLevel ∧ coin then climb (lvl + 1) coins else lvl

def randomLevel (coins : List Bool) : Nat := climb 1 coins

structure Upserted where
  existed : Bool
  wasDeleted : Bool
  oldValueLen : Nat
  deriving DecidableEq, Repr

def store {α : Type} (items : List α) (i : Nat) (item : α) : Option (List α) :=
  if i < items.length then some (items.set i item) else none

namespace SkipList

variable (s : SkipList)

def next (i x : Nat) : Option (Option Nat) := do (← s.nodes[x]?).forward[i]?

def below (key : Bytes) (x : Nat) : Option Bool := do some (decide ((← s.nodes[x]?).key < key))

def seek (key : Bytes) : Nat → Nat → Option Nat
  | 0, x => some x
  | i + 1, x => do
    let x ← advance (s.next i) (s.below key) s.nodes.length x
    seek key i x

def seekUpdate (key : Bytes) : Nat → Nat → List (Option Nat) → Option (Nat × List (Option Nat))
  | 0, x, update => some (x, update)
  | i + 1, x, update => do
    let x ← advance (s.next i) (s.below key) s.nodes.length x
    let update ← store update i (some x)
    seekUpdate key i x update

def matching (key : Bytes) : Option Nat → Option (Option (Nat × SkipListNode))
  | none => some none
  | some x => do
    let n ← s.nodes[x]?
    if n.key = key then some (some (x, n)) else some none

def search (key : Bytes) : Option (Option SkipListNode) := do
  let x ← s.seek key s.level header
  let found ← s.matching key (← s.next 0 x)
  some (found.map Prod.snd)

def setForward (x i : Nat) (target : Option Nat) : Option SkipList := do
  let n ← s.nodes[x]?
  let forward ← store n.forward i target
  let nodes ← store s.nodes x { n with forward := forward }
  some { s with nodes := nodes }

def link (update : List (Option Nat)) (node : Nat) : Nat → Nat → SkipList → Option SkipList
  | 0, _, s => some s
  | count + 1, i, s => do
    let u ← (← update[i]?)
    let s ← s.setForward node i (← s.next i u)
    let s ← s.setForward u i (some node)
    link update node count (i + 1) s

/-- The header is the last node of the levels not used so far, for `count` levels from `i` up. -/
def fill : Nat → Nat → List (Option Nat) → Option (List (Option Nat))
  | 0, _, update => some update
  | count + 1, i, update => do
    let update ← store update i (some header)
    fill count (i + 1) update

def upsert (key value : Bytes) (deleted : Bool) (coins : List Bool) : Option (SkipList × Upserted) := do
  let (x, update) ← s.seekUpdate key s.level header (List.replicate maxLevel none)
  match ← s.matching key (← s.next 0 x) with
  | some (x, n) =>
    let nodes ← store s.nodes x { n with value := value, deleted := deleted }
    some ({ s with nodes := nodes }, ⟨true, n.deleted, n.value.length⟩)
  | none =>
    let newLevel := randomLevel coins
    let update ← fill (newLevel - s.level) s.level update
    let node : SkipListNode := ⟨key, value, deleted, List.replicate newLevel none⟩
    let s ← link update s.nodes.length newLevel 0 ⟨s.nodes ++ [node], max s.level newLevel⟩
    some (s, ⟨false, false, 0⟩)

def forEachFrom : Nat → Option Nat → Option (List SkipListNode)
  | _, none => some []
  | 0, some _ => none
  | fuel + 1, some x => do
    let n ← s.nodes[x]?
    let rest ← forEachFrom fuel (← n.forward[0]?)
    some (n :: rest)

def forEach : Option (List SkipListNode) := do s.forEachFrom s.nodes.length (← s.next 0 header)

end SkipList

theorem store_eq {α : Type} {items : List α} {i : Nat} (item : α) (inside : i < items.length) :
    store items i item = some (items.set i item) := if_pos inside

theorem climb_bounds {lvl : Nat} (low : 1 ≤ lvl) (high : lvl ≤ maxLevel) (coins : List Bool) :
    1 ≤ climb lvl coins ∧ climb lvl coins ≤ maxLevel := by
  induction coins generalizing lvl with
  | nil => exact ⟨low, high⟩
  | cons coin coins ih =>
    unfold climb
    split
    · rename_i more
      exact ih (Nat.le_succ_of_le low) more.1
    · exact ⟨low, high⟩

theorem randomLevel_bounds (coins : List Bool) : 1 ≤ randomLevel coins ∧ randomLevel coins ≤ maxLevel :=
  climb_bounds (Nat.le_refl 1) (by decide) coins

/-! ### What a node holds beside its pointers -/

namespace SkipListNode

def label (n : SkipListNode) : (Bytes × Bytes × Bool) × Nat := ((n.key, n.value, n.deleted), n.forward.length)

end SkipListNode

namespace SkipList

def label (s : SkipList) (x : Nat) : Option ((Bytes × Bytes × Bool) × Nat) := s.nodes[x]?.map SkipListNode.label

def entry (s : SkipList) (x : Nat) : Bytes × Bytes × Bool := (s.label x).elim ([], [], false) Prod.fst

def key (s : SkipList) (x : Nat) : Bytes := (s.entry x).1

def height (s : SkipList) (x : Nat) : Nat := (s.label x).elim 0 Prod.snd

section
variable {s t : SkipList} {i x : Nat}

theorem entry_of_node {n : SkipListNode} (here : s.nodes[x]? = some n) : s.entry x = (n.key, n.value, n.deleted) := by
  simp only [entry, label, here, Option.map_some, Option.elim_some, SkipListNode.label]

theorem height_of_node {n : SkipListNode} (here : s.nodes[x]? = some n) : s.height x = n.forward.length := by
  simp only [height, label, here, Option.map_some, Option.elim_some, SkipListNode.label]

theorem node_of_height (tall : i < s.height x) : ∃ n, s.nodes[x]? = some n ∧ i < n.forward.length := by
  cases here : s.nodes[x]? with
  | none =>
    simp only [height, label, here, Option.map_none, Option.elim_none] at tall
    exact absurd tall (Nat.not_lt_zero i)
  | some n => exact ⟨n, rfl, height_of_node here ▸ tall⟩

theorem address_of_height (tall : i < s.height x) : x < s.nodes.length := by
  obtain ⟨n, here, -⟩ := node_of_height tall
  exact (List.getElem?_eq_some_iff.mp here).1

theorem below_eq (key : Bytes) (tall : i < s.height x) : s.below key x = some (decide (s.key x < key)) := by
  obtain ⟨n, here, -⟩ := node_of_height tall
  simp only [below, here, SkipList.key, entry_of_node here, Option.bind_eq_bind, Option.bind_some]

structure Relinked (s t : SkipList) : Prop where
  length : t.nodes.length = s.nodes.length
  level : t.level = s.level
  label : ∀ x, t.label x = s.label x

theorem Relinked.trans {u : SkipList} (first : Relinked s t) (second : Relinked t u) : Relinked s u :=
  ⟨second.length.trans first.length, second.level.trans first.level, fun x => (second.label x).trans (first.label x)⟩

theorem Relinked.entry (same : Relinked s t) (x : Nat) : t.entry x = s.entry x := by
  simp only [SkipList.entry, same.label x]

theorem Relinked.height (same : Relinked s t) (x : Nat) : t.height x = s.height x := by
  simp only [SkipList.height, same.label x]

theorem setForward_spec (target : Option Nat) (tall : i < s.height x) :
    ∃ t, s.setForward x i target = some t ∧ Relinked s t ∧
      ∀ j y, t.next j y = if j = i ∧ y = x then some target else s.next j y := by
  obtain ⟨n, here, inside⟩ := node_of_height tall
  have address : x < s.nodes.length := address_of_height tall
  refine ⟨⟨s.nodes.set x { n with forward := n.forward.set i target }, s.level⟩, ?_,
    ⟨List.length_set, rfl, fun y => ?_⟩, fun j y => ?_⟩
  · simp only [setForward, here, store_eq _ inside, store_eq _ address, Option.bind_eq_bind, Option.bind_some]
  · by_cases same : x = y
    · subst same
      simp only [label, List.getElem?_set_self address, here, Option.map_some, SkipListNode.label, List.length_set]
    · simp only [label, List.getElem?_set_ne same]
  · by_cases same : x = y
    · subst same
      simp only [next, List.getElem?_set_self address, here, Option.bind_eq_bind, Option.bind_some, and_true]
      by_cases level : i = j
      · subst level
        rw [List.getElem?_set_self inside, if_pos rfl]
      · rw [List.getElem?_set_ne level, if_neg (Ne.symm level)]
    · have other : ¬(j = i ∧ y = x) := fun both => same both.2.symm
      simp only [next, List.getElem?_set_ne same, if_neg other]

theorem link_spec (update : List (Option Nat)) (node : Nat) (last : Nat → Nat) {count : Nat}
    (kept : ∀ j, i ≤ j → j < i + count → update[j]? = some (some (last j)))
    (tallLast : ∀ j, i ≤ j → j < i + count → j < s.height (last j))
    (tallNode : ∀ j, i ≤ j → j < i + count → j < s.height node)
    (apart : ∀ j, i ≤ j → j < i + count → last j ≠ node) :
    ∃ t, link update node count i s = some t ∧ Relinked s t ∧
      ∀ j y, t.next j y = if i ≤ j ∧ j < i + count then
        (if y = last j then some (some node) else if y = node then s.next j (last j) else s.next j y)
        else s.next j y := by
  induction count generalizing i s with
  | zero =>
    refine ⟨s, rfl, ⟨rfl, rfl, fun _ => rfl⟩, fun j y => ?_⟩
    rw [if_neg (by omega)]
  | succ count ih =>
    have here : i < i + (count + 1) := by omega
    obtain ⟨n, atLast, inside⟩ := node_of_height (tallLast i (Nat.le_refl i) here)
    have ahead : s.next i (last i) = some n.forward[i] := by
      simp only [next, atLast, Option.bind_eq_bind, Option.bind_some, List.getElem?_eq_getElem inside]
    obtain ⟨first, stored, same, nexts⟩ := setForward_spec (s := s) n.forward[i] (tallNode i (Nat.le_refl i) here)
    have tall : i < first.height (last i) := same.height (last i) ▸ tallLast i (Nat.le_refl i) here
    obtain ⟨second, linked, sameAgain, nextsAgain⟩ := setForward_spec (s := first) (some node) tall
    have relinked : Relinked s second := same.trans sameAgain
    obtain ⟨t, done, sameRest, nextsRest⟩ := ih (i := i + 1) (s := second)
      (fun j low high => kept j (by omega) (by omega))
      (fun j low high => relinked.height (last j) ▸ tallLast j (by omega) (by omega))
      (fun j low high => relinked.height node ▸ tallNode j (by omega) (by omega))
      (fun j low high => apart j (by omega) (by omega))
    refine ⟨t, ?_, relinked.trans sameRest, fun j y => ?_⟩
    · simp only [link, kept i (Nat.le_refl i) here, ahead, stored, linked, Option.bind_eq_bind, Option.bind_some]
      exact done
    · have apartHere : last i ≠ node := apart i (Nat.le_refl i) here
      have before : ∀ j z, second.next j z = if j = i ∧ z = last i then some (some node)
          else if j = i ∧ z = node then s.next i (last i) else s.next j z := by
        intro j z
        rw [nextsAgain, nexts, ahead]
      simp only [nextsRest, before]
      -- The level just linked, the levels still to link, and those that stay.
      rcases Nat.lt_trichotomy j i with low | rfl | high
      · rw [if_neg (by omega), if_neg (by omega), if_neg (by omega), if_neg (by omega)]
      · have linkedHere : ¬(j + 1 ≤ j ∧ j < j + 1 + count) := by omega
        simp only [if_neg linkedHere, Nat.le_refl, here, true_and, if_true]
      · simp only [Nat.ne_of_gt high, false_and, if_false]
        exact if_congr (by omega) rfl rfl

end

/-! ### The nodes in order -/

/-- The nodes in key order; level `i` is the chain through those that are higher than `i`. -/
structure Ordered (s : SkipList) (order : List Nat) : Prop where
  header_height : s.height header = maxLevel
  level_low : 1 ≤ s.level
  level_high : s.level ≤ maxLevel
  apart : header ∉ order
  height_low : ∀ x ∈ order, 0 < s.height x
  height_high : ∀ x ∈ order, s.height x ≤ s.level
  sorted : order.Pairwise fun first second => s.key first < s.key second
  chains : ∀ i < maxLevel, Path (s.next i) header (order.filter fun x => i < s.height x)

theorem newSkipList_ordered : newSkipList.Ordered [] where
  header_height := rfl
  level_low := Nat.le_refl 1
  level_high := by decide
  apart := List.not_mem_nil
  height_low := fun _ present => absurd present List.not_mem_nil
  height_high := fun _ present => absurd present List.not_mem_nil
  sorted := List.Pairwise.nil
  chains := show ∀ i < maxLevel, newSkipList.next i header = some none by decide

def stop (s : SkipList) (before : List Nat) (i : Nat) : Nat := (before.filter fun x => i < s.height x).getLastD header

namespace Ordered

variable {s : SkipList} {order before after : List Nat} {key : Bytes} {i : Nat}

theorem nodup (ordered : s.Ordered order) : (header :: order).Nodup :=
  List.nodup_cons.mpr ⟨ordered.apart, ordered.sorted.imp fun below => ne_of_apply_ne s.key below.ne⟩

theorem length_lt (ordered : s.Ordered order) : order.length < s.nodes.length := by
  have addresses : ∀ x ∈ header :: order, x ∈ List.range s.nodes.length := by
    intro x present
    rw [List.mem_range]
    rcases List.mem_cons.mp present with rfl | inside
    · exact address_of_height (i := 0) (ordered.header_height ▸ by decide)
    · exact address_of_height (ordered.height_low x inside)
  have fits := (List.subperm_of_subset ordered.nodup addresses).length_le
  rwa [List.length_range] at fits

theorem lowest (ordered : s.Ordered order) : Path (s.next 0) header order := by
  have path := ordered.chains 0 (by decide)
  have all : (order.filter fun x => 0 < s.height x) = order :=
    List.filter_eq_self.mpr fun x present => decide_eq_true (ordered.height_low x present)
  rwa [all] at path

theorem split (ordered : s.Ordered order) (key : Bytes) :
    ∃ before after, order = before ++ after ∧ (∀ x ∈ before, s.key x < key) ∧ ∀ x ∈ after, ¬s.key x < key := by
  refine ⟨order.takeWhile fun x => s.key x < key, order.dropWhile fun x => s.key x < key,
    List.takeWhile_append_dropWhile.symm, fun x present => by simpa using List.mem_takeWhile_imp present, ?_⟩
  intro x present smaller
  have sorted := ordered.sorted.sublist (List.dropWhile_sublist fun x => s.key x < key)
  have first := List.head?_dropWhile_not (fun x => decide (s.key x < key)) order
  cases rest : order.dropWhile fun x => s.key x < key with
  | nil => exact absurd (rest ▸ present) List.not_mem_nil
  | cons y later =>
    rw [rest] at sorted present first
    have stops : ¬s.key y < key := by simpa using first
    rcases List.mem_cons.mp present with rfl | inside
    · exact stops smaller
    · exact stops (lt_trans ((List.pairwise_cons.mp sorted).1 x inside) smaller)

section
variable (ordered : s.Ordered (before ++ after)) (smaller : ∀ x ∈ before, s.key x < key)
  (rest : ∀ x ∈ after, ¬s.key x < key)

include ordered

theorem stop_level (unused : s.level ≤ i) : s.stop before i = header := by
  have none : (before.filter fun x => i < s.height x) = [] := by
    rw [List.filter_eq_nil_iff]
    intro x present tall
    have high := ordered.height_high x (List.mem_append_left after present)
    have above : i < s.height x := of_decide_eq_true tall
    omega
  rw [stop, none, List.getLastD_nil]

theorem stop_height (inside : i < maxLevel) : i < s.height (s.stop before i) := by
  have member : s.stop before i ∈ header :: before.filter fun x => i < s.height x := List.getLastD_mem_cons
  rcases List.mem_cons.mp member with first | later
  · rw [first, ordered.header_height]
    exact inside
  · exact of_decide_eq_true (List.mem_filter.mp later).2

theorem next_stop : s.next 0 (s.stop before 0) = some after.head? := by
  have path := ordered.lowest
  have all : (before.filter fun x => 0 < s.height x) = before :=
    List.filter_eq_self.mpr fun x present => decide_eq_true (ordered.height_low x (List.mem_append_left after present))
  rw [stop, all]
  exact path.rest.head

include smaller rest

theorem advance_stop (inside : i < maxLevel) :
    advance (s.next i) (s.below key) s.nodes.length (s.stop before (i + 1)) = some (s.stop before i) := by
  have path := ordered.chains i inside
  rw [List.filter_append] at path
  apply path.advance_from
  · -- What is linked into the level above is linked into this one.
    have wider : (before.filter fun x => i + 1 < s.height x) ⊆ before.filter fun x => i < s.height x := by
      intro x present
      obtain ⟨member, tall⟩ := List.mem_filter.mp present
      have above : i + 1 < s.height x := of_decide_eq_true tall
      exact List.mem_filter.mpr ⟨member, decide_eq_true (by omega)⟩
    exact List.cons_subset_cons header wider List.getLastD_mem_cons
  · intro x present
    obtain ⟨member, tall⟩ := List.mem_filter.mp present
    rw [below_eq key (of_decide_eq_true tall), decide_eq_true (smaller x member)]
  · intro x first
    obtain ⟨member, tall⟩ := List.mem_filter.mp (List.mem_of_head? first)
    rw [below_eq key (of_decide_eq_true tall), decide_eq_false (rest x member)]
  · have fewer := List.length_filter_le (fun x => decide (i < s.height x)) before
    have fits := ordered.length_lt
    rw [List.length_append] at fits
    omega

theorem seek_eq (inside : i ≤ maxLevel) : s.seek key i (s.stop before i) = some (s.stop before 0) := by
  induction i with
  | zero => rfl
  | succ i ih =>
    simp only [seek, ordered.advance_stop smaller rest inside, Option.bind_eq_bind, Option.bind_some]
    exact ih (Nat.le_of_succ_le inside)

theorem seekUpdate_eq (inside : i ≤ maxLevel) {update : List (Option Nat)} (full : update.length = maxLevel) :
    ∃ kept, s.seekUpdate key i (s.stop before i) update = some (s.stop before 0, kept) ∧ kept.length = maxLevel ∧
      ∀ j, kept[j]? = if j < i then some (some (s.stop before j)) else update[j]? := by
  induction i generalizing update with
  | zero => exact ⟨update, rfl, full, fun j => (if_neg (Nat.not_lt_zero j)).symm⟩
  | succ i ih =>
    obtain ⟨kept, walked, length, slots⟩ := ih (Nat.le_of_succ_le inside) (List.length_set.trans full)
    refine ⟨kept, ?_, length, fun j => ?_⟩
    · simp only [seekUpdate, ordered.advance_stop smaller rest inside, store_eq _ (full ▸ inside : i < update.length),
        Option.bind_eq_bind, Option.bind_some]
      exact walked
    · rw [slots j]
      rcases Nat.lt_trichotomy j i with low | rfl | high
      · rw [if_pos low, if_pos (Nat.lt_succ_of_lt low)]
      · rw [if_neg (Nat.lt_irrefl j), List.getElem?_set_self (full ▸ inside), if_pos (Nat.lt_succ_self j)]
      · rw [if_neg (by omega), List.getElem?_set_ne (Nat.ne_of_lt high), if_neg (by omega)]

theorem matching_spec :
    (∃ x n later, after = x :: later ∧ s.nodes[x]? = some n ∧ n.key = key ∧
      s.matching key after.head? = some (some (x, n))) ∨
    (∀ x ∈ before ++ after, s.key x ≠ key) ∧ s.matching key after.head? = some none := by
  cases after with
  | nil =>
    refine Or.inr ⟨fun x present => ?_, rfl⟩
    rw [List.append_nil] at present
    exact (smaller x present).ne
  | cons x later =>
    obtain ⟨n, here, -⟩ := node_of_height (ordered.height_low x (List.mem_append_right before List.mem_cons_self))
    have its : s.key x = n.key := by rw [SkipList.key, entry_of_node here]
    by_cases equal : n.key = key
    · refine Or.inl ⟨x, n, later, rfl, here, equal, ?_⟩
      simp only [matching, List.head?_cons, here, Option.bind_eq_bind, Option.bind_some, if_pos equal]
    · have larger : key < s.key x := lt_of_le_of_ne (not_lt.mp (rest x List.mem_cons_self)) (its ▸ Ne.symm equal)
      refine Or.inr ⟨fun y present => ?_, ?_⟩
      · have tail := (List.pairwise_append.mp ordered.sorted).2.1
        rcases List.mem_append.mp present with early | late
        · exact (smaller y early).ne
        · rcases List.mem_cons.mp late with rfl | later
          · exact larger.ne'
          · exact (lt_trans larger ((List.pairwise_cons.mp tail).1 y later)).ne'
      · simp only [matching, List.head?_cons, here, Option.bind_eq_bind, Option.bind_some, if_neg equal]

end

theorem search_spec (ordered : s.Ordered order) (key : Bytes) :
    (∃ x ∈ order, ∃ n, s.nodes[x]? = some n ∧ n.key = key ∧ s.search key = some (some n)) ∨
    (∀ x ∈ order, s.key x ≠ key) ∧ s.search key = some none := by
  obtain ⟨before, after, rfl, smaller, rest⟩ := ordered.split key
  have walked : s.seek key s.level header = some (s.stop before 0) := by
    have walk := ordered.seek_eq smaller rest ordered.level_high
    rwa [ordered.stop_level (Nat.le_refl _)] at walk
  rcases ordered.matching_spec smaller rest with ⟨x, n, later, split, here, equal, found⟩ | ⟨absent, missing⟩
  · refine Or.inl ⟨x, List.mem_append_right before (split ▸ List.mem_cons_self), n, here, equal, ?_⟩
    simp only [search, walked, ordered.next_stop, found, Option.bind_eq_bind, Option.bind_some, Option.map_some]
  · refine Or.inr ⟨absent, ?_⟩
    simp only [search, walked, ordered.next_stop, missing, Option.bind_eq_bind, Option.bind_some, Option.map_none]

theorem forEachFrom_eq {x : Nat} (path : Path (s.next 0) x order) (tall : ∀ y ∈ order, 0 < s.height y) {fuel : Nat}
    (enough : order.length ≤ fuel) :
    ∃ nodes, s.forEachFrom fuel order.head? = some nodes ∧
      nodes.map (fun n => (n.key, n.value, n.deleted)) = order.map s.entry := by
  induction order generalizing x fuel with
  | nil => exact ⟨[], by cases fuel <;> rfl, rfl⟩
  | cons y order ih =>
    cases fuel with
    | zero => exact absurd enough (Nat.not_succ_le_zero _)
    | succ fuel =>
      obtain ⟨nodes, walked, same⟩ :=
        ih path.2 (fun z present => tall z (List.mem_cons_of_mem y present)) (Nat.le_of_succ_le_succ enough)
      obtain ⟨n, here, -⟩ := node_of_height (tall y List.mem_cons_self)
      have ahead : n.forward[0]? = some order.head? := by
        have next := path.2.head
        simpa only [SkipList.next, here, Option.bind_eq_bind, Option.bind_some] using next
      refine ⟨n :: nodes, ?_, ?_⟩
      · simp only [forEachFrom, List.head?_cons, here, ahead, walked, Option.bind_eq_bind, Option.bind_some]
      · rw [List.map_cons, List.map_cons, same, entry_of_node here]

theorem forEach_eq (ordered : s.Ordered order) :
    ∃ nodes, s.forEach = some nodes ∧
      nodes.map (fun n => (n.key, n.value, n.deleted)) = order.map s.entry := by
  have path := ordered.lowest
  obtain ⟨nodes, walked, same⟩ := forEachFrom_eq path ordered.height_low (Nat.le_of_lt ordered.length_lt)
  refine ⟨nodes, ?_, same⟩
  simp only [forEach, path.head, Option.bind_eq_bind, Option.bind_some]
  exact walked

theorem congr {t : SkipList} (ordered : s.Ordered order) (level : t.level = s.level)
    (height : ∀ x, t.height x = s.height x) (key : ∀ x, t.key x = s.key x) (next : ∀ i x, t.next i x = s.next i x) :
    t.Ordered order where
  header_height := (height header).trans ordered.header_height
  level_low := level ▸ ordered.level_low
  level_high := level ▸ ordered.level_high
  apart := ordered.apart
  height_low := fun x present => height x ▸ ordered.height_low x present
  height_high := fun x present => height x ▸ level ▸ ordered.height_high x present
  sorted := ordered.sorted.imp fun {first second} below => by rwa [key first, key second]
  chains := fun i inside => by
    simp only [height]
    exact (ordered.chains i inside).congr fun x _ => next i x

end Ordered

/-! ### Inserting and updating -/

section
variable {s t : SkipList} {order before after : List Nat} {key value : Bytes} {deleted : Bool}

theorem fill_spec {count i : Nat} {update : List (Option Nat)} (fits : i + count ≤ update.length) :
    ∃ filled, fill count i update = some filled ∧
      ∀ j, filled[j]? = if i ≤ j ∧ j < i + count then some (some header) else update[j]? := by
  induction count generalizing i update with
  | zero => exact ⟨update, rfl, fun j => (if_neg (by omega)).symm⟩
  | succ count ih =>
    have rest : i + 1 + count ≤ (update.set i (some header)).length := by
      rw [List.length_set]
      omega
    obtain ⟨filled, done, slots⟩ := ih rest
    refine ⟨filled, ?_, fun j => ?_⟩
    · simp only [fill, store_eq _ (show i < update.length by omega), Option.bind_eq_bind, Option.bind_some]
      exact done
    · rw [slots j]
      by_cases here : i = j
      · subst here
        rw [if_neg (by omega), if_pos (by omega), List.getElem?_set_self (by omega)]
      · rw [List.getElem?_set_ne here]
        exact if_congr (by omega) rfl rfl

theorem overwrite_spec {x : Nat} {n : SkipListNode} (here : s.nodes[x]? = some n) (value : Bytes) (deleted : Bool) :
    ∃ nodes, store s.nodes x { n with value := value, deleted := deleted } = some nodes ∧
      (∀ i y, (⟨nodes, s.level⟩ : SkipList).next i y = s.next i y) ∧
      (∀ y, (⟨nodes, s.level⟩ : SkipList).height y = s.height y) ∧
      ∀ y, (⟨nodes, s.level⟩ : SkipList).entry y = if y = x then (n.key, value, deleted) else s.entry y := by
  have address : x < s.nodes.length := (List.getElem?_eq_some_iff.mp here).1
  refine ⟨_, store_eq _ address, fun i y => ?_, fun y => ?_, fun y => ?_⟩ <;> by_cases same : x = y
  · subst same
    simp only [next, List.getElem?_set_self address, here, Option.bind_eq_bind, Option.bind_some]
  · simp only [next, List.getElem?_set_ne same]
  · subst same
    simp only [height, label, List.getElem?_set_self address, here, Option.map_some, SkipListNode.label,
      Option.elim_some]
  · simp only [height, label, List.getElem?_set_ne same]
  · subst same
    simp only [entry, label, List.getElem?_set_self address, Option.map_some, SkipListNode.label, Option.elim_some,
      if_true]
  · simp only [entry, label, List.getElem?_set_ne same, if_neg (Ne.symm same)]

/-- What `t` has of a new node and of the nodes before: the node is the successor of the one kept for
each of its levels and takes over that one's successor. -/
structure Inserted (s : SkipList) (before : List Nat) (n : SkipListNode) (t : SkipList) : Prop where
  level : t.level = max s.level n.forward.length
  new : t.label s.nodes.length = some n.label
  old : ∀ x, x ≠ s.nodes.length → t.label x = s.label x
  next : ∀ i x, t.next i x = if i < n.forward.length then
    (if x = s.stop before i then some (some s.nodes.length)
      else if x = s.nodes.length then s.next i (s.stop before i) else s.next i x) else s.next i x

namespace Inserted

variable {n : SkipListNode} {x : Nat}

theorem new_height (inserted : s.Inserted before n t) : t.height s.nodes.length = n.forward.length := by
  simp only [height, inserted.new, Option.elim_some, SkipListNode.label]

theorem new_entry (inserted : s.Inserted before n t) : t.entry s.nodes.length = (n.key, n.value, n.deleted) := by
  simp only [entry, inserted.new, Option.elim_some, SkipListNode.label]

theorem old_height (inserted : s.Inserted before n t) (old : x ≠ s.nodes.length) : t.height x = s.height x := by
  simp only [height, inserted.old x old]

theorem old_entry (inserted : s.Inserted before n t) (old : x ≠ s.nodes.length) : t.entry x = s.entry x := by
  simp only [entry, inserted.old x old]

end Inserted

namespace Ordered

theorem old_address (ordered : s.Ordered order) {x : Nat} (present : x ∈ header :: order) : x ≠ s.nodes.length := by
  rcases List.mem_cons.mp present with rfl | inside
  · exact Nat.ne_of_lt (address_of_height (i := 0) (ordered.header_height ▸ by decide))
  · exact Nat.ne_of_lt (address_of_height (ordered.height_low x inside))

section
variable {n : SkipListNode} (ordered : s.Ordered (before ++ after)) (inserted : s.Inserted before n t)

include ordered inserted

theorem inserted_sorted (smaller : ∀ x ∈ before, s.key x < n.key) (larger : ∀ x ∈ after, n.key < s.key x) :
    (before ++ s.nodes.length :: after).Pairwise fun first second => t.key first < t.key second := by
  obtain ⟨front, back, across⟩ := List.pairwise_append.mp ordered.sorted
  have early : ∀ {x}, x ∈ before → t.key x = s.key x := fun present => congrArg Prod.fst
    (inserted.old_entry (ordered.old_address (List.mem_cons_of_mem _ (List.mem_append_left _ present))))
  have late : ∀ {x}, x ∈ after → t.key x = s.key x := fun present => congrArg Prod.fst
    (inserted.old_entry (ordered.old_address (List.mem_cons_of_mem _ (List.mem_append_right _ present))))
  have new : t.key s.nodes.length = n.key := congrArg Prod.fst inserted.new_entry
  refine List.pairwise_append.mpr ⟨?_, List.pairwise_cons.mpr ⟨fun y later => ?_, ?_⟩, fun x first y second => ?_⟩
  · exact front.imp_of_mem fun inX inY below => by rwa [early inX, early inY]
  · rw [new, late later]
    exact larger y later
  · exact back.imp_of_mem fun inX inY below => by rwa [late inX, late inY]
  · rw [early first]
    rcases List.mem_cons.mp second with rfl | later
    · rw [new]
      exact smaller x first
    · rw [late later]
      exact across x first y later

theorem inserted_chain {i : Nat} (inside : i < maxLevel) :
    Path (t.next i) header ((before ++ s.nodes.length :: after).filter fun x => i < t.height x) := by
  have old : ∀ x ∈ header :: (before ++ after).filter fun x => i < s.height x, x ≠ s.nodes.length := fun x present =>
    ordered.old_address (List.cons_subset_cons header List.filter_sublist.subset present)
  have same : ∀ part ⊆ before ++ after,
      (part.filter fun x => i < t.height x) = part.filter fun x => i < s.height x := fun part inPart =>
    List.filter_congr fun x present => by
      rw [inserted.old_height (ordered.old_address (List.mem_cons_of_mem _ (inPart present)))]
  have path := ordered.chains i inside
  have nodup : (header :: (before ++ after).filter fun x => i < s.height x).Nodup :=
    ordered.nodup.sublist (List.Sublist.cons_cons header List.filter_sublist)
  rw [List.filter_append] at path nodup old
  rw [List.filter_append, List.filter_cons, same before (List.subset_append_left _ _),
    same after (List.subset_append_right _ _), inserted.new_height]
  have next := inserted.next i
  by_cases linked : i < n.forward.length
  · simp only [if_pos linked] at next
    have apart : s.nodes.length ≠ s.stop before i :=
      Nat.ne_of_gt (address_of_height (ordered.stop_height inside))
    rw [if_pos (decide_eq_true linked)]
    refine path.splice nodup (fun present => old _ present rfl) ((next _).trans (if_pos rfl)) ?_
      fun x notStop notNew => ?_
    · exact (next _).trans ((if_neg apart).trans (if_pos rfl))
    · exact (next x).trans ((if_neg notStop).trans (if_neg notNew))
  · simp only [if_neg linked] at next
    rw [if_neg (by rwa [decide_eq_true_iff])]
    exact path.congr fun x _ => next x

theorem insert (smaller : ∀ x ∈ before, s.key x < n.key) (larger : ∀ x ∈ after, n.key < s.key x)
    (low : 0 < n.forward.length) (high : n.forward.length ≤ maxLevel) :
    t.Ordered (before ++ s.nodes.length :: after) := by
  have members : ∀ {x}, x ∈ before ++ s.nodes.length :: after → x = s.nodes.length ∨ x ∈ before ++ after := by
    intro x present
    simp only [List.mem_append, List.mem_cons] at present ⊢
    tauto
  have headerOld : header ≠ s.nodes.length := ordered.old_address List.mem_cons_self
  have heights : ∀ {x}, x ∈ before ++ after → t.height x = s.height x := fun present =>
    inserted.old_height (ordered.old_address (List.mem_cons_of_mem _ present))
  refine ⟨(inserted.old_height headerOld).trans ordered.header_height, ?_, ?_, ?_, ?_, ?_,
    ordered.inserted_sorted inserted smaller larger, fun i => ordered.inserted_chain inserted⟩
  · exact inserted.level ▸ Nat.le_trans ordered.level_low (Nat.le_max_left _ _)
  · exact inserted.level ▸ Nat.max_le.mpr ⟨ordered.level_high, high⟩
  · exact fun present => (members present).elim headerOld ordered.apart
  · intro x present
    rcases members present with rfl | old
    · exact inserted.new_height ▸ low
    · exact heights old ▸ ordered.height_low x old
  · intro x present
    rcases members present with rfl | old
    · exact inserted.new_height ▸ inserted.level ▸ Nat.le_max_right _ _
    · exact heights old ▸ inserted.level ▸ Nat.le_trans (ordered.height_high x old) (Nat.le_max_left _ _)

end

theorem link_inserted (ordered : s.Ordered (before ++ after)) {update : List (Option Nat)} {n : SkipListNode}
    (high : n.forward.length ≤ maxLevel) (kept : ∀ j < n.forward.length, update[j]? = some (some (s.stop before j))) :
    ∃ t, link update s.nodes.length n.forward.length 0 ⟨s.nodes ++ [n], max s.level n.forward.length⟩ = some t ∧
      s.Inserted before n t := by
  let grown : SkipList := ⟨s.nodes ++ [n], max s.level n.forward.length⟩
  have new : grown.nodes[s.nodes.length]? = some n := List.getElem?_concat_length
  have old : ∀ x, x ≠ s.nodes.length → grown.nodes[x]? = s.nodes[x]? := by
    intro x apart
    rw [List.getElem?_append, List.getElem?_singleton]
    split
    · rfl
    · rw [if_neg (by omega), List.getElem?_eq_none (by omega)]
  have labels : ∀ x, x ≠ s.nodes.length → grown.label x = s.label x := fun x apart => by simp only [label, old x apart]
  have stopOld : ∀ j < n.forward.length, s.stop before j ≠ s.nodes.length := fun j inside =>
    Nat.ne_of_lt (address_of_height (ordered.stop_height (Nat.lt_of_lt_of_le inside high)))
  obtain ⟨t, linked, relinked, nexts⟩ := link_spec (s := grown) (i := 0) update s.nodes.length
    (s.stop before) (fun j _ inside => kept j (Nat.zero_add n.forward.length ▸ inside))
    (fun j _ inside => by
      rw [Nat.zero_add] at inside
      simp only [height, labels _ (stopOld j inside)]
      exact ordered.stop_height (Nat.lt_of_lt_of_le inside high))
    (fun j _ inside => height_of_node new ▸ Nat.zero_add n.forward.length ▸ inside)
    (fun j _ inside => stopOld j (Nat.zero_add n.forward.length ▸ inside))
  refine ⟨t, linked, relinked.level, ?_, fun x apart => (relinked.label x).trans (labels x apart), fun i x => ?_⟩
  · rw [relinked.label, label, new, Option.map_some]
  · rw [nexts]
    simp only [Nat.zero_le, true_and, Nat.zero_add]
    have oldNext : ∀ y, y ≠ s.nodes.length → grown.next i y = s.next i y :=
      fun y apart => by simp only [next, old y apart]
    by_cases inside : i < n.forward.length
    · simp only [if_pos inside, oldNext _ (stopOld i inside)]
      by_cases here : x = s.nodes.length
      · simp only [if_pos here]
      · simp only [if_neg here, oldNext x here]
    · simp only [if_neg inside]
      by_cases here : x = s.nodes.length
      · -- The new node has no pointer at this level, and there was no node at its address.
        subst here
        simp only [next, new, List.getElem?_eq_none (Nat.le_refl s.nodes.length), Option.bind_eq_bind, Option.bind_some,
          Option.bind_none]
        exact List.getElem?_eq_none (Nat.le_of_not_lt inside)
      · exact oldNext x here

theorem key_injective (ordered : s.Ordered order) {x y : Nat} (inX : x ∈ order) (inY : y ∈ order)
    (same : s.key x = s.key y) : x = y := by
  have distinct : (order.map s.key).Nodup := List.pairwise_map.mpr (ordered.sorted.imp LT.lt.ne)
  exact List.inj_on_of_nodup_map distinct inX inY same

theorem entry_unique (ordered : s.Ordered order) {first second : Bytes × Bytes × Bool}
    (inFirst : first ∈ order.map s.entry) (inSecond : second ∈ order.map s.entry) (same : first.1 = second.1) :
    first = second := by
  obtain ⟨x, inX, rfl⟩ := List.mem_map.mp inFirst
  obtain ⟨y, inY, rfl⟩ := List.mem_map.mp inSecond
  exact congrArg s.entry (ordered.key_injective inX inY same)

theorem overwrite (ordered : s.Ordered order) {x : Nat} {n : SkipListNode} (present : x ∈ order)
    (here : s.nodes[x]? = some n) (value : Bytes) (deleted : Bool) :
    ∃ nodes, store s.nodes x { n with value := value, deleted := deleted } = some nodes ∧
      Ordered ⟨nodes, s.level⟩ order ∧ ∀ e, e ∈ order.map (SkipList.entry ⟨nodes, s.level⟩) ↔
        e = (n.key, value, deleted) ∨ e.1 ≠ n.key ∧ e ∈ order.map s.entry := by
  obtain ⟨nodes, stored, nexts, heights, entries⟩ := overwrite_spec here value deleted
  have its : s.key x = n.key := congrArg Prod.fst (entry_of_node here)
  have keys : ∀ y, SkipList.key ⟨nodes, s.level⟩ y = s.key y := by
    intro y
    rw [SkipList.key, entries]
    by_cases same : y = x
    · rw [if_pos same, same, its]
    · rw [if_neg same, SkipList.key]
  refine ⟨nodes, stored, ordered.congr rfl heights keys nexts, fun e => ?_⟩
  simp only [List.mem_map, entries]
  constructor
  · rintro ⟨y, inside, rfl⟩
    by_cases same : y = x
    · exact Or.inl (if_pos same)
    · rw [if_neg same]
      exact Or.inr ⟨fun equal => same (ordered.key_injective inside present (equal.trans its.symm)), y, inside, rfl⟩
  · rintro (rfl | ⟨other, y, inside, rfl⟩)
    · exact ⟨x, present, if_pos rfl⟩
    · refine ⟨y, inside, if_neg ?_⟩
      rintro rfl
      exact other its

theorem insert_new (ordered : s.Ordered (before ++ after)) (smaller : ∀ x ∈ before, s.key x < key)
    (rest : ∀ x ∈ after, ¬s.key x < key) (absent : ∀ x ∈ before ++ after, s.key x ≠ key) {update : List (Option Nat)}
    (full : update.length = maxLevel) (kept : ∀ j < s.level, update[j]? = some (some (s.stop before j)))
    (node : SkipListNode) (its : node.key = key) (low : 0 < node.forward.length)
    (high : node.forward.length ≤ maxLevel) :
    ∃ filled t, fill (node.forward.length - s.level) s.level update = some filled ∧
      link filled s.nodes.length node.forward.length 0 ⟨s.nodes ++ [node], max s.level node.forward.length⟩ = some t ∧
      t.Ordered (before ++ s.nodes.length :: after) ∧ ∀ e, e ∈ (before ++ s.nodes.length :: after).map t.entry ↔
        e = (node.key, node.value, node.deleted) ∨ e.1 ≠ node.key ∧ e ∈ (before ++ after).map s.entry := by
  have levels := ordered.level_high
  have fits : s.level + (node.forward.length - s.level) ≤ update.length := by omega
  obtain ⟨filled, done, slots⟩ := fill_spec fits
  have keptAll : ∀ j < node.forward.length, filled[j]? = some (some (s.stop before j)) := by
    intro j inside
    rw [slots]
    by_cases used : j < s.level
    · rw [if_neg (by omega), kept j used]
    · rw [if_pos (by omega), ordered.stop_level (Nat.le_of_not_lt used)]
  obtain ⟨t, linked, inserted⟩ := ordered.link_inserted high keptAll
  subst its
  have larger : ∀ x ∈ after, node.key < s.key x := fun x present =>
    lt_of_le_of_ne (not_lt.mp (rest x present)) (Ne.symm (absent x (List.mem_append_right before present)))
  refine ⟨filled, t, done, linked, ordered.insert inserted smaller larger low high, fun e => ?_⟩
  have same : ∀ x ∈ before ++ after, t.entry x = s.entry x := fun x present =>
    inserted.old_entry (ordered.old_address (List.mem_cons_of_mem _ present))
  have perm : (before ++ s.nodes.length :: after).Perm (s.nodes.length :: (before ++ after)) := List.perm_middle
  rw [(perm.map t.entry).mem_iff, List.map_cons, List.map_congr_left same, List.mem_cons, inserted.new_entry]
  refine or_congr_right ⟨fun present => ⟨?_, present⟩, And.right⟩
  obtain ⟨x, inside, rfl⟩ := List.mem_map.mp present
  exact absent x inside

theorem upsert_spec (ordered : s.Ordered order) (key value : Bytes) (deleted : Bool) (coins : List Bool) :
    ∃ t found later, s.upsert key value deleted coins = some (t, found) ∧ t.Ordered later ∧
      (∀ e, e ∈ later.map t.entry ↔ e = (key, value, deleted) ∨ e.1 ≠ key ∧ e ∈ order.map s.entry) ∧
      ((∃ old wasDeleted, (key, old, wasDeleted) ∈ order.map s.entry ∧ found = ⟨true, wasDeleted, old.length⟩) ∨
        (∀ x ∈ order, s.key x ≠ key) ∧ found = ⟨false, false, 0⟩) := by
  obtain ⟨before, after, rfl, smaller, rest⟩ := ordered.split key
  obtain ⟨kept, walked, full, slots⟩ :=
    ordered.seekUpdate_eq smaller rest ordered.level_high (List.length_replicate (n := maxLevel) (a := none))
  rw [ordered.stop_level (Nat.le_refl _)] at walked
  rcases ordered.matching_spec smaller rest with ⟨x, n, later, split, here, rfl, matched⟩ | ⟨absent, missing⟩
  · have present : x ∈ before ++ after := List.mem_append_right before (split ▸ List.mem_cons_self)
    obtain ⟨nodes, stored, overwritten, entries⟩ := ordered.overwrite present here value deleted
    refine ⟨⟨nodes, s.level⟩, ⟨true, n.deleted, n.value.length⟩, before ++ after, ?_, overwritten, entries,
      Or.inl ⟨n.value, n.deleted, List.mem_map.mpr ⟨x, present, entry_of_node here⟩, rfl⟩⟩
    simp only [upsert, walked, ordered.next_stop, matched, stored, Option.bind_eq_bind, Option.bind_some]
  · obtain ⟨low, high⟩ := randomLevel_bounds coins
    obtain ⟨filled, t, filling, linking, inserted, entries⟩ := ordered.insert_new smaller rest absent full
      (fun j used => (slots j).trans (if_pos used))
      ⟨key, value, deleted, List.replicate (randomLevel coins) none⟩ rfl
      (by rwa [List.length_replicate]) (by rwa [List.length_replicate])
    rw [List.length_replicate] at filling linking
    refine ⟨t, ⟨false, false, 0⟩, _, ?_, inserted, entries, Or.inr ⟨absent, rfl⟩⟩
    simp only [upsert, walked, ordered.next_stop, missing, filling, linking, Option.bind_eq_bind, Option.bind_some]

end Ordered

end

end SkipList

end ForgeDB.Storage.MemTable
