import ForgeDB.Data.SortedMap
import Mathlib.Data.List.Nodup

/-!
The merge of sorted sequences through a heap of their fronts. Where several sequences hold the same
key, the entry of the greatest source wins and the others are discarded; the winners that are to be
kept come out in strictly increasing key order.
-/

namespace ForgeDB

namespace KWayMerge

variable {ι κ α : Type} [LinearOrder κ]

structure Item (ι α : Type) where
  source : ι
  entry : α

/-! ### The heap -/

/-- What it is to take out an item with the smallest key. Only the keys are compared. -/
structure Pops (key : α → κ) (heap : List (Item ι α)) (item : Item ι α) (rest : List (Item ι α)) : Prop where
  perm : heap.Perm (item :: rest)
  least : ∀ other ∈ heap, key item.entry ≤ key other.entry

def pop (key : α → κ) : List (Item ι α) → Option (Item ι α × List (Item ι α))
  | [] => none
  | first :: rest =>
    match pop key rest with
    | none => some (first, [])
    | some (least, others) =>
      if key least.entry < key first.entry then some (least, first :: others) else some (first, rest)

theorem pop_eq_none {key : α → κ} {heap : List (Item ι α)} (empty : pop key heap = none) : heap = [] := by
  cases heap with
  | nil => rfl
  | cons first rest =>
    unfold pop at empty
    split at empty
    · cases empty
    · split at empty <;> cases empty

theorem pop_perm {key : α → κ} {heap rest : List (Item ι α)} {item : Item ι α}
    (popped : pop key heap = some (item, rest)) : heap.Perm (item :: rest) := by
  induction heap generalizing item rest with
  | nil => cases popped
  | cons first others ih =>
    unfold pop at popped
    split at popped
    · rename_i empty
      cases popped
      rw [pop_eq_none empty]
    · rename_i least behind found
      split at popped
      · cases popped
        exact ((ih found).cons first).trans (List.Perm.swap _ _ _)
      · cases popped
        exact List.Perm.refl _

theorem pop_least {key : α → κ} {heap rest : List (Item ι α)} {item : Item ι α}
    (popped : pop key heap = some (item, rest)) : ∀ other ∈ heap, key item.entry ≤ key other.entry := by
  induction heap generalizing item rest with
  | nil => cases popped
  | cons first others ih =>
    unfold pop at popped
    split at popped
    · rename_i empty
      cases popped
      rw [pop_eq_none empty]
      intro other present
      rw [List.mem_singleton.mp present]
    · rename_i least behind found
      split at popped
      · rename_i below
        cases popped
        exact List.forall_mem_cons.mpr ⟨le_of_lt below, ih found⟩
      · rename_i notBelow
        cases popped
        exact List.forall_mem_cons.mpr
          ⟨le_refl _, fun other present => le_trans (not_lt.mp notBelow) (ih found other present)⟩

theorem pop_pops {key : α → κ} {heap rest : List (Item ι α)} {item : Item ι α}
    (popped : pop key heap = some (item, rest)) : Pops key heap item rest :=
  ⟨pop_perm popped, pop_least popped⟩

/-- A heap of items. It may keep them in any order, as long as what it gives out is a smallest one. -/
structure Heap (key : α → κ) (ι : Type) where
  Carrier : Type
  empty : Carrier
  push : Carrier → Item ι α → Carrier
  pop : Carrier → Option (Item ι α × Carrier)
  items : Carrier → List (Item ι α)
  items_empty : items empty = []
  items_push : ∀ heap item, (items (push heap item)).Perm (item :: items heap)
  items_of_none : ∀ {heap}, pop heap = none → items heap = []
  items_of_some : ∀ {heap item rest}, pop heap = some (item, rest) → Pops key (items heap) item (items rest)

def listHeap (key : α → κ) : Heap key ι where
  Carrier := List (Item ι α)
  empty := []
  push heap item := item :: heap
  pop := pop key
  items := id
  items_empty := rfl
  items_push _ _ := List.Perm.refl _
  items_of_none := pop_eq_none
  items_of_some := pop_pops

/-! ### The merge -/

variable [LinearOrder ι] {key : α → κ}

structure Merger (H : Heap key ι) where
  iters : SortedMap ι (List α)
  heap : H.Carrier

def better (best : Option (Item ι α)) (item : Item ι α) : Item ι α :=
  match best with
  | none => item
  | some best => if best.source < item.source then item else best

namespace Merger

variable {H : Heap key ι}

def advance (m : Merger H) (source : ι) : Merger H :=
  match m.iters.get? source with
  | some (entry :: rest) => ⟨m.iters.insert source rest, H.push m.heap ⟨source, entry⟩⟩
  | _ => m

def size (m : Merger H) : Nat := (H.items m.heap).length + (m.iters.entries.map fun iter => iter.2.length).sum

/-- Take out every item with the key `least`, and the best of them; nothing if the fuel runs out. -/
def round (least : κ) : Nat → Merger H → Option (Item ι α) → Option (Merger H × Option (Item ι α))
  | 0, _, _ => none
  | fuel + 1, m, best =>
    match H.pop m.heap with
    | none => some (m, best)
    | some (item, rest) =>
      if key item.entry = least then
        round least fuel (advance { m with heap := rest } item.source) (some (better best item))
      else some (m, best)

def loop (keep : α → Bool) (limit : Nat) : Nat → Merger H → Option (List α)
  | 0, _ => none
  | fuel + 1, m =>
    match H.pop m.heap with
    | none => some []
    | some (front, _) =>
      match m.round (key front.entry) limit none with
      | none => none
      | some (m, none) => loop keep limit fuel m
      | some (m, some best) =>
        (loop keep limit fuel m).map fun out => if keep best.entry then best.entry :: out else out

def start (H : Heap key ι) (sources : List (ι × List α)) : Merger H :=
  (sources.map Prod.fst).foldl advance
    ⟨sources.foldl (fun iters source => iters.insert source.1 source.2) SortedMap.empty, H.empty⟩

end Merger

def mergeWith (H : Heap key ι) (keep : α → Bool) (fuel : Nat) (sources : List (ι × List α)) : Option (List α) :=
  (Merger.start H sources).loop keep fuel fuel

def merge (key : α → κ) (keep : α → Bool) (sources : List (ι × List α)) : List α :=
  (mergeWith (listHeap key) keep ((Merger.start (listHeap key) sources).size + 1) sources).getD []

/-! ### What is still to come -/

namespace Merger

variable {H : Heap key ι} {m : Merger H}

def items (m : Merger H) : List (Item ι α) := H.items m.heap

def Has (m : Merger H) (source : ι) (entry : α) : Prop :=
  ⟨source, entry⟩ ∈ m.items ∨ ∃ rest, m.iters.get? source = some rest ∧ entry ∈ rest

structure Ready (m : Merger H) (skipped : ι → Prop) : Prop where
  distinct : (m.items.map Item.source).Nodup
  absent : ∀ item ∈ m.items, ¬skipped item.source
  sorted : ∀ {source rest}, m.iters.get? source = some rest → rest.Pairwise fun first second => key first < key second
  fronts : ∀ {item rest}, item ∈ m.items → m.iters.get? item.source = some rest →
    ∀ entry ∈ rest, key item.entry < key entry
  waiting : ∀ {source rest}, ¬skipped source → m.iters.get? source = some rest → rest ≠ [] →
    ∃ item ∈ m.items, item.source = source

theorem advance_cases (m : Merger H) (source : ι) :
    (∃ entry rest, m.iters.get? source = some (entry :: rest) ∧ (m.advance source).iters = m.iters.insert source rest ∧
      (m.advance source).items.Perm (⟨source, entry⟩ :: m.items)) ∨
    ((∀ rest, m.iters.get? source = some rest → rest = []) ∧ m.advance source = m) := by
  unfold advance
  split
  · rename_i entry rest found
    exact Or.inl ⟨entry, rest, found, rfl, H.items_push _ _⟩
  · rename_i notFound
    refine Or.inr ⟨fun rest found => ?_, rfl⟩
    cases rest with
    | nil => rfl
    | cons entry rest => exact absurd found (notFound entry rest)

theorem has_advance (m : Merger H) (source other : ι) (entry : α) :
    (m.advance source).Has other entry ↔ m.Has other entry := by
  rcases m.advance_cases source with ⟨first, rest, found, iters, items⟩ | ⟨_, same⟩
  · unfold Has
    simp only [iters, items.mem_iff, SortedMap.get?_insert, List.mem_cons, Item.mk.injEq]
    by_cases here : other = source
    · subst here
      simp only [true_and, if_true, Option.some.injEq, found, exists_eq_left', List.mem_cons]
      constructor
      · rintro ((now | waits) | later)
        · exact Or.inr (Or.inl now)
        · exact Or.inl waits
        · exact Or.inr (Or.inr later)
      · rintro (waits | now | later)
        · exact Or.inl (Or.inr waits)
        · exact Or.inl (Or.inl now)
        · exact Or.inr later
    · simp only [here, false_and, false_or, if_false]
  · rw [same]

theorem Ready.advance {skipped : ι → Prop} (ready : m.Ready skipped) {source : ι} (here : skipped source) :
    (m.advance source).Ready fun other => skipped other ∧ other ≠ source := by
  have missing : ∀ item ∈ m.items, item.source ≠ source := fun item present same =>
    ready.absent item present (same ▸ here)
  rcases m.advance_cases source with ⟨first, rest, found, iters, items⟩ | ⟨empty, same⟩
  · have ordered := List.pairwise_cons.mp (ready.sorted found)
    have split : ∀ {item}, item ∈ (m.advance source).items → item = ⟨source, first⟩ ∨ item ∈ m.items := fun present =>
      List.mem_cons.mp (items.mem_iff.mp present)
    refine ⟨?_, ?_, ?_, ?_, ?_⟩
    · refine (items.map Item.source).nodup_iff.mpr (List.nodup_cons.mpr ⟨fun again => ?_, ready.distinct⟩)
      obtain ⟨item, present, same⟩ := List.mem_map.mp again
      exact missing item present same
    · intro item present
      rcases split present with rfl | old
      · exact fun both => both.2 rfl
      · exact fun both => ready.absent item old both.1
    · intro other left stored
      rw [iters, SortedMap.get?_insert] at stored
      split at stored
      · cases stored
        exact ordered.2
      · exact ready.sorted stored
    · intro item left present stored
      rw [iters, SortedMap.get?_insert] at stored
      rcases split present with rfl | old
      · rw [if_pos rfl] at stored
        cases stored
        exact ordered.1
      · rw [if_neg (missing item old)] at stored
        exact ready.fronts old stored
    · intro other left notSkipped stored nonempty
      by_cases same : other = source
      · exact ⟨⟨source, first⟩, items.mem_iff.mpr List.mem_cons_self, same.symm⟩
      · rw [iters, SortedMap.get?_insert, if_neg same] at stored
        obtain ⟨item, present, at_⟩ := ready.waiting (fun skip => notSkipped ⟨skip, same⟩) stored nonempty
        exact ⟨item, items.mem_iff.mpr (List.mem_cons_of_mem _ present), at_⟩
  · rw [same]
    refine ⟨ready.distinct, fun item present both => ready.absent item present both.1, ready.sorted, ready.fronts, ?_⟩
    intro other left notSkipped stored nonempty
    by_cases same : other = source
    · exact absurd (empty left (same ▸ stored)) nonempty
    · exact ready.waiting (fun skip => notSkipped ⟨skip, same⟩) stored nonempty

theorem size_advance (m : Merger H) (source : ι) : (m.advance source).size = m.size := by
  rcases m.advance_cases source with ⟨first, rest, found, iters, items⟩ | ⟨_, same⟩
  · obtain ⟨before, after, split, inserted⟩ := SortedMap.insertEntry_present found m.iters.sorted rest
    have length : (H.items (m.advance source).heap).length = (H.items m.heap).length + 1 := items.length_eq
    simp only [size, iters, length, SortedMap.insert, inserted]
    simp only [split, List.map_append, List.map_cons, List.sum_append, List.sum_cons, List.length_cons]
    omega
  · rw [same]

theorem Ready.pop (ready : m.Ready fun _ => False) {item : Item ι α} {rest : H.Carrier}
    (popped : H.pop m.heap = some (item, rest)) :
    (Merger.advance { m with heap := rest } item.source).Ready (fun _ => False) ∧
    (Merger.advance { m with heap := rest } item.source).size + 1 = m.size ∧
    ∀ source entry, (Merger.advance { m with heap := rest } item.source).Has source entry ↔
      m.Has source entry ∧ ¬(source = item.source ∧ key entry = key item.entry) := by
  have perm : m.items.Perm (item :: H.items rest) := (H.items_of_some popped).perm
  have distinct : (item.source :: (H.items rest).map Item.source).Nodup :=
    (perm.map Item.source).nodup_iff.mp ready.distinct
  obtain ⟨fresh, distinct⟩ := List.nodup_cons.mp distinct
  have missing : ∀ other ∈ H.items rest, other.source ≠ item.source := fun other present same =>
    fresh (List.mem_map.mpr ⟨other, present, same⟩)
  have member : ∀ {other}, other ∈ H.items rest → other ∈ m.items := fun present =>
    perm.mem_iff.mpr (List.mem_cons_of_mem _ present)
  have front : item ∈ m.items := perm.mem_iff.mpr List.mem_cons_self
  have without : Ready { m with heap := rest } fun source => source = item.source := by
    refine ⟨distinct, missing, ready.sorted, fun present => ready.fronts (member present), ?_⟩
    intro source left elsewhere stored nonempty
    obtain ⟨other, present, at_⟩ := ready.waiting (fun none => none) stored nonempty
    rcases List.mem_cons.mp (perm.mem_iff.mp present) with rfl | later
    · exact absurd at_.symm elsewhere
    · exact ⟨other, later, at_⟩
  refine ⟨?_, ?_, fun source entry => ?_⟩
  · have again := without.advance rfl
    exact ⟨again.distinct, fun _ _ none => none, again.sorted, again.fronts,
      fun _ => again.waiting fun both => both.2 both.1⟩
  · rw [size_advance, size, size, show (H.items m.heap).length = _ from perm.length_eq, List.length_cons]
    exact Nat.add_right_comm _ _ _
  · rw [has_advance]
    constructor
    · rintro (waits | ⟨left, stored, later⟩)
      · exact ⟨Or.inl (member waits), fun both => missing _ waits both.1⟩
      · refine ⟨Or.inr ⟨left, stored, later⟩, ?_⟩
        rintro ⟨rfl, same⟩
        exact absurd same (ready.fronts front stored entry later).ne'
    · rintro ⟨waits | later, other⟩
      · rcases List.mem_cons.mp (perm.mem_iff.mp waits) with rfl | behind
        · exact absurd ⟨rfl, rfl⟩ other
        · exact Or.inl behind
      · exact Or.inr later

theorem Ready.least (ready : m.Ready fun _ => False) {item : Item ι α} {rest : H.Carrier}
    (popped : H.pop m.heap = some (item, rest)) {source : ι} {entry : α} (has : m.Has source entry) :
    key item.entry ≤ key entry := by
  have least := (H.items_of_some popped).least
  rcases has with waits | ⟨left, stored, later⟩
  · exact least _ waits
  · obtain ⟨front, present, rfl⟩ := ready.waiting (fun none => none) stored (List.ne_nil_of_mem later)
    exact le_trans (least _ present) (le_of_lt (ready.fronts present stored entry later))

theorem Ready.ended (ready : m.Ready fun _ => False) (empty : H.pop m.heap = none) (source : ι) (entry : α) :
    ¬m.Has source entry := by
  have none : m.items = [] := H.items_of_none empty
  rintro (waits | ⟨left, stored, later⟩)
  · rw [none] at waits
    cases waits
  · obtain ⟨front, present, _⟩ := ready.waiting (fun none => none) stored (List.ne_nil_of_mem later)
    rw [none] at present
    cases present

theorem has_popped {item : Item ι α} {rest : H.Carrier} (popped : H.pop m.heap = some (item, rest)) :
    m.Has item.source item.entry :=
  Or.inl ((H.items_of_some popped).perm.mem_iff.mpr List.mem_cons_self)

end Merger

section

variable {H : Heap key ι} {least : κ} {m after : Merger H} {fuel : Nat}

def Merger.Wins (m : Merger H) (entry : α) : Prop :=
  ∃ source, m.Has source entry ∧ ∀ other rival, m.Has other rival → key rival = key entry → other ≤ source

structure Best (least : κ) (m : Merger H) (before : Option (Item ι α)) (best : Item ι α) : Prop where
  found : before = some best ∨ m.Has best.source best.entry ∧ key best.entry = least
  greatest : ∀ source entry, m.Has source entry → key entry = least → source ≤ best.source
  notBelow : ∀ old, before = some old → old.source ≤ best.source

theorem better_source (before : Option (Item ι α)) (item : Item ι α) :
    item.source ≤ (better before item).source ∧ (∀ old, before = some old → old.source ≤ (better before item).source) ∧
      (before = some (better before item) ∨ better before item = item) := by
  unfold better
  cases before with
  | none =>
    refine ⟨le_refl _, ?_, Or.inr rfl⟩
    intro old same
    cases same
  | some old =>
    dsimp only
    by_cases less : old.source < item.source
    · rw [if_pos less]
      refine ⟨le_refl _, ?_, Or.inr rfl⟩
      intro other same
      cases same
      exact le_of_lt less
    · rw [if_neg less]
      refine ⟨not_lt.mp less, ?_, Or.inl rfl⟩
      intro other same
      cases same
      exact le_refl _

structure Round (least : κ) (m : Merger H) (before : Option (Item ι α)) (after : Merger H)
    (best : Option (Item ι α)) : Prop where
  ready : after.Ready fun _ => False
  smaller : after.size < m.size ∨ after = m ∧ best = before
  left : ∀ source entry, after.Has source entry ↔ m.Has source entry ∧ key entry ≠ least
  nothing : best = none → before = none ∧ after = m
  found : ∀ item, best = some item → Best least m before item

theorem Round.stop (ready : m.Ready fun _ => False) (gone : ∀ source entry, m.Has source entry → key entry ≠ least)
    (before : Option (Item ι α)) : Round least m before m before := by
  refine ⟨ready, Or.inr ⟨rfl, rfl⟩, fun source entry => ⟨fun has => ⟨has, gone source entry has⟩, And.left⟩,
    fun nothing => ⟨nothing, rfl⟩, ?_⟩
  intro item same
  refine ⟨Or.inl same, fun source entry has here => absurd here (gone source entry has), fun old found => ?_⟩
  rw [same] at found
  cases found
  exact le_refl _

theorem Round.step {before best : Option (Item ι α)} {item : Item ι α} {rest : H.Carrier}
    (ready : m.Ready fun _ => False) (popped : H.pop m.heap = some (item, rest)) (here : key item.entry = least)
    (later : Round least (Merger.advance { m with heap := rest } item.source) (some (better before item)) after best) :
    Round least m before after best := by
  obtain ⟨_, size, has⟩ := ready.pop popped
  obtain ⟨above, notBelow, which⟩ := better_source before item
  refine ⟨later.ready, Or.inl ?_, fun source entry => ?_, ?_, fun found same => ?_⟩
  · rcases later.smaller with less | ⟨same, _⟩
    · omega
    · rw [same]
      omega
  · rw [later.left, has, here]
    exact ⟨fun both => ⟨both.1.1, both.2⟩, fun both => ⟨⟨both.1, fun same => both.2 same.2⟩, both.2⟩⟩
  · intro nothing
    cases (later.nothing nothing).1
  · have came := later.found found same
    have reached : (better before item).source ≤ found.source := came.notBelow _ rfl
    refine ⟨?_, fun source entry still equal => ?_, fun old equal => le_trans (notBelow old equal) reached⟩
    · rcases came.found with equal | ⟨still, equal⟩
      · cases equal
        rcases which with old | new
        · exact Or.inl old
        · rw [new]
          exact Or.inr ⟨Merger.has_popped popped, here⟩
      · exact Or.inr ⟨((has _ _).mp still).1, equal⟩
    · by_cases taken : source = item.source
      · rw [taken]
        exact le_trans above reached
      · exact came.greatest source entry ((has _ _).mpr ⟨still, fun both => taken both.1⟩) equal

theorem Merger.round_spec (ready : m.Ready fun _ => False) (enough : m.size < fuel)
    (bound : ∀ source entry, m.Has source entry → least ≤ key entry) (before : Option (Item ι α)) :
    ∃ after best, m.round least fuel before = some (after, best) ∧ Round least m before after best := by
  induction fuel generalizing m before with
  | zero => exact absurd enough (Nat.not_lt_zero _)
  | succ fuel ih =>
    unfold round
    cases popped : H.pop m.heap with
    | none =>
      exact ⟨m, before, rfl,
        Round.stop ready (fun source entry has => absurd has (ready.ended popped source entry)) before⟩
    | some found =>
      obtain ⟨item, rest⟩ := found
      obtain ⟨later, size, has⟩ := ready.pop popped
      dsimp only
      split
      · rename_i here
        obtain ⟨after, best, done, spec⟩ := ih later (by omega)
          (fun source entry still => bound source entry ((has source entry).mp still).1) (some (better before item))
        exact ⟨after, best, done, Round.step ready popped here spec⟩
      · rename_i elsewhere
        have beyond := lt_of_le_of_ne (bound _ _ (has_popped popped)) (Ne.symm elsewhere)
        exact ⟨m, before, rfl, Round.stop ready
          (fun source entry still => (lt_of_lt_of_le beyond (ready.least popped still)).ne') before⟩

theorem eq_of_key_eq {list : List α} (sorted : list.Pairwise fun first second => key first < key second)
    {left right : α}
    (hasLeft : left ∈ list) (hasRight : right ∈ list) (same : key left = key right) : left = right := by
  induction list with
  | nil => cases hasLeft
  | cons first rest ih =>
    obtain ⟨above, tail⟩ := List.pairwise_cons.mp sorted
    rcases List.mem_cons.mp hasLeft with rfl | later
    · rcases List.mem_cons.mp hasRight with rfl | behind
      · rfl
      · exact absurd same (above right behind).ne
    · rcases List.mem_cons.mp hasRight with rfl | behind
      · exact absurd same (above left later).ne'
      · exact ih tail later behind

theorem Merger.Ready.unique (ready : m.Ready fun _ => False) {source : ι} {first second : α}
    (hasFirst : m.Has source first) (hasSecond : m.Has source second) (same : key first = key second) :
    first = second := by
  rcases hasFirst with front | ⟨rest, stored, present⟩
  · rcases hasSecond with other | ⟨rest, stored, present⟩
    · exact congrArg Item.entry (List.inj_on_of_nodup_map ready.distinct front other rfl)
    · exact absurd same (ready.fronts front stored second present).ne
  · rcases hasSecond with other | ⟨again, storedAgain, presentAgain⟩
    · exact absurd same (ready.fronts other stored first present).ne'
    · rw [stored] at storedAgain
      cases storedAgain
      exact eq_of_key_eq (ready.sorted stored) present presentAgain same

theorem Round.wins {best : Item ι α} (ready : m.Ready fun _ => False)
    (round : Round least m none after (some best)) (entry : α) :
    m.Wins entry ↔ entry = best.entry ∨ after.Wins entry := by
  have came := round.found best rfl
  obtain ⟨has, here⟩ := came.found.resolve_left fun none => by cases none
  constructor
  · rintro ⟨source, holds, greatest⟩
    by_cases same : key entry = least
    · have equal : source = best.source :=
        le_antisymm (came.greatest source entry holds same) (greatest best.source best.entry has (here.trans same.symm))
      subst equal
      exact Or.inl (ready.unique holds has (same.trans here.symm))
    · exact Or.inr ⟨source, (round.left source entry).mpr ⟨holds, same⟩, fun other rival still equal =>
        greatest other rival ((round.left other rival).mp still).1 equal⟩
  · rintro (rfl | ⟨source, holds, greatest⟩)
    · exact ⟨best.source, has, fun other rival still equal => came.greatest other rival still (equal.trans here)⟩
    · obtain ⟨holds, elsewhere⟩ := (round.left source entry).mp holds
      exact ⟨source, holds, fun other rival still equal =>
        greatest other rival ((round.left other rival).mpr ⟨still, fun same => elsewhere (equal ▸ same)⟩) equal⟩

structure Yields (keep : α → Bool) (m : Merger H) (out : List α) : Prop where
  sorted : out.Pairwise fun first second => key first < key second
  mem_iff : ∀ entry, entry ∈ out ↔ keep entry = true ∧ m.Wins entry

variable {keep : α → Bool}

theorem Yields.nil (gone : ∀ source entry, ¬m.Has source entry) : Yields keep m [] := by
  refine ⟨List.Pairwise.nil, fun entry => ⟨fun present => absurd present List.not_mem_nil, ?_⟩⟩
  rintro ⟨_, source, has, _⟩
  exact absurd has (gone source entry)

theorem Yields.step {best : Item ι α} {out : List α} (ready : m.Ready fun _ => False)
    (bound : ∀ source entry, m.Has source entry → least ≤ key entry)
    (round : Round least m none after (some best)) (later : Yields keep after out) :
    Yields keep m (if keep best.entry then best.entry :: out else out) := by
  obtain ⟨has, here⟩ := (round.found best rfl).found.resolve_left fun none => by cases none
  have wins := round.wins ready
  have above : ∀ entry ∈ out, key best.entry < key entry := by
    intro entry present
    obtain ⟨_, source, holds, _⟩ := (later.mem_iff entry).mp present
    obtain ⟨before, elsewhere⟩ := (round.left source entry).mp holds
    rw [here]
    exact lt_of_le_of_ne (bound source entry before) (Ne.symm elsewhere)
  split
  · rename_i kept
    refine ⟨List.pairwise_cons.mpr ⟨above, later.sorted⟩, fun entry => ?_⟩
    rw [List.mem_cons, later.mem_iff, wins]
    constructor
    · rintro (rfl | ⟨keeps, still⟩)
      · exact ⟨kept, Or.inl rfl⟩
      · exact ⟨keeps, Or.inr still⟩
    · rintro ⟨keeps, same | still⟩
      · exact Or.inl same
      · exact Or.inr ⟨keeps, still⟩
  · rename_i dropped
    refine ⟨later.sorted, fun entry => ?_⟩
    rw [later.mem_iff, wins]
    constructor
    · exact fun ⟨keeps, still⟩ => ⟨keeps, Or.inr still⟩
    · rintro ⟨keeps, rfl | still⟩
      · exact absurd keeps dropped
      · exact ⟨keeps, still⟩

theorem Merger.loop_yields {limit : Nat} (keep : α → Bool) (ready : m.Ready fun _ => False) (enough : m.size < fuel)
    (roomy : m.size < limit) : ∃ out, m.loop keep limit fuel = some out ∧ Yields keep m out := by
  induction fuel generalizing m with
  | zero => exact absurd enough (Nat.not_lt_zero _)
  | succ fuel ih =>
    unfold loop
    cases popped : H.pop m.heap with
    | none => exact ⟨[], rfl, Yields.nil (ready.ended popped)⟩
    | some found =>
      obtain ⟨front, rest⟩ := found
      have bound : ∀ source entry, m.Has source entry → key front.entry ≤ key entry := fun _ _ => ready.least popped
      obtain ⟨after, best, done, spec⟩ := round_spec ready roomy bound none
      have moved : after ≠ m := by
        rintro rfl
        exact ((spec.left front.source front.entry).mp (has_popped popped)).2 rfl
      have taken : after.size < m.size := spec.smaller.resolve_right fun same => moved same.1
      cases best with
      | none => exact absurd (spec.nothing rfl).2 moved
      | some best =>
        obtain ⟨out, rest, yields⟩ := ih spec.ready (by omega) (by omega)
        simp only [done, rest]
        exact ⟨_, rfl, Yields.step ready bound spec yields⟩

end

/-! ### The whole merge -/

variable {H : Heap key ι} {m : Merger H} {keep : α → Bool} {sources : List (ι × List α)}

def Holds (sources : List (ι × List α)) (source : ι) (entry : α) : Prop :=
  ∃ entries, (source, entries) ∈ sources ∧ entry ∈ entries

theorem foldl_advance {skipped : ι → Prop} {ids : List ι} (ready : m.Ready skipped) (distinct : ids.Nodup)
    (all : ∀ id ∈ ids, skipped id) :
    ((ids.foldl Merger.advance m).Ready fun source => skipped source ∧ source ∉ ids) ∧
      ∀ source entry, (ids.foldl Merger.advance m).Has source entry ↔ m.Has source entry := by
  induction ids generalizing m skipped with
  | nil =>
    refine ⟨⟨ready.distinct, fun item present both => ready.absent item present both.1, ready.sorted, ready.fronts,
      fun notSkipped => ready.waiting fun skip => notSkipped ⟨skip, List.not_mem_nil⟩⟩, fun _ _ => Iff.rfl⟩
  | cons id ids ih =>
    obtain ⟨fresh, distinct⟩ := List.nodup_cons.mp distinct
    obtain ⟨again, has⟩ := ih (ready.advance (all id List.mem_cons_self)) distinct fun other present =>
      ⟨all other (List.mem_cons_of_mem _ present), fun same => fresh (same ▸ present)⟩
    refine ⟨⟨again.distinct, fun item present both => again.absent item present ?_, again.sorted, again.fronts,
      fun notSkipped => again.waiting fun both => notSkipped ?_⟩, fun source entry => ?_⟩
    · exact ⟨⟨both.1, fun same => both.2 (same ▸ List.mem_cons_self)⟩,
        fun later => both.2 (List.mem_cons_of_mem _ later)⟩
    · refine ⟨both.1.1, fun present => ?_⟩
      rcases List.mem_cons.mp present with same | later
      · exact both.1.2 same
      · exact both.2 later
    · rw [List.foldl_cons, has, Merger.has_advance]

theorem start_ready (H : Heap key ι) (distinct : (sources.map Prod.fst).Nodup)
    (sorted : ∀ source ∈ sources, source.2.Pairwise fun first second => key first < key second) :
    ((Merger.start H sources).Ready fun _ => False) ∧
      ∀ source entry, (Merger.start H sources).Has source entry ↔ Holds sources source entry := by
  have present : ∀ source ∈ sources, (sources.foldl (fun iters source => iters.insert source.1 source.2)
      SortedMap.empty).get? source.1 = some source.2 := fun source inside =>
    SortedMap.get?_foldl_present Prod.fst Prod.snd SortedMap.empty distinct inside
  have stored : ∀ {id rest}, (sources.foldl (fun iters source => iters.insert source.1 source.2)
      SortedMap.empty).get? id = some rest → (id, rest) ∈ sources := by
    intro id rest found
    obtain ⟨source, inside, rfl, rfl⟩ := SortedMap.mem_of_get?_foldl Prod.fst Prod.snd distinct found
    exact inside
  have empty : ∀ item, item ∉ H.items H.empty := by
    intro item
    rw [H.items_empty]
    exact List.not_mem_nil
  have none : ((H.items H.empty).map Item.source).Nodup := by
    rw [H.items_empty]
    exact List.nodup_nil
  have filled : Merger.Ready
      (⟨sources.foldl (fun iters source => iters.insert source.1 source.2) SortedMap.empty, H.empty⟩ : Merger H)
      fun _ => True :=
    ⟨none, fun item there => absurd there (empty item),
      fun found => sorted _ (stored found), fun there => absurd there (empty _), fun never => absurd trivial never⟩
  obtain ⟨ready, has⟩ := foldl_advance filled distinct fun _ _ => trivial
  have holds : ∀ source entry, (Merger.start H sources).Has source entry ↔ Holds sources source entry := by
    intro source entry
    rw [Merger.start, has]
    constructor
    · rintro (none | ⟨rest, found, inside⟩)
      · exact absurd none (empty _)
      · exact ⟨rest, stored found, inside⟩
    · rintro ⟨entries, inside, there⟩
      exact Or.inr ⟨entries, present _ inside, there⟩
  refine ⟨⟨ready.distinct, fun _ _ none => none, ready.sorted, ready.fronts, fun {source rest} _ found nonempty => ?_⟩,
    holds⟩
  refine ready.waiting (fun skipped => skipped.2 ?_) found nonempty
  obtain ⟨entry, inside⟩ := List.exists_mem_of_ne_nil rest nonempty
  obtain ⟨entries, there, _⟩ := (holds source entry).mp (Or.inr ⟨rest, found, inside⟩)
  exact List.mem_map.mpr ⟨(source, entries), there, rfl⟩

/-- The merge of sorted sequences through any heap ends, with the entry of the greatest source for each key, if it
is kept, in key order. -/
theorem mergeWith_spec (H : Heap key ι) (distinct : (sources.map Prod.fst).Nodup)
    (sorted : ∀ source ∈ sources, source.2.Pairwise fun first second => key first < key second) {fuel : Nat}
    (enough : (Merger.start H sources).size < fuel) :
    ∃ out, mergeWith H keep fuel sources = some out ∧ out.Pairwise (fun first second => key first < key second) ∧
      ∀ entry, entry ∈ out ↔ keep entry = true ∧ ∃ source, Holds sources source entry ∧
        ∀ other rival, Holds sources other rival → key rival = key entry → other ≤ source := by
  obtain ⟨ready, has⟩ := start_ready H distinct sorted
  obtain ⟨out, done, yields⟩ := Merger.loop_yields keep ready enough enough
  refine ⟨out, done, yields.sorted, fun entry => ?_⟩
  rw [yields.mem_iff]
  simp only [Merger.Wins, has]

theorem merge_spec (distinct : (sources.map Prod.fst).Nodup)
    (sorted : ∀ source ∈ sources, source.2.Pairwise fun first second => key first < key second) :
    (merge key keep sources).Pairwise (fun first second => key first < key second) ∧
      ∀ entry, entry ∈ merge key keep sources ↔ keep entry = true ∧ ∃ source, Holds sources source entry ∧
        ∀ other rival, Holds sources other rival → key rival = key entry → other ≤ source := by
  obtain ⟨out, done, spec⟩ :=
    @mergeWith_spec _ _ _ _ _ key keep sources (listHeap key) distinct sorted _ (Nat.lt_succ_self _)
  rw [merge, done]
  exact spec

theorem eq_of_mem_iff {left right : List α} (sortedLeft : left.Pairwise fun first second => key first < key second)
    (sortedRight : right.Pairwise fun first second => key first < key second)
    (same : ∀ entry, entry ∈ left ↔ entry ∈ right) : left = right := by
  have distinct : ∀ {list : List α}, (list.Pairwise fun first second => key first < key second) → list.Nodup :=
    fun sorted => sorted.imp fun below => ne_of_apply_ne key below.ne
  have perm : left.Perm right := (List.perm_ext_iff_of_nodup (distinct sortedLeft) (distinct sortedRight)).mpr same
  exact perm.eq_of_pairwise (fun _ _ _ _ below above => absurd below (lt_asymm above)) sortedLeft sortedRight

theorem mergeWith_eq_merge (H : Heap key ι) (keep : α → Bool) (distinct : (sources.map Prod.fst).Nodup)
    (sorted : ∀ source ∈ sources, source.2.Pairwise fun first second => key first < key second) {fuel : Nat}
    (enough : (Merger.start H sources).size < fuel) :
    mergeWith H keep fuel sources = some (merge key keep sources) := by
  obtain ⟨out, done, ordered, members⟩ := @mergeWith_spec _ _ _ _ _ key keep sources H distinct sorted _ enough
  obtain ⟨orderedList, membersList⟩ := @merge_spec _ _ _ _ _ key keep sources distinct sorted
  rw [done, eq_of_mem_iff ordered orderedList fun entry => (members entry).trans (membersList entry).symm]

end KWayMerge

end ForgeDB
