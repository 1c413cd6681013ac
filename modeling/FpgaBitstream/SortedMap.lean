/-!
# Ordered maps

`SortedMap κ α` is a finite map whose entries are kept in strictly ascending order of their keys,
so that two maps with the same entries are equal and a walk over the entries visits the keys in
order. `toList` is the view through which every operation is understood; `get?` looks a key up,
`insert` adds or replaces an entry, `next?` finds the entry after a key.
-/

namespace FpgaBitstream

/-- The ascending list with the entry of `key` added or replaced. -/
def SortedMap.insertEntry {κ α : Type} [Ord κ] (key : κ) (value : α) :
    List (κ × α) → List (κ × α)
  | [] => [(key, value)]
  | entry :: rest =>
    match compare key entry.1 with
    | .lt => (key, value) :: entry :: rest
    | .eq => (key, value) :: rest
    | .gt => entry :: insertEntry key value rest

/-- A finite map with its entries in ascending order of their keys. -/
structure SortedMap (κ α : Type) [Ord κ] where
  toList : List (κ × α)
  ascending : toList.Pairwise fun a b => compare a.1 b.1 = .lt

namespace SortedMap

variable {κ α β : Type} [Ord κ]

instance [DecidableEq κ] [DecidableEq α] : DecidableEq (SortedMap κ α) := fun a b =>
  if h : a.toList = b.toList then
    isTrue (by cases a; cases b; cases h; rfl)
  else isFalse fun same => h (same ▸ rfl)

instance [Repr κ] [Repr α] : Repr (SortedMap κ α) := ⟨fun m => reprPrec m.toList⟩

/-- Two maps with the same entries are equal. -/
@[ext] theorem ext_toList {a b : SortedMap κ α} (h : a.toList = b.toList) : a = b := by
  cases a; cases b; cases h; rfl

/-- The map without entries. -/
def empty : SortedMap κ α := ⟨[], .nil⟩

instance : Inhabited (SortedMap κ α) := ⟨empty⟩

/-- The number of entries. -/
def size (m : SortedMap κ α) : Nat := m.toList.length

/-- Whether the map has no entry. -/
def isEmpty (m : SortedMap κ α) : Bool := m.toList.isEmpty

/-- The keys in ascending order. -/
def keys (m : SortedMap κ α) : List κ := m.toList.map (·.1)

/-- The value of a key, if it has one. -/
def get? (m : SortedMap κ α) (key : κ) : Option α :=
  (m.toList.find? fun entry => compare key entry.1 == .eq).map (·.2)

/-- Whether a key has a value. -/
def contains (m : SortedMap κ α) (key : κ) : Bool := (m.get? key).isSome

/-- The first entry whose key comes after `key`. -/
def next? (m : SortedMap κ α) (key : κ) : Option (κ × α) :=
  m.toList.find? fun entry => compare key entry.1 == .lt

/-- The entries whose keys come after `key`. -/
def after (m : SortedMap κ α) (key : κ) : List (κ × α) :=
  m.toList.filter fun entry => compare key entry.1 == .lt

/-- The entries whose key and value satisfy a test. -/
def filter (keep : κ → α → Bool) (m : SortedMap κ α) : SortedMap κ α :=
  ⟨m.toList.filter fun entry => keep entry.1 entry.2, m.ascending.filter _⟩

/-- The map with every value replaced. -/
def map (change : κ → α → β) (m : SortedMap κ α) : SortedMap κ β :=
  ⟨m.toList.map fun entry => (entry.1, change entry.1 entry.2),
    m.ascending.map _ fun _ _ h => h⟩

/-- The values of a list of entries replaced by a function that may fail, with the first failure
in the order of the list. The keys stay. -/
def mapEntriesM {ε : Type} (change : κ → α → Except ε β) :
    (entries : List (κ × α)) →
      Except ε { changed : List (κ × β) // changed.map (·.1) = entries.map (·.1) }
  | [] => .ok ⟨[], rfl⟩
  | (key, value) :: rest => do
    let value ← change key value
    let ⟨changed, keys⟩ ← mapEntriesM change rest
    return ⟨(key, value) :: changed, by simp [keys]⟩

/-- The map with every value replaced by a function that may fail. -/
def mapM {ε : Type} (change : κ → α → Except ε β) (m : SortedMap κ α) :
    Except ε (SortedMap κ β) := do
  let ⟨changed, keys⟩ ← mapEntriesM change m.toList
  return ⟨changed, by
    have h : (m.toList.map (·.1)).Pairwise fun a b => compare a b = .lt :=
      List.pairwise_map.2 m.ascending
    rw [← keys] at h
    exact List.pairwise_map.1 h⟩

section Insert

theorem insertEntry_mem {key : κ} {value : α} {entries : List (κ × α)} {entry : κ × α}
    (h : entry ∈ insertEntry key value entries) : entry = (key, value) ∨ entry ∈ entries := by
  induction entries with
  | nil => exact .inl (List.mem_singleton.1 h)
  | cons head rest ih =>
    simp only [insertEntry] at h
    split at h
    · exact (List.mem_cons.1 h).imp_right id
    · exact (List.mem_cons.1 h).imp_right (List.mem_cons_of_mem _)
    · rcases List.mem_cons.1 h with rfl | h
      · exact .inr List.mem_cons_self
      · exact (ih h).imp_right (List.mem_cons_of_mem _)

theorem insertEntry_ascending [Std.TransOrd κ] {key : κ} {value : α} {entries : List (κ × α)}
    (h : entries.Pairwise fun a b => compare a.1 b.1 = .lt) :
    (insertEntry key value entries).Pairwise fun a b => compare a.1 b.1 = .lt := by
  induction h with
  | nil => exact .cons (fun _ h => absurd h List.not_mem_nil) .nil
  | @cons head rest first _ ih =>
    simp only [insertEntry]
    split
    case h_1 lt =>
      refine .cons (fun entry mem => ?_) (.cons first ‹_›)
      rcases List.mem_cons.1 mem with rfl | mem
      · exact lt
      · exact Std.TransCmp.lt_trans lt (first _ mem)
    case h_2 eq =>
      exact .cons (fun entry mem => Std.TransCmp.lt_of_eq_of_lt eq (first _ mem)) ‹_›
    case h_3 gt =>
      refine .cons (fun entry mem => ?_) ih
      rcases insertEntry_mem mem with rfl | mem
      · exact Std.OrientedCmp.gt_iff_lt.1 gt
      · exact first _ mem

variable [Std.TransOrd κ]

/-- The map with a value for `key`, in place of the one it had. -/
def insert (m : SortedMap κ α) (key : κ) (value : α) : SortedMap κ α :=
  ⟨insertEntry key value m.toList, insertEntry_ascending m.ascending⟩

/-- The map with the entries of a list, a later entry of a key winning. -/
def ofList (entries : List (κ × α)) : SortedMap κ α :=
  entries.foldl (fun m entry => m.insert entry.1 entry.2) empty

/-- The entries of both maps, the second winning where both have a key. -/
def union (a b : SortedMap κ α) : SortedMap κ α :=
  b.toList.foldl (fun m entry => m.insert entry.1 entry.2) a

end Insert

end SortedMap

/-- The elements of a list sorted into groups of one key, the keys ascending and each group in the
order of the list. -/
def groupByKey {κ α : Type} [Ord κ] [Std.TransOrd κ] (key : α → κ) (elements : List α) :
    SortedMap κ (List α) :=
  elements.foldr (fun x groups => groups.insert (key x) (x :: (groups.get? (key x)).getD []))
    SortedMap.empty

end FpgaBitstream
