import FpgaBitstream.SortedMap
import Mathlib.Data.List.Sort

/-!
# Laws of ordered maps

A map is determined by what it gives for each key (`ext_get?`), and `mem_toList_iff` ties that to
its list of entries.  Writing a run of entries into a map (`insertAll`) is what replay does with
frames: a run that ascends behind everything in the map is appended to it (`toList_insertAll`), so
writing the entries of a map into the empty one gives that map back (`insertAll_toList`).  A run
written into a map wins over it (`get?_insertAll`), runs without a key in common can be written in
either order (`insertAll_comm`), and of a run in any order the last entry of a key stays
(`get?_insertAll_filterMap_range`).  Replacing the values of a map by a function that may fail keeps
its keys (`get?_of_mapM`).
-/

namespace FpgaBitstream

/-- A computation in two steps succeeds when both do. -/
theorem bind_eq_ok {ε α β : Type} {x : Except ε α} {next : α → Except ε β} {b : β} :
    x >>= next = .ok b ↔ ∃ a, x = .ok a ∧ next a = .ok b := by
  cases x with
  | error e => exact ⟨nofun, fun ⟨_, h, _⟩ => nomatch h⟩
  | ok a => exact ⟨fun h => ⟨a, rfl, h⟩, fun ⟨_, ha, h⟩ => Except.ok.inj ha ▸ h⟩

/-- A computation in two steps fails when one of the two does. -/
theorem bind_eq_error {ε α β : Type} {x : Except ε α} {next : α → Except ε β} {e : ε} :
    x >>= next = .error e ↔ x = .error e ∨ ∃ a, x = .ok a ∧ next a = .error e := by
  cases x with
  | error e' =>
    refine ⟨fun h => .inl (congrArg _ (Except.error.inj h)), ?_⟩
    rintro (h | ⟨a, h, -⟩)
    · exact congrArg _ (Except.error.inj h)
    · cases h
  | ok a =>
    refine ⟨fun h => .inr ⟨a, rfl, h⟩, ?_⟩
    rintro (h | ⟨b, h, hnext⟩)
    · cases h
    · exact Except.ok.inj h ▸ hnext

theorem eq_ok_of_toOption {ε α : Type} {x : Except ε α} {a : α} (h : x.toOption = some a) :
    x = .ok a := by
  cases x with
  | error e => cases h
  | ok b => exact congrArg Except.ok (Option.some.inj h)

namespace SortedMap

variable {κ α β : Type} [Ord κ]

/-! ## Entries and keys -/

section Lookup
variable [Std.LawfulEqOrd κ]

/-- A key has a value exactly when the two are an entry of the map. -/
theorem mem_toList_iff {m : SortedMap κ α} {key : κ} {value : α} :
    (key, value) ∈ m.toList ↔ m.get? key = some value := by
  obtain ⟨entries, hasc⟩ := m
  unfold get?
  simp only
  induction entries with
  | nil => simp
  | cons entry rest ih =>
    obtain ⟨hfirst, hrest⟩ := List.pairwise_cons.1 hasc
    by_cases hkey : compare key entry.1 = .eq
    · have hentry : key = entry.1 := Std.LawfulEqCmp.eq_of_compare hkey
      have hnot : (key, value) ∉ rest := by
        intro hmem
        have hlt : compare entry.1 key = .lt := hfirst _ hmem
        rw [← hentry, show compare key key = .eq from Std.ReflCmp.compare_self] at hlt
        cases hlt
      rw [List.mem_cons, List.find?_cons_of_pos (by simpa using hkey)]
      constructor
      · rintro (rfl | hmem)
        · rfl
        · exact absurd hmem hnot
      · intro hvalue
        exact Or.inl (Prod.ext hentry (Option.some.inj hvalue).symm)
    · have hne : (key, value) ≠ entry := by
        rintro rfl
        exact hkey Std.ReflCmp.compare_self
      rw [List.mem_cons, List.find?_cons_of_neg (by simpa using hkey), ← ih hrest]
      exact ⟨fun h => h.resolve_left hne, Or.inr⟩

/-- A value that is replaced is read as the new one. -/
theorem get?_map (change : κ → α → β) (m : SortedMap κ α) (key : κ) :
    (m.map change).get? key = (m.get? key).map (change key) := by
  simp only [get?, map, List.find?_map, Function.comp_def, Option.map_map]
  refine Option.map_congr fun entry hentry => ?_
  have hfound := List.find?_some hentry
  have hkey : key = entry.1 := Std.LawfulEqCmp.eq_of_compare (beq_iff_eq.1 hfound)
  rw [hkey]

omit [Std.LawfulEqOrd κ] in
/-- Entries in the order of their keys are known by which ones there are. -/
theorem eq_of_ascending [Std.TransOrd κ] {xs ys : List (κ × α)}
    (hxs : xs.Pairwise fun a b => compare a.1 b.1 = .lt)
    (hys : ys.Pairwise fun a b => compare a.1 b.1 = .lt) (h : ∀ entry, entry ∈ xs ↔ entry ∈ ys) :
    xs = ys := by
  have hantisymm : Std.Antisymm fun x y : κ × α => compare x.1 y.1 = .lt := by
    refine ⟨fun x y hlt hgt => ?_⟩
    rw [← Std.OrientedCmp.gt_iff_lt, hlt] at hgt
    cases hgt
  have hirrefl : Std.Irrefl fun x y : κ × α => compare x.1 y.1 = .lt := by
    refine ⟨fun x hlt => ?_⟩
    have hself : compare x.1 x.1 = .eq := Std.ReflCmp.compare_self
    rw [hself] at hlt
    cases hlt
  exact hxs.eq_of_mem_iff hys h

/-- **Two maps are equal** when they give the same for each key. -/
theorem ext_get? [Std.TransOrd κ] {a b : SortedMap κ α} (h : ∀ key, a.get? key = b.get? key) :
    a = b := by
  apply ext_toList
  refine eq_of_ascending a.ascending b.ascending ?_
  rintro ⟨key, value⟩
  rw [mem_toList_iff, mem_toList_iff, h key]

omit [Std.LawfulEqOrd κ] in
/-- An entry of a map is what its key finds. -/
theorem find?_eq_some_of_mem [Std.TransOrd κ] {m : SortedMap κ α} {entry : κ × α}
    (h : entry ∈ m.toList) :
    (m.toList.find? fun e => compare entry.1 e.1 == .eq) = some entry := by
  obtain ⟨front, rest, hentries⟩ := List.append_of_mem h
  have hasc := hentries ▸ m.ascending
  have hfront : (front.find? fun e => compare entry.1 e.1 == .eq) = none := by
    refine List.find?_eq_none.2 fun other hother heq => ?_
    have hlt := (List.pairwise_append.1 hasc).2.2 other hother entry List.mem_cons_self
    rw [Std.OrientedCmp.eq_comm.1 (beq_iff_eq.1 heq)] at hlt
    cases hlt
  rw [hentries, List.find?_append, hfront, Option.none_or, List.find?_cons_of_pos (by simp)]

omit [Std.LawfulEqOrd κ] in
theorem find?_insertEntry [Std.TransOrd κ] (key key' : κ) (value : α) (entries : List (κ × α)) :
    ((insertEntry key value entries).find? fun entry => compare key' entry.1 == .eq) =
      if compare key' key = .eq then some (key, value)
      else entries.find? fun entry => compare key' entry.1 == .eq := by
  induction entries with
  | nil => by_cases h : compare key' key = .eq <;> simp [insertEntry, h]
  | cons head rest ih =>
    simp only [insertEntry]
    split
    case h_1 => by_cases h : compare key' key = .eq <;> simp [h]
    case h_2 heq =>
      by_cases h : compare key' key = .eq
      · simp [h]
      · have hskip : ¬ compare key' head.1 = .eq := by rwa [← Std.TransCmp.congr_right heq]
        simp [h, hskip]
    case h_3 hgt =>
      by_cases h : compare key' head.1 = .eq
      · have hne : ¬ compare key' key = .eq := by
          intro hkey
          rw [← Std.TransCmp.congr_left hkey, h] at hgt
          cases hgt
        simp [h, hne]
      · rw [List.find?_cons_of_neg (by simpa using h), List.find?_cons_of_neg (by simpa using h),
          ih]

end Lookup

/-! ## Writing one entry -/

section Insert
variable [Std.TransOrd κ]

theorem mem_toList_insert {m : SortedMap κ α} {key : κ} {value : α} {entry : κ × α}
    (h : entry ∈ (m.insert key value).toList) : entry = (key, value) ∨ entry ∈ m.toList :=
  insertEntry_mem h

/-- **Reading after a write.** -/
theorem get?_insert [Std.LawfulEqOrd κ] [DecidableEq κ] (m : SortedMap κ α) (key key' : κ)
    (value : α) :
    (m.insert key value).get? key' = if key' = key then some value else m.get? key' := by
  have hiff : compare key' key = .eq ↔ key' = key := Std.LawfulEqCmp.compare_eq_iff_eq
  simp only [get?, insert, find?_insertEntry, hiff]
  split <;> rfl

omit [Std.TransOrd κ] in
theorem length_insertEntry {key : κ} {entries : List (κ × α)}
    (h : ∀ entry ∈ entries, compare key entry.1 ≠ .eq) (value : α) :
    (insertEntry key value entries).length = entries.length + 1 := by
  induction entries with
  | nil => rfl
  | cons head rest ih =>
    obtain ⟨hhead, hrest⟩ := List.forall_mem_cons.1 h
    rw [insertEntry]
    split
    case h_1 => rfl
    case h_2 heq => exact absurd heq hhead
    case h_3 => rw [List.length_cons, ih hrest, List.length_cons]

/-- A key without a value becomes one more entry. -/
theorem size_insert_of_none {m : SortedMap κ α} {key : κ} (h : m.get? key = none) (value : α) :
    (m.insert key value).size = m.size + 1 :=
  length_insertEntry (by simpa [get?] using h) value

/-- One value written for every key of a list. -/
theorem get?_foldl_insert [Std.LawfulEqOrd κ] [DecidableEq κ] (value : α) (keys : List κ)
    (m : SortedMap κ α) (key : κ) :
    (keys.foldl (fun m key => m.insert key value) m).get? key =
      if key ∈ keys then some value else m.get? key := by
  induction keys generalizing m with
  | nil => rw [List.foldl_nil, if_neg List.not_mem_nil]
  | cons first rest ih =>
    rw [List.foldl_cons, ih, get?_insert]
    by_cases hrest : key ∈ rest
    · rw [if_pos hrest, if_pos (List.mem_cons_of_mem _ hrest)]
    · by_cases hfirst : key = first
      · rw [if_neg hrest, if_pos hfirst, if_pos (hfirst ▸ List.mem_cons_self)]
      · rw [if_neg hrest, if_neg hfirst, if_neg (by simp [hrest, hfirst])]

/-- An entry behind all others goes to the end. -/
theorem insertEntry_eq_append {key : κ} {value : α} {entries : List (κ × α)}
    (h : ∀ entry ∈ entries, compare entry.1 key = .lt) :
    insertEntry key value entries = entries ++ [(key, value)] := by
  induction entries with
  | nil => rfl
  | cons head rest ih =>
    have hgt : compare key head.1 = .gt :=
      Std.OrientedCmp.gt_iff_lt.2 (h head List.mem_cons_self)
    rw [insertEntry, hgt, ih fun entry hmem => h entry (List.mem_cons_of_mem _ hmem)]
    rfl

/-! ## Writing a run of entries -/

/-- The map with the entries of a list written into it one after the other. -/
def insertAll (m : SortedMap κ α) (entries : List (κ × α)) : SortedMap κ α :=
  entries.foldl (fun m entry => m.insert entry.1 entry.2) m

@[simp] theorem insertAll_nil (m : SortedMap κ α) : m.insertAll [] = m := rfl

@[simp] theorem insertAll_cons (m : SortedMap κ α) (entry : κ × α) (entries : List (κ × α)) :
    m.insertAll (entry :: entries) = (m.insert entry.1 entry.2).insertAll entries := rfl

theorem insertAll_append (m : SortedMap κ α) (front rest : List (κ × α)) :
    m.insertAll (front ++ rest) = (m.insertAll front).insertAll rest :=
  List.foldl_append

/-- **A run that ascends behind the map is appended to it.** -/
theorem toList_insertAll {m : SortedMap κ α} {entries : List (κ × α)}
    (h : (m.toList ++ entries).Pairwise fun a b => compare a.1 b.1 = .lt) :
    (m.insertAll entries).toList = m.toList ++ entries := by
  induction entries generalizing m with
  | nil => simp
  | cons entry entries ih =>
    have hlast : (m.insert entry.1 entry.2).toList = m.toList ++ [entry] :=
      insertEntry_eq_append fun other hmem =>
        (List.pairwise_append.1 h).2.2 other hmem entry List.mem_cons_self
    rw [insertAll_cons, ih, hlast, List.append_assoc, List.singleton_append]
    rw [hlast, List.append_assoc, List.singleton_append]
    exact h

/-- A map is what writing its entries into the empty map gives. -/
theorem insertAll_toList (m : SortedMap κ α) : empty.insertAll m.toList = m :=
  SortedMap.ext_toList (toList_insertAll (m := empty) m.ascending)

theorem get?_insertAll_of_ne [Std.LawfulEqOrd κ] [DecidableEq κ] {entries : List (κ × α)}
    {key : κ} (h : ∀ entry ∈ entries, key ≠ entry.1) (m : SortedMap κ α) :
    (m.insertAll entries).get? key = m.get? key := by
  induction entries generalizing m with
  | nil => rfl
  | cons entry entries ih =>
    rw [insertAll_cons, ih fun other hmem => h other (List.mem_cons_of_mem _ hmem), get?_insert,
      if_neg (h entry List.mem_cons_self)]

/-- **Reading after a run of entries**: they win over the map. -/
theorem get?_insertAll [Std.LawfulEqOrd κ] [DecidableEq κ] (m : SortedMap κ α)
    (entries : List (κ × α)) (key : κ) :
    (m.insertAll entries).get? key = ((ofList entries).get? key).or (m.get? key) := by
  induction entries generalizing m with
  | nil => rfl
  | cons entry entries ih =>
    have hfirst : ofList (entry :: entries) = (empty.insert entry.1 entry.2).insertAll entries := rfl
    rw [insertAll_cons, ih, hfirst, ih, get?_insert, get?_insert]
    by_cases hkey : key = entry.1
    · rw [if_pos hkey, if_pos hkey, Option.or_assoc, Option.some_or]
    · rw [if_neg hkey, if_neg hkey, Option.or_assoc]
      rfl

/-- The second of two maps wins over the first. -/
theorem get?_union [Std.LawfulEqOrd κ] [DecidableEq κ] (a b : SortedMap κ α) (key : κ) :
    (a.union b).get? key = (b.get? key).or (a.get? key) := by
  have hunion : a.union b = a.insertAll b.toList := rfl
  rw [hunion, get?_insertAll, show ofList b.toList = b from insertAll_toList b]

theorem ofList_append [Std.LawfulEqOrd κ] [DecidableEq κ] (front rest : List (κ × α)) :
    ofList (front ++ rest) = (ofList front).union (ofList rest) := by
  apply ext_get?
  intro key
  have happend : ofList (front ++ rest) = (ofList front).insertAll rest :=
    insertAll_append empty front rest
  rw [happend, get?_insertAll, get?_union]

/-- Maps without a key in common. -/
def Disjoint (a b : SortedMap κ α) : Prop := ∀ key, a.get? key = none ∨ b.get? key = none

omit [Std.TransOrd κ] in
theorem disjoint_iff [Std.LawfulEqOrd κ] {a b : SortedMap κ α} :
    a.Disjoint b ↔ ∀ entry ∈ a.toList, b.get? entry.1 = none := by
  constructor
  · intro h entry hmem
    rcases h entry.1 with hnone | hnone
    · rw [mem_toList_iff.1 hmem] at hnone
      cases hnone
    · exact hnone
  · intro h key
    cases hget : a.get? key with
    | none => exact .inl rfl
    | some value => exact .inr (h (key, value) (mem_toList_iff.2 hget))

instance [Std.LawfulEqOrd κ] (a b : SortedMap κ α) : Decidable (a.Disjoint b) :=
  decidable_of_iff (∀ entry ∈ a.toList, (b.get? entry.1).isNone) (by
    simp only [Option.isNone_iff_eq_none]
    exact disjoint_iff.symm)

/-- **Two runs without a key in common** can be written in either order. -/
theorem insertAll_comm [Std.LawfulEqOrd κ] [DecidableEq κ] {first second : List (κ × α)}
    (h : (ofList first).Disjoint (ofList second)) (m : SortedMap κ α) :
    (m.insertAll first).insertAll second = (m.insertAll second).insertAll first := by
  apply ext_get?
  intro key
  rw [get?_insertAll, get?_insertAll, get?_insertAll, get?_insertAll]
  rcases h key with hnone | hnone
  · rw [hnone, Option.none_or, Option.none_or]
  · rw [hnone, Option.none_or, Option.none_or]

theorem insertAll_flatMap {ι : Type} (entriesOf : ι → List (κ × α)) (m : SortedMap κ α)
    (pieces : List ι) :
    m.insertAll (pieces.flatMap entriesOf) =
      pieces.foldl (fun m piece => m.insertAll (entriesOf piece)) m := by
  induction pieces generalizing m with
  | nil => rfl
  | cons piece pieces ih => rw [List.flatMap_cons, insertAll_append, ih, List.foldl_cons]

/-- Of entries that are written one after the other the last one of a key stays. -/
theorem get?_insertAll_filterMap_range [Std.LawfulEqOrd κ] [DecidableEq κ]
    (assign? : Nat → Option (κ × α)) (count : Nat) {key : κ} {value : α} :
    ((empty : SortedMap κ α).insertAll ((List.range count).filterMap assign?)).get? key =
        some value ↔
      ∃ k < count, assign? k = some (key, value) ∧
        ∀ l, k < l → l < count → ∀ later, assign? l ≠ some (key, later) := by
  induction count with
  | zero =>
    refine ⟨fun h => absurd h nofun, ?_⟩
    rintro ⟨k, hk, -⟩
    exact absurd hk (Nat.not_lt_zero k)
  | succ count ih =>
    rw [List.range_succ, List.filterMap_append, insertAll_append]
    by_cases hlast : ∃ last, assign? count = some (key, last)
    · obtain ⟨last, hlast⟩ := hlast
      rw [List.filterMap_cons_some hlast, List.filterMap_nil, insertAll_cons, insertAll_nil,
        get?_insert, if_pos rfl, Option.some.injEq]
      constructor
      · rintro rfl
        exact ⟨count, Nat.lt_succ_self count, hlast, fun l hl hcount => by omega⟩
      · rintro ⟨k, hk, hentry, hlater⟩
        by_cases heq : k = count
        · subst heq
          exact congrArg Prod.snd (Option.some.inj (hlast.symm.trans hentry))
        · exact absurd hlast (hlater count (by omega) (Nat.lt_succ_self count) last)
    · have hlast (later : α) : assign? count ≠ some (key, later) := fun h => hlast ⟨later, h⟩
      have hother : ∀ entry ∈ [count].filterMap assign?, key ≠ entry.1 := by
        rintro ⟨other, later⟩ hmem rfl
        obtain ⟨k, hk, hentry⟩ := List.mem_filterMap.1 hmem
        exact hlast later (List.mem_singleton.1 hk ▸ hentry)
      rw [get?_insertAll_of_ne hother, ih]
      constructor
      · rintro ⟨k, hk, hentry, hlater⟩
        refine ⟨k, by omega, hentry, fun l hl hcount => ?_⟩
        rcases Nat.lt_succ_iff_lt_or_eq.1 hcount with hcount | rfl
        · exact hlater l hl hcount
        · exact hlast
      · rintro ⟨k, hk, hentry, hlater⟩
        rcases Nat.lt_succ_iff_lt_or_eq.1 hk with hk | rfl
        · exact ⟨k, hk, hentry, fun l hl hcount => hlater l hl (Nat.lt_succ_of_lt hcount)⟩
        · exact absurd hentry (hlast value)

end Insert

/-! ## Values replaced by a function that may fail -/

omit [Ord κ] in
theorem mem_of_mapEntriesM {ε : Type} {change : κ → α → Except ε β} {entries : List (κ × α)}
    {changed : { changed : List (κ × β) // changed.map (·.1) = entries.map (·.1) }}
    (h : mapEntriesM change entries = .ok changed) {key : κ} {value' : β}
    (hmem : (key, value') ∈ changed.1) :
    ∃ value, (key, value) ∈ entries ∧ change key value = .ok value' := by
  induction entries with
  | nil =>
    obtain rfl := Except.ok.inj h
    cases hmem
  | cons entry rest ih =>
    obtain ⟨k, v⟩ := entry
    obtain ⟨v', hv, h⟩ := bind_eq_ok.1 h
    obtain ⟨changed', hr, h⟩ := bind_eq_ok.1 h
    obtain rfl := Except.ok.inj h
    rcases List.mem_cons.1 hmem with heq | hmem
    · obtain ⟨rfl, rfl⟩ := Prod.mk.inj heq
      exact ⟨v, List.mem_cons_self, hv⟩
    · obtain ⟨value, hvalue, hchange⟩ := ih hr hmem
      exact ⟨value, List.mem_cons_of_mem _ hvalue, hchange⟩

/-- Every value of the new map comes from the value of the same key. -/
theorem mem_of_mapM {ε : Type} {change : κ → α → Except ε β} {m : SortedMap κ α}
    {m' : SortedMap κ β} (h : m.mapM change = .ok m') {key : κ} {value' : β}
    (hmem : (key, value') ∈ m'.toList) :
    ∃ value, (key, value) ∈ m.toList ∧ change key value = .ok value' := by
  obtain ⟨changed, hc, h⟩ := bind_eq_ok.1 h
  obtain rfl := Except.ok.inj h
  exact mem_of_mapEntriesM hc hmem

theorem keys_of_mapM {ε : Type} {change : κ → α → Except ε β} {m : SortedMap κ α}
    {m' : SortedMap κ β} (h : m.mapM change = .ok m') : m'.keys = m.keys := by
  obtain ⟨changed, -, h⟩ := bind_eq_ok.1 h
  obtain rfl := Except.ok.inj h
  exact changed.2

/-- **Looking up in the new map** is looking up in the old one and replacing the value. -/
theorem get?_of_mapM [Std.LawfulEqOrd κ] {ε : Type} {change : κ → α → Except ε β}
    {m : SortedMap κ α} {m' : SortedMap κ β} (h : m.mapM change = .ok m') {key : κ} {value' : β} :
    m'.get? key = some value' ↔
      ∃ value, m.get? key = some value ∧ change key value = .ok value' := by
  simp only [← mem_toList_iff]
  refine ⟨mem_of_mapM h, ?_⟩
  rintro ⟨value, hmem, hchange⟩
  have hkey : key ∈ m'.keys := by
    rw [keys_of_mapM h]
    exact List.mem_map_of_mem hmem
  obtain ⟨⟨_, other'⟩, hmem', rfl⟩ := List.mem_map.1 hkey
  obtain ⟨other, hother, hchange'⟩ := mem_of_mapM h hmem'
  obtain rfl : other = value :=
    Option.some.inj ((mem_toList_iff.1 hother).symm.trans (mem_toList_iff.1 hmem))
  obtain rfl : other' = value' := Except.ok.inj (hchange'.symm.trans hchange)
  exact hmem'

omit [Ord κ] in
theorem exists_mapEntriesM {ε : Type} {change : κ → α → Except ε β} {entries : List (κ × α)}
    (h : ∀ entry ∈ entries, ∃ value', change entry.1 entry.2 = .ok value') :
    ∃ changed, mapEntriesM change entries = .ok changed := by
  induction entries with
  | nil => exact ⟨_, rfl⟩
  | cons entry rest ih =>
    obtain ⟨value', hvalue⟩ := h entry List.mem_cons_self
    obtain ⟨changed, hchanged⟩ := ih fun other hmem => h other (List.mem_cons_of_mem _ hmem)
    exact ⟨_, bind_eq_ok.2 ⟨value', hvalue, bind_eq_ok.2 ⟨changed, hchanged, rfl⟩⟩⟩

/-- The values can be replaced when each of them can. -/
theorem exists_mapM {ε : Type} {change : κ → α → Except ε β} {m : SortedMap κ α}
    (h : ∀ entry ∈ m.toList, ∃ value', change entry.1 entry.2 = .ok value') :
    ∃ m', m.mapM change = .ok m' := by
  obtain ⟨changed, hchanged⟩ := exists_mapEntriesM h
  exact ⟨_, bind_eq_ok.2 ⟨changed, hchanged, rfl⟩⟩

/-! ## The entries behind a key -/

theorem mem_after_iff {m : SortedMap κ α} {key : κ} {entry : κ × α} :
    entry ∈ m.after key ↔ entry ∈ m.toList ∧ compare key entry.1 = .lt := by
  simp [after]

theorem ascending_after (m : SortedMap κ α) (key : κ) :
    (m.after key).Pairwise fun a b => compare a.1 b.1 = .lt :=
  m.ascending.filter _

theorem next?_eq_head? (m : SortedMap κ α) (key : κ) : m.next? key = (m.after key).head? :=
  List.head?_filter.symm

end SortedMap

end FpgaBitstream
