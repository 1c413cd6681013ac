import FpgaBitstream.Proofs.SortedMap

/-!
# Groups of one key

The groups of a list are determined by four conditions (`AreGroups.unique`): their keys ascend, each
holds all elements of its key in the order of the list, its first element has just that key, and
every element is in one of them.  `groupByKey` meets them (`areGroups_groupByKey`).  A map that is
built from the groups has what is built from the group of each key (`get?_of_mapM_groupByKey`), which
says when two such maps are equal (`eq_of_mapM_groupByKey`) and what one of them finds
(`any_get?_of_mapM_groupByKey`).

Another way to get to the groups leads through sorting: the list is sorted by key, and a halving
search finds where the run of the first key ends, then that of the next one (`splitRuns`).  The
search finds the end of a run because in a sorted list the elements up to the first key come before
all others (`partitionPoint_append`), and each run holds at least the element that it starts with
(`runEnd_pos`), so the list gets shorter.  The runs one after the other are the sorted list, and
sorting is stable, which brings their elements into the order of the list that was sorted.
-/

namespace FpgaBitstream

variable {κ α : Type} [Ord κ] {key : α → κ}

/-! ## The elements of a key -/

/-- The elements of a key, in the order of a list. -/
def ofKey (key : α → κ) (k : κ) (elements : List α) : List α :=
  elements.filter fun x => compare k (key x) == .eq

theorem mem_ofKey {k : κ} {elements : List α} {x : α} :
    x ∈ ofKey key k elements ↔ x ∈ elements ∧ compare k (key x) = .eq := by
  rw [ofKey, List.mem_filter, beq_iff_eq]

theorem ofKey_append (k : κ) (front rest : List α) :
    ofKey key k (front ++ rest) = ofKey key k front ++ ofKey key k rest := List.filter_append ..

theorem ofKey_cons_of_eq {k : κ} {x : α} (h : compare k (key x) = .eq) (rest : List α) :
    ofKey key k (x :: rest) = x :: ofKey key k rest := List.filter_cons_of_pos (beq_iff_eq.2 h)

theorem ofKey_cons_of_ne {k : κ} {x : α} (h : ¬ compare k (key x) = .eq) (rest : List α) :
    ofKey key k (x :: rest) = ofKey key k rest := List.filter_cons_of_neg (mt beq_iff_eq.1 h)

theorem ofKey_eq_self {k : κ} {elements : List α} (h : ∀ x ∈ elements, compare k (key x) = .eq) :
    ofKey key k elements = elements := List.filter_eq_self.2 fun x hx => beq_iff_eq.2 (h x hx)

theorem ofKey_eq_nil {k : κ} {elements : List α} (h : ∀ x ∈ elements, ¬ compare k (key x) = .eq) :
    ofKey key k elements = [] := List.filter_eq_nil_iff.2 fun x hx => mt beq_iff_eq.1 (h x hx)

theorem ofKey_congr [Std.TransOrd κ] {k k' : κ} (h : compare k k' = .eq) (elements : List α) :
    ofKey key k elements = ofKey key k' elements := by
  refine List.filter_congr fun x _ => ?_
  rw [Std.TransCmp.congr_left h]

/-! ## Sorted lists and groups -/

/-- A list brought into the order of a key, where elements of one key keep their order. -/
structure IsStableSort (key : α → κ) (elements sorted : List α) : Prop where
  perm : sorted.Perm elements
  ascending : sorted.Pairwise fun a b => (compare (key a) (key b)).isLE
  stable (k : κ) : ofKey key k sorted = ofKey key k elements

/-- The groups of a list: their keys ascend, each of them holds all elements of its key in the order
of the list and starts with one that has just that key, and no element is left out. -/
structure AreGroups (key : α → κ) (elements : List α) (groups : List (κ × List α)) : Prop where
  ascending : groups.Pairwise fun a b => compare a.1 b.1 = .lt
  whole {k : κ} {group : List α} (h : (k, group) ∈ groups) : group = ofKey key k elements
  first {k : κ} {group : List α} (h : (k, group) ∈ groups) : group.head?.map key = some k
  complete {x : α} (h : x ∈ elements) : ∃ k group, (k, group) ∈ groups ∧ x ∈ group

namespace AreGroups

variable {elements : List α} {groups groups' : List (κ × List α)}

theorem nil : AreGroups key [] [] :=
  ⟨.nil, fun h => (List.not_mem_nil h).elim, fun h => (List.not_mem_nil h).elim,
    fun h => (List.not_mem_nil h).elim⟩

/-- Each group has a first element, and this is one of the list. -/
theorem exists_first (h : AreGroups key elements groups) {k : κ} {group : List α}
    (hmem : (k, group) ∈ groups) : ∃ x rest, group = x :: rest ∧ x ∈ elements ∧ key x = k := by
  have hfirst := h.first hmem
  cases group with
  | nil => cases hfirst
  | cons x rest =>
    have hx : x ∈ ofKey key k elements := h.whole hmem ▸ List.mem_cons_self
    exact ⟨x, rest, rfl, (mem_ofKey.1 hx).1, Option.some.inj hfirst⟩

theorem nonempty (h : AreGroups key elements groups) {k : κ} {group : List α}
    (hmem : (k, group) ∈ groups) : group ≠ [] := by
  obtain ⟨x, rest, rfl, -⟩ := h.exists_first hmem
  exact List.cons_ne_nil x rest

/-- The groups of a list that was sorted are those of the list before. -/
theorem of_isStableSort {sorted : List α} (h : AreGroups key sorted groups)
    (hsort : IsStableSort key elements sorted) : AreGroups key elements groups :=
  ⟨h.ascending, fun hmem => (h.whole hmem).trans (hsort.stable _), h.first,
    fun hx => h.complete (hsort.perm.mem_iff.2 hx)⟩

variable [Std.TransOrd κ]

/-- **One more group**, of elements that come before all others. -/
theorem cons {k : κ} {run later : List α} (h : AreGroups key later groups)
    (hfirst : run.head?.map key = some k) (hrun : ∀ x ∈ run, compare k (key x) = .eq)
    (hlater : ∀ x ∈ later, compare k (key x) = .lt) :
    AreGroups key (run ++ later) ((k, run) :: groups) := by
  have hbefore {k' : κ} {group : List α} (hmem : (k', group) ∈ groups) : compare k k' = .lt := by
    obtain ⟨x, -, -, hx, rfl⟩ := h.exists_first hmem
    exact hlater x hx
  refine ⟨List.pairwise_cons.2 ⟨fun _ hmem => hbefore hmem, h.ascending⟩, fun {k' group} hmem => ?_,
    fun hmem => ?_, fun {x} hx => ?_⟩
  · rcases List.mem_cons.1 hmem with hhead | hmem
    · cases hhead
      have hnone : ofKey key k later = [] := ofKey_eq_nil fun x hx => by
        rw [hlater x hx]
        exact nofun
      rw [ofKey_append, hnone, ofKey_eq_self hrun, List.append_nil]
    · have hnone : ofKey key k' run = [] := ofKey_eq_nil fun x hx heq => by
        rw [Std.OrientedCmp.eq_comm, ← Std.TransCmp.congr_left (hrun x hx), hbefore hmem] at heq
        cases heq
      rw [ofKey_append, hnone, List.nil_append]
      exact h.whole hmem
  · rcases List.mem_cons.1 hmem with hhead | hmem
    · cases hhead
      exact hfirst
    · exact h.first hmem
  · rcases List.mem_append.1 hx with hx | hx
    · exact ⟨k, run, List.mem_cons_self, hx⟩
    · obtain ⟨k', group, hmem, hx⟩ := h.complete hx
      exact ⟨k', group, List.mem_cons_of_mem _ hmem, hx⟩

/-- A group is known by its first element. -/
theorem mem_of_mem (h : AreGroups key elements groups) (h' : AreGroups key elements groups')
    {k : κ} {group : List α} (hmem : (k, group) ∈ groups) : (k, group) ∈ groups' := by
  obtain ⟨x, rest, hgroup, hx, rfl⟩ := h.exists_first hmem
  obtain ⟨k', group', hmem', hx'⟩ := h'.complete hx
  have hkey : compare k' (key x) = .eq := (mem_ofKey.1 (h'.whole hmem' ▸ hx')).2
  obtain rfl : group' = group := by
    rw [h.whole hmem, h'.whole hmem', ofKey_congr hkey]
  obtain rfl : k' = key x := by
    have hfirst := h'.first hmem'
    rw [hgroup] at hfirst
    exact (Option.some.inj hfirst).symm
  exact hmem'

/-- **The groups of a list** are determined. -/
theorem unique (h : AreGroups key elements groups) (h' : AreGroups key elements groups') :
    groups = groups' := by
  refine SortedMap.eq_of_ascending h.ascending h'.ascending ?_
  rintro ⟨k, group⟩
  exact ⟨h.mem_of_mem h', h'.mem_of_mem h⟩

end AreGroups

/-! ## Grouping by a map -/

section Map
variable [Std.TransOrd κ]

/-- **The group that a key finds** starts with the first element of that key and holds all of
them. -/
theorem find?_groupByKey (key : α → κ) (elements : List α) (k : κ) :
    ((groupByKey key elements).toList.find? fun entry => compare k entry.1 == .eq) =
      (elements.find? fun x => compare k (key x) == .eq).map
        fun x => (key x, ofKey key k elements) := by
  induction elements generalizing k with
  | nil => rfl
  | cons x rest ih =>
    have hget : ((groupByKey key rest).get? (key x)).getD [] = ofKey key (key x) rest := by
      rw [SortedMap.get?, ih (key x), Option.map_map]
      cases hfind : rest.find? fun y => compare (key x) (key y) == .eq with
      | some y => rfl
      | none => exact (List.filter_eq_nil_iff.2 (List.find?_eq_none.1 hfind)).symm
    have hinsert : (groupByKey key (x :: rest)).toList = SortedMap.insertEntry (key x)
        (x :: ((groupByKey key rest).get? (key x)).getD []) (groupByKey key rest).toList := rfl
    rw [hinsert, SortedMap.find?_insertEntry, hget]
    by_cases h : compare k (key x) = .eq
    · rw [if_pos h, List.find?_cons_of_pos (by simpa using h), Option.map_some, ofKey_cons_of_eq h,
        ofKey_congr h]
    · rw [if_neg h, ih k, List.find?_cons_of_neg (by simpa using h), ofKey_cons_of_ne h]

/-- **What grouping by a map gives** are the groups of the list. -/
theorem areGroups_groupByKey (key : α → κ) (elements : List α) :
    AreGroups key elements (groupByKey key elements).toList := by
  have hfind {k : κ} {group : List α} (h : (k, group) ∈ (groupByKey key elements).toList) :
      ∃ x, (elements.find? fun y => compare k (key y) == .eq) = some x ∧ key x = k ∧
        ofKey key k elements = group := by
    have hentry := SortedMap.find?_eq_some_of_mem h
    rw [find?_groupByKey] at hentry
    obtain ⟨x, hx, hpair⟩ := Option.map_eq_some_iff.1 hentry
    exact ⟨x, hx, Prod.ext_iff.1 hpair⟩
  refine ⟨(groupByKey key elements).ascending, fun h => ?_, fun h => ?_, fun {x} hx => ?_⟩
  · obtain ⟨-, -, -, hgroup⟩ := hfind h
    exact hgroup.symm
  · obtain ⟨x, hx, hkey, hgroup⟩ := hfind h
    rw [← hgroup, ofKey, List.head?_filter, hx, Option.map_some, hkey]
  · have hself : compare (key x) (key x) = .eq := Std.ReflCmp.compare_self
    have hsome : (elements.find? fun y => compare (key x) (key y) == .eq).isSome :=
      List.find?_isSome.2 ⟨x, hx, beq_iff_eq.2 hself⟩
    obtain ⟨first, hfirst⟩ := Option.isSome_iff_exists.1 hsome
    have hentry := find?_groupByKey key elements (key x)
    rw [hfirst, Option.map_some] at hentry
    exact ⟨_, _, List.mem_of_find?_eq_some hentry, mem_ofKey.2 ⟨hx, hself⟩⟩

end Map

/-! ## Maps built group by group -/

section Built
variable {κ α : Type} [Ord κ] [Std.TransOrd κ] [Std.LawfulEqOrd κ] [DecidableEq κ]

omit [Std.TransOrd κ] in
theorem ofKey_eq_filter (key : α → κ) (k : κ) (elements : List α) :
    ofKey key k elements = elements.filter fun x => key x = k := by
  refine List.filter_congr fun x _ => ?_
  rw [Bool.eq_iff_iff, beq_iff_eq, decide_eq_true_iff, Std.LawfulEqCmp.compare_eq_iff_eq, eq_comm]

/-- **An entry of the groups** is a key and all elements of that key, of which there is one. -/
theorem mem_groupByKey {key : α → κ} {elements group : List α} {k : κ}
    (h : (k, group) ∈ (groupByKey key elements).toList) :
    group = elements.filter (fun x => key x = k) ∧ group ≠ [] := by
  have hgroups := areGroups_groupByKey key elements
  exact ⟨(hgroups.whole h).trans (ofKey_eq_filter key k elements), hgroups.nonempty h⟩

/-- **The group of a key** is there when the key has an element, and holds all of them. -/
theorem get?_groupByKey {key : α → κ} {elements group : List α} {k : κ} :
    (groupByKey key elements).get? k = some group ↔
      group = elements.filter (fun x => key x = k) ∧ group ≠ [] := by
  refine ⟨fun h => mem_groupByKey (SortedMap.mem_toList_iff.2 h), ?_⟩
  rintro ⟨rfl, hne⟩
  obtain ⟨x, hx⟩ := List.exists_mem_of_ne_nil _ hne
  obtain ⟨hmem, hkey⟩ := List.mem_filter.1 hx
  obtain ⟨k', group, hentry, hgroup⟩ := (areGroups_groupByKey key elements).complete hmem
  obtain ⟨rfl, -⟩ := mem_groupByKey hentry
  have hsame : k' = k :=
    (of_decide_eq_true (List.mem_filter.1 hgroup).2).symm.trans (of_decide_eq_true hkey)
  exact SortedMap.mem_toList_iff.1 (hsame ▸ hentry)

/-- The key of a group is the key of one of the elements. -/
theorem exists_of_mem_groupByKey {key : α → κ} {elements group : List α} {k : κ}
    (h : (k, group) ∈ (groupByKey key elements).toList) : ∃ x ∈ elements, key x = k := by
  obtain ⟨rfl, hne⟩ := mem_groupByKey h
  obtain ⟨x, hx⟩ := List.exists_mem_of_ne_nil _ hne
  obtain ⟨hmem, hkey⟩ := List.mem_filter.1 hx
  exact ⟨x, hmem, of_decide_eq_true hkey⟩

/-- A map can be built group by group when every group that there is can be built. -/
theorem exists_mapM_groupByKey {ε β : Type} {key : α → κ} {elements : List α}
    {build : List α → Except ε β}
    (h : ∀ k, elements.filter (fun x => key x = k) ≠ [] →
      ∃ b, build (elements.filter fun x => key x = k) = .ok b) :
    ∃ m, (groupByKey key elements).mapM (fun _ group => build group) = .ok m := by
  refine SortedMap.exists_mapM fun (k, group) hmem => ?_
  obtain ⟨rfl, hne⟩ := mem_groupByKey hmem
  exact h k hne

/-- In a map built group by group the key of each element has a value. -/
theorem mem_keys_of_mapM_groupByKey {ε β : Type} {key : α → κ} {elements : List α}
    {build : List α → Except ε β} {m : SortedMap κ β}
    (h : (groupByKey key elements).mapM (fun _ group => build group) = .ok m) {x : α}
    (hx : x ∈ elements) : key x ∈ m.keys := by
  have hgroup : x ∈ elements.filter fun y => key y = key x :=
    List.mem_filter.2 ⟨hx, decide_eq_true rfl⟩
  rw [SortedMap.keys_of_mapM h]
  exact List.mem_map_of_mem
    (SortedMap.mem_toList_iff.2 (get?_groupByKey.2 ⟨rfl, List.ne_nil_of_mem hgroup⟩))

theorem toList_ne_nil_of_mapM_groupByKey {ε β : Type} {key : α → κ} {elements : List α}
    {build : List α → Except ε β} {m : SortedMap κ β}
    (h : (groupByKey key elements).mapM (fun _ group => build group) = .ok m)
    (hne : elements ≠ []) : m.toList ≠ [] := by
  obtain ⟨x, hx⟩ := List.exists_mem_of_ne_nil _ hne
  obtain ⟨entry, hentry, -⟩ := List.mem_map.1 (mem_keys_of_mapM_groupByKey h hx)
  exact List.ne_nil_of_mem hentry

/-- A map built group by group has what is built from the group of each key. -/
theorem get?_of_mapM_groupByKey {ε β : Type} {key : α → κ} {elements : List α}
    {build : List α → Except ε β} {m : SortedMap κ β}
    (h : (groupByKey key elements).mapM (fun _ group => build group) = .ok m) {k : κ} {b : β} :
    m.get? k = some b ↔ elements.filter (fun x => key x = k) ≠ [] ∧
      build (elements.filter fun x => key x = k) = .ok b := by
  simp only [SortedMap.get?_of_mapM h, get?_groupByKey]
  constructor
  · rintro ⟨group, ⟨rfl, hne⟩, hb⟩
    exact ⟨hne, hb⟩
  · rintro ⟨hne, hb⟩
    exact ⟨_, ⟨rfl, hne⟩, hb⟩

theorem exists_get?_of_mapM_groupByKey {ε β : Type} {key : α → κ} {elements : List α}
    {build : List α → Except ε β} {m : SortedMap κ β}
    (h : (groupByKey key elements).mapM (fun _ group => build group) = .ok m) {k : κ}
    (hne : elements.filter (fun x => key x = k) ≠ []) : ∃ b, m.get? k = some b := by
  obtain ⟨x, hx⟩ := List.exists_mem_of_ne_nil _ hne
  obtain ⟨hmem, hkey⟩ := List.mem_filter.1 hx
  obtain rfl := of_decide_eq_true hkey
  obtain ⟨⟨_, b⟩, hentry, hk⟩ := List.mem_map.1 (mem_keys_of_mapM_groupByKey h hmem)
  exact ⟨b, SortedMap.mem_toList_iff.1 (hk ▸ hentry)⟩

theorem get?_eq_none_of_mapM_groupByKey {ε β : Type} {key : α → κ} {elements : List α}
    {build : List α → Except ε β} {m : SortedMap κ β}
    (h : (groupByKey key elements).mapM (fun _ group => build group) = .ok m) {k : κ}
    (hnil : elements.filter (fun x => key x = k) = []) : m.get? k = none := by
  rw [Option.eq_none_iff_forall_ne_some]
  intro b hb
  exact ((get?_of_mapM_groupByKey h).1 hb).1 hnil

/-- **Two maps built group by group are equal** if both lists have elements of the same keys, and
what is built from the two groups of a key is equal. -/
theorem eq_of_mapM_groupByKey {ε β : Type} {key : α → κ} {xs ys : List α}
    {build : List α → Except ε β} {m m' : SortedMap κ β}
    (h : (groupByKey key xs).mapM (fun _ group => build group) = .ok m)
    (h' : (groupByKey key ys).mapM (fun _ group => build group) = .ok m')
    (hkeys : ∀ k, xs.filter (fun x => key x = k) = [] ↔ ys.filter (fun y => key y = k) = [])
    (hbuild : ∀ k b b', build (xs.filter fun x => key x = k) = .ok b →
      build (ys.filter fun y => key y = k) = .ok b' → b = b') : m = m' := by
  apply SortedMap.ext_get?
  intro k
  by_cases hnil : xs.filter (fun x => key x = k) = []
  · rw [get?_eq_none_of_mapM_groupByKey h hnil,
      get?_eq_none_of_mapM_groupByKey h' ((hkeys k).1 hnil)]
  · obtain ⟨b, hb⟩ := exists_get?_of_mapM_groupByKey h hnil
    obtain ⟨b', hb'⟩ := exists_get?_of_mapM_groupByKey h' fun hnil' => hnil ((hkeys k).2 hnil')
    rw [hb, hb', hbuild k b b' ((get?_of_mapM_groupByKey h).1 hb).2
      ((get?_of_mapM_groupByKey h').1 hb').2]

/-- **What passes a test in a map built group by group**: if what is built from a group passes
exactly when one of the group has a property, what a key has passes exactly when one of the elements
of that key has it. -/
theorem any_get?_of_mapM_groupByKey {ε β : Type} {key : α → κ} {elements : List α}
    {build : List α → Except ε β} {m : SortedMap κ β}
    (h : (groupByKey key elements).mapM (fun _ group => build group) = .ok m) {k : κ}
    {test : β → Bool} {P : α → Prop}
    (hbuild : ∀ group b, build group = .ok b → (test b ↔ ∃ x ∈ group, P x)) :
    (m.get? k).any test ↔ ∃ x ∈ elements, key x = k ∧ P x := by
  simp only [Option.any_eq_true, get?_of_mapM_groupByKey h]
  constructor
  · rintro ⟨b, ⟨-, hb⟩, htest⟩
    obtain ⟨x, hx, hP⟩ := (hbuild _ b hb).1 htest
    obtain ⟨hmem, hkey⟩ := List.mem_filter.1 hx
    exact ⟨x, hmem, of_decide_eq_true hkey, hP⟩
  · rintro ⟨x, hmem, hkey, hP⟩
    have hx : x ∈ elements.filter fun x => key x = k :=
      List.mem_filter.2 ⟨hmem, decide_eq_true hkey⟩
    obtain ⟨b, hb⟩ := exists_get?_of_mapM_groupByKey h (List.ne_nil_of_mem hx)
    have hbuilt := (get?_of_mapM_groupByKey h).1 hb
    exact ⟨b, hbuilt, (hbuild _ b hbuilt.2).2 ⟨x, hx, hP⟩⟩

end Built

/-! ## Stable sorting -/

/-- A list in the order of a key. -/
def sortOn {α κ : Type} [Ord κ] (key : α → κ) (elements : List α) : List α :=
  elements.mergeSort fun a b => (compare (key a) (key b)).isLE

theorem sortOn_perm (key : α → κ) (elements : List α) : (sortOn key elements).Perm elements :=
  List.mergeSort_perm elements _

section Sorting
variable [Std.TransOrd κ]

theorem isLE_total (a b : κ) : (compare a b).isLE || (compare b a).isLE := by
  cases h : compare a b with
  | lt => rfl
  | eq => rfl
  | gt => rw [Std.OrientedCmp.gt_iff_lt.1 h]; rfl

theorem pairwise_sortOn (key : α → κ) (elements : List α) :
    (sortOn key elements).Pairwise fun a b => (compare (key a) (key b)).isLE :=
  List.pairwise_mergeSort (fun _ _ _ => Std.TransCmp.isLE_trans) (fun _ _ => isLE_total _ _) elements

/-- **Sorting is stable.** -/
theorem ofKey_sortOn (key : α → κ) (k : κ) (elements : List α) :
    ofKey key k (sortOn key elements) = ofKey key k elements := by
  have hsame : (ofKey key k elements).Pairwise fun a b => (compare (key a) (key b)).isLE := by
    apply List.pairwise_of_forall_mem_list
    intro a ha b hb
    rw [← Std.TransCmp.congr_left (mem_ofKey.1 ha).2, (mem_ofKey.1 hb).2]
    rfl
  -- elements of one key are sorted as they stand, so that sorting does not move them apart
  have hsublist : (ofKey key k elements).Sublist (sortOn key elements) :=
    List.sublist_mergeSort (fun _ _ _ => Std.TransCmp.isLE_trans) (fun _ _ => isLE_total _ _) hsame
      List.filter_sublist
  have hfilter : (ofKey key k (ofKey key k elements)).Sublist (ofKey key k (sortOn key elements)) :=
    hsublist.filter _
  rw [ofKey_eq_self fun x hx => (mem_ofKey.1 hx).2] at hfilter
  exact (hfilter.eq_of_length ((sortOn_perm key elements).symm.filter _).length_eq).symm

theorem isStableSort_sortOn (key : α → κ) (elements : List α) :
    IsStableSort key elements (sortOn key elements) :=
  ⟨sortOn_perm key elements, pairwise_sortOn key elements, fun k => ofKey_sortOn key k elements⟩

end Sorting

/-! ## Finding where a test ends to hold -/

/-- The middle of an interval. -/
def middle (low high : Nat) : Nat := low + (high - low) / 2

theorem le_middle (low high : Nat) : low ≤ middle low high := Nat.le_add_right ..

theorem middle_lt {low high : Nat} (h : low < high) : middle low high < high := by
  unfold middle
  omega

/-- The place between two others where a test ends to hold, if it holds of no element behind one
that it fails on. Each step halves the interval. -/
def partitionBetween (test : α → Bool) (elements : List α) (low high : Nat)
    (h : high ≤ elements.length) : Nat :=
  if hlow : low < high then
    have hmiddle : middle low high < elements.length := Nat.lt_of_lt_of_le (middle_lt hlow) h
    if test elements[middle low high] then
      partitionBetween test elements (middle low high + 1) high h
    else partitionBetween test elements low (middle low high) hmiddle.le
  else low
termination_by high - low
decreasing_by
  · have hle := le_middle low high
    omega
  · have hlt := middle_lt hlow
    omega

/-- The number of elements before the first one that a test fails on. -/
def partitionPoint (test : α → Bool) (elements : List α) : Nat :=
  partitionBetween test elements 0 elements.length (Nat.le_refl _)

section Search
variable {test : α → Bool} {elements : List α}

/-- **The search keeps the place** between its bounds. -/
theorem partitionBetween_eq {place : Nat}
    (hplace : ∀ i (h : i < elements.length), test elements[i] ↔ i < place) {low high : Nat}
    (h : high ≤ elements.length) (hlow : low ≤ place) (hhigh : place ≤ high) :
    partitionBetween test elements low high h = place := by
  fun_induction partitionBetween test elements low high h with
  | case1 low high h hlt hmiddle htest ih =>
    exact ih ((hplace _ hmiddle).1 htest) hhigh
  | case2 low high h hlt hmiddle htest ih =>
    exact ih hlow (Nat.not_lt.1 (mt (hplace _ hmiddle).2 htest))
  | case3 low high h hlt => omega

/-- The search ends behind an element that passes. -/
theorem partitionBetween_pos (hne : 0 < elements.length) (hfirst : test elements[0])
    {low high : Nat} (h : high ≤ elements.length) (hhigh : 0 < high) :
    0 < partitionBetween test elements low high h := by
  fun_induction partitionBetween test elements low high h with
  | case1 low high h hlt hmiddle htest ih => exact ih hhigh
  | case2 low high h hlt hmiddle htest ih =>
    refine ih (Nat.pos_of_ne_zero fun hzero => htest ?_)
    simpa only [hzero] using hfirst
  | case3 low high h hlt => omega

theorem partitionPoint_pos {first : α} (h : test first) (rest : List α) :
    0 < partitionPoint test (first :: rest) :=
  partitionBetween_pos (List.length_pos_of_mem List.mem_cons_self) h _
    (List.length_pos_of_mem List.mem_cons_self)

/-- **The search finds the place** where the elements that pass come before those that fail. -/
theorem partitionPoint_append {front back : List α} (hfront : ∀ x ∈ front, test x)
    (hback : ∀ x ∈ back, ¬ test x) : partitionPoint test (front ++ back) = front.length := by
  refine partitionBetween_eq (fun i hi => ?_) _ (Nat.zero_le _) (by simp)
  rcases Nat.lt_or_ge i front.length with hlt | hge
  · rw [List.getElem_append_left hlt]
    exact iff_of_true (hfront _ (List.getElem_mem hlt)) hlt
  · rw [List.getElem_append_right hge]
    exact iff_of_false (hback _ (List.getElem_mem _)) (Nat.not_lt.2 hge)

end Search

/-! ## Splitting a sorted list into runs -/

/-- Where the run ends that a list starts with. -/
def runEnd (key : α → κ) (first : α) (rest : List α) : Nat :=
  partitionPoint (fun x => (compare (key x) (key first)).isLE) (first :: rest)

/-- A run holds the element that it starts with. -/
theorem runEnd_pos [Std.ReflOrd κ] (key : α → κ) (first : α) (rest : List α) :
    0 < runEnd key first rest := by
  have hself : compare (key first) (key first) = .eq := Std.ReflCmp.compare_self
  refine partitionPoint_pos ?_ rest
  rw [hself]
  rfl

/-- The runs of a list, each with the key of its first element. -/
def splitRuns [Std.ReflOrd κ] (key : α → κ) : List α → List (κ × List α)
  | [] => []
  | first :: rest =>
    (key first, (first :: rest).take (runEnd key first rest)) ::
      splitRuns key ((first :: rest).drop (runEnd key first rest))
termination_by elements => elements.length
decreasing_by
  have hpos := runEnd_pos key first rest
  rw [List.length_drop, List.length_cons]
  omega

section Runs
variable [Std.TransOrd κ]

/-- **The runs one after the other** are the list. -/
theorem flatMap_splitRuns (key : α → κ) (elements : List α) :
    (splitRuns key elements).flatMap (·.2) = elements := by
  fun_induction splitRuns key elements with
  | case1 => rfl
  | case2 first rest ih => rw [List.flatMap_cons, ih, List.take_append_drop]

/-- Elements from a key on that ascend are those of the key and behind them those of later keys. -/
theorem exists_run {k : κ} {elements : List α}
    (hasc : elements.Pairwise fun a b => (compare (key a) (key b)).isLE)
    (hfrom : ∀ x ∈ elements, (compare k (key x)).isLE) :
    ∃ run later, elements = run ++ later ∧ (∀ x ∈ run, compare k (key x) = .eq) ∧
      ∀ x ∈ later, compare k (key x) = .lt := by
  induction elements with
  | nil => exact ⟨[], [], rfl, List.forall_mem_nil _, List.forall_mem_nil _⟩
  | cons x rest ih =>
    obtain ⟨hx, hrest⟩ := List.pairwise_cons.1 hasc
    obtain ⟨hk, hfrom⟩ := List.forall_mem_cons.1 hfrom
    cases h : compare k (key x) with
    | lt =>
      refine ⟨[], x :: rest, rfl, List.forall_mem_nil _, List.forall_mem_cons.2 ⟨h, ?_⟩⟩
      exact fun y hy => Std.TransCmp.lt_of_lt_of_isLE h (hx y hy)
    | eq =>
      obtain ⟨run, later, rfl, hrun, hlater⟩ := ih hrest hfrom
      exact ⟨x :: run, later, rfl, List.forall_mem_cons.2 ⟨h, hrun⟩, hlater⟩
    | gt =>
      rw [h] at hk
      cases hk

/-- **The first run ends** where elements of later keys come. -/
theorem runEnd_append {first : α} {run later : List α}
    (hrun : ∀ x ∈ first :: run, compare (key first) (key x) = .eq)
    (hlater : ∀ x ∈ later, compare (key first) (key x) = .lt) :
    runEnd key first (run ++ later) = (first :: run).length := by
  rw [runEnd, ← List.cons_append]
  apply partitionPoint_append
  · intro x hx
    rw [Std.OrientedCmp.eq_comm.1 (hrun x hx)]
    rfl
  · intro x hx
    rw [Std.OrientedCmp.gt_iff_lt.2 (hlater x hx)]
    exact nofun

/-- **The runs of a sorted list** are its groups. -/
theorem areGroups_splitRuns {elements : List α}
    (hasc : elements.Pairwise fun a b => (compare (key a) (key b)).isLE) :
    AreGroups key elements (splitRuns key elements) := by
  fun_induction splitRuns key elements with
  | case1 => exact AreGroups.nil
  | case2 first rest ih =>
    obtain ⟨hfirst, hrest⟩ := List.pairwise_cons.1 hasc
    obtain ⟨run, later, rfl, hrun, hlater⟩ := exists_run hrest hfirst
    have hrun : ∀ x ∈ first :: run, compare (key first) (key x) = .eq :=
      List.forall_mem_cons.2 ⟨Std.ReflCmp.compare_self, hrun⟩
    rw [runEnd_append hrun hlater, ← List.cons_append, List.drop_left] at ih ⊢
    rw [List.take_left]
    exact (ih (List.pairwise_append.1 hrest).2.1).cons rfl hrun hlater

/-- **Splitting the sorted list into runs** gives the groups of the map. -/
theorem splitRuns_sortOn (key : α → κ) (elements : List α) :
    splitRuns key (sortOn key elements) = (groupByKey key elements).toList :=
  ((areGroups_splitRuns (pairwise_sortOn key elements)).of_isStableSort
    (isStableSort_sortOn key elements)).unique (areGroups_groupByKey key elements)

end Runs

/-- **Grouping splits a list up.**  The groups are the only ones with ascending keys that each hold
all elements of their key in the order of the list, and none of them is empty.  Sorting the list by
key and splitting it into runs gives the same groups, so one after the other they are a stable sort
of the list. -/
theorem groupByKey_partitions {κ α : Type} [Ord κ] [Std.TransOrd κ] (key : α → κ)
    (elements : List α) :
    AreGroups key elements (groupByKey key elements).toList ∧
    (∀ groups, AreGroups key elements groups → groups = (groupByKey key elements).toList) ∧
    (∀ k group, (k, group) ∈ (groupByKey key elements).toList → group ≠ []) ∧
    splitRuns key (sortOn key elements) = (groupByKey key elements).toList ∧
    (groupByKey key elements).toList.flatMap (·.2) = sortOn key elements ∧
    IsStableSort key elements ((groupByKey key elements).toList.flatMap (·.2)) := by
  have hgroups := areGroups_groupByKey key elements
  have hruns := splitRuns_sortOn key elements
  have hflat : (groupByKey key elements).toList.flatMap (·.2) = sortOn key elements := by
    rw [← hruns, flatMap_splitRuns]
  refine ⟨hgroups, fun _ h => h.unique hgroups, fun _ _ hmem => hgroups.nonempty hmem, hruns, hflat,
    ?_⟩
  rw [hflat]
  exact isStableSort_sortOn key elements

/-- Five numbers by their tens. -/
theorem groupByKey_partitions_tens :
    (groupByKey (· / 10) [5, 12, 3, 14, 7]).toList = [(0, [5, 3, 7]), (1, [12, 14])] ∧
    splitRuns (· / 10) (sortOn (· / 10) [5, 12, 3, 14, 7]) = [(0, [5, 3, 7]), (1, [12, 14])] ∧
    IsStableSort (· / 10) [5, 12, 3, 14, 7] [5, 3, 7, 12, 14] := by
  have hgroups : (groupByKey (· / 10) [5, 12, 3, 14, 7]).toList =
      [(0, [5, 3, 7]), (1, [12, 14])] := by decide
  obtain ⟨-, -, -, hruns, -, hsort⟩ := groupByKey_partitions (· / 10) [5, 12, 3, 14, 7]
  rw [hgroups] at hruns hsort
  exact ⟨hgroups, hruns, hsort⟩

end FpgaBitstream
