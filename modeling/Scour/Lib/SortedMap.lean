import Mathlib.Data.List.Sort

/-!
# Maps kept in the order of their keys

A list of entries whose keys increase, so that a key is there once.  `get_insert` and `get_retain`
say what an update changes, and `mem_entries` that the entries are what `get` finds.
-/

namespace Search

structure SortedMap (κ ν : Type*) [LinearOrder κ] where
  entries : List (κ × ν)
  sorted : (entries.map Prod.fst).Pairwise (· < ·)

namespace SortedMap

variable {κ ν : Type*} [LinearOrder κ]

def empty : SortedMap κ ν := ⟨[], List.Pairwise.nil⟩

instance : Inhabited (SortedMap κ ν) := ⟨empty⟩

def get (m : SortedMap κ ν) (k : κ) : Option ν := (m.entries.find? fun e => e.1 = k).map (·.2)

def values (m : SortedMap κ ν) : List ν := m.entries.map (·.2)

/-- Put an entry in its place, instead of one with its key. -/
def put (k : κ) (v : ν) : List (κ × ν) → List (κ × ν)
  | [] => [(k, v)]
  | e :: l => if k < e.1 then (k, v) :: e :: l else if e.1 = k then (k, v) :: l else e :: put k v l

theorem mem_keys_put {k a : κ} {v : ν} {l : List (κ × ν)} (h : a ∈ (put k v l).map Prod.fst) :
    a = k ∨ a ∈ l.map Prod.fst := by
  induction l with
  | nil =>
    left
    simpa [put] using h
  | cons e l ih =>
    unfold put at h
    split at h
    · simpa using h
    · split at h
      · rcases List.mem_cons.mp h with h | h
        · exact Or.inl h
        · exact Or.inr (List.mem_cons_of_mem _ h)
      · rcases List.mem_cons.mp h with rfl | h
        · exact Or.inr List.mem_cons_self
        · rcases ih h with h | h
          · exact Or.inl h
          · exact Or.inr (List.mem_cons_of_mem _ h)

theorem sorted_put (k : κ) (v : ν) {l : List (κ × ν)} (h : (l.map Prod.fst).Pairwise (· < ·)) :
    ((put k v l).map Prod.fst).Pairwise (· < ·) := by
  induction l with
  | nil => simp [put]
  | cons e l ih =>
    obtain ⟨hhead, htail⟩ := List.pairwise_cons.mp h
    unfold put
    split
    · rename_i hlt
      refine List.pairwise_cons.mpr ⟨fun a ha => ?_, h⟩
      rcases List.mem_cons.mp ha with rfl | ha
      · exact hlt
      · exact hlt.trans (hhead a ha)
    · rename_i hnot
      split
      · rename_i heq
        exact List.pairwise_cons.mpr ⟨fun a ha => heq ▸ hhead a ha, htail⟩
      · rename_i hne
        refine List.pairwise_cons.mpr ⟨fun a ha => ?_, ih htail⟩
        rcases mem_keys_put ha with rfl | ha
        · exact lt_of_le_of_ne (not_lt.mp hnot) hne
        · exact hhead a ha

def insert (m : SortedMap κ ν) (k : κ) (v : ν) : SortedMap κ ν :=
  ⟨put k v m.entries, sorted_put k v m.sorted⟩

/-- Keep the entries whose keys pass. -/
def retain (m : SortedMap κ ν) (p : κ → Bool) : SortedMap κ ν :=
  ⟨m.entries.filter fun e => p e.1, m.sorted.sublist (List.filter_sublist.map _)⟩

theorem find_put (k a : κ) (v : ν) (l : List (κ × ν)) :
    (put k v l).find? (fun e => e.1 = a) = if k = a then some (k, v) else l.find? (fun e => e.1 = a) := by
  induction l with
  | nil =>
    unfold put
    by_cases h : k = a
    · simp [h]
    · simp [h]
  | cons e l ih =>
    unfold put
    split
    · by_cases h : k = a
      · simp [h]
      · simp [h]
    · split
      · rename_i heq
        by_cases h : k = a
        · simp [h]
        · have : ¬ e.1 = a := fun he => h (heq.symm.trans he)
          simp [h, this]
      · rename_i hne
        by_cases he : e.1 = a
        · have : ¬ k = a := fun h => hne (he.trans h.symm)
          simp [he, this]
        · simp [he, ih]

theorem get_insert (m : SortedMap κ ν) (k a : κ) (v : ν) :
    (m.insert k v).get a = if k = a then some v else m.get a := by
  unfold get insert
  rw [find_put]
  split
  · rfl
  · rfl

theorem mem_entries {m : SortedMap κ ν} {k : κ} {v : ν} :
    (k, v) ∈ m.entries ↔ m.get k = some v := by
  unfold get
  constructor
  · intro h
    obtain ⟨e, he⟩ := Option.isSome_iff_exists.mp
      (List.find?_isSome (p := fun e : κ × ν => decide (e.1 = k)).mpr ⟨(k, v), h, by simp⟩)
    have hmem := List.mem_of_find?_eq_some he
    have hkey : e.1 = k := by simpa using List.find?_some he
    have hinj := List.inj_on_of_nodup_map (m.sorted.imp fun hlt => hlt.ne) hmem h hkey
    rw [he, hinj]
    rfl
  · intro h
    obtain ⟨e, he, rfl⟩ := Option.map_eq_some_iff.mp h
    have hkey : e.1 = k := by simpa using List.find?_some he
    rw [← hkey]
    exact List.mem_of_find?_eq_some he

theorem get_retain (m : SortedMap κ ν) (p : κ → Bool) (k : κ) :
    (m.retain p).get k = if p k then m.get k else none := by
  apply Option.ext
  intro v
  rw [← mem_entries]
  unfold retain
  rw [List.mem_filter]
  split
  · rename_i hp
    rw [mem_entries]
    simp [hp]
  · rename_i hp
    simp [hp]

theorem mem_values {m : SortedMap κ ν} {v : ν} : v ∈ m.values ↔ ∃ k, m.get k = some v := by
  unfold values
  rw [List.mem_map]
  constructor
  · rintro ⟨e, he, rfl⟩
    exact ⟨e.1, mem_entries.mp he⟩
  · rintro ⟨k, hk⟩
    exact ⟨(k, v), mem_entries.mpr hk, rfl⟩

@[simp] theorem get_empty (k : κ) : (empty : SortedMap κ ν).get k = none := rfl

end SortedMap

end Search
