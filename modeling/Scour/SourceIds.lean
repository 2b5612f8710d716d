import Scour.Path
import Scour.Lib.SortedMap

/-!
# Which number a source's rows carry

`assign` gives every configured source the number it had last time, and a new one the number after
the highest in the file.  The file forgets the sources that are gone, so what no two names share is
kept only while the highest number ever given is in the file (`number_kept`): once that one's source
is dropped, the next new source gets its number (`not_number_kept`).
-/

namespace Scour

open Search

/-- `Map`: the number that a name's rows carry. -/
abbrev Ids := SortedMap Str UInt32

/-- What changed since the last run. -/
structure Assigned where
  /-- The number each configured source should use, in configuration order. -/
  ids : List UInt32
  /-- Numbers whose source is no longer configured. -/
  dropped : List UInt32
deriving DecidableEq

/-- The loop of `assign`: the map, the next number, and the numbers so far. -/
structure Giving where
  map : Ids
  next : UInt32
  ids : List UInt32

/-- One name's turn: the number it has, or the next one. -/
def give (g : Giving) (name : Str) : Giving :=
  match g.map.get name with
  | some id => { g with ids := g.ids ++ [id] }
  | none => ⟨g.map.insert name g.next, g.next + 1, g.ids ++ [g.next]⟩

/-- One past the highest number in the map. -/
def nextId (map : Ids) : UInt32 :=
  match map.values.max? with
  | none => 0
  | some m => m + 1

/-- A file that cannot be read is treated as absent. -/
def readMap (file : Option Ids) : Ids := file.getD SortedMap.empty

/-- What the file holds afterwards, and the answer. -/
def assign (file : Option Ids) (names : List Str) : Ids × Assigned :=
  let map := readMap file
  let g := names.foldl give ⟨map, nextId map, []⟩
  let dropped := (g.map.entries.filter fun e => !names.contains e.1).map (·.2)
  (g.map.retain names.contains, ⟨g.ids, dropped⟩)

/-! ## One call -/

/-- The names that have no number yet. -/
def newNames (map : Ids) (names : List Str) : List Str :=
  names.filter fun name => (map.get name).isNone

theorem mem_newNames {map : Ids} {names : List Str} {name : Str} :
    name ∈ newNames map names ↔ name ∈ names ∧ map.get name = none := by
  unfold newNames
  rw [List.mem_filter, Option.isNone_iff_eq_none]

/-- No number is two names'. -/
def NoShared (map : Ids) : Prop :=
  ∀ k k' v, map.get k = some v → map.get k' = some v → k = k'

/-- Where the loop stands when its next number is `n`. -/
structure Giving.Ok (g : Giving) (n : Nat) : Prop where
  next : g.next = UInt32.ofNat n
  low : ∀ k v, g.map.get k = some v → v.toNat < n
  apart : NoShared g.map

/-- One past the highest number, which 32 bits may not hold. -/
def firstFree (map : Ids) : Nat :=
  match map.values.max? with
  | none => 0
  | some m => m.toNat + 1

theorem nextId_eq (map : Ids) : nextId map = UInt32.ofNat (firstFree map) := by
  unfold nextId firstFree
  split
  · rfl
  · apply UInt32.toNat_inj.mp
    simp

instance lawfulOrderMax : Std.LawfulOrderMax UInt32 where
  max_eq_or a b := by
    change (if a ≤ b then b else a) = a ∨ (if a ≤ b then b else a) = b
    split
    · exact Or.inr rfl
    · exact Or.inl rfl
  max_le_iff a b c := by
    change (if a ≤ b then b else a) ≤ c ↔ _
    simp only [UInt32.le_iff_toNat_le]
    split <;> omega

theorem lt_firstFree {map : Ids} {v : UInt32} :
    v.toNat < firstFree map ↔ ∃ w ∈ map.values, v ≤ w := by
  unfold firstFree
  cases h : map.values.max? with
  | none =>
    rw [List.max?_eq_none_iff.mp h]
    simp
  | some m =>
    obtain ⟨hm, hmax⟩ := List.max?_eq_some_iff.mp h
    simp only [Nat.lt_succ_iff]
    constructor
    · exact fun hv => ⟨m, hm, UInt32.le_iff_toNat_le.mpr hv⟩
    · rintro ⟨w, hw, hvw⟩
      have := UInt32.le_iff_toNat_le.mp (hmax w hw)
      have := UInt32.le_iff_toNat_le.mp hvw
      omega

theorem newNames_cons_of_none {map : Ids} {name : Str} {rest : List Str}
    (h : map.get name = none) : newNames map (name :: rest) = name :: newNames map rest := by
  unfold newNames
  rw [List.filter_cons_of_pos (by rw [h]; rfl)]

theorem newNames_cons_of_some {map : Ids} {name : Str} {rest : List Str} {v : UInt32}
    (h : map.get name = some v) : newNames map (name :: rest) = newNames map rest := by
  unfold newNames
  rw [List.filter_cons_of_neg (by simp [h])]

theorem newNames_insert (map : Ids) (name : Str) (v : UInt32) (rest : List Str) :
    newNames (map.insert name v) rest = (newNames map rest).filter (name ≠ ·) := by
  unfold newNames
  rw [List.filter_filter]
  refine List.filter_congr fun a _ => ?_
  rw [SortedMap.get_insert]
  by_cases h : name = a
  · simp [h]
  · simp [h]

/-- A new name takes the next number. -/
theorem Giving.Ok.insert {g : Giving} {n : Nat} (h : g.Ok n) (name : Str) (hroom : n < 2 ^ 32) :
    Giving.Ok ⟨g.map.insert name g.next, g.next + 1, g.ids ++ [g.next]⟩ (n + 1) := by
  have hnext : g.next.toNat = n := by
    rw [h.next]
    simp
    omega
  refine ⟨?_, fun k v hk => ?_, fun k k' v hk hk' => ?_⟩
  · rw [h.next]
    apply UInt32.toNat_inj.mp
    simp
  · rw [SortedMap.get_insert] at hk
    split at hk
    · rw [← Option.some.inj hk, hnext]
      exact Nat.lt_succ_self n
    · exact Nat.lt_succ_of_lt (h.low k v hk)
  · rw [SortedMap.get_insert] at hk hk'
    split at hk
    · rename_i heq
      split at hk'
      · rename_i heq'
        exact heq.symm.trans heq'
      · have := h.low k' v hk'
        rw [← Option.some.inj hk, hnext] at this
        exact absurd this (lt_irrefl n)
    · split at hk'
      · have := h.low k v hk
        rw [← Option.some.inj hk', hnext] at this
        exact absurd this (lt_irrefl n)
      · exact h.apart k k' v hk hk'

/-- What the loop has done: the names have their numbers, those of before are what they were, and
the new ones are `n` or more. -/
structure Gave (g g' : Giving) (n : Nat) (names : List Str) (is : List UInt32) : Prop where
  ids : g'.ids = g.ids ++ is
  has : List.Forall₂ (fun name i => g'.map.get name = some i) names is
  keeps : ∀ k v, g.map.get k = some v → g'.map.get k = some v
  from_ : ∀ k v, g'.map.get k = some v →
    g.map.get k = some v ∨ k ∈ newNames g.map names ∧ n ≤ v.toNat

theorem gave_foldl (names : List Str) : ∀ (g : Giving) (n : Nat), g.Ok n →
    n + (newNames g.map names).length ≤ 2 ^ 32 →
    ∃ is n', (names.foldl give g).Ok n' ∧ Gave g (names.foldl give g) n names is := by
  induction names with
  | nil =>
    intro g n h _
    exact ⟨[], n, h, (List.append_nil _).symm, .nil, fun _ _ hk => hk, fun _ _ hk => Or.inl hk⟩
  | cons name names ih =>
    intro g n h hroom
    rw [List.foldl_cons]
    cases hget : g.map.get name with
    | some v =>
      have hgive : give g name = { g with ids := g.ids ++ [v] } := by
        unfold give
        rw [hget]
      rw [newNames_cons_of_some hget] at hroom
      obtain ⟨is, n', hok, hgave⟩ := ih (give g name) n (by rw [hgive]; exact ⟨h.next, h.low, h.apart⟩)
        (by rwa [hgive])
      refine ⟨v :: is, n', hok, ?_, .cons ?_ hgave.has, fun k w hk => ?_, fun k w hk => ?_⟩
      · rw [hgave.ids, hgive, List.append_assoc, List.singleton_append]
      · exact hgave.keeps name v (by rwa [hgive])
      · exact hgave.keeps k w (by rwa [hgive])
      · rw [newNames_cons_of_some hget]
        have := hgave.from_ k w hk
        rwa [hgive] at this
    | none =>
      have hgive : give g name = ⟨g.map.insert name g.next, g.next + 1, g.ids ++ [g.next]⟩ := by
        unfold give
        rw [hget]
      rw [newNames_cons_of_none hget, List.length_cons] at hroom
      have hnext : g.next.toNat = n := by
        rw [h.next]
        simp
        omega
      obtain ⟨is, n', hok, hgave⟩ := ih (give g name) (n + 1)
        (by rw [hgive]; exact h.insert name (by omega))
        (by
          rw [hgive]
          simp only [newNames_insert]
          have := List.length_filter_le (name ≠ ·) (newNames g.map names)
          omega)
      have hmap : (give g name).map = g.map.insert name g.next := by rw [hgive]
      have hkeeps : ∀ k v, g.map.get k = some v → (give g name).map.get k = some v := by
        intro k v hk
        rw [hmap, SortedMap.get_insert, if_neg, hk]
        rintro rfl
        rw [hget] at hk
        cases hk
      refine ⟨g.next :: is, n', hok, ?_, .cons ?_ hgave.has, fun k w hk => ?_, fun k w hk => ?_⟩
      · rw [hgave.ids, hgive, List.append_assoc, List.singleton_append]
      · apply hgave.keeps
        rw [hmap, SortedMap.get_insert, if_pos rfl]
      · exact hgave.keeps k w (hkeeps k w hk)
      · rw [newNames_cons_of_none hget]
        rcases hgave.from_ k w hk with hk | ⟨hk, hle⟩
        · rw [hmap, SortedMap.get_insert] at hk
          split at hk
          · rename_i heq
            right
            rw [← heq, ← Option.some.inj hk, hnext]
            exact ⟨List.mem_cons_self, le_refl n⟩
          · exact Or.inl hk
        · rw [hmap, newNames_insert] at hk
          exact Or.inr ⟨List.mem_cons_of_mem _ (List.mem_of_mem_filter hk), by omega⟩

/-- There are 32-bit numbers left for the new names. -/
def RoomFor (map : Ids) (names : List Str) : Prop :=
  firstFree map + (newNames map names).length ≤ 2 ^ 32

instance (map : Ids) (names : List Str) : Decidable (RoomFor map names) := by
  unfold RoomFor
  infer_instance

/-- What a call does to the file, and what it answers. -/
structure Assigns (map : Ids) (names : List Str) (map' : Ids) (a : Assigned) : Prop where
  length : a.ids.length = names.length
  has : ∀ e ∈ names.zip a.ids, map'.get e.1 = some e.2
  keeps : ∀ k v, k ∈ names → map.get k = some v → map'.get k = some v
  from_ : ∀ k v, map'.get k = some v →
    k ∈ names ∧ (map.get k = some v ∨ map.get k = none ∧ firstFree map ≤ v.toNat)
  apart : NoShared map'
  dropped : ∀ v, v ∈ a.dropped ↔ ∃ k, map.get k = some v ∧ k ∉ names
  once : a.dropped.Nodup

theorem assign_spec {file : Option Ids} {names : List Str} (happart : NoShared (readMap file))
    (hfits : RoomFor (readMap file) names) :
    Assigns (readMap file) names (assign file names).1 (assign file names).2 := by
  have hok : Giving.Ok ⟨readMap file, nextId (readMap file), []⟩ (firstFree (readMap file)) :=
    ⟨nextId_eq _, fun k v hk => lt_firstFree.mpr ⟨v, SortedMap.mem_values.mpr ⟨k, hk⟩, UInt32.le_refl v⟩,
      happart⟩
  obtain ⟨is, n', hok', hgave⟩ := gave_foldl names _ _ hok hfits
  unfold assign
  simp only
  generalize names.foldl give ⟨readMap file, nextId (readMap file), []⟩ = g' at hok' hgave
  have hretain : ∀ k v, (g'.map.retain names.contains).get k = some v ↔
      k ∈ names ∧ g'.map.get k = some v := by
    intro k v
    rw [SortedMap.get_retain]
    by_cases hk : k ∈ names
    · simp [hk]
    · simp [hk]
  obtain ⟨hlen, hhas⟩ := List.forall₂_iff_zip.mp hgave.has
  have hids : g'.ids = is := hgave.ids
  refine ⟨by rw [hids, hlen], fun e he => ?_,
    fun k v hk hv => (hretain k v).mpr ⟨hk, hgave.keeps k v hv⟩, fun k v hv => ?_,
    fun k k' v hk hk' => ?_, fun v => ?_, ?_⟩
  · rw [hids] at he
    exact (hretain e.1 e.2).mpr ⟨(List.of_mem_zip he).1, hhas he⟩
  · obtain ⟨hk, hv⟩ := (hretain k v).mp hv
    refine ⟨hk, ?_⟩
    rcases hgave.from_ k v hv with h | ⟨h, hle⟩
    · exact Or.inl h
    · exact Or.inr ⟨(mem_newNames.mp h).2, hle⟩
  · exact hok'.apart k k' v ((hretain k v).mp hk).2 ((hretain k' v).mp hk').2
  · rw [List.mem_map]
    constructor
    · rintro ⟨e, he, rfl⟩
      obtain ⟨he, hnot⟩ := List.mem_filter.mp he
      have hk : e.1 ∉ names := by simpa using hnot
      rcases hgave.from_ e.1 e.2 (SortedMap.mem_entries.mp he) with h | ⟨h, -⟩
      · exact ⟨e.1, h, hk⟩
      · exact absurd (mem_newNames.mp h).1 hk
    · rintro ⟨k, hk, hnot⟩
      refine ⟨(k, v), List.mem_filter.mpr ⟨SortedMap.mem_entries.mpr (hgave.keeps k v hk), ?_⟩, rfl⟩
      simpa using hnot
  · refine List.Nodup.map_on (fun d hd e he hde => ?_) (List.Nodup.filter _ ?_)
    · have hd := SortedMap.mem_entries.mp (List.mem_of_mem_filter hd)
      have he := SortedMap.mem_entries.mp (List.mem_of_mem_filter he)
      rw [hde] at hd
      exact Prod.ext (hok'.apart d.1 e.1 e.2 hd he) hde
    · exact List.Nodup.of_map Prod.fst (g'.map.sorted.imp fun h => h.ne)

/-! ## Call after call -/

/-- One directory: its file, and every number given, to whom. -/
structure Register where
  file : Option Ids
  given : List (Str × UInt32)

namespace Register

/-- Who got which number in a call. -/
def handed (s : Register) (names : List Str) : List (Str × UInt32) :=
  names.zip (assign s.file names).2.ids

def call (s : Register) (names : List Str) : Register :=
  ⟨some (assign s.file names).1, s.given ++ s.handed names⟩

/-- The runs of calls with distinct names, each passing `ok`, from a file that gives no number
twice, such as none at all. -/
inductive Run (ok : Register → List Str → Prop) : Register → Prop
  | start (file : Option Ids) (h : NoShared (readMap file)) : Run ok ⟨file, (readMap file).entries⟩
  | call (s : Register) (names : List Str) (hs : Run ok s) (hnames : names.Nodup)
      (hok : ok s names) : Run ok (s.call names)

/-- The numbers do not run out. -/
def Roomy (s : Register) (names : List Str) : Prop := RoomFor (readMap s.file) names

/-- A new name comes only while the highest number ever given is in the file. -/
def Lasting (s : Register) (names : List Str) : Prop :=
  newNames (readMap s.file) names = [] ∨
    ∀ e ∈ s.given, ∃ v ∈ (readMap s.file).values, e.2 ≤ v

theorem Run.distinct {ok : Register → List Str → Prop}
    (hroomy : ∀ s names, ok s names → s.Roomy names) {s : Register} (h : Run ok s) :
    NoShared (readMap s.file) := by
  induction h with
  | start file h => exact h
  | call s names hs hnames hok ih => exact (assign_spec ih (hroomy s names hok)).apart

theorem Run.mono {ok ok' : Register → List Str → Prop} (h : ∀ s names, ok s names → ok' s names)
    {s : Register} (hs : Run ok s) : Run ok' s := by
  induction hs with
  | start file hfile => exact .start file hfile
  | call s names hs hnames hok ih => exact .call s names ih hnames (h s names hok)

/-- What the file holds was given, and no number was given to two. -/
structure Own (s : Register) : Prop where
  held : ∀ k v, (readMap s.file).get k = some v → (k, v) ∈ s.given
  once : ∀ d ∈ s.given, ∀ e ∈ s.given, d.2 = e.2 → d.1 = e.1

theorem handed_iff {s : Register} (hd : NoShared (readMap s.file)) {names : List Str}
    (hroomy : s.Roomy names) {k : Str} {v : UInt32} :
    (k, v) ∈ s.handed names ↔ (readMap (s.call names).file).get k = some v := by
  have hspec := assign_spec hd hroomy
  constructor
  · exact fun h => hspec.has (k, v) h
  · intro h
    have hk : k ∈ (s.handed names).map Prod.fst := by
      unfold handed
      rw [List.map_fst_zip hspec.length.ge]
      exact (hspec.from_ k v h).1
    obtain ⟨e, he, rfl⟩ := List.mem_map.mp hk
    have hv : (readMap (s.call names).file).get e.1 = some e.2 := hspec.has e he
    rw [hv] at h
    rw [← Option.some.inj h]
    exact he

theorem Own.call {s : Register} (h : s.Own) {names : List Str} (hd : NoShared (readMap s.file))
    (hroomy : s.Roomy names) (hlasting : s.Lasting names) : (s.call names).Own := by
  have hspec := assign_spec hd hroomy
  -- what was handed out either was so before, or is above all that was given
  have hcase : ∀ e ∈ s.handed names, e ∈ s.given ∨ ∀ d ∈ s.given, d.2.toNat < e.2.toNat := by
    intro e he
    obtain ⟨hname, hold | ⟨hnew, hle⟩⟩ := hspec.from_ e.1 e.2 (hspec.has e he)
    · exact Or.inl (h.held e.1 e.2 hold)
    · right
      intro d hdg
      rcases hlasting with hnil | hmax
      · have := mem_newNames.mpr ⟨hname, hnew⟩
        rw [hnil] at this
        cases this
      · exact lt_of_lt_of_le (lt_firstFree.mpr (hmax d hdg)) hle
  have hcross : ∀ d ∈ s.given, ∀ e ∈ s.handed names, d.2 = e.2 → d.1 = e.1 := by
    intro d hdg e he hde
    rcases hcase e he with hold | hlow
    · exact h.once d hdg e hold hde
    · have := hlow d hdg
      rw [hde] at this
      exact absurd this (lt_irrefl _)
  refine ⟨fun k v hk => ?_, fun d hdg e he hde => ?_⟩
  · exact List.mem_append_right _ ((handed_iff hd hroomy).mpr hk)
  · rcases List.mem_append.mp hdg with hdg | hdg
    · rcases List.mem_append.mp he with he | he
      · exact h.once d hdg e he hde
      · exact hcross d hdg e he hde
    · rcases List.mem_append.mp he with he | he
      · exact (hcross e he d hdg hde.symm).symm
      · have hdh := hspec.has d hdg
        rw [hde] at hdh
        exact hspec.apart d.1 e.1 e.2 hdh (hspec.has e he)

theorem Run.own {s : Register} (h : Run (fun s names => s.Roomy names ∧ s.Lasting names) s) :
    s.Own := by
  induction h with
  | start file h =>
    refine ⟨fun k v hk => SortedMap.mem_entries.mpr hk, fun d hd e he hde => ?_⟩
    have hd := SortedMap.mem_entries.mp hd
    rw [hde] at hd
    exact h d.1 e.1 e.2 hd (SortedMap.mem_entries.mp he)
  | call s names hs hnames hok ih =>
    exact ih.call (Run.distinct (fun _ _ hok => hok.1) hs) hok.1 hok.2

/-- **A source's number is its own**: in every run of calls whose numbers do not run out, a call
gives its names numbers of their own, the next call leaves a name its number and reports exactly
the numbers of the names that are gone; and where new names came only while the highest number ever
given was in the file, no number was given to two names in the whole run. -/
theorem number_kept {s : Register} (hs : Run Roomy s) {names later : List Str}
    (hnames : names.Nodup) (hroomy : s.Roomy names) (hlater : (s.call names).Roomy later) :
    (assign s.file names).2.ids.length = names.length ∧ (assign s.file names).2.ids.Nodup ∧
      (∀ name i j, (name, i) ∈ s.handed names → (name, j) ∈ (s.call names).handed later → i = j) ∧
      (∀ i, i ∈ (assign (s.call names).file later).2.dropped ↔
        ∃ name, (name, i) ∈ s.handed names ∧ name ∉ later) ∧
      (assign (s.call names).file later).2.dropped.Nodup ∧
      (Run (fun s names => s.Roomy names ∧ s.Lasting names) s →
        ∀ d ∈ s.given, ∀ e ∈ s.given, d.2 = e.2 → d.1 = e.1) := by
  have hd : NoShared (readMap s.file) := Run.distinct (fun _ _ hok => hok) hs
  have hspec := assign_spec hd hroomy
  have hd' : NoShared (readMap (s.call names).file) := hspec.apart
  have hspec' := assign_spec hd' hlater
  refine ⟨hspec.length, ?_, fun name i j hi hj => ?_, fun i => ?_, hspec'.once,
    fun hrun => hrun.own.once⟩
  · have hzip : ((s.handed names).map Prod.snd).Nodup := by
      refine List.Nodup.map_on (fun d hdg e he hde => ?_) (List.Nodup.of_map Prod.fst ?_)
      · have hdh := hspec.has d hdg
        rw [hde] at hdh
        exact Prod.ext (hspec.apart d.1 e.1 e.2 hdh (hspec.has e he)) hde
      · unfold handed
        rwa [List.map_fst_zip hspec.length.ge]
    unfold handed at hzip
    rwa [List.map_snd_zip hspec.length.le] at hzip
  · have hkept := hspec'.keeps name i (List.of_mem_zip hj).1 ((handed_iff hd hroomy).mp hi)
    have hj' := hspec'.has (name, j) hj
    rw [hkept] at hj'
    exact Option.some.inj hj'
  · rw [hspec'.dropped]
    constructor
    · rintro ⟨k, hk, hnot⟩
      exact ⟨k, (handed_iff hd hroomy).mpr hk, hnot⟩
    · rintro ⟨k, hk, hnot⟩
      exact ⟨k, (handed_iff hd hroomy).mp hk, hnot⟩

theorem number_kept_dropped :
    let s := (((Register.mk none []).call [str "ev", str "depo", str "yedek"]).call
      [str "ev", str "yedek"]).call [str "ev", str "yedek", str "yeni"]
    (assign s.file [str "ev"]).2.ids.Nodup ∧
      ∀ d ∈ s.given, ∀ e ∈ s.given, d.2 = e.2 → d.1 = e.1 := by
  have hrun : Run (fun s names => s.Roomy names ∧ s.Lasting names)
      ((((Register.mk none []).call [str "ev", str "depo", str "yedek"]).call
        [str "ev", str "yedek"]).call [str "ev", str "yedek", str "yeni"]) := by
    have h1 := Run.call ⟨none, []⟩ [str "ev", str "depo", str "yedek"]
      (.start none nofun : Run (fun s names => s.Roomy names ∧ s.Lasting names) _) (by decide)
      ⟨by unfold Roomy; decide, Or.inr nofun⟩
    have h2 := Run.call _ [str "ev", str "yedek"] h1 (by decide)
      ⟨by unfold Roomy; decide, Or.inl (by decide)⟩
    exact Run.call _ [str "ev", str "yedek", str "yeni"] h2 (by decide)
      ⟨by unfold Roomy; decide, Or.inr (by decide)⟩
  have hnames : [str "ev"].Nodup := by decide
  have hroomy : Roomy ((((Register.mk none []).call [str "ev", str "depo", str "yedek"]).call
      [str "ev", str "yedek"]).call [str "ev", str "yedek", str "yeni"]) [str "ev"] := by
    unfold Roomy
    decide
  have hlater : Roomy (((((Register.mk none []).call [str "ev", str "depo", str "yedek"]).call
      [str "ev", str "yedek"]).call [str "ev", str "yedek", str "yeni"]).call [str "ev"])
        [str "depo"] := by
    unfold Roomy
    decide
  have h := number_kept (hrun.mono fun _ _ h => h.1) hnames hroomy hlater
  exact ⟨h.2.1, h.2.2.2.2.2 hrun⟩

/-- The highest number's source goes, and the next new one gets the number. -/
theorem not_number_kept :
    ¬ ∀ s, Run Roomy s → ∀ d ∈ s.given, ∀ e ∈ s.given, d.2 = e.2 → d.1 = e.1 := by
  intro h
  have h1 := Run.call ⟨none, []⟩ [str "ev", str "depo"] (.start none nofun : Run Roomy _)
    (by decide) (by unfold Roomy; decide)
  have h2 := Run.call _ [str "ev"] h1 (by decide) (by unfold Roomy; decide)
  have h3 := Run.call _ [str "ev", str "yeni"] h2 (by decide) (by unfold Roomy; decide)
  have := h _ h3 (str "depo", 1) (by decide) (str "yeni", 1) (by decide) rfl
  revert this
  decide

end Register

end Scour
