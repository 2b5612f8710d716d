import Scour.Lib.SortedSet
import Scour.Segment

/-!
# The trigram index

A posting list holds block numbers: which groups of `BLOCK` rows hold a trigram of a folded name.
`TrigramWriter` collects them one block at a time, `TrigramIndex.candidates` intersects the lists of
the trigrams of a needle.  A list above the cutoff is not stored; the cutoff is a share of the blocks
computed in floating point, and a parameter here.  The lists are decoded: their varints are not
modelled, and a hash map is an association list.

`mem_candidates` is the guarantee: the block of a name that contains the needle is a candidate,
whatever the cutoff.
-/

namespace Scour

/-- `for_each`: the three-byte windows, as numbers. -/
def trigrams : Str → List Nat
  | a :: b :: c :: rest =>
      (a.toNat * 65536 + b.toNat * 256 + c.toNat) :: trigrams (b :: c :: rest)
  | _ => []

/-- Collects, one block at a time. -/
structure TrigramWriter where
  lists : List (Nat × List Nat)
  /-- Trigrams seen in the block being filled. -/
  seen : List Nat
  block : Nat
  rows : Nat

/-- The index, read in place: each trigram with its blocks, or with nothing when it is in too many
of them to be stored. -/
structure TrigramIndex where
  entries : List (Nat × Option (List Nat))
  blocks : Nat

namespace TrigramWriter

def empty : TrigramWriter := ⟨[], [], 0, 0⟩

/-- `lists.entry(key).or_default()`, with one block more. -/
def appendBlock (key block : Nat) : List (Nat × List Nat) → List (Nat × List Nat)
  | [] => [(key, [block])]
  | (k, bs) :: rest =>
      if k = key then (k, bs ++ [block]) :: rest else (k, bs) :: appendBlock key block rest

def recordKeys (keys seen : List Nat) : List Nat :=
  keys.foldl (fun seen k => if k ∈ seen then seen else seen ++ [k]) seen

def «seal» (w : TrigramWriter) : TrigramWriter :=
  { w with
    lists := w.seen.foldl (fun ls k => appendBlock k w.block ls) w.lists
    seen := []
    block := w.block + 1 }

def finishRow (w : TrigramWriter) : TrigramWriter :=
  let w := { w with rows := w.rows + 1 }
  if w.rows % BLOCK = 0 then w.seal else w

/-- Adds one row's name, already folded. -/
def pushFolded (w : TrigramWriter) (name : Str) : TrigramWriter :=
  { w with seen := recordKeys (trigrams name) w.seen }.finishRow

/-- Dictionary and postings. -/
def finish (tooCommon : Nat → Nat) (w : TrigramWriter) : TrigramIndex :=
  let w := if w.seen ≠ [] then w.seal else w
  let cutoff := tooCommon w.block
  { entries := (w.lists.insertionSort fun a b => a.1 ≤ b.1).map fun e =>
      (e.1, if cutoff < e.2.length then none else some e.2)
    blocks := w.block }

end TrigramWriter

/-- The index over a list of folded names. -/
def TrigramIndex.build (tooCommon : Nat → Nat) (names : List Str) : TrigramIndex :=
  (names.foldl TrigramWriter.pushFolded .empty).finish tooCommon

namespace TrigramIndex

/-- What the dictionary says about one trigram. -/
inductive Lookup where
  /-- No row in this segment contains it. -/
  | absent
  /-- Present in too many blocks to be worth storing. -/
  | everywhere
  | blocks (list : List Nat)
deriving DecidableEq

def lookup (t : TrigramIndex) (key : Nat) : Lookup :=
  match Search.binarySearch t.entries.length (fun i => (t.entries.getD i (0, none)).1) key with
  | none => .absent
  | some mid =>
      match (t.entries.getD mid (0, none)).2 with
      | none => .everywhere
      | some bs => .blocks bs

/-- The stored lists of these trigrams; nothing if one of them is in no row. -/
def collect (t : TrigramIndex) : List Nat → Option (List (List Nat))
  | [] => some []
  | k :: ks =>
      match t.lookup k with
      | .absent => none
      | .everywhere => t.collect ks
      | .blocks bs => (t.collect ks).map (bs :: ·)

/-- Blocks that could contain `folded`; nothing means walk everything. -/
def candidates (t : TrigramIndex) (folded : Str) : Option (List Nat) :=
  if t.entries.length = 0 ∨ folded.length < 3 then none
  else
    let keys := ((trigrams folded).insertionSort (· ≤ ·)).dedup
    match t.collect keys with
    -- one trigram nobody has is the whole answer
    | none => some []
    | some lists =>
        match lists.insertionSort fun a b => a.length ≤ b.length with
        | [] => none
        | first :: others =>
            let out := others.foldl Search.intersect first
            if t.blocks < out.length * 2 then none else some out

end TrigramIndex

/-! ## Windows -/

theorem trigrams_append_left (l r : Str) : ∀ k ∈ trigrams r, k ∈ trigrams (l ++ r) := by
  induction l with
  | nil => exact fun k hk => hk
  | cons a l ih =>
    intro k hk
    have h := ih k hk
    match hlr : l ++ r with
    | [] => rw [hlr] at h; cases h
    | [_] => rw [hlr] at h; cases h
    | b :: c :: rest =>
      rw [hlr] at h
      rw [List.cons_append, hlr, trigrams]
      exact List.mem_cons_of_mem _ h

theorem trigrams_append_right : ∀ l r : Str, ∀ k ∈ trigrams l, k ∈ trigrams (l ++ r)
  | a :: b :: c :: rest, r, k, hk => by
    rw [trigrams, List.mem_cons] at hk
    simp only [List.cons_append, trigrams, List.mem_cons]
    rcases hk with h | h
    · exact Or.inl h
    · have := trigrams_append_right (b :: c :: rest) r k h
      simp only [List.cons_append] at this
      exact Or.inr this
  | [], _, _, hk => by cases hk
  | [_], _, _, hk => by cases hk
  | [_, _], _, _, hk => by cases hk

/-- A name that contains the needle holds every trigram of it. -/
theorem trigrams_of_infix {needle name : Str} (h : needle <:+: name) :
    ∀ k ∈ trigrams needle, k ∈ trigrams name := by
  obtain ⟨l, r, rfl⟩ := h
  intro k hk
  exact trigrams_append_right _ r k (trigrams_append_left l needle k hk)

/-! ## What the writer has collected -/

namespace TrigramWriter

def blocksOf (lists : List (Nat × List Nat)) (key : Nat) : List Nat :=
  ((lists.find? fun e => e.1 = key).map (·.2)).getD []

theorem blocksOf_appendBlock (key block k : Nat) (lists : List (Nat × List Nat)) :
    blocksOf (appendBlock key block lists) k =
      if k = key then blocksOf lists k ++ [block] else blocksOf lists k := by
  induction lists with
  | nil =>
    by_cases h : key = k
    · simp [appendBlock, blocksOf, h]
    · simp [appendBlock, blocksOf, h, Ne.symm h]
  | cons e lists ih =>
    obtain ⟨k0, bs⟩ := e
    unfold appendBlock
    by_cases h0 : k0 = key
    · rw [if_pos h0]
      by_cases h : k = key
      · simp [blocksOf, h0, h]
      · have : k0 ≠ k := by
          rintro rfl
          exact h h0
        simp [blocksOf, h, this]
    · rw [if_neg h0]
      by_cases h1 : k0 = k
      · have : k ≠ key := by
          rintro rfl
          exact h0 h1
        simp [blocksOf, h1, this]
      · have h2 : ∀ ls : List (Nat × List Nat), blocksOf ((k0, bs) :: ls) k = blocksOf ls k := by
          intro ls
          simp [blocksOf, h1]
        rw [h2, h2, ih]

theorem keys_appendBlock (key block : Nat) (lists : List (Nat × List Nat)) :
    (appendBlock key block lists).map (·.1) =
      if key ∈ lists.map (·.1) then lists.map (·.1) else lists.map (·.1) ++ [key] := by
  induction lists with
  | nil => rfl
  | cons e lists ih =>
    obtain ⟨k0, bs⟩ := e
    unfold appendBlock
    by_cases h0 : k0 = key
    · simp [h0]
    · rw [if_neg h0, List.map_cons, ih, List.map_cons]
      have hk : key ≠ k0 := fun h => h0 h.symm
      by_cases hm : key ∈ lists.map (·.1)
      · rw [if_pos hm, if_pos (List.mem_cons_of_mem _ hm)]
      · rw [if_neg hm, if_neg fun h => (List.mem_cons.mp h).elim hk hm]
        rfl

theorem nodup_appendBlock (key block : Nat) (lists : List (Nat × List Nat))
    (h : (lists.map (·.1)).Nodup) : ((appendBlock key block lists).map (·.1)).Nodup := by
  rw [keys_appendBlock]
  split
  · exact h
  · rename_i hk
    exact List.nodup_append.mpr ⟨h, List.nodup_singleton _, fun a ha b hb => by
      rw [List.mem_singleton] at hb
      rintro rfl
      exact hk (hb ▸ ha)⟩

theorem mem_recordKeys (keys : List Nat) : ∀ (seen : List Nat) (k : Nat),
    k ∈ recordKeys keys seen ↔ k ∈ keys ∨ k ∈ seen := by
  induction keys with
  | nil => simp [recordKeys]
  | cons a keys ih =>
    intro seen k
    show k ∈ recordKeys keys (if a ∈ seen then seen else seen ++ [a]) ↔ _
    rw [ih]
    split
    · rename_i ha
      constructor
      · rintro (h | h)
        · exact Or.inl (List.mem_cons_of_mem _ h)
        · exact Or.inr h
      · rintro (h | h)
        · rcases List.mem_cons.mp h with rfl | h
          · exact Or.inr ha
          · exact Or.inl h
        · exact Or.inr h
    · simp only [List.mem_append, List.mem_cons, List.not_mem_nil, or_false]
      tauto

theorem nodup_recordKeys (keys : List Nat) : ∀ seen : List Nat, seen.Nodup →
    (recordKeys keys seen).Nodup := by
  induction keys with
  | nil => exact fun _ h => h
  | cons a keys ih =>
    intro seen h
    show (recordKeys keys (if a ∈ seen then seen else seen ++ [a])).Nodup
    apply ih
    split
    · exact h
    · rename_i ha
      exact List.nodup_append.mpr ⟨h, List.nodup_singleton _, fun x hx b hb => by
        rw [List.mem_singleton] at hb
        rintro rfl
        exact ha (hb ▸ hx)⟩

/-- What sealing adds: the current block, to the list of each trigram seen in it. -/
theorem blocksOf_foldl (block k : Nat) (seen : List Nat) (hnd : seen.Nodup) :
    ∀ lists : List (Nat × List Nat),
      blocksOf (seen.foldl (fun ls k => appendBlock k block ls) lists) k =
        if k ∈ seen then blocksOf lists k ++ [block] else blocksOf lists k := by
  induction seen with
  | nil => simp
  | cons a seen ih =>
    intro lists
    rw [List.nodup_cons] at hnd
    rw [List.foldl_cons, ih hnd.2, blocksOf_appendBlock]
    by_cases hka : k = a
    · subst hka
      simp [hnd.1]
    · simp [hka]

theorem nodup_foldl (block : Nat) (seen : List Nat) : ∀ lists : List (Nat × List Nat),
    (lists.map (·.1)).Nodup →
      ((seen.foldl (fun ls k => appendBlock k block ls) lists).map (·.1)).Nodup := by
  induction seen with
  | nil => exact fun _ h => h
  | cons a seen ih => exact fun lists h => ih _ (nodup_appendBlock a block lists h)

/-- What the writer holds after the names of these rows. -/
structure Collected (w : TrigramWriter) (names : List Str) : Prop where
  rows : w.rows = names.length
  block : w.block = names.length / BLOCK
  keys : (w.lists.map (·.1)).Nodup
  seenOnce : w.seen.Nodup
  /-- The lists grow by blocks in increasing order. -/
  sorted : ∀ k, (blocksOf w.lists k).Pairwise (· < ·) ∧ ∀ b ∈ blocksOf w.lists k, b < w.block
  /-- A trigram of a sealed block is in its list, -/
  sealed : ∀ (i : Nat) (nm : Str) (k : Nat), names[i]? = some nm → k ∈ trigrams nm →
    i / BLOCK < w.block → i / BLOCK ∈ blocksOf w.lists k
  /-- and one of the block being filled has been seen. -/
  filling : ∀ (i : Nat) (nm : Str) (k : Nat), names[i]? = some nm → k ∈ trigrams nm →
    w.block ≤ i / BLOCK → k ∈ w.seen

theorem collected_empty : Collected .empty [] where
  rows := rfl
  block := rfl
  keys := List.nodup_nil
  seenOnce := List.nodup_nil
  sorted _ := ⟨List.Pairwise.nil, by simp [empty, blocksOf]⟩
  sealed := by simp
  filling := by simp

/-- Sealing keeps the order of every list, and leaves the trigrams of the block in its lists. -/
theorem seal_lists (w : TrigramWriter) (hkeys : (w.lists.map (·.1)).Nodup) (hseen : w.seen.Nodup)
    (hsorted : ∀ k, (blocksOf w.lists k).Pairwise (· < ·) ∧ ∀ b ∈ blocksOf w.lists k, b < w.block) :
    (w.seal.lists.map (·.1)).Nodup ∧
      (∀ k, (blocksOf w.seal.lists k).Pairwise (· < ·) ∧
        ∀ b ∈ blocksOf w.seal.lists k, b < w.block + 1) ∧
      (∀ k, ∀ b ∈ blocksOf w.lists k, b ∈ blocksOf w.seal.lists k) ∧
      ∀ k ∈ w.seen, w.block ∈ blocksOf w.seal.lists k := by
  have hb : ∀ k, blocksOf w.seal.lists k =
      if k ∈ w.seen then blocksOf w.lists k ++ [w.block] else blocksOf w.lists k := fun k =>
    blocksOf_foldl w.block k w.seen hseen w.lists
  refine ⟨nodup_foldl _ _ _ hkeys, fun k => ?_, fun k b hm => ?_, fun k hk => ?_⟩
  · rw [hb]
    obtain ⟨h1, h2⟩ := hsorted k
    split
    · refine ⟨List.pairwise_append.mpr ⟨h1, List.pairwise_singleton _ _, fun a ha b hm => ?_⟩, ?_⟩
      · rw [List.mem_singleton] at hm
        exact hm ▸ h2 a ha
      · intro b hm
        rcases List.mem_append.mp hm with hm | hm
        · exact Nat.lt_succ_of_lt (h2 b hm)
        · rw [List.mem_singleton] at hm
          omega
    · exact ⟨h1, fun b hm => Nat.lt_succ_of_lt (h2 b hm)⟩
  · rw [hb]
    split
    · exact List.mem_append_left _ hm
    · exact hm
  · rw [hb, if_pos hk]
    simp

theorem Collected.pushFolded {w : TrigramWriter} {names : List Str} (h : Collected w names)
    (name : Str) : Collected (w.pushFolded name) (names ++ [name]) := by
  have hB : BLOCK = 32 := rfl
  have hlen : (names ++ [name]).length = names.length + 1 := by simp
  have hseen := fun k => mem_recordKeys (trigrams name) w.seen k
  have hnd := nodup_recordKeys (trigrams name) w.seen h.seenOnce
  generalize hs : recordKeys (trigrams name) w.seen = seen at hseen hnd
  -- where a row is: an earlier one, or the one just pushed
  have hrow : ∀ (i : Nat) (nm : Str), (names ++ [name])[i]? = some nm →
      (i < names.length ∧ names[i]? = some nm) ∨ (i = names.length ∧ nm = name) := by
    intro i nm hi
    rcases Nat.lt_or_ge i names.length with hlt | hge
    · rw [List.getElem?_append_left hlt] at hi
      exact Or.inl ⟨hlt, hi⟩
    · rw [List.getElem?_append_right hge] at hi
      obtain ⟨hz, he⟩ := List.getElem?_eq_some_iff.mp hi
      simp only [List.length_singleton] at hz
      have h0 : i - names.length = 0 := by omega
      refine Or.inr ⟨by omega, ?_⟩
      simpa [h0] using he.symm
  -- every trigram of the block being filled is seen
  have hfill : ∀ (i : Nat) (nm : Str) (k : Nat), (names ++ [name])[i]? = some nm →
      k ∈ trigrams nm → w.block ≤ i / BLOCK → k ∈ seen := by
    intro i nm k hi hk hle
    rcases hrow i nm hi with ⟨-, hi⟩ | ⟨-, rfl⟩
    · exact (hseen k).mpr (Or.inr (h.filling i nm k hi hk hle))
    · exact (hseen k).mpr (Or.inl hk)
  have hold : ∀ (i : Nat) (nm : Str) (k : Nat), (names ++ [name])[i]? = some nm →
      k ∈ trigrams nm → i / BLOCK < w.block → i / BLOCK ∈ blocksOf w.lists k := by
    intro i nm k hi hk hlt
    rcases hrow i nm hi with ⟨-, hi⟩ | ⟨rfl, -⟩
    · exact h.sealed i nm k hi hk hlt
    · rw [h.block] at hlt
      omega
  unfold TrigramWriter.pushFolded finishRow
  simp only [hs, h.rows]
  split
  · rename_i hfull
    obtain ⟨h1, h2, h3, h4⟩ :=
      seal_lists { w with seen := seen, rows := names.length + 1 } h.keys hnd h.sorted
    refine ⟨hlen.symm, ?_, h1, List.nodup_nil, h2, ?_, ?_⟩
    · show w.block + 1 = _
      rw [h.block, hlen]
      rw [hB] at *
      omega
    · intro i nm k hi hk hlt
      have hlt' : i / BLOCK < w.block + 1 := hlt
      rcases Nat.lt_or_eq_of_le (Nat.le_of_lt_succ hlt') with hl | he
      · exact h3 k _ (hold i nm k hi hk hl)
      · rw [he]
        exact h4 k (hfill i nm k hi hk (by omega))
    · intro i nm k hi hk hle
      have hle' : w.block + 1 ≤ i / BLOCK := hle
      have hi' := (List.getElem?_eq_some_iff.mp hi).1
      rw [h.block] at hle'
      rw [hlen] at hi'
      rw [hB] at *
      omega
  · rename_i hpart
    refine ⟨hlen.symm, ?_, h.keys, hnd, h.sorted, hold, hfill⟩
    show w.block = _
    rw [h.block, hlen]
    rw [hB] at *
    omega

theorem collected_foldl (names : List Str) : ∀ (w : TrigramWriter) (done : List Str),
    Collected w done → Collected (names.foldl TrigramWriter.pushFolded w) (done ++ names) := by
  induction names with
  | nil =>
    intro w done h
    simpa using h
  | cons n names ih =>
    intro w done h
    have := ih _ _ (h.pushFolded n)
    rwa [List.append_assoc] at this

end TrigramWriter

/-! ## What a search finds in it -/

namespace TrigramWriter

theorem mem_of_blocksOf {lists : List (Nat × List Nat)} {k b : Nat} (h : b ∈ blocksOf lists k) :
    ∃ bs, (k, bs) ∈ lists ∧ blocksOf lists k = bs := by
  unfold blocksOf at h ⊢
  cases hf : lists.find? fun e => e.1 = k with
  | none =>
    rw [hf] at h
    cases h
  | some e =>
    have hm := List.mem_of_find?_eq_some hf
    have hk : e.1 = k := by simpa using List.find?_some hf
    exact ⟨e.2, by rw [← hk]; exact hm, rfl⟩

theorem blocksOf_of_mem {lists : List (Nat × List Nat)} (hnd : (lists.map (·.1)).Nodup) {k : Nat}
    {bs : List Nat} (h : (k, bs) ∈ lists) : blocksOf lists k = bs := by
  induction lists with
  | nil => cases h
  | cons e lists ih =>
    rw [List.map_cons, List.nodup_cons] at hnd
    rcases List.mem_cons.mp h with rfl | h
    · simp [blocksOf]
    · have hne : e.1 ≠ k := by
        rintro rfl
        exact hnd.1 (List.mem_map.mpr ⟨_, h, rfl⟩)
      have := ih hnd.2 h
      unfold blocksOf at this ⊢
      rwa [List.find?_cons_of_neg (by simpa using hne)]

/-- After the last block is sealed, each trigram's list holds the block of every row that has it. -/
theorem Collected.finished {w : TrigramWriter} {names : List Str} (h : Collected w names) :
    ∃ lists block, (lists.map (·.1)).Nodup ∧
      (∀ k, (blocksOf lists k).Pairwise (· < ·)) ∧
      (∀ (i : Nat) (nm : Str) (k : Nat), names[i]? = some nm → k ∈ trigrams nm →
        i / BLOCK ∈ blocksOf lists k) ∧
      ∀ tooCommon, w.finish tooCommon =
        ⟨(lists.insertionSort fun a b => a.1 ≤ b.1).map fun e =>
          (e.1, if tooCommon block < e.2.length then none else some e.2), block⟩ := by
  have hB : BLOCK = 32 := rfl
  by_cases hseen : w.seen = []
  · refine ⟨w.lists, w.block, h.keys, fun k => (h.sorted k).1, fun i nm k hi hk => ?_, ?_⟩
    · rcases Nat.lt_or_ge (i / BLOCK) w.block with hlt | hge
      · exact h.sealed i nm k hi hk hlt
      · have := h.filling i nm k hi hk hge
        rw [hseen] at this
        cases this
    · intro tooCommon
      simp [finish, hseen]
  · obtain ⟨h1, h2, h3, h4⟩ := seal_lists w h.keys h.seenOnce h.sorted
    refine ⟨w.seal.lists, w.block + 1, h1, fun k => (h2 k).1, fun i nm k hi hk => ?_, ?_⟩
    · rcases Nat.lt_or_ge (i / BLOCK) w.block with hlt | hge
      · exact h3 k _ (h.sealed i nm k hi hk hlt)
      · have hi' := (List.getElem?_eq_some_iff.mp hi).1
        have : i / BLOCK = w.block := by
          rw [h.block] at *
          rw [hB] at *
          omega
        rw [this]
        exact h4 k (h.filling i nm k hi hk hge)
    · intro tooCommon
      simp only [finish, ne_eq, hseen, not_false_eq_true, if_true]
      rfl

end TrigramWriter

namespace TrigramIndex

open TrigramWriter (blocksOf)

/-- A lookup says where the trigram is: in no row, anywhere, or in the blocks of its list. -/
def Says (names : List Str) (k : Nat) : Lookup → Prop
  | .absent => ∀ nm ∈ names, k ∉ trigrams nm
  | .everywhere => True
  | .blocks bs => bs.Pairwise (· < ·) ∧
      ∀ (i : Nat) (nm : Str), names[i]? = some nm → k ∈ trigrams nm → i / BLOCK ∈ bs

theorem lookup_means (tooCommon : Nat → Nat) (names : List Str) (k : Nat) :
    Says names k ((build tooCommon names).lookup k) := by
  have hc := TrigramWriter.collected_foldl names .empty [] TrigramWriter.collected_empty
  rw [List.nil_append] at hc
  obtain ⟨lists, block, hnd, hsorted, hall, hfin⟩ := hc.finished
  have hidx : build tooCommon names = _ := hfin tooCommon
  generalize hes : (lists.insertionSort fun a b => a.1 ≤ b.1) = sorted at hidx
  have hperm : sorted.Perm lists := hes ▸ List.perm_insertionSort _ _
  have hle : sorted.Pairwise fun a b => a.1 ≤ b.1 :=
    hes ▸ @List.pairwise_insertionSort _ (fun (a b : Nat × List Nat) => a.1 ≤ b.1) _
      ⟨fun a b => le_total a.1 b.1⟩ ⟨fun _ _ _ => le_trans⟩ _
  have hnds : (sorted.map (·.1)).Nodup := (hperm.map _).nodup_iff.mpr hnd
  -- the keys of the dictionary increase
  have hget : ∀ i, i < sorted.length →
      ((build tooCommon names).entries.getD i (0, none)).1 = (sorted.getD i (0, [])).1 := by
    intro i hi
    rw [hidx]
    simp only
    rw [List.getD_eq_getElem _ _ (by simpa using hi), List.getElem_map, List.getD_eq_getElem _ _ hi]
  have hlen : (build tooCommon names).entries.length = sorted.length := by
    rw [hidx]
    simp
  have hkey : ∀ a b, a < b → b < (build tooCommon names).entries.length →
      ((build tooCommon names).entries.getD a (0, none)).1 <
        ((build tooCommon names).entries.getD b (0, none)).1 := by
    intro a b hab hb
    rw [hlen] at hb
    rw [hget a (by omega), hget b hb, List.getD_eq_getElem _ _ (by omega),
      List.getD_eq_getElem _ _ hb]
    refine lt_of_le_of_ne (List.pairwise_iff_getElem.mp hle a b (by omega) hb hab) fun he => ?_
    have ha' : a < (sorted.map (·.1)).length := by simp; omega
    have hb' : b < (sorted.map (·.1)).length := by simpa using hb
    have hsame : (sorted.map (·.1))[a] = (sorted.map (·.1))[b] := by simpa using he
    have := hnds.getElem_inj_iff.mp hsame
    omega
  have hsearch := fun i => Search.binarySearch_eq_some_iff
    (build tooCommon names).entries.length
    (fun i => ((build tooCommon names).entries.getD i (0, none)).1) k hkey i
  unfold lookup
  split
  · rename_i hnone
    intro nm hnm hk
    obtain ⟨i, hi⟩ := List.mem_iff_getElem?.mp hnm
    obtain ⟨bs, hbs, -⟩ := TrigramWriter.mem_of_blocksOf (hall i nm k hi hk)
    obtain ⟨j, hj, he⟩ := List.mem_iff_getElem.mp (hperm.mem_iff.mpr hbs)
    have : Search.binarySearch (build tooCommon names).entries.length _ k = some j :=
      (hsearch j).mpr ⟨by rw [hlen]; exact hj, by
        rw [hget j hj, List.getD_eq_getElem _ _ hj, he]⟩
    rw [hnone] at this
    cases this
  · rename_i mid hmid
    obtain ⟨hm, hk⟩ := (hsearch mid).mp hmid
    rw [hlen] at hm
    split
    · trivial
    · rename_i bs hbs
      rw [hget mid hm, List.getD_eq_getElem _ _ hm] at hk
      have hsnd : bs = (sorted[mid]).2 := by
        rw [hidx] at hbs
        simp only at hbs
        rw [List.getD_eq_getElem _ _ (by simpa using hm), List.getElem_map] at hbs
        simp only at hbs
        split at hbs
        · cases hbs
        · simpa [eq_comm] using hbs
      have hmem : (k, bs) ∈ lists := by
        rw [← hperm.mem_iff, hsnd, ← hk]
        exact List.getElem_mem hm
      have hof := TrigramWriter.blocksOf_of_mem hnd hmem
      exact ⟨hof ▸ hsorted k, fun i nm hi hk => hof ▸ hall i nm k hi hk⟩

/-- The lists collected for trigrams that a row has: sorted, and each with the row's block. -/
theorem collect_spec (t : TrigramIndex) (names : List Str) (ht : ∀ k, Says names k (t.lookup k))
    (i : Nat) (nm : Str) (hi : names[i]? = some nm) (ks : List Nat)
    (hks : ∀ k ∈ ks, k ∈ trigrams nm) :
    ∃ lists, t.collect ks = some lists ∧
      ∀ bs ∈ lists, bs.Pairwise (· < ·) ∧ i / BLOCK ∈ bs := by
  induction ks with
  | nil => exact ⟨[], rfl, by simp⟩
  | cons k ks ih =>
    obtain ⟨lists, hl, hall⟩ := ih fun k hk => hks k (List.mem_cons_of_mem _ hk)
    have hk := hks k List.mem_cons_self
    have hmeans := ht k
    unfold collect
    cases hlk : t.lookup k with
    | absent =>
      rw [hlk] at hmeans
      exact absurd hk (hmeans nm (List.mem_of_getElem? hi))
    | everywhere => exact ⟨lists, hl, hall⟩
    | blocks bs =>
      rw [hlk] at hmeans
      refine ⟨bs :: lists, by simp [hl], fun b hb => ?_⟩
      rcases List.mem_cons.mp hb with rfl | hb
      · exact ⟨hmeans.1, hmeans.2 i nm hi hk⟩
      · exact hall b hb

theorem mem_foldl_intersect (x : Nat) (others : List (List Nat)) : ∀ first : List Nat,
    first.Pairwise (· < ·) → x ∈ first → (∀ bs ∈ others, bs.Pairwise (· < ·) ∧ x ∈ bs) →
      x ∈ others.foldl Search.intersect first ∧
        (others.foldl Search.intersect first).Pairwise (· < ·) := by
  induction others with
  | nil => exact fun first h1 h2 _ => ⟨h2, h1⟩
  | cons o others ih =>
    intro first h1 h2 h3
    obtain ⟨ho, hx⟩ := h3 o List.mem_cons_self
    exact ih _ (Search.intersect_sorted first o h1)
      ((Search.mem_intersect_iff first o h1 ho x).mpr ⟨h2, hx⟩)
      fun bs hbs => h3 bs (List.mem_cons_of_mem _ hbs)

/-- The block of a name that contains the needle is a candidate; the candidates are in order. -/
theorem mem_candidates (tooCommon : Nat → Nat) (names : List Str) (needle : Str) (blocks : List Nat)
    (h : (build tooCommon names).candidates needle = some blocks) (i : Nat) (nm : Str)
    (hi : names[i]? = some nm) (hin : needle <:+: nm) :
    i / BLOCK ∈ blocks ∧ blocks.Pairwise (· < ·) := by
  have hks : ∀ k ∈ ((trigrams needle).insertionSort (· ≤ ·)).dedup, k ∈ trigrams nm := by
    intro k hk
    rw [List.mem_dedup, List.mem_insertionSort] at hk
    exact trigrams_of_infix hin k hk
  obtain ⟨lists, hl, hall⟩ :=
    collect_spec _ names (lookup_means tooCommon names) i nm hi _ hks
  unfold candidates at h
  split at h
  · cases h
  · simp only [hl] at h
    have hmem : ∀ bs, bs ∈ (lists.insertionSort fun a b => a.length ≤ b.length) → bs ∈ lists :=
      fun bs hbs => (List.mem_insertionSort _).mp hbs
    split at h
    · cases h
    · rename_i first others hfo
      rw [hfo] at hmem
      obtain ⟨h1, h2⟩ := hall first (hmem first List.mem_cons_self)
      obtain ⟨h3, h4⟩ := mem_foldl_intersect (i / BLOCK) others first h1 h2 fun bs hbs =>
        hall bs (hmem bs (List.mem_cons_of_mem _ hbs))
      split at h
      · cases h
      · rw [Option.some.injEq] at h
        exact ⟨h ▸ h3, h ▸ h4⟩

end TrigramIndex

end Scour
