import Scour.DirLookup
import Scour.OrderBytes

/-!
# The stored orders are sorted permutations

What a row's name and head are read as (`nameOf_arena`, `headOf_prefixes`), what a file is read back
as (`open_words`), and with what `Scour.StoredOrders` has of sorting: `stored_orders_sorted`, for
names without separators and texts that 32 bits reach.
-/

namespace Scour.OrderBytes

open Search (toLe fromLe slice At at_flatMap at_zero fromLe_toLe length_toLe)

/-! ## Pieces behind one another -/

section
variable {α : Type} {g : α → Str} {xs : List α}

/-- Where a piece begins. -/
def startIn (g : α → Str) (xs : List α) (k : ℕ) : ℕ := ((xs.take k).flatMap g).length

theorem startIn_succ {k : ℕ} {x : α} (h : xs[k]? = some x) :
    startIn g xs (k + 1) = startIn g xs k + (g x).length := by
  unfold startIn
  rw [List.take_add_one, h, List.flatMap_append, List.length_append]
  simp

theorem startIn_all (g : α → Str) (xs : List α) :
    startIn g xs xs.length = (xs.flatMap g).length := by
  unfold startIn
  rw [List.take_length]

theorem startIn_le (g : α → Str) (xs : List α) (k : ℕ) :
    startIn g xs k ≤ (xs.flatMap g).length := by
  conv_rhs => rw [← List.take_append_drop k xs, List.flatMap_append, List.length_append]
  exact Nat.le_add_right _ _

/-- Where the pieces begin, and where the last one ends, in 32 bits. -/
def starts (g : α → Str) (xs : List α) : List UInt32 :=
  (List.range (xs.length + 1)).map fun k => UInt32.ofNat (startIn g xs k)

theorem starts_getElem? (h : (xs.flatMap g).length < 2 ^ 32) {k : ℕ} (hk : k ≤ xs.length) :
    ∃ w, (starts g xs)[k]? = some w ∧ w.toNat = startIn g xs k := by
  refine ⟨UInt32.ofNat (startIn g xs k), ?_, ?_⟩
  · unfold starts
    rw [List.getElem?_map, List.getElem?_range (Nat.lt_succ_of_le hk)]
    rfl
  · rw [UInt32.toNat_ofNat', Nat.mod_eq_of_lt ((startIn_le g xs k).trans_lt h)]

/-- A part of a piece that is at its start. -/
theorem part_start {k n : ℕ} {x : α} {s t : Str} (h : xs[k]? = some x) (hx : g x = s ++ t)
    (hn : n = startIn g xs k + s.length) : part (xs.flatMap g) (startIn g xs k) n = s := by
  have hat := at_flatMap (g := g) h
  rw [hx] at hat
  unfold part
  rw [hn, startIn, hat.left.slice rfl]
  rfl

end

/-! ## Names -/

/-- The names of all rows, each with a NUL. -/
def arena (names : List Str) : Str := names.flatMap (· ++ [0])

theorem idxOf?_nul {s : Str} (h : (0 : UInt8) ∉ s) (t : Str) :
    (s ++ 0 :: t).idxOf? 0 = some s.length := by
  induction s with
  | nil => rfl
  | cons b s ih =>
    rw [List.mem_cons, not_or] at h
    have hb : (b == 0) = false := beq_eq_false_iff_ne.mpr (Ne.symm h.1)
    rw [List.cons_append, List.idxOf?_cons, hb, if_neg Bool.false_ne_true, ih h.2]
    rfl

variable {names : List Str}

theorem drop_arena {k : ℕ} {s : Str} (h : names[k]? = some s) :
    ∃ t, (arena names).drop (startIn (· ++ [0]) names k) = s ++ 0 :: t := by
  obtain ⟨t, ht⟩ := (at_flatMap (g := fun s : Str => s ++ [0]) h).drop
  exact ⟨t, by rw [arena, startIn, ht, List.append_assoc]; rfl⟩

theorem offsetsLoop_arena (hnul : ∀ s ∈ names, (0 : UInt8) ∉ s) (n : ℕ) :
    ∀ k, k + n = names.length →
      offsetsLoop (arena names) n (startIn (· ++ [0]) names k) =
        ((List.range' k n).map fun j => UInt32.ofNat (startIn (· ++ [0]) names j),
          startIn (· ++ [0]) names names.length) := by
  induction n with
  | zero =>
    intro k hk
    rw [← hk]
    rfl
  | succ n ih =>
    intro k hk
    have hget : names[k]? = some names[k] := List.getElem?_eq_getElem (by omega)
    obtain ⟨t, ht⟩ := drop_arena hget
    have hnext := startIn_succ (g := fun s : Str => s ++ [0]) hget
    rw [List.length_append, List.length_singleton] at hnext
    unfold offsetsLoop
    rw [ht, idxOf?_nul (hnul _ (List.getElem_mem _))]
    dsimp only
    rw [← hnext, ih (k + 1) (by omega), List.range'_succ, List.map_cons]

theorem nameOffsets_arena (hnul : ∀ s ∈ names, (0 : UInt8) ∉ s) :
    nameOffsets names.length (arena names) = starts (· ++ [0]) names := by
  have hloop := offsetsLoop_arena hnul names.length 0 (Nat.zero_add _)
  have hzero : startIn (fun s : Str => s ++ [0]) names 0 = 0 := rfl
  unfold nameOffsets
  rw [hzero] at hloop
  rw [hloop]
  dsimp only
  rw [List.length_map, List.length_range', Nat.sub_self, List.replicate_zero, List.append_nil,
    starts, List.range_succ, List.map_append, List.range_eq_range']
  rfl

/-- A row's name is read as it was written. -/
theorem nameOf_arena (hnul : ∀ s ∈ names, (0 : UInt8) ∉ s) (hsmall : (arena names).length < 2 ^ 32)
    {k : ℕ} {s : Str} (h : names[k]? = some s) :
    nameOf (nameOffsets names.length (arena names)) (arena names) k = s := by
  obtain ⟨hk, -⟩ := List.getElem?_eq_some_iff.mp h
  have hnext := startIn_succ (g := fun s : Str => s ++ [0]) h
  rw [List.length_append, List.length_singleton] at hnext
  obtain ⟨a, ha, ha'⟩ := starts_getElem? (g := fun s : Str => s ++ [0]) hsmall hk.le
  obtain ⟨b, hb, hb'⟩ := starts_getElem? (g := fun s : Str => s ++ [0]) hsmall (Nat.succ_le_of_lt hk)
  unfold nameOf
  rw [nameOffsets_arena hnul, List.getD_eq_getElem?_getD, List.getD_eq_getElem?_getD, ha, hb,
    Option.getD_some, Option.getD_some, ha', hb', hnext]
  exact part_start h rfl (by omega)

/-! ## Heads -/

variable {ps : List Str}

theorem joinHead_eq (p : Str) :
    p ++ (if p ≠ [] ∧ p ≠ [slash] then [slash] else []) = joinHead p := by
  unfold joinHead
  by_cases h : p = []
  · rw [if_pos (Or.inl h), if_neg fun hn => hn.1 h, List.append_nil]
  · by_cases h' : p = [slash]
    · rw [if_pos (Or.inr h'), if_neg fun hn => hn.2 h', List.append_nil]
    · rw [if_neg (not_or.mpr ⟨h, h'⟩), if_pos ⟨h, h'⟩]

theorem prefixLoop_opened (hfits : Fits ps) (htext : ∀ p ∈ ps, IsText p) (n : ℕ) :
    ∀ k path, k + n = ps.length → Carries ps k path → IsText path →
      (opened ps).prefixLoop n (offset ps k) path ((ps.take k).flatMap joinHead,
          (List.range k).map fun j => UInt32.ofNat (startIn joinHead ps j)) =
        some (ps.flatMap joinHead,
          (List.range ps.length).map fun j => UInt32.ofNat (startIn joinHead ps j)) := by
  induction n with
  | zero =>
    intro k path hk _ _
    obtain rfl : k = ps.length := hk
    rw [RawTable.prefixLoop, List.take_length]
  | succ n ih =>
    intro k path hk hc ht
    have hget : ps[k]? = some ps[k] := List.getElem?_eq_getElem (by omega)
    obtain ⟨cs, hrow, hpath, hcut⟩ := row_text hfits htext hget hc ht
    have hnext := ih (k + 1) ps[k] (by omega) (Or.inr (before_succ hget).symm)
      (htext _ (List.getElem_mem _))
    unfold RawTable.prefixLoop
    rw [hrow]
    dsimp only
    rw [hcut, if_neg Bool.false_ne_true, fromUtf8_utf8]
    dsimp only
    rw [hpath, List.append_assoc, joinHead_eq, ← hnext]
    congr 2
    · rw [List.take_add_one, hget, List.flatMap_append]
      simp
    · rw [List.range_succ, List.map_append]
      rfl

theorem joinPrefixes_opened (hfits : Fits ps) (htext : ∀ p ∈ ps, IsText p) :
    (opened ps).joinPrefixes = some (ps.flatMap joinHead, starts joinHead ps) := by
  have hstart : ((opened ps).restartAt 0).getD 0 = offset ps 0 := by
    rw [restartAt_opened hfits, Nat.zero_mul]
    split <;> rfl
  have hloop := prefixLoop_opened hfits htext ps.length 0 [] (Nat.zero_add _) (Or.inl rfl) ⟨[], rfl⟩
  unfold RawTable.joinPrefixes
  rw [hstart, count_opened]
  rw [List.take_zero, List.flatMap_nil, List.range_zero, List.map_nil] at hloop
  rw [hloop, Option.map_some]
  dsimp only
  rw [List.length_map, List.length_range, Nat.sub_self,
    List.replicate_zero, List.append_nil, starts, List.range_succ, List.map_append, List.map_singleton,
    startIn_all]

/-- What a row's name is appended to. -/
theorem headOf_prefixes (hsmall : (ps.flatMap joinHead).length < 2 ^ 32) {d : ℕ} {p : Str}
    (h : ps[d]? = some p) :
    headOf (ps.flatMap joinHead) (starts joinHead ps) d = joinHead p := by
  obtain ⟨hd, -⟩ := List.getElem?_eq_some_iff.mp h
  obtain ⟨a, ha, ha'⟩ := starts_getElem? (g := joinHead) hsmall hd.le
  obtain ⟨b, hb, hb'⟩ := starts_getElem? (g := joinHead) hsmall (Nat.succ_le_of_lt hd)
  unfold headOf
  rw [ha, hb]
  dsimp only
  rw [ha', hb', startIn_succ h]
  exact part_start h (List.append_nil _).symm rfl

/-! ## Eligible rows -/

theorem eligibleLoop_arena (hnul : ∀ s ∈ names, (0 : UInt8) ∉ s) (n : ℕ) :
    ∀ k bits, k + n = names.length → (names.length + 7) / 8 ≤ bits.length → ∀ row,
      bitAt (eligibleLoop (arena names) n k (startIn (· ++ [0]) names k) bits) row =
        (bitAt bits row || (decide (k ≤ row) && (names[row]?).any extensionIsEligible)) := by
  induction n with
  | zero =>
    intro k bits hk _ row
    have hnone : decide (k ≤ row) = true → names[row]? = none := fun h =>
      List.getElem?_eq_none (by rw [decide_eq_true_eq] at h; omega)
    unfold eligibleLoop
    by_cases hrow : k ≤ row
    · rw [hnone (decide_eq_true hrow), Option.any_none, Bool.and_false, Bool.or_false]
    · rw [decide_eq_false hrow, Bool.false_and, Bool.or_false]
  | succ n ih =>
    intro k bits hk hbits row
    have hget : names[k]? = some names[k] := List.getElem?_eq_getElem (by omega)
    obtain ⟨t, ht⟩ := drop_arena hget
    have hnext := startIn_succ (g := fun s : Str => s ++ [0]) hget
    rw [List.length_append, List.length_singleton, ← Nat.add_assoc] at hnext
    have hle : startIn (fun s : Str => s ++ [0]) names k ≤ (arena names).length := startIn_le _ _ _
    unfold eligibleLoop
    rw [if_neg (not_lt.mpr hle), ht, idxOf?_nul (hnul _ (List.getElem_mem _))]
    dsimp only
    rw [← hnext, List.take_left' rfl, ih (k + 1) _ (by omega)]
    · by_cases hrow : row = k
      · subst hrow
        rw [hget, Option.any_some, decide_eq_false (by omega), Bool.false_and, Bool.or_false,
          decide_eq_true (le_refl _), Bool.true_and]
        split
        · rename_i heligible
          rw [bitAt_markBit _ (by omega), heligible, beq_self_eq_true]
        · rename_i heligible
          rw [Bool.eq_false_iff.mpr heligible, Bool.or_false]
      · have hle : decide (k + 1 ≤ row) = decide (k ≤ row) := by
          rw [decide_eq_decide]
          omega
        rw [hle]
        split
        · rw [bitAt_markBit _ (by omega), beq_false_of_ne hrow, Bool.or_false]
        · rfl
    · split
      · rw [markBit, List.length_modify]
        exact hbits
      · exact hbits

/-- Each row's bit. -/
theorem bitAt_eligibleRows (hnul : ∀ s ∈ names, (0 : UInt8) ∉ s) {row : ℕ} {s : Str}
    (h : names[row]? = some s) :
    bitAt (eligibleRows names.length (arena names)) row = extensionIsEligible s := by
  have hloop := eligibleLoop_arena hnul names.length 0
    (List.replicate ((names.length + 7) / 8) 0) (Nat.zero_add _) (List.length_replicate).ge row
  unfold eligibleRows
  have hzero : startIn (fun s : Str => s ++ [0]) names 0 = 0 := rfl
  rw [hzero] at hloop
  rw [hloop, h, Option.any_some, decide_eq_true (Nat.zero_le _), Bool.true_and, bitAt_getD,
    List.getD_eq_getElem?_getD, List.getElem?_replicate]
  split <;> simp

/-! ## Files -/

theorem words_flatMap {order : List ℕ} (h : ∀ row ∈ order, row < 2 ^ 32) (rest : Str) :
    words (order.flatMap (toLe 4) ++ rest) order.length = order := by
  have hlen : ∀ k ≤ order.length, ((order.take k).flatMap (toLe 4)).length = k * 4 := by
    intro k hk
    rw [List.length_flatMap, List.map_congr_left (g := fun _ => 4) fun n _ => length_toLe 4 n,
      List.map_const', List.sum_replicate_nat, List.length_take]
    omega
  conv_rhs => rw [← @map_getD_range order]
  refine List.map_congr_left fun i hi => ?_
  have h₂ := List.mem_range.mp hi
  have hget : order[i]? = some order[i] := List.getElem?_eq_getElem h₂
  have hat : At (order.flatMap (toLe 4) ++ rest) (i * 4) (toLe 4 order[i]) := by
    have hin := (at_zero (order.flatMap (toLe 4) ++ rest)).left.within (at_flatMap (g := toLe 4) hget)
    rwa [hlen i h₂.le, Nat.zero_add] at hin
  obtain ⟨t, ht⟩ := hat.drop
  rw [ht, List.take_left' (length_toLe _ _), fromLe_toLe (h _ (List.getElem_mem h₂)),
    List.getD_eq_getElem _ _ h₂]

theorem length_words (order : List ℕ) : (order.flatMap (toLe 4)).length = order.length * 4 := by
  rw [List.length_flatMap, List.map_congr_left (g := fun _ => 4) fun n _ => length_toLe 4 n,
    List.map_const', List.sum_replicate_nat]

/-- The count of a file, and what is behind it. -/
theorem count_slice {n : ℕ} (hn : n < 2 ^ 32) (rest : Str) :
    (slice (toLe 4 n ++ rest) 0 4).map fromLe = some n ∧ (toLe 4 n ++ rest).drop 4 = rest := by
  refine ⟨?_, List.drop_left' (length_toLe _ _)⟩
  rw [(at_zero (toLe 4 n ++ rest)).left.slice (by rw [length_toLe]), Option.map_some,
    fromLe_toLe (by omega)]

theorem open_pathOrder {order : List ℕ} (hn : order.length < 2 ^ 32)
    (h : ∀ row ∈ order, row < 2 ^ 32) :
    PathOrder.open_ (toLe 4 order.length ++ order.flatMap (toLe 4)) = some ⟨order⟩ := by
  obtain ⟨hcount, hdrop⟩ := count_slice hn (order.flatMap (toLe 4))
  obtain ⟨s, hs, hs'⟩ := Option.map_eq_some_iff.mp hcount
  have hwords := words_flatMap h []
  rw [List.append_nil] at hwords
  unfold PathOrder.open_
  rw [hs]
  simp only [Option.bind_eq_bind, Option.bind_some, hs', hdrop, hwords]
  rw [if_neg]
  rw [List.length_append, length_toLe, length_words]
  exact not_not.mpr rfl

theorem open_groupedOrder {o : GroupedOrder} (hn : o.order.length < 2 ^ 32)
    (h : ∀ row ∈ o.order, row < 2 ^ 32) (hgroups : o.groups.length = (o.order.length + 7) / 8)
    (hfirst : 0 < o.order.length → bitAt o.groups 0 = true) :
    GroupedOrder.open_ (toLe 4 o.order.length ++ o.order.flatMap (toLe 4) ++ o.groups) = some o := by
  rw [List.append_assoc]
  obtain ⟨hcount, hdrop⟩ := count_slice hn (o.order.flatMap (toLe 4) ++ o.groups)
  obtain ⟨s, hs, hs'⟩ := Option.map_eq_some_iff.mp hcount
  have hbits : (toLe 4 o.order.length ++ (o.order.flatMap (toLe 4) ++ o.groups)).drop
      (4 + o.order.length * 4) = o.groups := by
    rw [← List.drop_drop, hdrop, List.drop_left' (length_words _)]
  unfold GroupedOrder.open_
  rw [hs]
  simp only [Option.bind_eq_bind, Option.bind_some, hs', hdrop, hbits, words_flatMap h]
  rw [if_neg, if_neg]
  · rintro ⟨hpos, hclear⟩
    have hbit := hfirst hpos
    unfold bitAt at hbit
    rw [Nat.zero_div] at hbit
    cases hg : o.groups with
    | nil =>
      rw [hg] at hbit
      cases hbit
    | cons b bs =>
      rw [hg, List.head?_cons, Option.all_some, decide_eq_true_eq] at hclear
      rw [hg] at hbit
      simp only [List.getElem?_cons_zero, bne_iff_ne] at hbit
      exact hbit hclear
  · rw [List.length_append, List.length_append, length_toLe, length_words, hgroups, ← Nat.add_assoc]
    exact not_not.mpr rfl

/-! ## Sorted -/

/-- Read position by position, every row comes once, in the order of a text and then by number. -/
structure Reads (key : ℕ → Str) (n : ℕ) (order : List ℕ) : Prop where
  at_ : ∀ i, rowAt order i = order[i]?
  perm : order.Perm (List.range n)
  sorted : order.Pairwise (TextOrder false key)

/-- Here the run of positions begins that have the text of position `i`. -/
structure Starts (key : ℕ → Str) (order : List ℕ) (i j : ℕ) : Prop where
  le : j ≤ i
  same : ∀ k, j ≤ k → k ≤ i → key (order.getD k 0) = key (order.getD i 0)
  first : j = 0 ∨ key (order.getD (j - 1) 0) ≠ key (order.getD i 0)

theorem rowAt_of_lt {order : List ℕ} (h : ∀ row ∈ order, row < order.length) (i : ℕ) :
    rowAt order i = order[i]? := by
  by_cases hi : i < order.length
  · rw [rowAt_eq h hi, List.getD_eq_getElem _ _ hi, List.getElem?_eq_getElem hi]
  · rw [rowAt, List.getElem?_eq_none (not_lt.mp hi)]
    rfl

theorem reads_sorted (key : ℕ → Str) (n : ℕ) :
    Reads key n ((List.range n).insertionSort (valueLe key)) := by
  have hperm := List.perm_insertionSort (valueLe key) (List.range n)
  refine ⟨rowAt_of_lt fun row hrow => ?_, hperm, sorted_insertionSort n⟩
  rw [hperm.length_eq]
  simpa using hperm.subset hrow

theorem starts_build (key : ℕ → Str) {n i : ℕ} (hi : i < n) :
    ∃ j, (GroupedOrder.build n key).groupAtOrBefore i = some j ∧
      Starts key (GroupedOrder.build n key).order i j := by
  have hlen : (GroupedOrder.build n key).order.length = n := GroupedOrder.build_length
  have hzero : bitAt (GroupedOrder.build n key).groups 0 = true := by
    rw [GroupedOrder.build_bit (by omega)]
    rfl
  obtain ⟨j, hj, hle, hbit, hlast⟩ := GroupedOrder.groupAtOrBefore_spec
    (GroupedOrder.build n key) (i := i) (by omega) hzero
  have hsame : ∀ k, j ≤ k → k ≤ i →
      key ((GroupedOrder.build n key).order.getD k 0) =
        key ((GroupedOrder.build n key).order.getD i 0) := fun k hjk hki =>
    GroupedOrder.build_value_eq hki hi fun l hkl hli => hlast l (by omega) hli
  refine ⟨j, hj, hle, hsame, ?_⟩
  rw [GroupedOrder.build_bit (by omega)] at hbit
  unfold begins at hbit
  rw [Bool.or_eq_true, beq_iff_eq, bne_iff_ne] at hbit
  refine hbit.imp_right fun hne heq => hne ?_
  rw [heq, hsame j (le_refl j) hle]

/-- The bits are one for each position. -/
theorem length_groups (n : ℕ) (key : ℕ → Str) :
    (GroupedOrder.build n key).groups.length = (n + 7) / 8 := by
  have hfold : ∀ (xs : List ℕ) (p : ℕ → Bool) (bits : Str),
      (xs.foldl (fun bits i => if p i then markBit bits i else bits) bits).length =
        bits.length := by
    intro xs p
    induction xs with
    | nil => exact fun _ => rfl
    | cons x xs ih =>
      intro bits
      rw [List.foldl_cons, ih]
      split
      · rw [markBit, List.length_modify]
      · rfl
  unfold GroupedOrder.build
  dsimp only
  rw [hfold, List.length_replicate]

theorem open_keyedOrder {n : ℕ} (hn : n < 2 ^ 32) (names : Str) (key : Str → Str)
    (eligible : Option Str) :
    GroupedOrder.open_ (keyedOrder n names key eligible) =
      some (GroupedOrder.build n (valueOf names (nameOffsets n names) key eligible)) := by
  generalize hv : valueOf names (nameOffsets n names) key eligible = value
  have hlen : (GroupedOrder.build n value).order.length = n := GroupedOrder.build_length
  have hopen := open_groupedOrder (o := GroupedOrder.build n value) (by rwa [hlen])
    (fun row hrow => (GroupedOrder.build_row_lt row hrow).trans (by rwa [hlen]))
    (by rw [length_groups, hlen]) fun hpos => by
      rw [GroupedOrder.build_bit (by omega)]
      rfl
  rw [hlen] at hopen
  unfold keyedOrder
  rw [hv]
  exact hopen

theorem Reads.congr {value key : ℕ → Str} {n : ℕ} {order : List ℕ} (h : Reads value n order)
    (hkey : ∀ row < n, value row = key row) : Reads key n order := by
  refine ⟨h.at_, h.perm, h.sorted.imp_of_mem fun {a b} ha hb hab => ?_⟩
  have ha' := hkey a (List.mem_range.mp (h.perm.subset ha))
  have hb' := hkey b (List.mem_range.mp (h.perm.subset hb))
  unfold TextOrder at hab ⊢
  rwa [← ha', ← hb']

theorem Starts.congr {value key : ℕ → Str} {order : List ℕ} {i j : ℕ} (h : Starts value order i j)
    (hkey : ∀ k ≤ i, value (order.getD k 0) = key (order.getD k 0)) : Starts key order i j := by
  have hle := h.le
  refine ⟨hle, fun k hjk hki => ?_, h.first.imp_right fun hne => ?_⟩
  · rw [← hkey k hki, ← hkey i (le_refl i)]
    exact h.same k hjk hki
  · rwa [← hkey (j - 1) (by omega), ← hkey i (le_refl i)]

/-- A grouped order of `n` rows by this text. -/
structure Grouped (key : ℕ → Str) (n : ℕ) (o : GroupedOrder) : Prop where
  reads : Reads key n o.order
  starts : ∀ i < n, ∃ j, o.groupAtOrBefore i = some j ∧ Starts key o.order i j
  past : ∀ i, n ≤ i → o.groupAtOrBefore i = none

theorem grouped_build {value key : ℕ → Str} {n : ℕ} (hkey : ∀ row < n, value row = key row) :
    Grouped key n (GroupedOrder.build n value) := by
  have hlen : (GroupedOrder.build n value).order.length = n := GroupedOrder.build_length
  refine ⟨(reads_sorted value n).congr hkey, fun i hi => ?_, fun i hi => ?_⟩
  · obtain ⟨j, hj, hstarts⟩ := starts_build value hi
    refine ⟨j, hj, hstarts.congr fun k hk => hkey _ ?_⟩
    have hmem : (GroupedOrder.build n value).order.getD k 0 ∈
        (GroupedOrder.build n value).order := by
      rw [List.getD_eq_getElem _ _ (by omega)]
      exact List.getElem_mem _
    have hrow := GroupedOrder.build_row_lt _ hmem
    rwa [hlen] at hrow
  · unfold GroupedOrder.groupAtOrBefore
    rw [if_pos (by rwa [hlen])]

/-! ## The files of a segment -/

/-- What the order files are built from: a directory, a spelling and its fold for each row. -/
structure StoredRow where
  dir : ℕ
  spelled : Str
  folded : Str

/-- Rows whose directories are in a table of texts, and whose names hold no NUL. -/
structure StoredRows where
  dirs : List Str
  rows : List StoredRow
  text : ∀ p ∈ dirs, IsText p
  numbered : ∀ r ∈ rows, r.dir < dirs.length
  spelled : ∀ r ∈ rows, (0 : UInt8) ∉ r.spelled
  folded : ∀ r ∈ rows, (0 : UInt8) ∉ r.folded

namespace StoredRows

variable (s : StoredRows)

def spellings : List Str := s.rows.map (·.spelled)

def folds : List Str := s.rows.map (·.folded)

/-- The path a row spells. -/
def path (row : ℕ) : Str :=
  (s.rows[row]?).elim [] fun r => joinPath (s.dirs.getD r.dir []) r.spelled

/-- Its folded name, -/
def name (row : ℕ) : Str := (s.rows[row]?).elim [] (·.folded)

/-- and its folded extension. -/
def ext (row : ℕ) : Str := (s.rows[row]?).elim [] fun r => foldedExtension r.spelled r.folded

/-- Names are what is behind the last separator of a path, and each text is short enough for its
offsets. -/
structure Small : Prop where
  noSlash : ∀ r ∈ s.rows, slash ∉ r.spelled
  fits : Fits s.dirs
  heads : (s.dirs.flatMap joinHead).length < 2 ^ 32
  spelled : (arena s.spellings).length < 2 ^ 32
  folded : (arena s.folds).length < 2 ^ 32

end StoredRows

/-- Every row number of a segment has its texts. -/
theorem length_lt {names : List Str} (h : (arena names).length < 2 ^ 32) :
    names.length < 2 ^ 32 := by
  refine lt_of_le_of_lt ?_ h
  unfold arena
  clear h
  induction names with
  | nil => exact Nat.zero_le _
  | cons n names ih =>
    rw [List.flatMap_cons, List.length_append, List.length_append, List.length_singleton,
      List.length_cons]
    omega

section
variable {s : StoredRows}

theorem nameOf_spellings (h : s.Small) {row : ℕ} {r : StoredRow} (hr : s.rows[row]? = some r) :
    nameOf (nameOffsets s.rows.length (arena s.spellings)) (arena s.spellings) row = r.spelled := by
  have hnul : ∀ x ∈ s.spellings, (0 : UInt8) ∉ x := by
    intro x hx
    obtain ⟨r, hr, rfl⟩ := List.mem_map.mp hx
    exact s.spelled r hr
  have hget : s.spellings[row]? = some r.spelled := by
    rw [StoredRows.spellings, List.getElem?_map, hr]
    rfl
  have hname := nameOf_arena hnul h.spelled hget
  rwa [StoredRows.spellings, List.length_map] at hname

theorem nameOf_folds (h : s.Small) {row : ℕ} {r : StoredRow} (hr : s.rows[row]? = some r) :
    nameOf (nameOffsets s.rows.length (arena s.folds)) (arena s.folds) row = r.folded := by
  have hnul : ∀ x ∈ s.folds, (0 : UInt8) ∉ x := by
    intro x hx
    obtain ⟨r, hr, rfl⟩ := List.mem_map.mp hx
    exact s.folded r hr
  have hget : s.folds[row]? = some r.folded := by
    rw [StoredRows.folds, List.getElem?_map, hr]
    rfl
  have hname := nameOf_arena hnul h.folded hget
  rwa [StoredRows.folds, List.length_map] at hname

theorem bitAt_spellings {row : ℕ} {r : StoredRow} (hr : s.rows[row]? = some r) :
    bitAt (eligibleRows s.rows.length (arena s.spellings)) row = extensionIsEligible r.spelled := by
  have hnul : ∀ x ∈ s.spellings, (0 : UInt8) ∉ x := by
    intro x hx
    obtain ⟨r, hr, rfl⟩ := List.mem_map.mp hx
    exact s.spelled r hr
  have hget : s.spellings[row]? = some r.spelled := by
    rw [StoredRows.spellings, List.getElem?_map, hr]
    rfl
  have hbit := bitAt_eligibleRows hnul hget
  rwa [StoredRows.spellings, List.length_map] at hbit

/-- Each row's directory, as its number finds it. -/
theorem headOf_rows (h : s.Small) {row : ℕ} {r : StoredRow} (hr : s.rows[row]? = some r) :
    headOf (s.dirs.flatMap joinHead) (starts joinHead s.dirs) ((s.rows.map (·.dir)).getD row 0) =
      joinHead (s.dirs.getD r.dir []) := by
  have hlt := s.numbered r (List.mem_of_getElem? hr)
  rw [List.getD_eq_getElem?_getD, List.getElem?_map, hr, Option.map_some, Option.getD_some,
    List.getD_eq_getElem _ _ hlt]
  exact headOf_prefixes h.heads (List.getElem?_eq_getElem hlt)

theorem pathOrder_reads (h : s.Small) : ∃ bytes o,
    pathOrder (opened s.dirs) (s.rows.map (·.dir)) (arena s.spellings) = some bytes ∧
      PathOrder.open_ bytes = some o ∧ Reads s.path s.rows.length o.order := by
  have hn : s.rows.length < 2 ^ 32 := by
    have hlt := length_lt h.spelled
    rwa [StoredRows.spellings, List.length_map] at hlt
  have hget : ∀ row ∈ List.range s.rows.length, ∃ r, s.rows[row]? = some r := fun row hrow =>
    ⟨_, List.getElem?_eq_getElem (List.mem_range.mp hrow)⟩
  have hreads := reads_sorted s.path s.rows.length
  have hlen := hreads.perm.length_eq
  rw [List.length_range] at hlen
  refine ⟨_, ⟨(List.range s.rows.length).insertionSort (valueLe s.path)⟩, ?_,
    open_pathOrder (by rwa [hlen]) fun row hrow => ?_, hreads⟩
  · unfold pathOrder
    rw [joinPrefixes_opened h.fits s.text, Option.map_some]
    dsimp only
    rw [List.length_map, Nat.mod_eq_of_lt hn, hlen,
      @sort_joined _ _ (fun row => (s.rows[row]?).elim [] fun r => s.dirs.getD r.dir []) s.path]
    · intro row hrow
      obtain ⟨r, hr⟩ := hget row hrow
      rw [headOf_rows h hr, hr]
      rfl
    · intro row hrow
      obtain ⟨r, hr⟩ := hget row hrow
      rw [nameOf_spellings h hr]
      exact h.noSlash r (List.mem_of_getElem? hr)
    · intro row hrow
      obtain ⟨r, hr⟩ := hget row hrow
      rw [nameOf_spellings h hr, StoredRows.path, hr]
      rfl
  · exact (List.mem_range.mp (hreads.perm.subset hrow)).trans hn

end

/-- Each order file reads as its rows, sorted. -/
theorem stored_orders_sorted (s : StoredRows) (h : s.Small) :
    (∃ table bytes o, RawTable.open_ (encode ⟨s.dirs⟩) = some table ∧
      pathOrder table (s.rows.map (·.dir)) (arena s.spellings) = some bytes ∧
      PathOrder.open_ bytes = some o ∧ Reads s.path s.rows.length o.order) ∧
    (∃ o, GroupedOrder.open_ (nameOrder s.rows.length (arena s.folds)) = some o ∧
      Grouped s.name s.rows.length o) ∧
    ∃ o, GroupedOrder.open_ (extensionOrder s.rows.length (arena s.spellings)
      (arena s.folds)) = some o ∧ Grouped s.ext s.rows.length o := by
  obtain ⟨bytes, o, hbytes, hopen, hreads⟩ := pathOrder_reads h
  have hn : s.rows.length < 2 ^ 32 := by
    have hlt := length_lt h.spelled
    rwa [StoredRows.spellings, List.length_map] at hlt
  refine ⟨⟨_, bytes, o, open_encode ⟨s.dirs⟩ h.fits, hbytes, hopen, hreads⟩, ?_, ?_⟩
  · refine ⟨_, open_keyedOrder hn _ _ _, grouped_build fun row hrow => ?_⟩
    have hr := List.getElem?_eq_getElem hrow
    rw [valueOf, Option.all_none, if_pos rfl, nameOf_folds h hr, StoredRows.name, hr]
    rfl
  · refine ⟨_, open_keyedOrder hn _ _ _, grouped_build fun row hrow => ?_⟩
    have hr := List.getElem?_eq_getElem hrow
    rw [valueOf, Option.all_some, bitAt_spellings hr, nameOf_folds h hr, StoredRows.ext, hr]
    rfl

/-- A folder whose sibling sorts before the separator. -/
def sibling : StoredRows where
  dirs := [str "/a", str "/a-x"]
  rows := [⟨0, str "c", str "c"⟩, ⟨1, str "b.txt", str "b.txt"⟩, ⟨0, str "c", str "c"⟩]
  text := by simpa using ⟨⟨['/', 'a'], by decide +kernel⟩, ⟨['/', 'a', '-', 'x'], by decide +kernel⟩⟩
  numbered := by decide +kernel
  spelled := by decide +kernel
  folded := by decide +kernel

theorem stored_orders_sorted_sibling :
    ∃ o, GroupedOrder.open_ (nameOrder 3 (arena sibling.folds)) = some o ∧
      Grouped sibling.name 3 o :=
  (stored_orders_sorted sibling
    { noSlash := by decide +kernel
      fits := fits_of_short (by decide +kernel) (by decide +kernel)
      heads := by decide +kernel
      spelled := by decide +kernel
      folded := by decide +kernel }).2.1

/-- A row with the path of another, by a name that has a separator in it. -/
def separated : StoredRows where
  dirs := [str "/a", str "/a/b"]
  rows := [⟨0, str "b/c", str "b/c"⟩, ⟨1, str "c", str "c"⟩]
  text := by simpa using ⟨⟨['/', 'a'], by decide +kernel⟩, ⟨['/', 'a', '/', 'b'], by decide +kernel⟩⟩
  numbered := by decide +kernel
  spelled := by decide +kernel
  folded := by decide +kernel

/-- One row more than 32 bits count. -/
def numerous : StoredRows where
  dirs := [str "/"]
  rows := List.replicate (2 ^ 32) ⟨0, str "c", str "c"⟩
  text := by simpa using ⟨['/'], by decide +kernel⟩
  numbered r hr := by rw [List.eq_of_mem_replicate hr]; decide
  spelled r hr := by rw [List.eq_of_mem_replicate hr]; decide +kernel
  folded r hr := by rw [List.eq_of_mem_replicate hr]; decide +kernel

theorem numerous_length : (numerous.rows.map (·.dir)).length = 2 ^ 32 := by
  rw [List.length_map]
  exact List.length_replicate

/-- Rows of one path come in descending order where a name has a separator, and of `2 ^ 32` rows the
file has none. -/
theorem not_stored_orders_sorted :
    (separated.path 0 = separated.path 1 ∧ ∃ table bytes,
      RawTable.open_ (encode ⟨separated.dirs⟩) = some table ∧
      pathOrder table (separated.rows.map (·.dir)) (arena separated.spellings) = some bytes ∧
        PathOrder.open_ bytes = some ⟨[1, 0]⟩) ∧
    ∃ table bytes, RawTable.open_ (encode ⟨numerous.dirs⟩) = some table ∧
      pathOrder table (numerous.rows.map (·.dir)) (arena numerous.spellings) = some bytes ∧
        PathOrder.open_ bytes = some ⟨[]⟩ := by
  have hfits : Fits separated.dirs := fits_of_short (by decide +kernel) (by decide +kernel)
  have hfits' : Fits numerous.dirs := fits_of_short (by decide +kernel) (by decide +kernel)
  have hpaths : separated.path 0 = separated.path 1 := by decide +kernel
  have hboth : PathOrder.open_ (toLe 4 2 ++ [1, 0].flatMap (toLe 4)) = some ⟨[1, 0]⟩ :=
    @open_pathOrder [1, 0] (by decide) (by decide)
  -- a count of 32 bits starts again at nothing
  have hwrap : toLe 4 (2 ^ 32) = toLe 4 0 ++ ([] : List ℕ).flatMap (toLe 4) := by decide +kernel
  have hempty : PathOrder.open_ (toLe 4 (2 ^ 32)) = some ⟨[]⟩ := by
    rw [hwrap]
    exact @open_pathOrder [] (by decide) (by decide)
  refine ⟨⟨hpaths, opened separated.dirs, _, open_encode ⟨_⟩ hfits, ?_, hboth⟩,
    opened numerous.dirs, _, open_encode ⟨_⟩ hfits', ?_, hempty⟩
  · unfold pathOrder
    rw [joinPrefixes_opened hfits separated.text, Option.map_some]
    decide +kernel
  · unfold pathOrder
    rw [joinPrefixes_opened hfits' numerous.text, Option.map_some]
    dsimp only
    rw [numerous_length, Nat.mod_self, List.range_zero, List.insertionSort_nil, List.flatMap_nil,
      List.append_nil]

end Scour.OrderBytes
