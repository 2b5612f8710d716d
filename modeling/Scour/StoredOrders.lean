import Scour.Bitmaps
import Scour.Walk

/-!
# The order files

`order.rs`, `name_order.rs` and `extension_order.rs`: the rows of a segment sorted by path, by folded
name and by folded extension, rows of one text in row order.  Paths are compared by their parts,
which is the order of the joined paths (`joinedLt_iff`).

A grouped order also has a bit for every position where a text begins, and `groupAtOrBefore` finds
the start of a position's group (`groupAtOrBefore_spec`).  Read descending, the groups come from the
end and each group's rows in row order (`down_sorted`); read forwards or descending, every row comes
once.
-/

namespace Scour

/-! ## Paths by their parts -/

/-- What the names of a directory are appended to. -/
def joinHead (dir : Str) : Str := if dir = [] ∨ dir = [slash] then dir else dir ++ [slash]

/-- Is `ha ++ na` before `hb ++ nb`, without joining?  Where one head is the beginning of the other,
the shorter row's name stands where the longer's head does. -/
def joinedLt (ha na hb nb : Str) : Prop :=
  let m := min ha.length hb.length
  if ha.take m ≠ hb.take m then ha.take m < hb.take m
  else if ha.length = hb.length then na < nb
  else if ha.length < hb.length then na < hb.drop m
  else ha.drop m < nb

instance (ha na hb nb : Str) : Decidable (joinedLt ha na hb nb) := by
  unfold joinedLt
  infer_instance

theorem joinPath_eq (dir name : Str) : joinPath dir name = joinHead dir ++ name := by
  unfold joinPath joinHead
  by_cases h : dir = []
  · simp [h]
  · by_cases h' : dir = [slash]
    · simp [h']
    · simp [h, h']

/-- A head is empty or ends with the separator. -/
theorem joinHead_last (dir : Str) : joinHead dir = [] ∨ ∃ s, joinHead dir = s ++ [slash] := by
  unfold joinHead
  by_cases h : dir = []
  · exact Or.inl (by simp [h])
  · by_cases h' : dir = [slash]
    · exact Or.inr ⟨[], by simp [h']⟩
    · exact Or.inr ⟨dir, by simp [h, h']⟩

/-- Texts that differ within their common length are ordered there. -/
theorem append_lt_append_iff_of_ne {p q : Str} (hlen : p.length = q.length) (hne : p ≠ q)
    (a b : Str) : p ++ a < q ++ b ↔ p < q := by
  induction p generalizing q with
  | nil =>
    cases q with
    | nil => exact absurd rfl hne
    | cons _ _ => cases hlen
  | cons x p ih =>
    cases q with
    | nil => cases hlen
    | cons y q =>
      rw [List.cons_append, List.cons_append, List.cons_lt_cons_iff, List.cons_lt_cons_iff]
      by_cases hxy : x = y
      · subst hxy
        rw [ih (Nat.succ.inj hlen) (fun h => hne (by rw [h]))]
      · simp [hxy]

theorem append_lt_append_iff_left (p a b : Str) : p ++ a < p ++ b ↔ a < b := by
  induction p with
  | nil => rfl
  | cons x p ih => simp [ih]

/-- A text that does not begin with another is ordered against it, whatever follows the other. -/
theorem lt_append_iff_of_not_prefix {t a : Str} (h : ¬ t <+: a) (b : Str) :
    a < t ++ b ↔ a < t := by
  induction t generalizing a with
  | nil => exact absurd List.nil_prefix h
  | cons x t ih =>
    cases a with
    | nil => simp
    | cons y a =>
      rw [List.cons_append, List.cons_lt_cons_iff, List.cons_lt_cons_iff]
      by_cases hxy : y = x
      · subst hxy
        rw [ih fun hp => h (List.cons_prefix_cons.mpr ⟨rfl, hp⟩)]
      · simp [hxy]

theorem append_lt_iff_of_not_prefix {t a : Str} (h : ¬ t <+: a) (b : Str) :
    t ++ b < a ↔ t < a := by
  induction t generalizing a with
  | nil => exact absurd List.nil_prefix h
  | cons x t ih =>
    cases a with
    | nil => simp
    | cons y a =>
      rw [List.cons_append, List.cons_lt_cons_iff, List.cons_lt_cons_iff]
      by_cases hxy : x = y
      · subst hxy
        rw [ih fun hp => h (List.cons_prefix_cons.mpr ⟨rfl, hp⟩)]
      · simp [hxy]

/-- What is left of a longer head is not the beginning of a name: it holds a separator. -/
theorem not_prefix_name {dir name : Str} (hname : slash ∉ name) {m : Nat}
    (hm : m < (joinHead dir).length) : ¬ (joinHead dir).drop m <+: name := by
  rintro ⟨t, ht⟩
  rcases joinHead_last dir with h | ⟨s, h⟩
  · rw [h] at hm
    cases hm
  · refine hname (ht ▸ List.mem_append_left t ?_)
    rw [h] at hm ⊢
    rw [List.length_append, List.length_singleton] at hm
    rw [List.drop_append_of_le_length (by omega)]
    simp

/-- Compared by their parts, paths are in the order they have joined. -/
theorem joinedLt_iff {da na db nb : Str} (hna : slash ∉ na) (hnb : slash ∉ nb) :
    joinedLt (joinHead da) na (joinHead db) nb ↔ joinPath da na < joinPath db nb := by
  have hA := @not_prefix_name da nb hnb
  have hB := @not_prefix_name db na hna
  rw [joinPath_eq, joinPath_eq]
  unfold joinedLt
  dsimp only
  generalize joinHead da = ha at hA ⊢
  generalize joinHead db = hb at hB ⊢
  have hlen : (ha.take (min ha.length hb.length)).length =
      (hb.take (min ha.length hb.length)).length := by
    simp only [List.length_take]
    omega
  have hsplitA := (List.take_append_drop (min ha.length hb.length) ha).symm
  have hsplitB := (List.take_append_drop (min ha.length hb.length) hb).symm
  by_cases hne : ha.take (min ha.length hb.length) = hb.take (min ha.length hb.length)
  · rw [if_neg (not_not.mpr hne)]
    by_cases heq : ha.length = hb.length
    · have hhead : ha = hb := by
        rwa [heq, Nat.min_self, List.take_length, ← heq, List.take_length] at hne
      rw [if_pos heq, hhead, append_lt_append_iff_left]
    · rw [if_neg heq]
      by_cases hlt : ha.length < hb.length
      · have hm : min ha.length hb.length = ha.length := by omega
        rw [if_pos hlt, hm]
        rw [hm, List.take_length] at hne
        rw [hm] at hsplitB
        rw [hsplitB, ← hne, List.append_assoc, append_lt_append_iff_left,
          lt_append_iff_of_not_prefix (hB hlt)]
        rw [List.drop_left' rfl]
      · have hm : min ha.length hb.length = hb.length := by omega
        rw [if_neg hlt, hm]
        rw [hm, List.take_length] at hne
        rw [hm] at hsplitA
        rw [hsplitA, hne, List.append_assoc, append_lt_append_iff_left,
          append_lt_iff_of_not_prefix (hA (by omega))]
        rw [List.drop_left' rfl]
  · rw [if_pos hne]
    have h := append_lt_append_iff_of_ne hlen hne (ha.drop (min ha.length hb.length) ++ na)
      (hb.drop (min ha.length hb.length) ++ nb)
    rw [← List.append_assoc, ← List.append_assoc, ← hsplitA, ← hsplitB] at h
    exact h.symm

/-! ## Building them -/

/-- `sort_unstable_by` a comparison that ends in the row number. -/
def PathOrder.build (seg : Segment) : PathOrder :=
  let head (row : Nat) : Str := joinHead (seg.dirOf row)
  let name (row : Nat) : Str := seg.names.getD row []
  ⟨(List.range seg.rows).insertionSort fun a b =>
    joinedLt (head a) (name a) (head b) (name b) ∨
      (¬ joinedLt (head b) (name b) (head a) (name a) ∧ a ≤ b)⟩

/-- `*byte |= 1 << (i % 8)` in the byte of position `i`. -/
def markBit (bits : Str) (i : Nat) : Str := bits.modify (i / 8) (· ||| 1 <<< UInt8.ofNat (i % 8))

/-- The order `build_keyed` sorts rows in. -/
def valueLe (value : Nat → Str) (a b : Nat) : Prop :=
  value a < value b ∨ (value a = value b ∧ a ≤ b)

instance (value : Nat → Str) : DecidableRel (valueLe value) := fun a b => by
  unfold valueLe
  infer_instance

/-- Does a text begin at a position? -/
def begins (value : Nat → Str) (order : List Nat) (i : Nat) : Bool :=
  i == 0 || value (order.getD (i - 1) 0) != value (order.getD i 0)

/-- `build_keyed`: rows by one derived text each. -/
def GroupedOrder.build (rows : Nat) (value : Nat → Str) : GroupedOrder :=
  let order := (List.range rows).insertionSort (valueLe value)
  { order := order
    groups := (List.range rows).foldl
      (fun bits i => if begins value order i then markBit bits i else bits)
      (List.replicate ((rows + 7) / 8) 0) }

/-- The folded names. -/
def NameOrder.build (v : View) : GroupedOrder := .build v.rows v.foldedName

/-- The folded extensions, of names whose spelling has one. -/
def ExtensionOrder.build (v : View) : GroupedOrder :=
  .build v.rows fun row => foldedExtension (v.seg.names.getD row []) (v.foldedName row)

/-- Each order file is missing or what `build_sorted` wrote with the segment. -/
structure Orders.Built (v : View) (o : Orders) : Prop where
  porder : ∀ p, o.porder = some p → p = PathOrder.build v.seg
  norder : ∀ g, o.norder = some g → g = NameOrder.build v
  eorder : ∀ g, o.eorder = some g → g = ExtensionOrder.build v

/-! ## The bits -/

theorem testBit_mark (byte : UInt8) {i j : Nat} (hi : i < 8) (hj : j < 8) :
    (byte ||| (1 <<< UInt8.ofNat j)).toNat.testBit i = (byte.toNat.testBit i || i == j) := by
  have hall : ∀ k l : Fin 8,
      ((1 : UInt8) <<< UInt8.ofNat l.val).toNat.testBit k.val = (k.val == l.val) := by
    decide +kernel
  rw [UInt8.toNat_or, Nat.testBit_or, hall ⟨i, hi⟩ ⟨j, hj⟩]

theorem bitAt_markBit (bits : Str) {i : Nat} (hi : i / 8 < bits.length) (j : Nat) :
    bitAt (markBit bits i) j = (bitAt bits j || j == i) := by
  unfold markBit
  rw [bitAt_eq_testBit, bitAt_eq_testBit, List.getElem?_modify]
  by_cases hbyte : i / 8 = j / 8
  · have heq : (j % 8 == i % 8) = (j == i) := by
      rw [Bool.eq_iff_iff, beq_iff_eq, beq_iff_eq]
      omega
    rw [hbyte] at hi
    rw [List.getElem?_eq_getElem hi]
    simp only [hbyte, if_true, Option.map_eq_map, Option.map_some, Option.any_some]
    rw [testBit_mark _ (Nat.mod_lt _ (by omega)) (Nat.mod_lt _ (by omega)), heq]
  · have hne : (j == i) = false := by
      rw [beq_eq_false_iff_ne]
      rintro rfl
      exact hbyte rfl
    simp [hbyte, hne]

theorem bitAt_marks (p : Nat → Bool) (positions : List Nat) :
    ∀ bits : Str, (∀ i ∈ positions, i / 8 < bits.length) → ∀ j,
      bitAt (positions.foldl (fun bits i => if p i then markBit bits i else bits) bits) j =
        (bitAt bits j || (positions.contains j && p j)) := by
  induction positions with
  | nil => simp
  | cons i positions ih =>
    intro bits hlen j
    have hi := hlen i List.mem_cons_self
    have hrest := fun k hk => hlen k (List.mem_cons_of_mem i hk)
    rw [List.foldl_cons, List.contains_cons]
    cases hp : p i with
    | false =>
      rw [if_neg (by simp), ih bits hrest]
      by_cases hj : j = i
      · rw [hj, hp]
        simp
      · rw [beq_false_of_ne hj, Bool.false_or]
    | true =>
      rw [if_pos rfl, ih _ (by simpa [markBit] using hrest), bitAt_markBit bits hi]
      by_cases hj : j = i
      · rw [hj, hp]
        simp
      · rw [beq_false_of_ne hj, Bool.or_false, Bool.false_or]

/-- The bits of a byte up to one of them. -/
theorem testBit_mask {bit k : Nat} (hbit : bit < 8) (hk : k < 8) :
    (if bit = 7 then 255 else (1 <<< UInt8.ofNat (bit + 1)) - 1 : UInt8).toNat.testBit k =
      decide (k ≤ bit) := by
  have hall : ∀ b k : Fin 8, (if b.val = 7 then 255 else
      (1 <<< UInt8.ofNat (b.val + 1)) - 1 : UInt8).toNat.testBit k.val = decide (k.val ≤ b.val) := by
    decide +kernel
  exact hall ⟨bit, hbit⟩ ⟨k, hk⟩

theorem highBit_spec {byte : UInt8} (h : byte ≠ 0) :
    highBit byte < 8 ∧ byte.toNat.testBit (highBit byte) = true ∧
      ∀ k, byte.toNat.testBit k = true → k ≤ highBit byte := by
  have hne : byte.toNat ≠ 0 := fun h0 => h (UInt8.toNat_inj.mp h0)
  unfold highBit
  refine ⟨(Nat.log2_lt hne).mpr byte.toNat_lt, Nat.testBit_log2 hne, fun k hk => ?_⟩
  exact (Nat.le_log2 hne).mpr (Nat.ge_two_pow_of_testBit hk)

theorem bitAt_getD (bits : Str) (i : Nat) :
    bitAt bits i = (bits.getD (i / 8) 0).toNat.testBit (i % 8) := by
  rw [bitAt_eq_testBit, List.getD_eq_getElem?_getD]
  cases bits[i / 8]? with
  | none => simp
  | some byte => rfl

/-- The last position below a bound where something holds. -/
theorem find?_reverse_range (p : Nat → Bool) (n : Nat) :
    ((List.range n).reverse.find? p = none ∧ ∀ a < n, p a = false) ∨
      ∃ a < n, (List.range n).reverse.find? p = some a ∧ p a = true ∧
        ∀ b, a < b → b < n → p b = false := by
  induction n with
  | zero => exact Or.inl ⟨rfl, fun a ha => by omega⟩
  | succ n ih =>
    rw [List.range_succ, List.reverse_append, List.reverse_singleton, List.singleton_append,
      List.find?_cons]
    cases hp : p n with
    | true => exact Or.inr ⟨n, by omega, rfl, hp, fun b hb hbn => by omega⟩
    | false =>
      dsimp only
      rcases ih with ⟨hnone, hall⟩ | ⟨a, ha, hfind, hpa, hlast⟩
      · refine Or.inl ⟨hnone, fun a ha => ?_⟩
        rcases Nat.lt_succ_iff_lt_or_eq.mp ha with h | rfl
        · exact hall a h
        · exact hp
      · refine Or.inr ⟨a, by omega, hfind, hpa, fun b hab hb => ?_⟩
        rcases Nat.lt_succ_iff_lt_or_eq.mp hb with h | rfl
        · exact hlast b hab h
        · exact hp

namespace GroupedOrder

/-- The start of the group containing a position: the last bit set up to it. -/
theorem groupAtOrBefore_spec (o : GroupedOrder) {i : Nat} (hi : i < o.order.length)
    (h0 : bitAt o.groups 0 = true) :
    ∃ j, o.groupAtOrBefore i = some j ∧ j ≤ i ∧ bitAt o.groups j = true ∧
      ∀ k, j < k → k ≤ i → bitAt o.groups k = false := by
  have hbit : i % 8 < 8 := Nat.mod_lt _ (by omega)
  have hmask : ∀ k < 8, (o.groups.getD (i / 8) 0 &&& (if i % 8 = 7 then 255 else
      (1 <<< UInt8.ofNat (i % 8 + 1)) - 1 : UInt8)).toNat.testBit k =
      ((o.groups.getD (i / 8) 0).toNat.testBit k && decide (k ≤ i % 8)) := by
    intro k hk
    rw [UInt8.toNat_and, Nat.testBit_and, testBit_mask hbit hk]
  unfold groupAtOrBefore
  rw [if_neg (by omega)]
  dsimp only
  generalize (o.groups.getD (i / 8) 0 &&& (if i % 8 = 7 then 255 else
    (1 <<< UInt8.ofNat (i % 8 + 1)) - 1 : UInt8)) = here at hmask ⊢
  by_cases hhere : here = 0
  · -- nothing in the byte up to the position
    have hlow : ∀ k ≤ i % 8, (o.groups.getD (i / 8) 0).toNat.testBit k = false := by
      intro k hk
      have := hmask k (by omega)
      rw [hhere, decide_eq_true hk, Bool.and_true] at this
      simpa using this.symm
    rw [if_neg (not_not.mpr hhere)]
    rcases find?_reverse_range (fun at_ => o.groups.getD at_ 0 != 0) (i / 8) with
      ⟨-, hall⟩ | ⟨at_, hat, hfind, hne, hlast⟩
    · exfalso
      rw [bitAt_getD, Nat.zero_div, Nat.zero_mod] at h0
      rcases Nat.eq_zero_or_pos (i / 8) with hz | hpos
      · rw [hz] at hlow
        rw [hlow 0 (by omega)] at h0
        cases h0
      · rw [bne_eq_false_iff_eq.mp (hall 0 hpos)] at h0
        simp at h0
    · obtain ⟨hle, htest, hmost⟩ := highBit_spec (bne_iff_ne.mp hne)
      rw [hfind, Option.map_some]
      have hdiv : (at_ * 8 + highBit (o.groups.getD at_ 0)) / 8 = at_ := by omega
      have hmod : (at_ * 8 + highBit (o.groups.getD at_ 0)) % 8 =
        highBit (o.groups.getD at_ 0) := by omega
      refine ⟨_, rfl, by omega, ?_, fun k hk hki => ?_⟩
      · rw [bitAt_getD, hdiv, hmod]
        exact htest
      · rw [bitAt_getD]
        rcases Nat.lt_trichotomy (k / 8) at_ with hlt | heq | hgt
        · omega
        · rw [heq, Bool.eq_false_iff]
          intro htrue
          have := hmost _ htrue
          omega
        · by_cases hsame : k / 8 = i / 8
          · rw [hsame]
            exact hlow _ (by omega)
          · rw [bne_eq_false_iff_eq.mp (hlast (k / 8) hgt (by omega))]
            simp
  · rw [if_pos hhere]
    obtain ⟨hle, htest, hmost⟩ := highBit_spec hhere
    have hboth := hmask _ hle
    rw [htest, eq_comm, Bool.and_eq_true, decide_eq_true_eq] at hboth
    have hdiv : (i / 8 * 8 + highBit here) / 8 = i / 8 := by omega
    have hmod : (i / 8 * 8 + highBit here) % 8 = highBit here := by omega
    refine ⟨_, rfl, by omega, ?_, fun k hk hki => ?_⟩
    · rw [bitAt_getD, hdiv, hmod]
      exact hboth.1
    · have hk8 : k / 8 = i / 8 := by omega
      rw [bitAt_getD, hk8, Bool.eq_false_iff]
      intro htrue
      have hk' := hmask (k % 8) (by omega)
      rw [htrue, decide_eq_true (show k % 8 ≤ i % 8 by omega), Bool.and_true] at hk'
      have := hmost _ hk'
      omega

/-- Which of two positions a descending walk reads first: a later group's, or the earlier of one
group. -/
def DownLe (starts : Nat → Bool) (p q : Nat) : Prop :=
  (p < q ∧ ∀ k, p < k → k ≤ q → starts k = false) ∨
    (q < p ∧ ∃ k, q < k ∧ k ≤ p ∧ starts k = true)

/-- Below the start of a group, a descending walk reads every position once, the groups from the
end. -/
theorem downFrom_spec (o : GroupedOrder) (h0 : bitAt o.groups 0 = true) :
    ∀ fuel stop : Nat, stop ≤ fuel → stop ≤ o.order.length →
      (o.downFrom fuel stop).Perm (List.range stop) ∧
        (o.downFrom fuel stop).Pairwise (DownLe (bitAt o.groups)) := by
  intro fuel
  induction fuel with
  | zero =>
    intro stop hle _
    obtain rfl : stop = 0 := by omega
    exact ⟨List.Perm.refl _, List.Pairwise.nil⟩
  | succ fuel ih =>
    intro stop hle hlen
    cases stop with
    | zero => exact ⟨List.Perm.refl _, List.Pairwise.nil⟩
    | succ stop =>
      obtain ⟨j, hj, hjle, hbit, hlast⟩ := o.groupAtOrBefore_spec (i := stop) (by omega) h0
      obtain ⟨hperm, hpair⟩ := ih j (by omega) (by omega)
      unfold downFrom
      rw [hj]
      dsimp only
      constructor
      · have hrange : List.range (stop + 1) = List.range j ++ List.range' j (stop + 1 - j) := by
          rw [List.range_eq_range', List.range_eq_range']
          have happ := @List.range'_append_1 0 j (stop + 1 - j)
          rw [Nat.zero_add, show j + (stop + 1 - j) = stop + 1 by omega] at happ
          exact happ.symm
        rw [hrange]
        exact List.perm_append_comm.trans (hperm.append_right _)
      · refine List.pairwise_append.mpr ⟨?_, hpair, fun p hp q hq => ?_⟩
        · refine (List.pairwise_lt_range' _).imp_of_mem fun {p q} hp hq hpq => Or.inl ⟨hpq, ?_⟩
          rw [List.mem_range'_1] at hp hq
          exact fun k hk hkq => hlast k (by omega) (by omega)
        · have hq := List.mem_range.mp (hperm.subset hq)
          rw [List.mem_range'_1] at hp
          exact Or.inr ⟨by omega, j, hq, hp.1, hbit⟩

end GroupedOrder

/-! ## Reading positions -/

section
variable {order : List Nat}

theorem rowAt_eq (horder : ∀ row ∈ order, row < order.length) {i : Nat} (hi : i < order.length) :
    rowAt order i = some (order.getD i 0) := by
  unfold rowAt
  rw [List.getElem?_eq_getElem hi, Option.filter_some, List.getD_eq_getElem _ _ hi, if_pos]
  rw [decide_eq_true_eq]
  exact horder _ (List.getElem_mem hi)

/-- The rows that positions name. -/
theorem read_eq (horder : ∀ row ∈ order, row < order.length) {positions : List Nat}
    (h : ∀ i ∈ positions, i < order.length) :
    (positions.map (rowAt order)).filterMap id = positions.map fun i => order.getD i 0 := by
  rw [List.filterMap_map, ← List.filterMap_eq_map]
  refine List.filterMap_congr fun i hi => ?_
  exact rowAt_eq horder (h i hi)

theorem map_getD_range : ((List.range order.length).map fun i => order.getD i 0) = order := by
  refine List.ext_getElem (by rw [List.length_map, List.length_range]) ?_
  intro i h1 h2
  rw [List.getElem_map, List.getElem_range, List.getD_eq_getElem _ _ h2]

/-- Read forwards, the positions name the rows in the order stored. -/
theorem read_forwards (horder : ∀ row ∈ order, row < order.length) :
    ((List.range order.length).map (rowAt order)).filterMap id = order := by
  rw [read_eq horder fun i hi => List.mem_range.mp hi, map_getD_range]

end

/-! ## What was built -/

section
variable {value : Nat → Str}

instance : Std.Total (valueLe value) where
  total a b := by
    rcases lt_trichotomy (value a) (value b) with h | h | h
    · exact Or.inl (Or.inl h)
    · exact (Nat.le_total a b).imp (fun hr => Or.inr ⟨h, hr⟩) fun hr => Or.inr ⟨h.symm, hr⟩
    · exact Or.inr (Or.inl h)

instance : IsTrans Nat (valueLe value) where
  trans a b c hab hbc := by
    rcases hab with h1 | ⟨h1, h2⟩
    · rcases hbc with h3 | ⟨h3, -⟩
      · exact Or.inl (h1.trans h3)
      · exact Or.inl (h3 ▸ h1)
    · rcases hbc with h3 | ⟨h3, h4⟩
      · exact Or.inl (h1 ▸ h3)
      · exact Or.inr ⟨h1.trans h3, h2.trans h4⟩

/-- Rows by a text, one way or the other, and then by number. -/
def TextOrder (desc : Bool) (value : Nat → Str) (a b : Nat) : Prop :=
  (if desc then value b < value a else value a < value b) ∨ (value a = value b ∧ a < b)

theorem sorted_insertionSort (rows : Nat) :
    ((List.range rows).insertionSort (valueLe value)).Pairwise (TextOrder false value) := by
  have hnodup : ((List.range rows).insertionSort (valueLe value)).Nodup :=
    (List.perm_insertionSort _ _).nodup_iff.mpr List.nodup_range
  refine (List.pairwise_insertionSort (valueLe value) (List.range rows)).imp₂ ?_ hnodup
  intro a b hle hne
  rcases hle with h | ⟨h, hab⟩
  · exact Or.inl (by simpa using h)
  · exact Or.inr ⟨h, lt_of_le_of_ne hab hne⟩

end

namespace GroupedOrder

variable {rows : Nat} {value : Nat → Str}

theorem build_perm : (build rows value).order.Perm (List.range rows) := List.perm_insertionSort _ _

theorem build_length : (build rows value).order.length = rows := by
  rw [build_perm.length_eq, List.length_range]

theorem build_sorted : (build rows value).order.Pairwise (TextOrder false value) :=
  sorted_insertionSort rows

theorem build_bit {i : Nat} (hi : i < rows) :
    bitAt (build rows value).groups i = begins value (build rows value).order i := by
  unfold build
  dsimp only
  rw [bitAt_marks]
  · rw [bitAt_getD, List.getD_eq_getElem?_getD, List.getElem?_replicate]
    have hc : (List.range rows).contains i = true := by
      rw [List.contains_iff_mem, List.mem_range]
      exact hi
    rw [hc, Bool.true_and]
    split <;> simp
  · intro k hk
    rw [List.mem_range] at hk
    rw [List.length_replicate]
    omega

theorem build_row_lt : ∀ row ∈ (build rows value).order, row < (build rows value).order.length := by
  intro row hrow
  rw [build_length]
  exact List.mem_range.mp (build_perm.subset hrow)

/-- Positions in order hold texts in order, -/
theorem build_value_le {i j : Nat} (hij : i ≤ j) (hj : j < rows) :
    value ((build rows value).order.getD i 0) ≤ value ((build rows value).order.getD j 0) := by
  rcases Nat.eq_or_lt_of_le hij with rfl | hlt
  · exact le_refl _
  have hj' : j < (build rows value).order.length := by rwa [build_length]
  have h := List.pairwise_iff_getElem.mp (@build_sorted rows value) i j (by omega) hj' hlt
  rw [List.getD_eq_getElem _ _ (by omega), List.getD_eq_getElem _ _ hj']
  rcases h with h | ⟨h, -⟩
  · exact le_of_lt (by simpa using h)
  · exact h.le

/-- and positions of one group in row order. -/
theorem build_value_eq {i j : Nat} (hij : i ≤ j) (hj : j < rows)
    (h : ∀ k, i < k → k ≤ j → bitAt (build rows value).groups k = false) :
    value ((build rows value).order.getD i 0) = value ((build rows value).order.getD j 0) := by
  induction j with
  | zero => rw [Nat.le_zero.mp hij]
  | succ j ih =>
    rcases Nat.eq_or_lt_of_le hij with rfl | hlt
    · rfl
    have hbit := h (j + 1) (by omega) (le_refl _)
    rw [build_bit hj] at hbit
    unfold begins at hbit
    simp only [Nat.add_sub_cancel, Bool.or_eq_false_iff, bne_eq_false_iff_eq] at hbit
    rw [← hbit.2]
    exact ih (by omega) (by omega) fun k hk hkj => h k hk (by omega)

/-- The positions a descending walk reads. -/
theorem build_down :
    ((build rows value).downFrom rows rows).Perm (List.range rows) ∧
      ((build rows value).downFrom rows rows).Pairwise
        (DownLe (bitAt (build rows value).groups)) := by
  rcases Nat.eq_zero_or_pos rows with rfl | hpos
  · exact ⟨List.Perm.refl _, List.Pairwise.nil⟩
  · refine downFrom_spec _ ?_ rows rows (le_refl _) build_length.ge
    rw [build_bit hpos]
    rfl

/-- Read descending, every row comes once, -/
theorem down_perm :
    ((((build rows value).downFrom rows rows).map (rowAt (build rows value).order)).filterMap
      id).Perm (List.range rows) := by
  have hmem : ∀ i ∈ (build rows value).downFrom rows rows, i < (build rows value).order.length := by
    intro i hi
    rw [build_length]
    exact List.mem_range.mp (build_down.1.subset hi)
  rw [read_eq build_row_lt hmem]
  refine (build_down.1.map _).trans ?_
  have hall := @map_getD_range (build rows value).order
  rw [build_length] at hall
  rw [hall]
  exact build_perm

/-- texts from the last, and rows of one text by number. -/
theorem down_sorted :
    ((((build rows value).downFrom rows rows).map (rowAt (build rows value).order)).filterMap
      id).Pairwise (TextOrder true value) := by
  have hmem : ∀ i ∈ (build rows value).downFrom rows rows, i < rows :=
    fun i hi => List.mem_range.mp (build_down.1.subset hi)
  rw [read_eq build_row_lt fun i hi => by rw [build_length]; exact hmem i hi, List.pairwise_map]
  refine build_down.2.imp_of_mem fun {p q} hp hq hpq => ?_
  have hp := hmem p hp
  have hq := hmem q hq
  rcases hpq with ⟨hlt, hsame⟩ | ⟨hlt, k, hqk, hkp, hstart⟩
  · have heq := @build_value_eq rows value p q hlt.le hq hsame
    have hrow := List.pairwise_iff_getElem.mp (@build_sorted rows value) p q
      (by rwa [build_length]) (by rwa [build_length]) hlt
    rw [← List.getD_eq_getElem _ 0, ← List.getD_eq_getElem _ 0] at hrow
    rcases hrow with h | ⟨-, h⟩
    · rw [heq] at h
      exact absurd h (by simp)
    · exact Or.inr ⟨heq, h⟩
  · left
    rw [build_bit (by omega)] at hstart
    unfold begins at hstart
    simp only [Bool.or_eq_true, beq_iff_eq, bne_iff_ne, ne_eq] at hstart
    have hne := hstart.resolve_left (by omega)
    have hstep := lt_of_le_of_ne (@build_value_le rows value _ _ (Nat.sub_le k 1) (by omega)) hne
    rw [if_pos rfl]
    exact (build_value_le (by omega) (by omega)).trans_lt
      (hstep.trans_le (build_value_le hkp hp))

end GroupedOrder

/-- Compared by their parts or joined, rows come in the same order. -/
theorem sort_joined {head name dir key : Nat → Str} {rows : List Nat}
    (hhead : ∀ row ∈ rows, head row = joinHead (dir row)) (hname : ∀ row ∈ rows, slash ∉ name row)
    (hkey : ∀ row ∈ rows, joinPath (dir row) (name row) = key row) :
    (rows.insertionSort fun a b => joinedLt (head a) (name a) (head b) (name b) ∨
      (¬ joinedLt (head b) (name b) (head a) (name a) ∧ a ≤ b)) =
    rows.insertionSort (valueLe key) := by
  have h := List.map_insertionSort (r := fun a b => joinedLt (head a) (name a) (head b) (name b) ∨
        (¬ joinedLt (head b) (name b) (head a) (name a) ∧ a ≤ b))
    (s := valueLe key) id rows fun a ha b hb => by
      rw [hhead a ha, hhead b hb, joinedLt_iff (hname a ha) (hname b hb),
        joinedLt_iff (hname b hb) (hname a ha), hkey a ha, hkey b hb]
      unfold valueLe id
      constructor
      · rintro (hlt | ⟨hle, hab⟩)
        · exact Or.inl hlt
        · rcases lt_or_eq_of_le (not_lt.mp hle) with hlt | heq
          · exact Or.inl hlt
          · exact Or.inr ⟨heq, hab⟩
      · rintro (hlt | ⟨heq, hab⟩)
        · exact Or.inl hlt
        · exact Or.inr ⟨(le_of_eq heq).not_gt, hab⟩
  rw [List.map_id, List.map_id] at h
  exact h

theorem PathOrder.build_order (seg : Segment) (hnames : ∀ row, slash ∉ seg.names.getD row []) :
    (PathOrder.build seg).order = (List.range seg.rows).insertionSort
      (valueLe fun row => joinPath (seg.dirOf row) (seg.names.getD row [])) :=
  sort_joined (fun _ _ => rfl) (fun row _ => hnames row) fun _ _ => rfl

end Scour
