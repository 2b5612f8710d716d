import Mathlib.Data.List.Induction
import Scour.Columns

/-!
# Columns give back every value

`encodeBlock_spec` is what one block's bytes are, `Wrote` what the writer has of the rows so far, and
`Holds` where a finished file has each block.  `columns_read` puts them together, for files whose
counts fit the format's 32 bits.
-/

namespace Scour.Columns

open Search

/-! ## A block -/

/-- The least and the greatest of some values. -/
structure IsRange (vals : List Int64) (lo hi : Int64) : Prop where
  lo_mem : lo ∈ vals
  hi_mem : hi ∈ vals
  lo_le : ∀ v ∈ vals, lo ≤ v
  le_hi : ∀ v ∈ vals, v ≤ hi

/-- The first of those that are least. -/
theorem foldl_least {α : Type} (f : α → ℤ) (v : α) (vs : List α) :
    vs.foldl (fun a b => if f b < f a then b else a) v ∈ v :: vs ∧
      ∀ x ∈ v :: vs, f (vs.foldl (fun a b => if f b < f a then b else a) v) ≤ f x := by
  induction vs generalizing v with
  | nil =>
    refine ⟨List.mem_cons_self, fun x hx => ?_⟩
    rw [List.mem_singleton.mp hx]
    exact le_refl _
  | cons w vs ih =>
    obtain ⟨hmem, hle⟩ := ih (if f w < f v then w else v)
    have hfirst := hle _ List.mem_cons_self
    rw [List.foldl_cons]
    generalize vs.foldl (fun a b => if f b < f a then b else a) (if f w < f v then w else v) = m
      at hmem hle hfirst ⊢
    refine ⟨?_, fun x hx => ?_⟩
    · rcases List.mem_cons.mp hmem with h | h
      · rw [h]
        split <;> simp
      · exact List.mem_cons_of_mem _ (List.mem_cons_of_mem _ h)
    · rcases List.mem_cons.mp hx with rfl | hx
      · split at hfirst <;> omega
      · rcases List.mem_cons.mp hx with rfl | hx
        · split at hfirst <;> omega
        · exact hle x (List.mem_cons_of_mem _ hx)

theorem minOf_spec (v : Int64) (vs : List Int64) :
    minOf v vs ∈ v :: vs ∧ ∀ x ∈ v :: vs, minOf v vs ≤ x := by
  have hfold : minOf v vs = vs.foldl (fun a b => if b.toInt < a.toInt then b else a) v := by
    simp only [minOf, Int64.lt_iff_toInt_lt]
  obtain ⟨hmem, hle⟩ := foldl_least Int64.toInt v vs
  rw [hfold]
  exact ⟨hmem, fun x hx => Int64.le_iff_toInt_le.mpr (hle x hx)⟩

theorem maxOf_spec (v : Int64) (vs : List Int64) :
    maxOf v vs ∈ v :: vs ∧ ∀ x ∈ v :: vs, x ≤ maxOf v vs := by
  have hfold : maxOf v vs = vs.foldl (fun a b => if -b.toInt < -a.toInt then b else a) v := by
    simp only [maxOf, Int64.lt_iff_toInt_lt, neg_lt_neg_iff]
  obtain ⟨hmem, hle⟩ := foldl_least (fun x => -x.toInt) v vs
  rw [hfold]
  exact ⟨hmem, fun x hx => Int64.le_iff_toInt_le.mpr (neg_le_neg_iff.mp (hle x hx))⟩

/-- The difference may not fit, but it brings the value back. -/
theorem add_above (min v : Int64) : min + (UInt64.ofNat (above min v)).toInt64 = v := by
  unfold above
  rw [UInt64.ofNat_toNat, Int64.toInt64_toUInt64, Int64.add_comm, Int64.sub_add_cancel]

theorem i64FromLe_i64Le (v : Int64) : ColumnBlocks.i64FromLe (i64Le v) = v := by
  have hlt : v.toUInt64.toNat < 256 ^ 8 := v.toUInt64.toNat_lt
  rw [ColumnBlocks.i64FromLe, i64Le, fromLe_toLe hlt, UInt64.ofNat_toNat, Int64.toInt64_toUInt64]

theorem le_foldl_max_nat (xs : List ℕ) (m : ℕ) : m ≤ xs.foldl max m ∧ ∀ x ∈ xs, x ≤ xs.foldl max m := by
  induction xs generalizing m with
  | nil => exact ⟨Nat.le_refl _, nofun⟩
  | cons y xs ih =>
    obtain ⟨hm, hle⟩ := ih (max m y)
    rw [List.foldl_cons]
    refine ⟨(Nat.le_max_left m y).trans hm, fun x hx => ?_⟩
    rcases List.mem_cons.mp hx with rfl | hx
    · exact (Nat.le_max_right m x).trans hm
    · exact hle x hx

/-- What a block's bytes are. -/
theorem encodeBlock_spec {vals : List Int64} (h : vals ≠ []) : ∃ lo hi bits,
    encodeBlock vals = i64Le lo ++ i64Le hi ++ UInt8.ofNat bits :: pack bits (vals.map (above lo)) ∧
      IsRange vals lo hi ∧ bits ≤ 64 ∧ ∀ u ∈ vals.map (above lo), u < 2 ^ bits := by
  cases vals with
  | nil => exact absurd rfl h
  | cons v vs =>
    refine ⟨minOf v vs, maxOf v vs, _, rfl, ⟨(minOf_spec v vs).1, (maxOf_spec v vs).1,
      (minOf_spec v vs).2, (maxOf_spec v vs).2⟩, ?_, fun u hu => ?_⟩
    · have hall : ∀ (xs : List ℕ) (m : ℕ), m < 2 ^ 64 → (∀ x ∈ xs, x < 2 ^ 64) →
          xs.foldl max m < 2 ^ 64 := by
        intro xs
        induction xs with
        | nil => exact fun _ hm _ => hm
        | cons x xs ih =>
          exact fun m hm hx => ih _ (max_lt hm (hx x List.mem_cons_self)) fun y hy =>
            hx y (List.mem_cons_of_mem _ hy)
      refine Nat.size_le.mpr (hall _ 0 (by decide) fun u hu => ?_)
      obtain ⟨x, -, rfl⟩ := List.mem_map.mp hu
      exact UInt64.toNat_lt _
    · exact ((le_foldl_max_nat _ 0).2 u hu).trans_lt (Nat.lt_size_self _)

/-! ## What the writer has -/

/-- A block's bytes in one column. -/
def code (c : Field) (b : List Row) : Str := encodeBlock (b.map (· c))

/-- Where a column's block starts among its blocks. -/
def startOf (c : Field) (bs : List (List Row)) (k : ℕ) : ℕ := ((bs.take k).flatMap (code c)).length

/-- The columns have these blocks. -/
structure Held (w : ColumnWriter) (bs : List (List Row)) : Prop where
  blocks : ∀ c, w.blocks c = bs.flatMap (code c)
  length : ∀ c, (w.offsets c).length = bs.length
  offsets : ∀ c k, k < bs.length → (w.offsets c)[k]? = some (UInt32.ofNat (startOf c bs k))

theorem Held.push {w : ColumnWriter} {bs : List (List Row)} (h : Held w bs) (hp : w.pending ≠ []) :
    Held w.sealBlock (bs ++ [w.pending]) := by
  unfold ColumnWriter.sealBlock
  rw [if_neg hp]
  refine ⟨fun c => ?_, fun c => ?_, fun c k hk => ?_⟩
  · rw [List.flatMap_append, List.flatMap_singleton, ← h.blocks]
    rfl
  · rw [List.length_append, List.length_append, h.length, List.length_singleton,
      List.length_singleton]
  · rw [List.length_append, List.length_singleton] at hk
    unfold startOf
    rw [List.take_append_of_le_length (by omega)]
    by_cases hlt : k < bs.length
    · rw [List.getElem?_append_left (by rw [h.length]; exact hlt)]
      exact h.offsets c k hlt
    · obtain rfl : k = bs.length := by omega
      rw [List.getElem?_append_right (by rw [h.length]), h.length, Nat.sub_self, List.take_length,
        ← h.blocks]
      rfl

/-- What the writer has of the rows so far: full blocks, and those pending. -/
structure Wrote (w : ColumnWriter) (rows : List Row) (full : List (List Row)) : Prop where
  split : rows = full.flatten ++ w.pending
  whole : ∀ b ∈ full, b.length = BLOCK
  pending : w.pending.length < BLOCK
  count : w.rows = rows.length
  held : Held w full

theorem Wrote.push {w : ColumnWriter} {rows : List Row} {full : List (List Row)}
    (h : Wrote w rows full) (row : Row) :
    ∃ full', Wrote (w.push row) (rows ++ [row]) full' := by
  have hsplit : rows ++ [row] = full.flatten ++ (w.pending ++ [row]) := by
    rw [h.split, List.append_assoc]
  have hlen := h.pending
  have hheld : Held { w with pending := w.pending ++ [row], rows := w.rows + 1 } full :=
    ⟨h.held.blocks, h.held.length, h.held.offsets⟩
  unfold ColumnWriter.push
  dsimp only
  split
  · rename_i hfull
    have hne : w.pending ++ [row] ≠ [] := by simp
    refine ⟨full ++ [w.pending ++ [row]], ?_, ?_, ?_, ?_, hheld.push hne⟩
    · rw [hsplit, ColumnWriter.sealBlock, if_neg hne, List.flatten_append]
      simp
    · intro b hb
      rcases List.mem_append.mp hb with hb | hb
      · exact h.whole b hb
      · rw [List.mem_singleton.mp hb]
        exact hfull
    · rw [ColumnWriter.sealBlock, if_neg hne]
      exact Nat.zero_lt_succ 31
    · rw [ColumnWriter.sealBlock, if_neg hne, List.length_append, ← h.count]
      rfl
  · rename_i hnot
    refine ⟨full, hsplit, h.whole, ?_, ?_, hheld⟩
    · rw [List.length_append, List.length_singleton] at hnot ⊢
      omega
    · rw [List.length_append, ← h.count]
      rfl

theorem wrote_write (rows : List Row) :
    ∃ full, Wrote (rows.foldl ColumnWriter.push .new) rows full := by
  induction rows using List.reverseRecOn with
  | nil =>
    exact ⟨[], rfl, nofun, by decide, rfl, fun _ => rfl, fun _ => rfl,
      fun _ _ hk => absurd hk (Nat.not_lt_zero _)⟩
  | append_singleton rows row ih =>
    obtain ⟨full, h⟩ := ih
    rw [List.foldl_concat]
    exact h.push row

/-- Rows cut into blocks, the last of which may be short. -/
structure Cut (rows : List Row) (bs : List (List Row)) : Prop where
  lt_iff : ∀ k, k < bs.length ↔ k * BLOCK < rows.length
  eq : ∀ k b, bs[k]? = some b → b = (rows.drop (k * BLOCK)).take BLOCK

theorem cut_flatten {full : List (List Row)} (h : ∀ b ∈ full, b.length = BLOCK) {p : List Row}
    (hp : p.length < BLOCK) :
    Cut (full.flatten ++ p) (if p = [] then full else full ++ [p]) := by
  have hB : BLOCK = 32 := rfl
  induction full with
  | nil =>
    split
    · rename_i hnil
      subst hnil
      exact ⟨fun k => by simp, nofun⟩
    · rename_i hnil
      have hpos := List.length_pos_iff.mpr hnil
      refine ⟨fun k => ?_, fun k b hb => ?_⟩
      · rw [List.nil_append, List.length_singleton, List.flatten_nil, List.nil_append]
        rw [hB] at hp ⊢
        omega
      · cases k with
        | zero =>
          obtain rfl : p = b := Option.some.inj hb
          rw [Nat.zero_mul, List.drop_zero, List.flatten_nil, List.nil_append,
            List.take_of_length_le hp.le]
        | succ k => cases hb
  | cons b full ih =>
    have hb := h b List.mem_cons_self
    have ih := ih fun b' hb' => h b' (List.mem_cons_of_mem _ hb')
    have hlist : (if p = [] then b :: full else b :: full ++ [p]) =
        b :: (if p = [] then full else full ++ [p]) := by
      split <;> rfl
    have hdrop : ∀ k, ((b :: full).flatten ++ p).drop ((k + 1) * BLOCK) =
        (full.flatten ++ p).drop (k * BLOCK) := by
      intro k
      rw [List.flatten_cons, List.append_assoc, Nat.succ_mul, Nat.add_comm, ← List.drop_drop,
        List.drop_left' hb]
    rw [hlist]
    refine ⟨fun k => ?_, fun k b' hb' => ?_⟩
    · have hlen : ((b :: full).flatten ++ p).length = BLOCK + (full.flatten ++ p).length := by
        rw [List.flatten_cons, List.append_assoc, List.length_append, hb]
      cases k with
      | zero =>
        rw [List.length_cons, hlen, hB]
        omega
      | succ k =>
        have := ih.lt_iff k
        rw [List.length_cons, hlen, Nat.succ_mul]
        omega
    · cases k with
      | zero =>
        obtain rfl : b = b' := Option.some.inj hb'
        rw [Nat.zero_mul, List.drop_zero, List.flatten_cons, List.append_assoc, List.take_left' hb]
      | succ k =>
        rw [hdrop]
        exact ih.eq k b' hb'

/-- The writer of a sequence of rows as it is when its file is assembled. -/
def sealed (rows : List Row) : ColumnWriter := (rows.foldl ColumnWriter.push .new).sealBlock

theorem sealed_held (rows : List Row) :
    ∃ bs, Held (sealed rows) bs ∧ (sealed rows).rows = rows.length ∧ Cut rows bs := by
  obtain ⟨full, h⟩ := wrote_write rows
  unfold sealed
  generalize rows.foldl ColumnWriter.push .new = w at h
  have hcut := cut_flatten h.whole h.pending
  rw [← h.split] at hcut
  by_cases hp : w.pending = []
  · rw [if_pos hp] at hcut
    rw [ColumnWriter.sealBlock, if_pos hp]
    exact ⟨full, h.held, h.count, hcut⟩
  · rw [if_neg hp] at hcut
    refine ⟨full ++ [w.pending], h.held.push hp, ?_, hcut⟩
    rw [ColumnWriter.sealBlock, if_neg hp]
    exact h.count

/-! ## Where the file has it -/

/-- The rows and the bytes of each column are few enough for the format's 32 bits. -/
structure Fits (rows : List Row) : Prop where
  count : rows.length < 2 ^ 32
  blocks : ∀ c, ((sealed rows).blocks c).length < 2 ^ 32

theorem all_index (c : Field) : Field.all[c.index]? = some c := by
  cases c <;> rfl

theorem length_table (w : ColumnWriter) (cs : List Field) (n : ℕ) :
    (w.table cs n).length = 8 * cs.length := by
  induction cs generalizing n with
  | nil => rfl
  | cons c cs ih =>
    rw [ColumnWriter.table, List.length_append, length_toLe, ih, List.length_cons]
    omega

theorem length_offsets (os : List UInt32) : (os.flatMap fun o => toLe 4 o.toNat).length =
    4 * os.length := by
  induction os with
  | nil => rfl
  | cons o os ih =>
    rw [List.flatMap_cons, List.length_append, length_toLe, ih, List.length_cons]
    omega

theorem length_body (w : ColumnWriter) (c : Field) : (w.body c).length = w.bodyLen c := by
  rw [ColumnWriter.body, ColumnWriter.bodyLen, List.length_append, List.length_append, length_toLe,
    length_offsets]
  omega

theorem table_at (w : ColumnWriter) (cs : List Field) (n : ℕ) {k : ℕ} {c : Field}
    (h : cs[k]? = some c) :
    At (w.table cs n) (8 * k) (toLe 8 (n + ((cs.take k).flatMap w.body).length)) := by
  induction cs generalizing n k with
  | nil => cases h
  | cons c' cs ih =>
    cases k with
    | zero => exact (at_zero _).left
    | succ k =>
      have htail : At (w.table (c' :: cs) n) 8 (w.table cs (n + w.bodyLen c')) :=
        (at_zero _).right (by rw [length_toLe])
      have hat := htail.within (ih (n + w.bodyLen c') h)
      rw [List.take_succ_cons, List.flatMap_cons, List.length_append, length_body]
      rw [Nat.mul_succ, Nat.add_comm (8 * k), ← Nat.add_assoc]
      exact hat

variable {rows : List Row} {bs : List (List Row)}

theorem blocks_le (h : Cut rows bs) : bs.length ≤ rows.length := by
  have hB : BLOCK = 32 := rfl
  by_contra hlt
  have hlast := (h.lt_iff (bs.length - 1)).mp (by omega)
  rw [hB] at hlast
  omega

theorem bodyLen_lt {w : ColumnWriter} (hheld : Held w bs) (hrows : bs.length < 2 ^ 32)
    (hblocks : ∀ c, (w.blocks c).length < 2 ^ 32) (c : Field) : w.bodyLen c < 2 ^ 35 := by
  have hb := hblocks c
  rw [ColumnWriter.bodyLen, hheld.length]
  omega

theorem bodies_lt {w : ColumnWriter} (h : ∀ c, w.bodyLen c < 2 ^ 35) (cs : List Field) :
    (cs.flatMap w.body).length ≤ 2 ^ 35 * cs.length := by
  induction cs with
  | nil => exact Nat.le_refl _
  | cons c cs ih =>
    have hc := h c
    rw [List.flatMap_cons, List.length_append, length_body, List.length_cons]
    omega

/-- The parts of the file. -/
theorem write_at (rows : List Row) : At (write rows) 0 (toLe 4 rows.length) ∧
    At (write rows) 4 (toLe 4 14) ∧ At (write rows) 8 ((sealed rows).table Field.all 120) ∧
      At (write rows) 120 (Field.all.flatMap (sealed rows).body) := by
  obtain ⟨-, -, hcount, -⟩ := sealed_held rows
  have hwhole : write rows = toLe 4 rows.length ++ (toLe 4 14 ++
      ((sealed rows).table Field.all 120 ++ Field.all.flatMap (sealed rows).body)) := by
    rw [← hcount, ← List.append_assoc, ← List.append_assoc]
    rfl
  have h0 := at_zero (write rows)
  conv at h0 => rhs; rw [hwhole]
  have h4 := h0.right (j := 4) (by rw [length_toLe])
  have h8 := h4.right (j := 8) (by rw [length_toLe])
  exact ⟨h0.left, h4.left, h8.left, h8.right (by rw [length_table]; rfl)⟩

/-- The reader opens what the writer made. -/
theorem open_write (rows : List Row) : ColumnBlocks.open_ (write rows) =
    some ⟨rows.length % 2 ^ 32, (sealed rows).table Field.all 120, write rows⟩ := by
  obtain ⟨hrows, hcols, htable, hbodies⟩ := write_at rows
  have hlen := hbodies.le
  have hcount : fromLe (toLe 4 rows.length) = rows.length % 2 ^ 32 := fromLe_toLe_mod 4 _
  have hfourteen : fromLe (toLe 4 14) = 14 := by decide
  unfold ColumnBlocks.open_
  rw [if_neg (by omega), hrows.slice (by rw [length_toLe]), hcols.slice (by rw [length_toLe])]
  simp only [Option.bind_eq_bind, Option.bind_some, hcount, hfourteen]
  rw [if_neg]
  · rw [htable.slice (by rw [length_table]; rfl)]
    rfl
  · rintro (h | h)
    · exact h rfl
    · omega

/-- The file, as the reader has it. -/
def opened (rows : List Row) : ColumnBlocks :=
  ⟨rows.length, (sealed rows).table Field.all 120, write rows⟩

/-- A column's section: how many blocks it has, where each starts, and the blocks. -/
theorem section_write (hfits : Fits rows) (hheld : Held (sealed rows) bs) (hcut : Cut rows bs)
    (c : Field) : ∃ s < 256 ^ 8, At (opened rows).offsets (8 * c.index) (toLe 8 s) ∧
      At (write rows) s (toLe 4 bs.length) ∧
      At (write rows) (s + 4) (((sealed rows).offsets c).flatMap fun o => toLe 4 o.toNat) ∧
      At (write rows) (s + 4 + bs.length * 4) (bs.flatMap (code c)) := by
  obtain ⟨-, -, -, hbodies⟩ := write_at rows
  have hlt := bodyLen_lt hheld ((blocks_le hcut).trans_lt hfits.count) hfits.blocks
  have htable := table_at (sealed rows) Field.all 120 (all_index c)
  have hsection := hbodies.within (at_flatMap (g := (sealed rows).body) (all_index c))
  have hbefore := bodies_lt hlt (Field.all.take c.index)
  have hindex : (Field.all.take c.index).length ≤ 14 := List.length_take_le' _ _
  have hmost := Nat.mul_le_mul_left (2 ^ 35) hindex
  refine ⟨_, ?_, htable, ?_⟩
  · omega
  · have hbody : (sealed rows).body c = toLe 4 bs.length ++
        ((((sealed rows).offsets c).flatMap fun o => toLe 4 o.toNat) ++ bs.flatMap (code c)) := by
      rw [ColumnWriter.body, List.append_assoc, hheld.length, hheld.blocks]
    rw [hbody] at hsection
    have hrest := hsection.right (j := _ + 4) (by rw [length_toLe])
    exact ⟨hsection.left, hrest.left,
      hrest.right (by rw [length_offsets, hheld.length, Nat.mul_comm])⟩

/-- Each block is found where it stands. -/
theorem blockAt_write (hfits : Fits rows) (hheld : Held (sealed rows) bs) (hcut : Cut rows bs)
    (c : Field) {k : ℕ} {b : List Row} (hb : bs[k]? = some b) :
    ∃ at_, (opened rows).blockAt c k = some at_ ∧ At (write rows) at_ (code c b) := by
  obtain ⟨hk, -⟩ := List.getElem?_eq_some_iff.mp hb
  obtain ⟨s, hs, htable, hnumber, hoffsets, hblocks⟩ := section_write hfits hheld hcut c
  have hoffset := hoffsets.within (at_flatMap (g := fun o : UInt32 => toLe 4 o.toNat)
    (hheld.offsets c k hk))
  have hplace : ((((sealed rows).offsets c).take k).flatMap fun o => toLe 4 o.toNat).length =
      k * 4 := by
    rw [length_offsets, List.length_take, hheld.length]
    omega
  rw [hplace] at hoffset
  have hstart : startOf c bs k < 2 ^ 32 := by
    have hle := (at_flatMap (g := code c) hb).le
    have hall := hfits.blocks c
    rw [hheld.blocks] at hall
    unfold startOf
    omega
  have hword : fromLe (toLe 4 (UInt32.ofNat (startOf c bs k)).toNat) = startOf c bs k := by
    rw [UInt32.toNat_ofNat', Nat.mod_eq_of_lt hstart, fromLe_toLe (by omega)]
  have hcount := (blocks_le hcut).trans_lt hfits.count
  have hn : fromLe (toLe 4 bs.length) = bs.length := fromLe_toLe (by omega)
  refine ⟨s + 4 + bs.length * 4 + startOf c bs k, ?_, hblocks.within (at_flatMap hb)⟩
  unfold ColumnBlocks.blockAt
  dsimp only
  rw [Nat.mul_comm c.index, htable.slice (by rw [length_toLe])]
  simp only [opened, Option.bind_eq_bind, Option.bind_some, fromLe_toLe hs]
  rw [hnumber.slice (by rw [length_toLe])]
  simp only [Option.bind_some, hn]
  rw [if_neg (by omega), hoffset.slice (by rw [length_toLe])]
  simp only [Option.bind_some, hword]

/-- Past the last block there is none. -/
theorem blockAt_write_none (hfits : Fits rows) (hheld : Held (sealed rows) bs) (hcut : Cut rows bs)
    (c : Field) {k : ℕ} (hk : bs.length ≤ k) : (opened rows).blockAt c k = none := by
  obtain ⟨s, hs, htable, hnumber, -, -⟩ := section_write hfits hheld hcut c
  have hcount := (blocks_le hcut).trans_lt hfits.count
  have hn : fromLe (toLe 4 bs.length) = bs.length := fromLe_toLe (by omega)
  unfold ColumnBlocks.blockAt
  dsimp only
  rw [Nat.mul_comm c.index, htable.slice (by rw [length_toLe])]
  simp only [opened, Option.bind_eq_bind, Option.bind_some, fromLe_toLe hs]
  rw [hnumber.slice (by rw [length_toLe])]
  simp only [Option.bind_some, hn]
  rw [if_pos hk]
  rfl

/-! ## Reading back -/

/-- A block's parts in the file. -/
theorem code_at {s : Str} {i : ℕ} {lo hi : Int64} {bits : ℕ} {packed : Str}
    (h : At s i (i64Le lo ++ i64Le hi ++ UInt8.ofNat bits :: packed)) :
    slice s i (i + 8) = some (i64Le lo) ∧ slice s (i + 8) (i + 16) = some (i64Le hi) ∧
      s[i + 16]? = some (UInt8.ofNat bits) ∧ i + 17 ≤ s.length ∧
        ∃ rest, s.drop (i + 17) = packed ++ rest := by
  have hlo : (i64Le lo).length = 8 := length_toLe _ _
  have hhi : (i64Le hi).length = 8 := length_toLe _ _
  rw [List.append_assoc] at h
  have hbits := (h.right (j := i + 8) (by rw [hlo])).right (j := i + 16) (by rw [hhi])
  have hle := hbits.le
  rw [List.length_cons] at hle
  exact ⟨h.left.slice (by rw [hlo]), (h.right (j := i + 8) (by rw [hlo])).left.slice (by rw [hhi]),
    hbits.getElem?, by omega, hbits.tail.drop⟩

/-- A block in the file, and what it says. -/
theorem block_write (hfits : Fits rows) (hheld : Held (sealed rows) bs) (hcut : Cut rows bs)
    (c : Field) {k : ℕ} (hk : k * BLOCK < rows.length) : ∃ at_ lo hi bits packed,
    (opened rows).blockAt c k = some at_ ∧
      At (write rows) at_ (i64Le lo ++ i64Le hi ++ UInt8.ofNat bits :: packed) ∧
      IsRange (((rows.drop (k * BLOCK)).take BLOCK).map fun r => r c) lo hi ∧ bits ≤ 64 ∧
      ∀ (rest : Str) (i : ℕ) (r : Row), i < BLOCK → rows[k * BLOCK + i]? = some r →
        (unpackOne (packed ++ rest) bits i).map (fun raw => lo + (UInt64.ofNat raw).toInt64) =
          some (r c) := by
  have hlt := (hcut.lt_iff k).mpr hk
  have hget := List.getElem?_eq_getElem hlt
  obtain ⟨at_, hat, hcode⟩ := blockAt_write hfits hheld hcut c hget
  have heq := hcut.eq k _ hget
  rw [heq] at hcode
  have hne : ((rows.drop (k * BLOCK)).take BLOCK).map (fun r => r c) ≠ [] := by
    have hpos : 0 < BLOCK := Nat.zero_lt_succ 31
    refine List.ne_nil_of_length_pos ?_
    rw [List.length_map, List.length_take, List.length_drop]
    omega
  obtain ⟨lo, hi, bits, hencode, hrange, hbits, hsmall⟩ := encodeBlock_spec hne
  unfold code at hcode
  rw [hencode] at hcode
  refine ⟨at_, lo, hi, bits, _, hat, hcode, hrange, hbits, fun rest i r hi hr => ?_⟩
  have hvalue : ((((rows.drop (k * BLOCK)).take BLOCK).map fun r => r c).map (above lo))[i]? =
      some (above lo (r c)) := by
    rw [List.getElem?_map, List.getElem?_map, List.getElem?_take_of_lt hi, List.getElem?_drop, hr]
    rfl
  rw [unpackOne_pack hbits hsmall rest hvalue, Option.map_some, add_above]

/-- What the columns of a file that fits say. -/
theorem columns_read (rows : List Row) (hfits : Fits rows) :
    ∃ b, ColumnBlocks.open_ (write rows) = some b ∧
      (∀ c row, b.get c row = (rows[row]?).map fun r => r c) ∧
      ∀ c k, (k * BLOCK < rows.length → ∃ lo hi, b.blockRange c k = some (lo, hi) ∧
          IsRange (((rows.drop (k * BLOCK)).take BLOCK).map fun r => r c) lo hi) ∧
        (rows.length ≤ k * BLOCK → b.blockRange c k = none) := by
  have hB : BLOCK = 32 := rfl
  obtain ⟨bs, hheld, -, hcut⟩ := sealed_held rows
  refine ⟨opened rows, ?_, fun c row => ?_, fun c k => ⟨fun hk => ?_, fun hk => ?_⟩⟩
  · rw [open_write, Nat.mod_eq_of_lt hfits.count]
    rfl
  · unfold ColumnBlocks.get
    by_cases hrow : row < rows.length
    · obtain ⟨at_, lo, hi, bits, packed, hat, hcode, -, hbits, hvalue⟩ :=
        block_write hfits hheld hcut c (k := row / BLOCK) (by rw [hB]; omega)
      obtain ⟨hlo, -, hbyte, hlen, rest, hrest⟩ := code_at hcode
      have hr := List.getElem?_eq_getElem hrow
      have hone := hvalue rest (row % BLOCK) rows[row] (Nat.mod_lt _ (by rw [hB]; decide))
        (by rw [Nat.mul_comm, Nat.div_add_mod, hr])
      have hbits' : (UInt8.ofNat bits).toNat = bits := by
        rw [UInt8.toNat_ofNat', Nat.mod_eq_of_lt (by omega)]
      obtain ⟨raw, hraw, hsum⟩ := Option.map_eq_some_iff.mp hone
      have hcount : ¬ (opened rows).rows ≤ row := not_le.mpr hrow
      rw [if_neg hcount, hat, hr]
      simp only [opened, Option.bind_eq_bind, Option.bind_some, hlo, hbyte, i64FromLe_i64Le]
      rw [if_neg (by omega), hrest, hbits', hraw]
      exact congrArg some hsum
    · have hcount : (opened rows).rows ≤ row := not_lt.mp hrow
      rw [if_pos hcount, List.getElem?_eq_none (not_lt.mp hrow)]
      rfl
  · obtain ⟨at_, lo, hi, bits, packed, hat, hcode, hrange, -⟩ :=
      block_write hfits hheld hcut c hk
    obtain ⟨hlo, hhi, -⟩ := code_at hcode
    refine ⟨lo, hi, ?_, hrange⟩
    unfold ColumnBlocks.blockRange
    rw [hat]
    simp only [opened, Option.bind_eq_bind, Option.bind_some, hlo, hhi, i64FromLe_i64Le]
  · have hnone := blockAt_write_none hfits hheld hcut c
      (not_lt.mp fun hlt => absurd ((hcut.lt_iff k).mp hlt) (by omega))
    unfold ColumnBlocks.blockRange
    rw [hnone]
    rfl

/-- A row of both extremes is given back. -/
theorem columns_read_extremes : ∃ b,
    ColumnBlocks.open_ (write [fun _ => Int64.minValue, fun _ => Int64.maxValue]) = some b ∧
      b.get .mtime 1 = some Int64.maxValue := by
  obtain ⟨b, hopen, hget, -⟩ := columns_read [fun _ => Int64.minValue, fun _ => Int64.maxValue]
    ⟨by decide, fun c => by cases c <;> decide +kernel⟩
  exact ⟨b, hopen, hget .mtime 1⟩

/-- With more rows than 32 bits count, a value is not found. -/
theorem not_columns_read : ∃ rows : List Row, ∃ b, ColumnBlocks.open_ (write rows) = some b ∧
    rows[0]? ≠ none ∧ b.get .size 0 = none := by
  refine ⟨List.replicate (2 ^ 32) fun _ => 0, _, open_write _, ?_, ?_⟩
  · rw [List.getElem?_replicate, if_pos (by decide)]
    exact Option.some_ne_none _
  · unfold ColumnBlocks.get
    rw [List.length_replicate, Nat.mod_self, if_pos (Nat.le_refl 0)]
    rfl

end Scour.Columns
