import Mathlib.Data.List.Sort
import Mathlib.Order.Lattice
import Scour.Saved

/-!
# What a window remembers, merged

`Merges target patch result` says what RFC 7386 asks of a merge-patch, name by name, and
`Value.merge` is one (`merges_merge`), the only one when the names of an object are in order
(`Merges.unique`).  Merging a second time changes nothing (`merge_merge`), and two patches that are
`Apart`, which write under no common name, can be merged in either order (`merge_comm`).

A change is folded into the stored view one frontend at a time, each through `Value.merge`, and
there a `null` is stored under the frontend's name, not taken as its removal.  `view_merged_iff` says
that the fold is the merge-patch of the whole view exactly for a change with no such `null`.
-/

namespace Scour

open Search

/-! ## Lists of keys and values, in the order of the keys -/

section Maps

variable {α : Type}

/-- A map: its keys increase. -/
def InOrder (m : List (Str × α)) : Prop := (m.map Prod.fst).Pairwise (· < ·)

theorem getKey_cons (k : Str) (e : Str × α) (m : List (Str × α)) :
    getKey k (e :: m) = if e.1 = k then some e.2 else getKey k m := by
  unfold getKey
  by_cases h : e.1 = k
  · simp [h]
  · simp [h]

theorem getKey_setKey (j k : Str) (v : α) (m : List (Str × α)) :
    getKey j (setKey k v m) = if k = j then some v else getKey j m := by
  induction m with
  | nil => simp [setKey, getKey]
  | cons e m ih =>
    obtain ⟨l, w⟩ := e
    unfold setKey
    split
    · rename_i hkl
      subst hkl
      rw [getKey_cons, getKey_cons]
      by_cases h : k = j
      · simp [h]
      · simp [h]
    · split
      · rw [getKey_cons]
      · rename_i hkl _
        rw [getKey_cons, ih, getKey_cons]
        by_cases hl : l = j
        · have hkj : ¬ k = j := fun h => hkl (h.trans hl.symm)
          simp [hl, hkj]
        · simp [hl]

theorem getKey_dropKey (j k : Str) (m : List (Str × α)) :
    getKey j (dropKey k m) = if k = j then none else getKey j m := by
  induction m with
  | nil => simp [dropKey, getKey]
  | cons e m ih =>
    have hcons : dropKey k (e :: m) = if e.1 = k then dropKey k m else e :: dropKey k m := by
      unfold dropKey
      by_cases h : e.1 = k
      · simp [h]
      · simp [h]
    rw [hcons]
    split
    · rename_i hek
      rw [ih, getKey_cons]
      by_cases h : k = j
      · simp [h]
      · simp [h, hek]
    · rename_i hek
      rw [getKey_cons, ih, getKey_cons]
      by_cases hj : e.1 = j
      · have hkj : ¬ k = j := fun h => hek (hj.trans h.symm)
        simp [hj, hkj]
      · simp [hj]

theorem mem_keys_setKey {j k : Str} {v : α} {m : List (Str × α)}
    (h : j ∈ (setKey k v m).map Prod.fst) : j = k ∨ j ∈ m.map Prod.fst := by
  induction m with
  | nil => simpa [setKey] using h
  | cons e m ih =>
    unfold setKey at h
    split at h
    · rename_i hk
      simpa [hk] using h
    · split at h
      · simpa using h
      · rcases List.mem_cons.mp h with h | h
        · exact Or.inr (by simp [h])
        · rcases ih h with h | h
          · exact Or.inl h
          · exact Or.inr (List.mem_cons_of_mem _ h)

theorem InOrder.setKey {m : List (Str × α)} (h : InOrder m) (k : Str) (v : α) :
    InOrder (setKey k v m) := by
  induction m with
  | nil => simp [InOrder, Scour.setKey]
  | cons e m ih =>
    obtain ⟨hhead, htail⟩ := List.pairwise_cons.mp h
    unfold Scour.setKey
    split
    · rename_i hk
      subst hk
      exact List.pairwise_cons.mpr ⟨hhead, htail⟩
    · split
      · rename_i hlt
        refine List.pairwise_cons.mpr ⟨fun a ha => ?_, h⟩
        rcases List.mem_cons.mp ha with rfl | ha
        · exact hlt
        · exact hlt.trans (hhead a ha)
      · rename_i hne hnlt
        refine List.pairwise_cons.mpr ⟨fun a ha => ?_, ih htail⟩
        rcases mem_keys_setKey ha with rfl | ha
        · exact lt_of_le_of_ne (not_lt.mp hnlt) fun h => hne h.symm
        · exact hhead a ha

theorem InOrder.dropKey {m : List (Str × α)} (h : InOrder m) (k : Str) : InOrder (dropKey k m) :=
  List.Pairwise.sublist (List.filter_sublist.map _) h

theorem InOrder.tail {e : Str × α} {m : List (Str × α)} (h : InOrder (e :: m)) : InOrder m :=
  (List.pairwise_cons.mp h).2

theorem mem_of_getKey {k : Str} {v : α} {m : List (Str × α)} (h : getKey k m = some v) :
    (k, v) ∈ m := by
  induction m with
  | nil => simp [getKey] at h
  | cons e m ih =>
    rw [getKey_cons] at h
    split at h
    · rename_i hk
      obtain rfl := Option.some.inj h
      rw [← hk]
      exact List.mem_cons_self
    · exact List.mem_cons_of_mem _ (ih h)

theorem InOrder.head_lt {e : Str × α} {m : List (Str × α)} (h : InOrder (e :: m)) {k : Str} {v : α}
    (hk : getKey k m = some v) : e.1 < k :=
  (List.pairwise_cons.mp h).1 k (List.mem_map_of_mem (mem_of_getKey hk))

/-- The first key of a map is no later one's. -/
theorem InOrder.getKey_tail {e : Str × α} {m : List (Str × α)} (h : InOrder (e :: m)) :
    getKey e.1 m = none := by
  cases hk : getKey e.1 m with
  | none => rfl
  | some v => exact absurd (h.head_lt hk) (lt_irrefl _)

theorem getKey_of_mem {m : List (Str × α)} (h : InOrder m) {e : Str × α} (he : e ∈ m) :
    getKey e.1 m = some e.2 := by
  induction m with
  | nil => cases he
  | cons f m ih =>
    rw [getKey_cons]
    rcases List.mem_cons.mp he with rfl | he
    · simp
    · have hlt := h.head_lt (ih h.tail he)
      rw [if_neg hlt.ne]
      exact ih h.tail he

/-- A map is what its keys find. -/
theorem InOrder.ext {m n : List (Str × α)} (hm : InOrder m) (hn : InOrder n)
    (h : ∀ k, getKey k m = getKey k n) : m = n := by
  induction m generalizing n with
  | nil =>
    cases n with
    | nil => rfl
    | cons f n => simpa [getKey_cons, getKey] using h f.1
  | cons e m ih =>
    cases n with
    | nil => simpa [getKey_cons, getKey] using h e.1
    | cons f n =>
      have hee : getKey e.1 (f :: n) = some e.2 := by rw [← h e.1, getKey_cons, if_pos rfl]
      have hff : getKey f.1 (e :: m) = some f.2 := by rw [h f.1, getKey_cons, if_pos rfl]
      -- the smaller of the two first keys is found in both
      have hkey : e.1 = f.1 := by
        rcases lt_trichotomy e.1 f.1 with hlt | heq | hgt
        · rw [getKey_cons, if_neg hlt.ne'] at hee
          exact absurd (hn.head_lt hee) (lt_asymm hlt)
        · exact heq
        · rw [getKey_cons, if_neg hgt.ne'] at hff
          exact absurd (hm.head_lt hff) (lt_asymm hgt)
      have hval : e = f := by
        rw [getKey_cons, if_pos hkey.symm] at hee
        exact Prod.ext hkey (Option.some.inj hee).symm
      subst hval
      congr 1
      refine ih hm.tail hn.tail fun k => ?_
      by_cases hk : e.1 = k
      · rw [← hk, hm.getKey_tail, hn.getKey_tail]
      · have := h k
        rwa [getKey_cons, getKey_cons, if_neg hk, if_neg hk] at this

end Maps

/-! ## The merge-patch -/

namespace Value

def isObject : Value → Bool
  | .object _ => true
  | _ => false

/-- What holds of an object when it holds of its members, and of all else, holds of every value. -/
theorem byMembers {P : Value → Prop} (hother : ∀ v, v.isObject = false → P v)
    (hobject : ∀ fields, (∀ e ∈ fields, P e.2) → P (.object fields)) : ∀ v, P v
  | .object fields =>
      hobject fields fun e he =>
        have : sizeOf e.2 < 1 + sizeOf fields := by
          have hmem := List.sizeOf_lt_of_mem he
          have hsnd : sizeOf e.2 < sizeOf e := by
            obtain ⟨k, v⟩ := e
            simp only [Prod.mk.sizeOf_spec]
            omega
          omega
        byMembers hother hobject e.2
  | .null => hother _ rfl
  | .bool _ => hother _ rfl
  | .number _ => hother _ rfl
  | .string _ => hother _ rfl
  | .array _ => hother _ rfl
termination_by v => sizeOf v

/-- The keys of every object in it are in order. -/
inductive Ordered : Value → Prop
  | null : Ordered .null
  | bool (b : Bool) : Ordered (.bool b)
  | number (text : Str) : Ordered (.number text)
  | string (text : Str) : Ordered (.string text)
  | array {items : List Value} (hitems : ∀ v ∈ items, Ordered v) : Ordered (.array items)
  | object {fields : List (Str × Value)} (hkeys : InOrder fields)
      (hmembers : ∀ e ∈ fields, Ordered e.2) : Ordered (.object fields)

theorem Ordered.inOrder {fields : List (Str × Value)} (h : Ordered (.object fields)) :
    InOrder fields := by
  cases h with
  | object hkeys _ => exact hkeys

theorem Ordered.member {fields : List (Str × Value)} (h : Ordered (.object fields)) {k : Str}
    {v : Value} (hk : getKey k fields = some v) : Ordered v := by
  cases h with
  | object _ hmembers => exact hmembers (k, v) (mem_of_getKey hk)

/-- What a patch is merged into at a name: what stands there, or nothing. -/
def at_ (k : Str) (fields : List (Str × Value)) : Value := (getKey k fields).getD .null

theorem Ordered.at_ {v : Value} (h : Ordered v) (k : Str) : Ordered (at_ k v.fields) := by
  unfold Value.at_
  cases hk : getKey k v.fields with
  | none => exact Ordered.null
  | some w =>
    cases v with
    | object fields => exact h.member hk
    | null | bool | number | string | array => simp [fields, getKey] at hk

theorem Ordered.fields {v : Value} (h : Ordered v) : InOrder v.fields := by
  cases h with
  | object hkeys _ => exact hkeys
  | null | bool | number | string | array => exact List.Pairwise.nil

/-- A `null` is the one value that a name cannot be given by a patch. -/
theorem isNull_iff {v : Value} : v.isNull = true ↔ v = .null := by
  cases v with
  | null => simp [isNull]
  | bool | number | string | array | object => simp [isNull]

/-- What RFC 7386 asks of a merge: a patch that is no object replaces what was there; one that is
leaves a name it does not mention, removes one it gives `null`, and merges what it gives otherwise
into what the target had under the name, a target that is no object having nothing. -/
inductive Merges : Value → Value → Value → Prop
  | replace {target patch : Value} (hpatch : patch.isObject = false) : Merges target patch patch
  | members {target : Value} {patch result : List (Str × Value)} (merged : Str → Value)
      (hkept : ∀ k, getKey k patch = none → getKey k result = getKey k target.fields)
      (hremoved : ∀ k, getKey k patch = some .null → getKey k result = none)
      (hset : ∀ k v, getKey k patch = some v → v ≠ .null → getKey k result = some (merged k))
      (hmerged : ∀ k v, getKey k patch = some v → v ≠ .null →
        Merges (at_ k target.fields) v (merged k)) :
      Merges target (.object patch) (.object result)

theorem Merges.removed {target : Value} {patch result : List (Str × Value)}
    (h : Merges target (.object patch) (.object result)) {k : Str}
    (hk : getKey k patch = some .null) : getKey k result = none := by
  cases h with
  | replace hpatch => simp [isObject] at hpatch
  | members _ _ hremoved _ _ => exact hremoved k hk

theorem merge_object (into : Value) (patch : List (Str × Value)) :
    merge into (.object patch) = .object (mergeFields into.fields patch) := by
  unfold merge
  rfl

theorem merge_of_not_object {into patch : Value} (h : patch.isObject = false) :
    merge into patch = patch := by
  cases patch with
  | object fields => simp [isObject] at h
  | null | bool | number | string | array => simp [merge]

theorem mergeFields_cons (slot : List (Str × Value)) (k : Str) (v : Value)
    (patch : List (Str × Value)) :
    mergeFields slot ((k, v) :: patch) =
      mergeFields (if v.isNull then dropKey k slot else setKey k (merge (at_ k slot) v) slot)
        patch := by
  rw [mergeFields]
  unfold at_
  split
  · rfl
  · rfl

/-- What stands under a name after a merge. -/
theorem getKey_mergeFields {patch : List (Str × Value)} (hpatch : InOrder patch)
    (slot : List (Str × Value)) (k : Str) :
    getKey k (mergeFields slot patch) =
      match getKey k patch with
      | none => getKey k slot
      | some v => if v.isNull then none else some (merge (at_ k slot) v) := by
  induction patch generalizing slot with
  | nil => simp [mergeFields, getKey]
  | cons e patch ih =>
    obtain ⟨j, w⟩ := e
    rw [mergeFields_cons, ih hpatch.tail, getKey_cons]
    by_cases hjk : j = k
    · subst hjk
      have hnone : getKey j patch = none := hpatch.getKey_tail
      rw [hnone, if_pos rfl]
      by_cases hw : w.isNull = true
      · simp only [if_pos hw, getKey_dropKey, if_true]
      · simp only [if_neg hw, getKey_setKey, if_true]
    · rw [if_neg hjk]
      have hslot : getKey k (if w.isNull then dropKey j slot
          else setKey j (merge (at_ j slot) w) slot) = getKey k slot := by
        split
        · rw [getKey_dropKey, if_neg hjk]
        · rw [getKey_setKey, if_neg hjk]
      have hat : at_ k (if w.isNull then dropKey j slot
          else setKey j (merge (at_ j slot) w) slot) = at_ k slot := by
        simp only [at_] at hslot ⊢
        rw [hslot]
      simp only [hslot, hat]

theorem inOrder_mergeFields (patch : List (Str × Value)) {slot : List (Str × Value)}
    (hslot : InOrder slot) : InOrder (mergeFields slot patch) := by
  induction patch generalizing slot with
  | nil => simpa [mergeFields] using hslot
  | cons e patch ih =>
    obtain ⟨j, w⟩ := e
    rw [mergeFields_cons]
    apply ih
    split
    · exact hslot.dropKey j
    · exact hslot.setKey j _

/-- The code's merge is what RFC 7386 asks for. -/
theorem merges_merge {patch : Value} (hpatch : Ordered patch) (target : Value) :
    Merges target patch (merge target patch) := by
  induction patch using byMembers generalizing target with
  | hother v h =>
    rw [merge_of_not_object h]
    exact Merges.replace h
  | hobject fields ih =>
    rw [merge_object]
    have hget := getKey_mergeFields hpatch.inOrder target.fields
    have hne {v : Value} (hv : v ≠ .null) : v.isNull = false := by
      rw [← Bool.not_eq_true, isNull_iff]
      exact hv
    refine Merges.members (fun k => merge (at_ k target.fields) (at_ k fields)) ?_ ?_ ?_ ?_
    · intro k hk
      rw [hget, hk]
    · intro k hk
      rw [hget, hk]
      rfl
    · intro k v hk hv
      rw [hget, hk]
      simp [hne hv, at_, hk]
    · intro k v hk hv
      have hat : at_ k fields = v := by simp [at_, hk]
      rw [hat]
      exact ih (k, v) (mem_of_getKey hk) (hpatch.member hk) _

theorem ordered_merge {target patch : Value} (htarget : Ordered target) (hpatch : Ordered patch) :
    Ordered (merge target patch) := by
  induction patch using byMembers generalizing target with
  | hother v h =>
    rw [merge_of_not_object h]
    exact hpatch
  | hobject fields ih =>
    rw [merge_object]
    have hkeys := inOrder_mergeFields fields htarget.fields
    refine Ordered.object hkeys fun e he => ?_
    have hget := getKey_of_mem hkeys he
    rw [getKey_mergeFields hpatch.inOrder] at hget
    cases hk : getKey e.1 fields with
    | none =>
      simp only [hk] at hget
      have := htarget.at_ e.1
      rwa [at_, hget] at this
    | some v =>
      simp only [hk] at hget
      split at hget
      · cases hget
      · rw [← Option.some.inj hget]
        exact ih (e.1, v) (mem_of_getKey hk) (htarget.at_ e.1) (hpatch.member hk)

/-- Only one value is the merge, its names being in order. -/
theorem Merges.unique {target patch a b : Value} (ha : Merges target patch a)
    (hb : Merges target patch b) (hao : Ordered a) (hbo : Ordered b) : a = b := by
  induction ha generalizing b with
  | replace h =>
    cases hb with
    | replace _ => rfl
    | members _ _ _ _ _ => simp [isObject] at h
  | members merged hkept hremoved hset hmerged ih =>
    rename_i target patch result
    cases hb with
    | replace h => simp [isObject] at h
    | members merged' hkept' hremoved' hset' hmerged' =>
      rename_i result'
      congr 1
      refine hao.inOrder.ext hbo.inOrder fun k => ?_
      cases hk : getKey k patch with
      | none => rw [hkept k hk, hkept' k hk]
      | some v =>
        by_cases hv : v = .null
        · subst hv
          rw [hremoved k hk, hremoved' k hk]
        · have hr := hset k v hk hv
          have hr' := hset' k v hk hv
          rw [hr, hr', ih k v hk hv (hmerged' k v hk hv) (hao.member hr) (hbo.member hr')]

/-! ### Merging again, and in another order -/

theorem at_mergeFields {patch : List (Str × Value)} (hpatch : InOrder patch)
    (slot : List (Str × Value)) (k : Str) :
    at_ k (mergeFields slot patch) =
      match getKey k patch with
      | none => at_ k slot
      | some v => merge (at_ k slot) v := by
  unfold at_
  rw [getKey_mergeFields hpatch]
  cases hk : getKey k patch with
  | none => rfl
  | some v =>
    by_cases hv : v.isNull = true
    · rw [isNull_iff] at hv
      subst hv
      rfl
    · simp only [if_neg hv]
      rfl

theorem merge_merge {target patch : Value} (htarget : Ordered target) (hpatch : Ordered patch) :
    merge (merge target patch) patch = merge target patch := by
  induction patch using byMembers generalizing target with
  | hother v h => rw [merge_of_not_object h, merge_of_not_object h]
  | hobject fields ih =>
    rw [merge_object, merge_object]
    congr 1
    have hkeys := inOrder_mergeFields fields htarget.fields
    refine InOrder.ext (inOrder_mergeFields fields hkeys) hkeys fun k => ?_
    show getKey k (mergeFields (mergeFields target.fields fields) fields) = _
    rw [getKey_mergeFields hpatch.inOrder (mergeFields target.fields fields),
      at_mergeFields hpatch.inOrder]
    cases hk : getKey k fields with
    | none => rfl
    | some v =>
      have htwice := ih (k, v) (mem_of_getKey hk) (htarget.at_ k) (hpatch.member hk)
      simp only [getKey_mergeFields hpatch.inOrder, hk, htwice]

/-- Two patches that write under no common name. -/
inductive Apart : Value → Value → Prop
  | members {f g : List (Str × Value)}
      (hcommon : ∀ k v w, getKey k f = some v → getKey k g = some w → Apart v w) :
      Apart (.object f) (.object g)

theorem Apart.not_null {v w : Value} (h : Apart v w) : v.isNull = false ∧ w.isNull = false := by
  cases h with
  | members _ => exact ⟨rfl, rfl⟩

theorem merge_comm {target p q : Value} (h : Apart p q) (htarget : Ordered target)
    (hp : Ordered p) (hq : Ordered q) :
    merge (merge target p) q = merge (merge target q) p := by
  induction h generalizing target with
  | members hcommon ih =>
    rename_i f g
    simp only [merge_object]
    congr 1
    refine InOrder.ext (inOrder_mergeFields _ (inOrder_mergeFields _ htarget.fields))
      (inOrder_mergeFields _ (inOrder_mergeFields _ htarget.fields)) fun k => ?_
    show getKey k (mergeFields (mergeFields target.fields f) g) =
      getKey k (mergeFields (mergeFields target.fields g) f)
    rw [getKey_mergeFields hq.inOrder, getKey_mergeFields hp.inOrder, at_mergeFields hp.inOrder,
      getKey_mergeFields hp.inOrder, getKey_mergeFields hq.inOrder, at_mergeFields hq.inOrder]
    cases hf : getKey k f with
    | none =>
      cases hg : getKey k g with
      | none => rfl
      | some w => rfl
    | some v =>
      cases hg : getKey k g with
      | none => rfl
      | some w =>
        obtain ⟨hv, hw⟩ := (hcommon k v w hf hg).not_null
        have hswap := ih k v w hf hg (htarget.at_ k) (hp.member hf) (hq.member hg)
        simp only [hv, hw, hswap]

/-! ### No `null` is stored -/

/-- No member of an object in it is `null`; an array is looked into when `deep`. -/
inductive NullFree (deep : Bool) : Value → Prop
  | null : NullFree deep .null
  | bool (b : Bool) : NullFree deep (.bool b)
  | number (text : Str) : NullFree deep (.number text)
  | string (text : Str) : NullFree deep (.string text)
  | array {items : List Value} (hitems : deep = true → ∀ v ∈ items, NullFree deep v) :
      NullFree deep (.array items)
  | object {fields : List (Str × Value)} (hset : ∀ e ∈ fields, e.2 ≠ .null)
      (hmembers : ∀ e ∈ fields, NullFree deep e.2) : NullFree deep (.object fields)

/-- The arrays of a patch, which a merge puts in place as they are, are free of `null` members. -/
inductive ArraysFree (deep : Bool) : Value → Prop
  | other {v : Value} (hother : v.isObject = false) (hfree : NullFree deep v) : ArraysFree deep v
  | object {fields : List (Str × Value)} (hmembers : ∀ e ∈ fields, ArraysFree deep e.2) :
      ArraysFree deep (.object fields)

theorem arraysFree_false (patch : Value) : ArraysFree false patch := by
  induction patch using byMembers with
  | hother v h =>
    refine ArraysFree.other h ?_
    cases v with
    | null => exact NullFree.null
    | bool b => exact NullFree.bool b
    | number text => exact NullFree.number text
    | string text => exact NullFree.string text
    | array items => exact NullFree.array fun h => absurd h Bool.false_ne_true
    | object fields => simp [isObject] at h
  | hobject fields ih => exact ArraysFree.object ih

theorem merge_ne_null {target patch : Value} (h : patch ≠ .null) : merge target patch ≠ .null := by
  cases patch with
  | null => exact absurd rfl h
  | bool | number | string | array | object => simp [merge]

theorem NullFree.member {deep : Bool} {v w : Value} (h : NullFree deep v) {k : Str}
    (hk : getKey k v.fields = some w) : w ≠ .null ∧ NullFree deep w := by
  cases h with
  | object hset hmembers => exact ⟨hset (k, w) (mem_of_getKey hk), hmembers (k, w) (mem_of_getKey hk)⟩
  | null | bool | number | string | array => simp [fields, getKey] at hk

theorem NullFree.at_ {deep : Bool} {v : Value} (h : NullFree deep v) (k : Str) :
    NullFree deep (at_ k v.fields) := by
  unfold Value.at_
  cases hk : getKey k v.fields with
  | none => exact NullFree.null
  | some w => exact (h.member hk).2

theorem ArraysFree.member {deep : Bool} {fields : List (Str × Value)}
    (h : ArraysFree deep (.object fields)) {k : Str} {v : Value} (hk : getKey k fields = some v) :
    ArraysFree deep v := by
  cases h with
  | other hother _ => simp [isObject] at hother
  | object hmembers => exact hmembers (k, v) (mem_of_getKey hk)

theorem nullFree_merge {deep : Bool} {target patch : Value} (htarget : Ordered target)
    (hpatch : Ordered patch) (hfree : NullFree deep target) (harrays : ArraysFree deep patch) :
    NullFree deep (merge target patch) := by
  induction patch using byMembers generalizing target with
  | hother v h =>
    rw [merge_of_not_object h]
    cases harrays with
    | other _ hfree => exact hfree
    | object _ => simp [isObject] at h
  | hobject fields ih =>
    rw [merge_object]
    have hkeys := inOrder_mergeFields fields htarget.fields
    have hmember : ∀ e ∈ mergeFields target.fields fields, e.2 ≠ .null ∧ NullFree deep e.2 := by
      intro e he
      have hget := getKey_of_mem hkeys he
      rw [getKey_mergeFields hpatch.inOrder] at hget
      cases hk : getKey e.1 fields with
      | none =>
        simp only [hk] at hget
        exact hfree.member hget
      | some v =>
        simp only [hk] at hget
        split at hget
        · cases hget
        · rename_i hv
          rw [← Option.some.inj hget]
          exact ⟨merge_ne_null fun h => hv (isNull_iff.mpr h),
            ih (e.1, v) (mem_of_getKey hk) (htarget.at_ e.1) (hpatch.member hk) (hfree.at_ e.1)
              (harrays.member hk)⟩
    exact NullFree.object (fun e he => (hmember e he).1) fun e he => (hmember e he).2

end Value

/-! ## The stored view -/

namespace SettingsChange

open Value

/-- What `apply` does to the view: every frontend's state is merged under its name. -/
def mergeView (view change : List (Str × Value)) : List (Str × Value) :=
  change.foldl (fun view (who, what) =>
    setKey who (Value.merge ((getKey who view).getD .null) what) view) view

theorem apply_view (c : SettingsChange) (s : Saved) :
    (c.apply s).view = mergeView s.view c.view := by
  unfold apply mergeView
  cases c.remember with
  | none => rfl
  | some q =>
    simp only [Option.map_some, Option.getD_some, Saved.remember]
    split
    · rfl
    · rfl

/-- What stands under a frontend's name after the fold. -/
theorem getKey_mergeView {change : List (Str × Value)} (hchange : InOrder change)
    (view : List (Str × Value)) (k : Str) :
    getKey k (mergeView view change) =
      match getKey k change with
      | none => getKey k view
      | some w => some (merge (at_ k view) w) := by
  induction change generalizing view with
  | nil => simp [mergeView, getKey]
  | cons e change ih =>
    obtain ⟨j, w⟩ := e
    have hstep : mergeView view ((j, w) :: change) =
        mergeView (setKey j (merge (at_ j view) w) view) change := rfl
    rw [hstep, ih hchange.tail, getKey_cons]
    by_cases hjk : j = k
    · subst hjk
      simp only [hchange.getKey_tail, getKey_setKey, if_true]
    · have hview : getKey k (setKey j (merge (at_ j view) w) view) = getKey k view := by
        rw [getKey_setKey, if_neg hjk]
      have hat : at_ k (setKey j (merge (at_ j view) w) view) = at_ k view := by
        simp only [at_] at hview ⊢
        rw [hview]
      simp only [hview, hat, if_neg hjk]

theorem at_mergeView {change : List (Str × Value)} (hchange : InOrder change)
    (view : List (Str × Value)) (k : Str) :
    at_ k (mergeView view change) =
      match getKey k change with
      | none => at_ k view
      | some w => merge (at_ k view) w := by
  unfold at_
  rw [getKey_mergeView hchange]
  cases hk : getKey k change with
  | none => rfl
  | some w => rfl

theorem inOrder_mergeView (change : List (Str × Value)) {view : List (Str × Value)}
    (h : InOrder view) : InOrder (mergeView view change) := by
  induction change generalizing view with
  | nil => exact h
  | cons e change ih => exact ih (h.setKey e.1 _)

/-- What a change is to do to the stored view. -/
structure MergesView (c : SettingsChange) (s : Saved) : Prop where
  /-- The view becomes the merge-patch of itself with the change's. -/
  merges : Merges (.object s.view) (.object c.view) (.object (c.apply s).view)
  /-- No `null` is stored as a member, but in an array that the change holds one in. -/
  nullFree : ∀ deep, NullFree deep (.object s.view) → ArraysFree deep (.object c.view) →
    NullFree deep (.object (c.apply s).view)
  /-- A second time changes nothing. -/
  twice : (c.apply (c.apply s)).view = (c.apply s).view
  /-- It can change places with one that writes elsewhere. -/
  either : ∀ d : SettingsChange, Ordered (.object d.view) → Apart (.object c.view) (.object d.view) →
    (d.apply (c.apply s)).view = (c.apply (d.apply s)).view

variable {c : SettingsChange} {s : Saved}

theorem merges_apply (hchange : Ordered (.object c.view))
    (hnull : ∀ k, getKey k c.view ≠ some .null) :
    Merges (.object s.view) (.object c.view) (.object (c.apply s).view) := by
  have hget := getKey_mergeView hchange.inOrder s.view
  rw [apply_view]
  refine Merges.members (fun k => merge (at_ k s.view) (at_ k c.view)) ?_ ?_ ?_ ?_
  · intro k hk
    rw [hget, hk]
    rfl
  · intro k hk
    exact absurd hk (hnull k)
  · intro k v hk _
    rw [hget, hk]
    simp [at_, hk]
  · intro k v hk _
    have hat : at_ k c.view = v := by simp [at_, hk]
    rw [hat]
    exact merges_merge (hchange.member hk) _

/-- A `null` under a frontend's name is stored there. -/
theorem getKey_apply_null (hchange : Ordered (.object c.view)) {k : Str}
    (hk : getKey k c.view = some .null) : getKey k (c.apply s).view = some .null := by
  rw [apply_view, getKey_mergeView hchange.inOrder, hk]
  simp [merge]

theorem nullFree_apply (hstored : Ordered (.object s.view)) (hchange : Ordered (.object c.view))
    (hnull : ∀ k, getKey k c.view ≠ some .null) {deep : Bool}
    (hfree : NullFree deep (.object s.view)) (harrays : ArraysFree deep (.object c.view)) :
    NullFree deep (.object (c.apply s).view) := by
  rw [apply_view]
  have hkeys := inOrder_mergeView c.view hstored.inOrder
  have hmember : ∀ e ∈ mergeView s.view c.view, e.2 ≠ .null ∧ NullFree deep e.2 := by
    intro e he
    have hget := getKey_of_mem hkeys he
    rw [getKey_mergeView hchange.inOrder] at hget
    cases hk : getKey e.1 c.view with
    | none =>
      simp only [hk] at hget
      exact hfree.member hget
    | some v =>
      simp only [hk] at hget
      have hv : v ≠ .null := fun h => hnull e.1 (by rw [hk, h])
      rw [← Option.some.inj hget]
      exact ⟨merge_ne_null hv, nullFree_merge (hstored.at_ e.1) (hchange.member hk) (hfree.at_ e.1)
        (harrays.member hk)⟩
  exact NullFree.object (fun e he => (hmember e he).1) fun e he => (hmember e he).2

theorem apply_apply (hstored : Ordered (.object s.view)) (hchange : Ordered (.object c.view)) :
    (c.apply (c.apply s)).view = (c.apply s).view := by
  rw [apply_view, apply_view]
  have hkeys := inOrder_mergeView c.view hstored.inOrder
  refine InOrder.ext (inOrder_mergeView c.view hkeys) hkeys fun k => ?_
  rw [getKey_mergeView hchange.inOrder (mergeView s.view c.view), at_mergeView hchange.inOrder]
  cases hk : getKey k c.view with
  | none => rfl
  | some v =>
    have htwice := merge_merge (hstored.at_ k) (hchange.member hk)
    simp only [fields] at htwice
    simp only [getKey_mergeView hchange.inOrder, hk, htwice]

theorem apply_comm {d : SettingsChange} (hstored : Ordered (.object s.view))
    (hc : Ordered (.object c.view)) (hd : Ordered (.object d.view))
    (hapart : Apart (.object c.view) (.object d.view)) :
    (d.apply (c.apply s)).view = (c.apply (d.apply s)).view := by
  simp only [apply_view]
  refine InOrder.ext (inOrder_mergeView _ (inOrder_mergeView _ hstored.inOrder))
    (inOrder_mergeView _ (inOrder_mergeView _ hstored.inOrder)) fun k => ?_
  rw [getKey_mergeView hd.inOrder, getKey_mergeView hc.inOrder, at_mergeView hc.inOrder,
    getKey_mergeView hc.inOrder, getKey_mergeView hd.inOrder, at_mergeView hd.inOrder]
  cases hapart with
  | members hcommon =>
    cases hf : getKey k c.view with
    | none =>
      cases hg : getKey k d.view with
      | none => rfl
      | some w => rfl
    | some v =>
      cases hg : getKey k d.view with
      | none => rfl
      | some w =>
        have hswap := merge_comm (hcommon k v w hf hg) (hstored.at_ k) (hc.member hf) (hd.member hg)
        simp only [fields] at hswap
        simp only [hswap]

/-- A change does what it is to do to the view exactly when no frontend's whole state is given as
`null`. -/
theorem view_merged_iff (c : SettingsChange) (s : Saved) (hstored : Ordered (.object s.view))
    (hchange : Ordered (.object c.view)) :
    c.MergesView s ↔ ∀ k, getKey k c.view ≠ some .null := by
  constructor
  · intro h k hk
    have hnull : getKey k (c.apply s).view = some .null := getKey_apply_null hchange hk
    rw [h.merges.removed hk] at hnull
    cases hnull
  · intro hnull
    exact ⟨merges_apply hchange hnull,
      fun deep hfree harrays => nullFree_apply hstored hchange hnull hfree harrays,
      apply_apply hstored hchange,
      fun d hd hapart => apply_comm hstored hchange hd hapart⟩

/-- A face that gives up a panel's state, beside the size of a window. -/
def sidePanelGone : SettingsChange :=
  { view := [(str "tui", .object [(str "panel", .null), (str "size", .number (str "12"))])] }

def panelShown : Saved :=
  { Saved.unset with view := [(str "tui", .object [(str "panel", .bool true)])] }

theorem ordered_member (j k : Str) {v : Value} (h : Ordered v) :
    Ordered (.object [(j, .object [(k, v)])]) := by
  have hone (k : Str) {v : Value} (h : Ordered v) : Ordered (.object [(k, v)]) :=
    Ordered.object (by simp [InOrder]) (by simpa using h)
  exact hone j (hone k h)

theorem ordered_sidePanelGone : Ordered (.object sidePanelGone.view) := by
  refine Ordered.object (by simp [InOrder, sidePanelGone]) ?_
  simp only [sidePanelGone, List.mem_singleton, forall_eq]
  refine Ordered.object ?_ ?_
  · unfold InOrder
    decide
  · simp only [List.mem_cons, List.not_mem_nil, or_false, forall_eq_or_imp, forall_eq]
    exact ⟨Ordered.null, Ordered.number _⟩

theorem view_merged_sidePanelGone : sidePanelGone.MergesView panelShown :=
  (view_merged_iff sidePanelGone panelShown (ordered_member _ _ (Ordered.bool true))
    ordered_sidePanelGone).mpr (by
      intro k hk
      have hmem := mem_of_getKey hk
      simp [sidePanelGone] at hmem)

/-- A face that gives up all of its state. -/
def faceGone : SettingsChange := { view := [(str "tui", .null)] }

/-- The `null` stands in the stored view afterwards, under the frontend's name. -/
theorem not_view_merged_faceGone : ¬ faceGone.MergesView panelShown := by
  intro h
  have hgone := h.merges.removed (show getKey (str "tui") faceGone.view = some .null from rfl)
  have hthere : getKey (str "tui") (faceGone.apply panelShown).view = some .null := by
    simp [apply_view, mergeView, faceGone, panelShown, getKey, setKey, merge]
  rw [hthere] at hgone
  cases hgone

end SettingsChange

end Scour
