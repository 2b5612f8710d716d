import Mathlib.Data.Nat.Bitwise

/-!
# Bytes at their places

`slice s i j` is a part of a list, where the list has it; `At s i x` says that `x` stands at `i`, and
takes a concatenation apart (`At.append`), so that a reader of nested records is followed field by
field.  `toLe` and `fromLe` are little-endian numbers.
-/

namespace Search

variable {α : Type*}

/-- `s[i..j]`, which is an error where `s` does not have it. -/
def slice (s : List α) (i j : Nat) : Option (List α) :=
  if i ≤ j ∧ j ≤ s.length then some ((s.drop i).take (j - i)) else none

theorem slice_of_le {s : List α} {i j : Nat} (hij : i ≤ j) (hj : j ≤ s.length) :
    ∃ x, slice s i j = some x ∧ x.length = j - i := by
  refine ⟨(s.drop i).take (j - i), if_pos ⟨hij, hj⟩, ?_⟩
  rw [List.length_take, List.length_drop]
  omega

/-- Here stands this. -/
def At (s : List α) (i : Nat) (x : List α) : Prop := ∃ pre post, s = pre ++ x ++ post ∧ pre.length = i

namespace At

variable {s x y : List α} {i : Nat}

theorem append (h : At s i (x ++ y)) : At s i x ∧ At s (i + x.length) y := by
  obtain ⟨pre, post, rfl, rfl⟩ := h
  exact ⟨⟨pre, y ++ post, by simp, rfl⟩, ⟨pre ++ x, post, by simp, by simp⟩⟩

theorem left (h : At s i (x ++ y)) : At s i x := h.append.1

theorem right (h : At s i (x ++ y)) {j : Nat} (hj : j = i + x.length) : At s j y := by
  rw [hj]
  exact h.append.2

theorem tail {a : α} (h : At s i (a :: x)) : At s (i + 1) x := by
  obtain ⟨pre, post, rfl, rfl⟩ := h
  exact ⟨pre ++ [a], post, by simp, by simp⟩

theorem le (h : At s i x) : i + x.length ≤ s.length := by
  obtain ⟨pre, post, rfl, rfl⟩ := h
  simp

theorem slice (h : At s i x) {j : Nat} (hj : j = i + x.length) : slice s i j = some x := by
  have hle := h.le
  obtain ⟨pre, post, rfl, rfl⟩ := h
  unfold Search.slice
  rw [if_pos ⟨by omega, by omega⟩, List.append_assoc, List.drop_left' rfl, List.take_left' (by omega)]

theorem getElem? {a : α} (h : At s i (a :: x)) : s[i]? = some a := by
  obtain ⟨pre, post, rfl, rfl⟩ := h
  simp

theorem within (h : At s i x) {j : Nat} (hy : At x j y) : At s (i + j) y := by
  obtain ⟨pre, post, rfl, rfl⟩ := h
  obtain ⟨pre', post', rfl, rfl⟩ := hy
  exact ⟨pre ++ pre', post' ++ post, by simp, by simp⟩

theorem drop (h : At s i x) : ∃ post, s.drop i = x ++ post := by
  obtain ⟨pre, post, rfl, rfl⟩ := h
  exact ⟨post, by rw [List.append_assoc, List.drop_left' rfl]⟩

end At

/-- Each piece of a concatenation, behind those before it. -/
theorem at_flatMap {β : Type*} {g : β → List α} {bs : List β} {k : Nat} {b : β} (h : bs[k]? = some b) :
    At (bs.flatMap g) ((bs.take k).flatMap g).length (g b) := by
  obtain ⟨hk, hb⟩ := List.getElem?_eq_some_iff.mp h
  refine ⟨(bs.take k).flatMap g, (bs.drop (k + 1)).flatMap g, ?_, rfl⟩
  conv_lhs => rw [← List.take_append_drop k bs, List.drop_eq_getElem_cons hk, hb]
  simp

theorem at_zero (s : List α) : At s 0 s := ⟨[], [], by simp, rfl⟩

/-! ## Little-endian numbers -/

def toLe : Nat → Nat → List UInt8
  | 0, _ => []
  | k + 1, n => UInt8.ofNat n :: toLe k (n / 256)

def fromLe : List UInt8 → Nat
  | [] => 0
  | b :: s => b.toNat + 256 * fromLe s

@[simp] theorem length_toLe (k n : Nat) : (toLe k n).length = k := by
  induction k generalizing n with
  | zero => rfl
  | succ k ih => rw [toLe, List.length_cons, ih]

theorem fromLe_toLe {k n : Nat} (h : n < 256 ^ k) : fromLe (toLe k n) = n := by
  induction k generalizing n with
  | zero =>
    rw [Nat.pow_zero] at h
    rw [toLe, fromLe]
    omega
  | succ k ih =>
    have hdiv : n / 256 < 256 ^ k := Nat.div_lt_of_lt_mul (by rwa [Nat.pow_succ, Nat.mul_comm] at h)
    rw [toLe, fromLe, ih hdiv, UInt8.toNat_ofNat']
    omega

/-- Bytes are the digits of their number. -/
theorem toLe_fromLe (s : List UInt8) : toLe s.length (fromLe s) = s := by
  induction s with
  | nil => rfl
  | cons b s ih =>
    have hb := b.toNat_lt
    have hdiv : (b.toNat + 256 * fromLe s) / 256 = fromLe s := by omega
    have hmod : UInt8.ofNat (b.toNat + 256 * fromLe s) = b := by
      apply UInt8.toNat_inj.mp
      rw [UInt8.toNat_ofNat']
      omega
    rw [List.length_cons, fromLe, toLe, hdiv, hmod, ih]

theorem fromLe_lt (s : List UInt8) : fromLe s < 256 ^ s.length := by
  induction s with
  | nil => simp [fromLe]
  | cons b s ih =>
    have hb := b.toNat_lt
    rw [fromLe, List.length_cons, Nat.pow_succ]
    omega

end Search
