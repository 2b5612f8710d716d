import Mathlib.Tactic.Ring
import Scour.Lib.Places

/-!
# Numbers packed to a few bits

Numbers of `bits` bits each, behind one another without a gap, the lowest bit first.  `pack` writes
them out byte by byte as they come, holding fewer than eight bits back; `unpackOne` reads one of them
out of the nine bytes that its first bit stands in the first of.

The bytes are the little-endian digits of one number, `joined` (`fromLe_pack`), and a number among
the packed is what stands there between two powers of two (`joined_div_mod`).
-/

namespace Search

/-- `while held >= 8`: that many bytes of what is held, and the rest of it. -/
def drain : ℕ → ℕ → List UInt8 × ℕ
  | 0, acc => ([], acc)
  | n + 1, acc => (UInt8.ofNat acc :: (drain n (acc >>> 8)).1, (drain n (acc >>> 8)).2)

/-- The loop over the numbers, with `held` bits of `acc` not written yet. -/
def packLoop (bits : ℕ) : List ℕ → ℕ → ℕ → List UInt8
  | [], acc, held => if 0 < held then [UInt8.ofNat acc] else []
  | v :: vs, acc, held =>
      let (bytes, rest) := drain ((held + bits) / 8) (acc ||| v <<< held)
      bytes ++ packLoop bits vs rest ((held + bits) % 8)

def pack (bits : ℕ) (vs : List ℕ) : List UInt8 := if bits = 0 then [] else packLoop bits vs 0 0

/-- Bytes as one number, each shifted to its place. -/
def gather (bytes : List UInt8) : ℕ :=
  bytes.zipIdx.foldl (fun acc x => acc ||| x.1.toNat <<< (x.2 * 8)) 0

/-- The number at `i`, where the bytes start before it ends. -/
def unpackOne (bytes : List UInt8) (bits i : ℕ) : Option ℕ :=
  if bits = 0 then some 0
  else if i * bits / 8 ≤ bytes.length then
    some (gather ((bytes.drop (i * bits / 8)).take 9) >>> (i * bits % 8) % 2 ^ 64 &&&
      (if 64 ≤ bits then 2 ^ 64 - 1 else 2 ^ bits - 1))
  else none

/-! ## As one number -/

/-- Numbers of `bits` bits as the digits of one. -/
def joined (bits : ℕ) : List ℕ → ℕ
  | [] => 0
  | v :: vs => v + 2 ^ bits * joined bits vs

variable {bits : ℕ} {vs : List ℕ}

theorem joined_div_mod (h : ∀ v ∈ vs, v < 2 ^ bits) {i v : ℕ} (hv : vs[i]? = some v) :
    joined bits vs / 2 ^ (i * bits) % 2 ^ bits = v := by
  induction vs generalizing i with
  | nil => cases hv
  | cons w vs ih =>
    have hw := h w List.mem_cons_self
    have hpos : 0 < 2 ^ bits := Nat.two_pow_pos bits
    unfold joined
    cases i with
    | zero =>
      obtain rfl : w = v := Option.some.inj hv
      rw [Nat.zero_mul, Nat.pow_zero, Nat.div_one, Nat.add_mul_mod_self_left, Nat.mod_eq_of_lt hw]
    | succ i =>
      have hdiv : (w + 2 ^ bits * joined bits vs) / 2 ^ bits = joined bits vs := by
        rw [Nat.add_mul_div_left _ _ hpos, Nat.div_eq_of_lt hw, Nat.zero_add]
      rw [Nat.succ_mul, Nat.add_comm (i * bits), Nat.pow_add, ← Nat.div_div_eq_div_mul, hdiv]
      exact ih (fun u hu => h u (List.mem_cons_of_mem _ hu)) hv

theorem fromLe_append (s t : List UInt8) :
    fromLe (s ++ t) = fromLe s + 256 ^ s.length * fromLe t := by
  induction s with
  | nil => simp [fromLe]
  | cons b s ih =>
    rw [List.cons_append, fromLe, fromLe, ih, List.length_cons, Nat.pow_succ]
    ring

theorem drain_eq (n acc : ℕ) : drain n acc = (toLe n acc, acc / 256 ^ n) := by
  induction n generalizing acc with
  | zero => rw [drain, toLe, Nat.pow_zero, Nat.div_one]
  | succ n ih =>
    have hshift : acc >>> 8 = acc / 256 := Nat.shiftRight_eq_div_pow acc 8
    rw [drain, ih, toLe, hshift, Nat.div_div_eq_div_mul, Nat.pow_succ']

theorem fromLe_toLe_mod (k n : ℕ) : fromLe (toLe k n) = n % 256 ^ k := by
  induction k generalizing n with
  | zero => rw [toLe, fromLe, Nat.pow_zero, Nat.mod_one]
  | succ k ih =>
    have hbyte : (UInt8.ofNat n).toNat = n % 256 := UInt8.toNat_ofNat'
    rw [toLe, fromLe, ih, hbyte, Nat.pow_succ', Nat.mod_mul]

/-- What is held back is less than a byte, so that what is held never takes more than 72 bits; the
bytes are the digits of all the numbers together. -/
theorem fromLe_packLoop (h : ∀ v ∈ vs, v < 2 ^ bits) {acc held : ℕ} (hacc : acc < 2 ^ held)
    (hheld : held < 8) :
    fromLe (packLoop bits vs acc held) = acc + 2 ^ held * joined bits vs ∧
      (packLoop bits vs acc held).length = (held + bits * vs.length + 7) / 8 := by
  induction vs generalizing acc held with
  | nil =>
    unfold packLoop joined
    by_cases hzero : 0 < held
    · have hbyte : acc < 256 := hacc.trans (Nat.pow_lt_pow_right (by decide) hheld)
      rw [if_pos hzero, fromLe, fromLe, UInt8.toNat_ofNat', Nat.mod_eq_of_lt hbyte,
        List.length_singleton, List.length_nil]
      omega
    · obtain rfl : held = 0 := by omega
      obtain rfl : acc = 0 := by
        rw [Nat.pow_zero] at hacc
        omega
      simp [fromLe]
  | cons v vs ih =>
    have hv := h v List.mem_cons_self
    have hor : acc ||| v <<< held = acc + 2 ^ held * v := by
      rw [Nat.or_comm, Nat.shiftLeft_eq, Nat.mul_comm, ← Nat.two_pow_add_eq_or_of_lt hacc,
        Nat.add_comm]
    have hlt : acc + 2 ^ held * v < 2 ^ (held + bits) := by
      rw [Nat.pow_add]
      calc acc + 2 ^ held * v < 2 ^ held + 2 ^ held * v := Nat.add_lt_add_right hacc _
        _ = 2 ^ held * (v + 1) := by ring
        _ ≤ 2 ^ held * 2 ^ bits := Nat.mul_le_mul_left _ hv
    -- the whole bytes of it, and what is left
    have hsplit : held + bits = 8 * ((held + bits) / 8) + (held + bits) % 8 :=
      (Nat.div_add_mod _ _).symm
    have hpow : (256 : ℕ) ^ ((held + bits) / 8) = 2 ^ (8 * ((held + bits) / 8)) := by
      rw [Nat.pow_mul]
    have hrest : (acc + 2 ^ held * v) / 256 ^ ((held + bits) / 8) < 2 ^ ((held + bits) % 8) := by
      rw [hpow]
      refine Nat.div_lt_of_lt_mul ?_
      rw [← Nat.pow_add, ← hsplit]
      exact hlt
    obtain ⟨hnum, hlen⟩ := ih (fun u hu => h u (List.mem_cons_of_mem _ hu)) hrest
      (Nat.mod_lt _ (by decide))
    unfold packLoop joined
    rw [hor, drain_eq]
    dsimp only
    rw [fromLe_append, length_toLe, fromLe_toLe_mod, hnum, List.length_append, length_toLe, hlen]
    refine ⟨?_, ?_⟩
    · have hdm := Nat.div_add_mod (acc + 2 ^ held * v) (256 ^ ((held + bits) / 8))
      have hjoin : 256 ^ ((held + bits) / 8) * (2 ^ ((held + bits) % 8) * joined bits vs) =
          2 ^ held * (2 ^ bits * joined bits vs) := by
        rw [hpow, ← Nat.mul_assoc, ← Nat.pow_add, ← hsplit, Nat.pow_add, Nat.mul_assoc]
      rw [Nat.mul_add, hjoin, Nat.mul_add]
      omega
    · rw [List.length_cons, Nat.mul_succ]
      omega

theorem fromLe_pack (h : ∀ v ∈ vs, v < 2 ^ bits) : fromLe (pack bits vs) = joined bits vs ∧
    (pack bits vs).length = (bits * vs.length + 7) / 8 := by
  unfold pack
  split
  · rename_i hzero
    subst hzero
    have hall : ∀ v ∈ vs, v = 0 := fun v hv => Nat.lt_one_iff.mp (h v hv)
    refine ⟨?_, by simp⟩
    clear h
    induction vs with
    | nil => rfl
    | cons v vs ih =>
      rw [joined, hall v List.mem_cons_self, ← ih fun u hu => hall u (List.mem_cons_of_mem _ hu)]
      rfl
  · have hloop := @fromLe_packLoop bits vs h 0 0 (by decide) (by decide)
    simpa using hloop

/-! ## Reading one -/

theorem gather_eq (bytes : List UInt8) : gather bytes = fromLe bytes := by
  have hfold : ∀ (bs : List UInt8) (k acc : ℕ), acc < 2 ^ (k * 8) →
      (bs.zipIdx k).foldl (fun acc x => acc ||| x.1.toNat <<< (x.2 * 8)) acc =
        acc + 2 ^ (k * 8) * fromLe bs := by
    intro bs
    induction bs with
    | nil =>
      intro k acc _
      rw [fromLe, Nat.mul_zero]
      rfl
    | cons b bs ih =>
      intro k acc hacc
      have hb := b.toNat_lt
      have hor : acc ||| b.toNat <<< (k * 8) = acc + 2 ^ (k * 8) * b.toNat := by
        rw [Nat.or_comm, Nat.shiftLeft_eq, Nat.mul_comm, ← Nat.two_pow_add_eq_or_of_lt hacc,
          Nat.add_comm]
      have hpow : 2 ^ ((k + 1) * 8) = 2 ^ (k * 8) * 256 := by rw [Nat.succ_mul, Nat.pow_add]
      rw [List.zipIdx_cons, List.foldl_cons, hor, ih (k + 1), fromLe, hpow]
      · ring
      · rw [hpow]
        calc acc + 2 ^ (k * 8) * b.toNat < 2 ^ (k * 8) + 2 ^ (k * 8) * b.toNat :=
            Nat.add_lt_add_right hacc _
          _ = 2 ^ (k * 8) * (b.toNat + 1) := by ring
          _ ≤ 2 ^ (k * 8) * 256 := Nat.mul_le_mul_left _ (by omega)
  rw [gather, hfold bytes 0 0 (by decide), Nat.zero_mul, Nat.pow_zero, Nat.one_mul, Nat.zero_add]

theorem fromLe_drop (s : List UInt8) (k : ℕ) : fromLe (s.drop k) = fromLe s / 256 ^ k := by
  induction k generalizing s with
  | zero => rw [List.drop_zero, Nat.pow_zero, Nat.div_one]
  | succ k ih =>
    cases s with
    | nil => simp [fromLe]
    | cons b s =>
      have hb := b.toNat_lt
      have hdiv : (b.toNat + 256 * fromLe s) / 256 = fromLe s := by omega
      rw [List.drop_succ_cons, ih, fromLe, Nat.pow_succ', ← Nat.div_div_eq_div_mul, hdiv]

theorem fromLe_take (s : List UInt8) (k : ℕ) : fromLe (s.take k) = fromLe s % 256 ^ k := by
  have hsplit := fromLe_append (s.take k) (s.drop k)
  rw [List.take_append_drop] at hsplit
  by_cases hk : k ≤ s.length
  · have hlt := fromLe_lt (s.take k)
    rw [List.length_take_of_le hk] at hlt hsplit
    rw [hsplit, Nat.add_mul_mod_self_left, Nat.mod_eq_of_lt hlt]
  · rw [List.take_of_length_le (by omega), Nat.mod_eq_of_lt]
    exact (fromLe_lt s).trans_le (Nat.pow_le_pow_right (by decide) (by omega))

/-- Bits of a number do not depend on those above them. -/
theorem mod_div_mod {o n : ℕ} (h : o + bits ≤ n) (x : ℕ) :
    x % 2 ^ n / 2 ^ o % 2 ^ bits = x / 2 ^ o % 2 ^ bits := by
  obtain ⟨k, rfl⟩ := Nat.exists_eq_add_of_le h
  rw [Nat.add_assoc, Nat.pow_add, Nat.mod_mul_right_div_self]
  exact Nat.mod_mod_of_dvd _ (Nat.pow_dvd_pow 2 (Nat.le_add_right _ _))

theorem mask_eq (hbits : bits ≤ 64) (x : ℕ) :
    x % 2 ^ 64 &&& (if 64 ≤ bits then 2 ^ 64 - 1 else 2 ^ bits - 1) = x % 2 ^ bits := by
  have hmask : (if 64 ≤ bits then 2 ^ 64 - 1 else 2 ^ bits - 1) = 2 ^ bits - 1 := by
    split
    · obtain rfl : bits = 64 := by omega
      rfl
    · rfl
  rw [hmask, Nat.and_two_pow_sub_one_eq_mod]
  exact Nat.mod_mod_of_dvd _ (Nat.pow_dvd_pow 2 hbits)

/-- Whatever follows the packed numbers, each comes back. -/
theorem unpackOne_pack (hbits : bits ≤ 64) (h : ∀ v ∈ vs, v < 2 ^ bits) (rest : List UInt8)
    {i v : ℕ} (hv : vs[i]? = some v) : unpackOne (pack bits vs ++ rest) bits i = some v := by
  obtain ⟨hi, -⟩ := List.getElem?_eq_some_iff.mp hv
  have hlt := h v (List.mem_of_getElem? hv)
  obtain ⟨hnum, hlen⟩ := fromLe_pack h
  unfold unpackOne
  split
  · rename_i hzero
    rw [hzero] at hlt
    exact congrArg some (Nat.lt_one_iff.mp hlt).symm
  · -- the number ends within the packed bytes
    have hend : (i + 1) * bits ≤ bits * vs.length := by
      rw [Nat.mul_comm bits]
      exact Nat.mul_le_mul_right _ hi
    rw [Nat.succ_mul] at hend
    have hpow : ∀ k, (256 : ℕ) ^ k = 2 ^ (8 * k) := fun k => by rw [Nat.pow_mul]
    rw [if_pos (by rw [List.length_append]; omega), Option.some.injEq, mask_eq hbits, gather_eq,
      fromLe_take, fromLe_drop, fromLe_append, hnum, hlen, Nat.shiftRight_eq_div_pow, hpow, hpow,
      hpow, mod_div_mod (by omega), Nat.div_div_eq_div_mul, ← Nat.pow_add, Nat.div_add_mod]
    -- what follows stands above the number
    have habove : (joined bits vs + 2 ^ (8 * ((bits * vs.length + 7) / 8)) * fromLe rest) %
        2 ^ (bits * vs.length) = joined bits vs % 2 ^ (bits * vs.length) := by
      obtain ⟨k, hk⟩ := Nat.exists_eq_add_of_le
        (show bits * vs.length ≤ 8 * ((bits * vs.length + 7) / 8) by omega)
      rw [hk, Nat.pow_add, Nat.mul_assoc, Nat.add_mul_mod_self_left]
    rw [← mod_div_mod hend, habove, mod_div_mod hend]
    exact joined_div_mod h hv

end Search
