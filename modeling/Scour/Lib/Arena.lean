import Mathlib.Data.List.Basic
import Mathlib.Algebra.Order.BigOperators.Group.List
import Mathlib.Algebra.Order.Ring.Nat

/-!
# An arena of chunks

Runs of symbols are put one behind another into chunks of a fixed capacity, a longer run into a chunk
of its own, and named by where they are.  A run stays what it was when others are put behind it
(`get_push`, `get_push_of_get`), and as many chunks are never used as would hold much more than was
put in (`chunks_mul_le`).
-/

namespace Search

/-- A chunk: what it can hold, and what it holds. -/
structure Chunk (α : Type) where
  capacity : Nat
  data : List α

/-- Where a run is. -/
structure Slot where
  start : Nat
  chunk : Nat
  len : Nat
deriving DecidableEq

/-- What is there, of the data of its chunk. -/
def Slot.read {α : Type} (slot : Slot) (data : List α) : Option (List α) :=
  if slot.start + slot.len ≤ data.length then some ((data.drop slot.start).take slot.len) else none

structure Arena (α : Type) where
  chunks : List (Chunk α)

namespace Arena

variable {α : Type} (size : Nat)

def empty : Arena α := ⟨[]⟩

/-- Does the last chunk have room for a run this long? -/
def roomy (a : Arena α) (len : Nat) : Bool :=
  a.chunks.getLast?.any fun chunk => len ≤ chunk.capacity - chunk.data.length

/-- The arena with a chunk at its end that has room. -/
def grown (a : Arena α) (len : Nat) : List (Chunk α) :=
  if a.roomy len then a.chunks else a.chunks ++ [⟨max size len, []⟩]

/-- Put a run into the last chunk, or into a new one. -/
def push (a : Arena α) (run : List α) : Arena α × Slot :=
  let chunks := a.grown size run.length
  let last := chunks.length - 1
  (⟨chunks.modify last fun chunk => { chunk with data := chunk.data ++ run }⟩,
    { start := (chunks[last]?.map (·.data.length)).getD 0, chunk := last, len := run.length })

/-- The run at a slot. -/
def get (a : Arena α) (slot : Slot) : Option (List α) :=
  (a.chunks[slot.chunk]?).bind fun chunk => slot.read chunk.data

theorem modify_concat {β : Type} (f : β → β) (l : List β) (x : β) :
    (l ++ [x]).modify l.length f = l ++ [f x] := by
  induction l with
  | nil => rfl
  | cons y l ih => simpa using ih

/-- A run goes to the end of a chunk with room for it, or of a new one. -/
theorem push_cases (a : Arena α) (run : List α) : ∃ init chunk,
    (a.push size run).1.chunks = init ++ [{ chunk with data := chunk.data ++ run }] ∧
      (a.push size run).2 = ⟨chunk.data.length, init.length, run.length⟩ ∧
      ((a.chunks = init ++ [chunk] ∧ run.length ≤ chunk.capacity - chunk.data.length) ∨
        (a.chunks = init ∧ chunk = ⟨max size run.length, []⟩ ∧
          ∀ last, a.chunks.getLast? = some last → last.capacity - last.data.length < run.length)) := by
  have hpush : ∀ init chunk, a.grown size run.length = init ++ [chunk] →
      (a.push size run).1.chunks = init ++ [{ chunk with data := chunk.data ++ run }] ∧
        (a.push size run).2 = ⟨chunk.data.length, init.length, run.length⟩ := by
    intro init chunk heq
    unfold push
    dsimp only
    rw [heq, List.length_append, List.length_singleton, Nat.add_sub_cancel, modify_concat,
      List.getElem?_concat_length]
    exact ⟨rfl, rfl⟩
  by_cases hroom : a.roomy run.length = true
  · have hgrown : a.grown size run.length = a.chunks := if_pos hroom
    obtain ⟨chunk, hlast, hle⟩ := (Option.any_eq_true _ _).mp hroom
    obtain ⟨init, hinit⟩ := List.getLast?_eq_some_iff.mp hlast
    obtain ⟨h1, h2⟩ := hpush init chunk (hgrown.trans hinit)
    exact ⟨init, chunk, h1, h2, Or.inl ⟨hinit, of_decide_eq_true hle⟩⟩
  · have hgrown : a.grown size run.length = a.chunks ++ [⟨max size run.length, []⟩] := if_neg hroom
    obtain ⟨h1, h2⟩ := hpush _ _ hgrown
    refine ⟨a.chunks, _, h1, h2, Or.inr ⟨rfl, rfl, fun last hlast => ?_⟩⟩
    by_contra hle
    apply hroom
    unfold roomy
    rw [hlast, Option.any_some]
    exact decide_eq_true (by omega)

/-! ## What is put in stays -/

theorem read_end (data run : List α) (chunk : Nat) :
    (⟨data.length, chunk, run.length⟩ : Slot).read (data ++ run) = some run := by
  unfold Slot.read
  rw [if_pos (by rw [List.length_append]), List.drop_left, List.take_length]

theorem read_append {slot : Slot} {data run : List α} (other : List α)
    (h : slot.read data = some run) : slot.read (data ++ other) = some run := by
  unfold Slot.read at h ⊢
  split at h
  · rw [if_pos (by rw [List.length_append]; omega), ← h,
      List.drop_append_of_le_length (by omega), List.take_append_of_le_length]
    rw [List.length_drop]
    omega
  · cases h

theorem get_push (a : Arena α) (run : List α) :
    (a.push size run).1.get (a.push size run).2 = some run := by
  obtain ⟨init, chunk, hchunks, hslot, -⟩ := push_cases size a run
  unfold get
  rw [hchunks, hslot, List.getElem?_concat_length, Option.bind_some]
  exact read_end chunk.data run _

theorem get_push_of_get {a : Arena α} {slot : Slot} {run : List α} (other : List α)
    (h : a.get slot = some run) : (a.push size other).1.get slot = some run := by
  unfold get at h ⊢
  obtain ⟨chunk, hchunk, h⟩ := Option.bind_eq_some_iff.mp h
  obtain ⟨hlt, -⟩ := List.getElem?_eq_some_iff.mp hchunk
  obtain ⟨init, last, hchunks, -, ⟨hinit, -⟩ | ⟨hinit, -, -⟩⟩ := push_cases size a other
  · rw [hchunks]
    rw [hinit] at hchunk hlt
    rw [List.length_append, List.length_singleton] at hlt
    by_cases hi : slot.chunk < init.length
    · rw [List.getElem?_append_left hi] at hchunk ⊢
      rw [hchunk, Option.bind_some, h]
    · obtain hi : slot.chunk = init.length := by omega
      rw [hi, List.getElem?_concat_length] at hchunk ⊢
      cases hchunk
      exact read_append other h
  · rw [hchunks, ← hinit, List.getElem?_append_left hlt, hchunk, Option.bind_some, h]

/-! ## How many chunks there are -/

/-- How much was put in. -/
def used (a : Arena α) : Nat := (a.chunks.map (·.data.length)).sum

/-- No chunk but the last was left with much room, and none holds more than it can. -/
structure Packed (slack : Nat) (a : Arena α) : Prop where
  full : ∀ chunk ∈ a.chunks.dropLast, size ≤ chunk.data.length + slack
  fits : ∀ chunk ∈ a.chunks, chunk.data.length ≤ chunk.capacity ∧ size ≤ chunk.capacity ∧
    chunk.capacity ≤ max size slack

theorem packed_empty (slack : Nat) : (empty : Arena α).Packed size slack where
  full := fun _ h => by cases h
  fits := fun _ h => by cases h

theorem used_push (a : Arena α) (run : List α) :
    (a.push size run).1.used = a.used + run.length := by
  obtain ⟨init, chunk, hchunks, -, h⟩ := push_cases size a run
  unfold used
  rw [hchunks]
  rcases h with ⟨hinit, -⟩ | ⟨hinit, hnew, -⟩
  · rw [hinit]
    simp [Nat.add_assoc]
  · rw [hinit, hnew]
    simp

theorem packed_push {slack : Nat} {a : Arena α} {run : List α} (h : a.Packed size slack)
    (hrun : run.length ≤ slack) : (a.push size run).1.Packed size slack := by
  obtain ⟨init, chunk, hchunks, -, hcases⟩ := push_cases size a run
  rcases hcases with ⟨hinit, hroom⟩ | ⟨hinit, hnew, hlast⟩
  · have hchunk := h.fits chunk (by rw [hinit]; exact List.mem_append_right _ List.mem_cons_self)
    refine ⟨fun c hc => ?_, fun c hc => ?_⟩
    · rw [hchunks, List.dropLast_concat] at hc
      apply h.full
      rw [hinit, List.dropLast_concat]
      exact hc
    · rw [hchunks] at hc
      rcases List.mem_append.mp hc with hc | hc
      · exact h.fits c (by rw [hinit]; exact List.mem_append_left _ hc)
      · rw [List.mem_singleton.mp hc]
        refine ⟨?_, hchunk.2⟩
        show (chunk.data ++ run).length ≤ chunk.capacity
        rw [List.length_append]
        omega
  · refine ⟨fun c hc => ?_, fun c hc => ?_⟩
    · -- the chunk that was the last has less room left than the run needs
      rw [hchunks, List.dropLast_concat, ← hinit] at hc
      rcases List.eq_nil_or_concat a.chunks with hnil | ⟨l, last, hl⟩
      · rw [hnil] at hc
        cases hc
      · rw [List.concat_eq_append] at hl
        rw [hl] at hc
        rcases List.mem_append.mp hc with hc | hc
        · apply h.full
          rw [hl, List.dropLast_concat]
          exact hc
        · obtain rfl : c = last := List.mem_singleton.mp hc
          have hfits := h.fits c (by rw [hl]; exact List.mem_append_right _ List.mem_cons_self)
          have := hlast c (by rw [hl]; exact List.getLast?_concat ..)
          omega
    · rw [hchunks] at hc
      rcases List.mem_append.mp hc with hc | hc
      · exact h.fits c (hinit ▸ hc)
      · rw [List.mem_singleton.mp hc, hnew]
        show ([] ++ run).length ≤ max size run.length ∧ size ≤ max size run.length ∧
          max size run.length ≤ max size slack
        rw [List.nil_append]
        omega

/-- The chunks but the last were filled, so few are used. -/
theorem chunks_mul_le {slack : Nat} {a : Arena α} (h : a.Packed size slack) :
    (a.chunks.length - 1) * (size - slack) ≤ a.used := by
  have hsub : (a.chunks.dropLast.map (·.data.length)).sum ≤ a.used := by
    unfold used
    apply List.Sublist.sum_le_sum
    · exact (List.dropLast_sublist _).map _
    · intro n _
      exact Nat.zero_le n
  refine le_trans ?_ hsub
  have := List.card_nsmul_le_sum (a.chunks.dropLast.map (·.data.length)) (size - slack) ?_
  · rwa [List.length_map, List.length_dropLast, Nat.nsmul_eq_mul] at this
  · intro n hn
    obtain ⟨chunk, hchunk, rfl⟩ := List.mem_map.mp hn
    have := h.full chunk hchunk
    show size - slack ≤ chunk.data.length
    omega

end Arena

end Search
