import Mathlib.Algebra.BigOperators.Group.Finset.Basic
import Mathlib.Algebra.Order.BigOperators.Group.Finset
import Mathlib.Logic.Function.Iterate
import Mathlib.Order.Interval.Finset.Nat

/-!
# The pages of a result that a view holds

A view of a result of millions holds a few pages of it and asks for one more at a time.  `nextPage`
says which, `put` files the answer and lets the page go that was used longest ago.

`Reachable.listed`: the pages in order of use are the pages held, each once.  `fills_and_stops`: with
answers of a service that serves the same rows, a view that knows how long the result is asks until
what it shows is there, and then it stops.
-/

namespace Scour.PageCache

/-! ## The code -/

/-- Rows per page. -/
def SPAN : Nat := 200

/-- How many pages to keep before letting the least recently used go. -/
def KEPT : Nat := 32

/-- A page that has arrived, and what the index looked like when it did. -/
structure Held (α : Type) where
  rows : List α
  revision : Nat
  /-- Read again and no longer: whatever it is short of, the service does not have. -/
  settled : Bool

/-- What a call changed. -/
inductive Change where
  | nothing
  /-- These rows are new or different: a half-open range. -/
  | rows (first last : Nat)
  | length (was now : Nat) (rows : Option (Nat × Nat))
deriving DecidableEq

/-- The pages of one result. -/
structure Pages (α : Type) where
  held : Nat → Option (Held α)
  /-- Least recently used first. -/
  order : List Nat
  total : Nat
  /-- The page a fetch is out for, and the revision it was asked at. -/
  asked : Option (Nat × Nat)
  revision : Nat
  /-- The most rows a page has ever held. -/
  served : Nat

def pageOf (row : Nat) : Nat := row / SPAN

def startOf (page : Nat) : Nat := page * SPAN

namespace Pages

variable {α : Type}

/-- `Pages::default`. -/
def fresh : Pages α := ⟨fun _ => none, [], 0, none, 0, 0⟩

/-- Is this page here, with rows in it? -/
def holds (p : Pages α) (page : Nat) : Bool := (p.held page).any fun h => !h.rows.isEmpty

/-- The row at this position, if the page holding it is here. -/
def at_ (p : Pages α) (row : Nat) : Option α :=
  (p.held (pageOf row)).bind fun h => h.rows[row - startOf (pageOf row)]?

def empty (p : Pages α) : Pages α := { p with held := fun _ => none, order := [], asked := none }

def mark (p : Pages α) (revision : Nat) : Pages α := { p with revision := revision }

def asking (p : Pages α) (page : Nat) : Pages α := { p with asked := some (page, p.revision) }

def forgetAsking (p : Pages α) : Pages α := { p with asked := none }

def touch (p : Pages α) (page : Nat) : Pages α := { p with order := p.order.erase page ++ [page] }

def touched (p : Pages α) (row : Nat) : Pages α :=
  if (p.held (pageOf row)).isSome then p.touch (pageOf row) else p

/-- The loop of `evict`, over the order of use. -/
def evictLoop (asked : Option Nat) :
    List Nat → (Nat → Option (Held α)) → List Nat × (Nat → Option (Held α))
  | [], held => ([], held)
  | oldest :: order, held =>
      if KEPT < order.length + 1 then
        -- never the page a fetch is out for: it is about to be written
        if asked = some oldest then (order ++ [oldest], held)
        else evictLoop asked order (Function.update held oldest none)
      else (oldest :: order, held)

def evict (p : Pages α) : Pages α :=
  let (order, held) := evictLoop (p.asked.map (·.1)) p.order p.held
  { p with order := order, held := held }

/-- File a page that has arrived. -/
def put (p : Pages α) (page : Nat) (rows : List α) (total : Nat) : Pages α × Change :=
  let count := rows.length
  -- stamped with the revision the request went out at
  let revision := match p.asked with
    | some (out, revision) => if out = page then revision else p.revision
    | none => p.revision
  -- the same length twice is all there is, whatever the count said
  let settled := (p.held page).any fun h => count ≤ h.rows.length
  let asked := if p.asked.map (·.1) = some page then none else p.asked
  let held := Function.update p.held page (some ⟨rows, revision, settled⟩)
  let p' := ({ p with held, asked, served := max p.served count }.touch page).evict
  let first := startOf page
  if total ≠ p.total then
    ({ p' with total }, .length p.total total (some (first, first + count)))
  else (p', .rows first (first + count))

def setTotal (p : Pages α) (total : Nat) : Pages α × Change :=
  if total = p.total then (p, .nothing) else ({ p with total }, .length p.total total none)

/-- `rows_mut`, with what the caller makes of the rows in place. -/
def rowsMut (p : Pages α) (page : Nat) (f : Nat → α → α) : Pages α :=
  { p with held := Function.update p.held page ((p.held page).map fun h =>
      { h with rows := h.rows.mapIdx f }) }

/-- Is a page that the eye can see one to ask for? -/
def wants (p : Pages α) (last : Nat) (refresh : Bool) (page : Nat) : Bool :=
  -- the last row of this page the eye can see, within the result
  let seen := min (min last (startOf page + SPAN - 1)) (p.total - 1)
  match p.held page with
  | none => true
  | some h =>
      h.rows.isEmpty || (!h.settled && startOf page + h.rows.length ≤ seen) ||
        (refresh && h.revision != p.revision)

/-- Which page to ask for, if any. -/
def nextPage (p : Pages α) (first last : Nat) (speculate refresh : Bool) : Option Nat :=
  if p.total = 0 then none
  else if p.asked.isSome then none
  else
    let end_ := (p.total - 1) / SPAN
    let from_ := pageOf (min first (p.total - 1))
    let to_ := pageOf (min last (p.total - 1))
    match (List.range' from_ (to_ + 1 - from_)).find? (p.wants last refresh) with
    | some page => some page
    | none =>
        -- ahead, then behind, and only while a page is cheap
        if speculate then
          ((if to_ < end_ then [to_ + 1] else []) ++ (if 0 < from_ then [from_ - 1] else [])).find?
            fun page => !p.holds page
        else none

end Pages

/-! ## What a view does -/

/-- What a view may call, but for an answer. -/
inductive Call (α : Type) where
  | empty
  | mark (revision : Nat)
  | asking (page : Nat)
  | forgetAsking
  | setTotal (total : Nat)
  | touched (row : Nat)
  | rowsMut (page : Nat) (f : Nat → α → α)

def Call.run {α : Type} (p : Pages α) : Call α → Pages α
  | .empty => p.empty
  | .mark revision => p.mark revision
  | .asking page => p.asking page
  | .forgetAsking => p.forgetAsking
  | .setTotal total => (p.setTotal total).1
  | .touched row => p.touched row
  | .rowsMut page f => p.rowsMut page f

/-- The caches a view comes to. -/
inductive Reachable {α : Type} : Pages α → Prop
  | fresh : Reachable .fresh
  | call {p} (c : Call α) : Reachable p → Reachable (c.run p)
  | put {p} (page : Nat) (rows : List α) (total : Nat) : Reachable p →
      Reachable (p.put page rows total).1

/-- The caches a view comes to whose answers are for the page a fetch is out for, if one is. -/
inductive Answered {α : Type} : Pages α → Prop
  | fresh : Answered .fresh
  | call {p} (c : Call α) : Answered p → Answered (c.run p)
  | put {p page} (rows : List α) (total : Nat) : Answered p →
      (∀ out ∈ p.asked, out.1 = page) → Answered (p.put page rows total).1

/-- A service: how long the result is, and what it answers when a page is asked for once more. -/
structure Service (α : Type) where
  total : Nat
  /-- The answer for a page that has been asked for so many times. -/
  answer : Nat → Nat → List α
  /-- The same rows each time, and no fewer. -/
  grows : ∀ page n, answer page n <+: answer page (n + 1)
  /-- A page inside the total is never empty, -/
  serves : ∀ page, startOf page < total → answer page 0 ≠ []
  /-- and no page is longer than a page. -/
  within : ∀ page n, (answer page n).length ≤ SPAN

/-- A view and its service. -/
structure Sys (α : Type) where
  pages : Pages α
  /-- How often each page has been asked for. -/
  asks : Nat → Nat

/-- One round: ask for the next page, and file the answer. -/
def round {α : Type} (svc : Service α) (first last : Nat) (speculate : Bool) (s : Sys α) : Sys α :=
  match s.pages.nextPage first last speculate false with
  | none => s
  | some page =>
      { pages := ((s.pages.asking page).put page (svc.answer page (s.asks page)) svc.total).1
        asks := Function.update s.asks page (s.asks page + 1) }

/-- So many rounds on nothing is asked for, and every row that is shown is here, as far as the service
serves it the second time. -/
def Fills {α : Type} (svc : Service α) (first last : Nat) (speculate : Bool) (s : Sys α) : Prop :=
  ∃ n ≤ KEPT * (SPAN + 2),
    ((round svc first last speculate)^[n] s).pages.nextPage first last speculate false = none ∧
    ∀ row, first ≤ row → row ≤ last → row < svc.total →
      row - startOf (pageOf row) < (svc.answer (pageOf row) 1).length →
      (((round svc first last speculate)^[n] s).pages.at_ row).isSome = true

/-! ## The pages in order of use -/

section
variable {α : Type}

/-- The order of use lists the pages held, each once. -/
structure Listed (order : List Nat) (held : Nat → Option (Held α)) : Prop where
  nodup : order.Nodup
  listed : ∀ page, page ∈ order ↔ (held page).isSome = true

theorem evictLoop_listed {asked : Option Nat} (order : List Nat) :
    ∀ {held : Nat → Option (Held α)}, Listed order held →
      Listed (Pages.evictLoop asked order held).1 (Pages.evictLoop asked order held).2 := by
  induction order with
  | nil => exact fun h => h
  | cons oldest order ih =>
    intro held h
    obtain ⟨hnot, hnodup⟩ := List.nodup_cons.mp h.nodup
    unfold Pages.evictLoop
    split
    · split
      · have hperm : (order ++ [oldest]).Perm (oldest :: order) := List.perm_append_singleton _ _
        exact ⟨hperm.nodup_iff.mpr h.nodup, fun q => by rw [hperm.mem_iff, h.listed q]⟩
      · refine ih ⟨hnodup, fun q => ?_⟩
        by_cases hq : q = oldest
        · subst hq
          simp [hnot]
        · rw [Function.update_of_ne hq, ← h.listed q, List.mem_cons]
          exact ⟨Or.inr, fun h => h.resolve_left hq⟩
    · exact h

/-- What is evicted is gone, and the rest is as it was. -/
theorem evictLoop_held {asked : Option Nat} (order : List Nat) :
    ∀ (held : Nat → Option (Held α)) (q : Nat),
      (Pages.evictLoop asked order held).2 q = none ∨
        (Pages.evictLoop asked order held).2 q = held q := by
  induction order with
  | nil => exact fun _ _ => Or.inr rfl
  | cons oldest order ih =>
    intro held q
    unfold Pages.evictLoop
    split
    · split
      · exact Or.inr rfl
      · rcases ih (Function.update held oldest none) q with h | h
        · exact Or.inl h
        · rw [h]
          by_cases hq : q = oldest
          · rw [hq, Function.update_self]
            exact Or.inl rfl
          · rw [Function.update_of_ne hq]
            exact Or.inr rfl
    · exact Or.inr rfl

/-- With no fetch out, the oldest go until few enough are left. -/
theorem evictLoop_none (order : List Nat) : ∀ held : Nat → Option (Held α),
    Pages.evictLoop none order held = (order.drop (order.length - KEPT),
      fun q => if q ∈ order.take (order.length - KEPT) then none else held q) := by
  induction order with
  | nil => exact fun held => by simp [Pages.evictLoop]
  | cons oldest order ih =>
    intro held
    unfold Pages.evictLoop
    by_cases hlong : KEPT < order.length + 1
    · have hlen : (oldest :: order).length - KEPT = order.length - KEPT + 1 := by
        rw [List.length_cons]
        omega
      rw [if_pos hlong, if_neg (by simp), ih, hlen, List.drop_succ_cons, List.take_succ_cons]
      congr 1
      funext q
      by_cases hq : q = oldest
      · simp [hq]
      · simp [hq]
    · have hlen : (oldest :: order).length - KEPT = 0 := by
        rw [List.length_cons]
        omega
      rw [if_neg hlong, hlen]
      simp

/-- The pages in order of use when this one has been used. -/
def usedLast (p : Pages α) (page : Nat) : List Nat := p.order.erase page ++ [page]

theorem Listed.nodup_usedLast {p : Pages α} (h : Listed p.order p.held) (page : Nat) :
    (usedLast p page).Nodup := by
  unfold usedLast
  rw [List.nodup_append]
  refine ⟨h.nodup.erase page, List.nodup_singleton page, ?_⟩
  rintro a ha b hb rfl
  rw [List.mem_singleton.mp hb] at ha
  exact (h.nodup.mem_erase_iff.mp ha).1 rfl

theorem mem_usedLast {p : Pages α} {page q : Nat} :
    q ∈ usedLast p page ↔ q = page ∨ q ∈ p.order := by
  unfold usedLast
  by_cases hq : q = page
  · simp [hq]
  · simp [hq, List.mem_erase_of_ne hq]

variable {p : Pages α} {page : Nat} {rows : List α} {total : Nat}

/-- What an answer to the fetch that is out leaves: it is filed as used last, and of the others the
oldest go. -/
theorem put_spec (hasked : ∀ out ∈ p.asked, out.1 = page) :
    let gone := (usedLast p page).take ((usedLast p page).length - KEPT)
    (p.put page rows total).1.order =
        (usedLast p page).drop ((usedLast p page).length - KEPT) ∧
      (p.put page rows total).1.asked = none ∧ (p.put page rows total).1.total = total ∧
      ∃ revision, (p.put page rows total).1.held = fun q => if q ∈ gone then none else
        Function.update p.held page (some ⟨rows, revision,
          (p.held page).any fun h => rows.length ≤ h.rows.length⟩) q := by
  intro gone
  have hnone : (if p.asked.map (·.1) = some page then none else p.asked) = none := by
    cases ha : p.asked with
    | none => rfl
    | some out =>
      have hout := hasked out ha
      rw [Option.map_some, hout, if_pos rfl]
  unfold Pages.put Pages.touch Pages.evict
  dsimp only
  rw [hnone, Option.map_none, evictLoop_none]
  by_cases htotal : total = p.total
  · rw [if_neg (not_not.mpr htotal)]
    exact ⟨rfl, rfl, htotal.symm, _, rfl⟩
  · rw [if_pos htotal]
    exact ⟨rfl, rfl, rfl, _, rfl⟩

/-- What an answer is filed as, before any page goes. -/
theorem put_held (p : Pages α) (page : Nat) (rows : List α) (total : Nat) :
    ∃ asked revision, ((p.put page rows total).1.order, (p.put page rows total).1.held) =
      Pages.evictLoop asked (usedLast p page) (Function.update p.held page (some ⟨rows, revision,
        (p.held page).any fun h => rows.length ≤ h.rows.length⟩)) := by
  unfold Pages.put Pages.touch Pages.evict
  dsimp only
  split
  · exact ⟨_, _, rfl⟩
  · exact ⟨_, _, rfl⟩

theorem Listed.touch (h : Listed p.order p.held) (page : Nat) (now : Held α) :
    Listed (usedLast p page) (Function.update p.held page (some now)) := by
  refine ⟨h.nodup_usedLast page, fun q => ?_⟩
  rw [mem_usedLast]
  by_cases hq : q = page
  · simp [hq]
  · rw [Function.update_of_ne hq, ← h.listed q]
    exact ⟨fun h => h.resolve_left hq, Or.inr⟩

theorem Listed.put (h : Listed p.order p.held) :
    Listed (p.put page rows total).1.order (p.put page rows total).1.held := by
  obtain ⟨asked, revision, heq⟩ := put_held p page rows total
  have hloop := @evictLoop_listed _ asked (usedLast p page) _ (h.touch page ⟨rows, revision,
    (p.held page).any fun h => rows.length ≤ h.rows.length⟩)
  rw [← heq] at hloop
  exact hloop

theorem Listed.touched (h : Listed p.order p.held) (row : Nat) :
    Listed (p.touched row).order (p.touched row).held := by
  unfold Pages.touched
  split
  · rename_i hheld
    have hmem : pageOf row ∈ p.order := (h.listed _).mpr hheld
    refine ⟨h.nodup_usedLast _, fun q => ?_⟩
    show q ∈ usedLast p (pageOf row) ↔ (p.held q).isSome = true
    rw [mem_usedLast, ← h.listed q]
    exact ⟨fun hq => hq.elim (fun he => he ▸ hmem) id, Or.inr⟩
  · exact h

theorem Listed.call (h : Listed p.order p.held) (c : Call α) :
    Listed (c.run p).order (c.run p).held := by
  cases c with
  | empty => exact ⟨List.nodup_nil, by simp [Call.run, Pages.empty]⟩
  | mark revision => exact h
  | asking page => exact h
  | forgetAsking => exact h
  | setTotal total =>
    show Listed (p.setTotal total).1.order (p.setTotal total).1.held
    unfold Pages.setTotal
    split
    · exact h
    · exact h
  | touched row => exact h.touched row
  | rowsMut page f =>
    refine ⟨h.nodup, fun q => ?_⟩
    show q ∈ p.order ↔ (Function.update p.held page _ q).isSome = true
    by_cases hq : q = page
    · rw [hq, Function.update_self, Option.isSome_map]
      exact h.listed page
    · rw [Function.update_of_ne hq]
      exact h.listed q

theorem Reachable.listed (h : Reachable p) : Listed p.order p.held := by
  induction h with
  | fresh => exact ⟨List.nodup_nil, by simp [Pages.fresh]⟩
  | call c _ ih => exact ih.call c
  | put page rows total _ ih => exact ih.put

theorem Answered.reachable (h : Answered p) : Reachable p := by
  induction h with
  | fresh => exact .fresh
  | call c _ ih => exact .call c ih
  | put rows total _ _ ih => exact .put _ rows total ih

/-- A call lists no page that was not listed. -/
theorem Call.length_le (h : Listed p.order p.held) (c : Call α) :
    (c.run p).order.length ≤ p.order.length := by
  cases c with
  | empty => exact Nat.zero_le _
  | mark revision => exact le_refl _
  | asking page => exact le_refl _
  | forgetAsking => exact le_refl _
  | setTotal total =>
    show (p.setTotal total).1.order.length ≤ p.order.length
    unfold Pages.setTotal
    split <;> exact le_refl _
  | touched row =>
    show (p.touched row).order.length ≤ p.order.length
    unfold Pages.touched
    split
    · rename_i hheld
      have hmem : pageOf row ∈ p.order := (h.listed _).mpr hheld
      have hpos := List.length_pos_of_mem hmem
      show (p.order.erase (pageOf row) ++ [pageOf row]).length ≤ p.order.length
      rw [List.length_append, List.length_erase_of_mem hmem, List.length_singleton]
      omega
    · exact le_refl _
  | rowsMut page f => exact le_refl _

theorem Answered.kept (h : Answered p) : p.order.length ≤ KEPT := by
  induction h with
  | fresh => exact Nat.zero_le _
  | call c h ih => exact (Call.length_le h.reachable.listed c).trans ih
  | put rows total h hasked ih =>
    rw [(@put_spec _ _ _ rows total hasked).1, List.length_drop]
    omega

end

/-! ## What is asked for -/

section
variable {α : Type} {p : Pages α} {first last : Nat} {speculate : Bool}

/-- The pages the eye can see and the two beside them. -/
def near (first last total : Nat) : Finset Nat :=
  Finset.Icc (pageOf (min first (total - 1)) - 1) (pageOf (min last (total - 1)) + 1)

theorem card_near (h : first ≤ last) (hpages : pageOf last - pageOf first + 1 ≤ KEPT - 2)
    (total : Nat) : (near first last total).card ≤ KEPT := by
  unfold near
  rw [Nat.card_Icc]
  simp only [pageOf, SPAN, KEPT] at *
  omega

/-- A page that is asked for lies near, inside the total, and is not here whole. -/
theorem nextPage_some {page : Nat} (h : first ≤ last)
    (hnext : p.nextPage first last speculate false = some page) :
    page ∈ near first last p.total ∧ startOf page < p.total ∧
      ∀ h, p.held page = some h → h.rows ≠ [] → h.settled = false := by
  unfold Pages.nextPage at hnext
  rw [Option.ite_none_left_eq_some, Option.ite_none_left_eq_some] at hnext
  obtain ⟨htotal, -, hnext⟩ := hnext
  dsimp only at hnext
  split at hnext
  · -- one the eye can see
    rename_i page' hfind
    obtain rfl := Option.some.inj hnext
    have hmem := List.mem_range'_1.mp (List.mem_of_find?_eq_some hfind)
    have hwants := List.find?_some hfind
    refine ⟨Finset.mem_Icc.mpr ⟨by omega, by omega⟩, ?_, ?_⟩
    · have hto := hmem.2
      simp only [pageOf, startOf, SPAN] at hto hmem ⊢
      omega
    · intro h hh hrows
      unfold Pages.wants at hwants
      rw [hh] at hwants
      have hempty : h.rows.isEmpty = false := by simpa using hrows
      simp only [hempty, Bool.false_or, Bool.false_and, Bool.or_false, Bool.and_eq_true] at hwants
      simpa using hwants.1
  · -- one ahead or behind
    rw [Option.ite_none_right_eq_some] at hnext
    have hmem := List.mem_of_find?_eq_some hnext.2
    have hholds := List.find?_some hnext.2
    have hbeside : (page = pageOf (min last (p.total - 1)) + 1 ∧
        pageOf (min last (p.total - 1)) < (p.total - 1) / SPAN) ∨
        (page = pageOf (min first (p.total - 1)) - 1 ∧ 0 < pageOf (min first (p.total - 1))) := by
      rw [List.mem_append] at hmem
      rcases hmem with hmem | hmem <;> split at hmem
      · exact Or.inl ⟨List.mem_singleton.mp hmem, ‹_›⟩
      · cases hmem
      · exact Or.inr ⟨List.mem_singleton.mp hmem, ‹_›⟩
      · cases hmem
    unfold near
    rw [Finset.mem_Icc]
    refine ⟨?_, ?_, ?_⟩
    · simp only [pageOf, SPAN] at hbeside ⊢
      omega
    · simp only [pageOf, startOf, SPAN] at hbeside ⊢
      omega
    · intro h hh hrows
      unfold Pages.holds at hholds
      rw [hh] at hholds
      simp [hrows] at hholds

/-- When nothing is asked for, no page the eye can see is wanted. -/
theorem nextPage_none (htotal : p.total ≠ 0) (hasked : p.asked = none)
    (hnext : p.nextPage first last speculate false = none) {page : Nat}
    (hfrom : pageOf (min first (p.total - 1)) ≤ page)
    (hto : page ≤ pageOf (min last (p.total - 1))) : p.wants last false page = false := by
  unfold Pages.nextPage at hnext
  rw [if_neg htotal, hasked, Option.isSome_none, if_neg Bool.false_ne_true] at hnext
  dsimp only at hnext
  split at hnext
  · cases hnext
  · rename_i hfind
    rw [List.find?_eq_none] at hfind
    simpa using hfind page (List.mem_range'_1.mpr ⟨hfrom, by omega⟩)

end

/-! ## A round -/

section
variable {α : Type} (svc : Service α)

/-- Each page held is as long as an answer of this service, and one that is settled is as long as a
second one. -/
def Filed (s : Sys α) : Prop :=
  ∀ page h, s.pages.held page = some h →
    ∃ n < s.asks page, h.rows.length = (svc.answer page n).length ∧ (h.settled = true → 1 ≤ n)

/-- A view that knows how long the result is and waits for nothing. -/
structure Ready (s : Sys α) : Prop where
  listed : Listed s.pages.order s.pages.held
  total : s.pages.total = svc.total
  asked : s.pages.asked = none
  filed : Filed svc s

variable {svc}

theorem length_answer_mono {page m n : Nat} (h : m ≤ n) :
    (svc.answer page m).length ≤ (svc.answer page n).length := by
  induction h with
  | refl => exact le_refl _
  | step _ ih => exact ih.trans (svc.grows page _).length_le

theorem answer_ne_nil {page : Nat} (h : startOf page < svc.total) (n : Nat) :
    svc.answer page n ≠ [] := by
  have h0 := List.length_pos_iff.mpr (svc.serves page h)
  have hn := @length_answer_mono _ svc page _ _ (Nat.zero_le n)
  exact List.length_pos_iff.mp (by omega)

/-- An answer of the service is one more. -/
theorem Filed.put {s : Sys α} (hs : Filed svc s) (page total : Nat) :
    Filed svc ⟨(s.pages.put page (svc.answer page (s.asks page)) total).1,
      Function.update s.asks page (s.asks page + 1)⟩ := by
  obtain ⟨asked, revision, heq⟩ := put_held s.pages page (svc.answer page (s.asks page)) total
  intro q h hh
  have hheld := @evictLoop_held _ asked (usedLast s.pages page)
    (Function.update s.pages.held page (some ⟨svc.answer page (s.asks page), revision,
      (s.pages.held page).any fun h => (svc.answer page (s.asks page)).length ≤ h.rows.length⟩)) q
  rw [← heq] at hheld
  have hh := (hheld.resolve_left fun hnone => nomatch hnone.symm.trans hh).symm.trans hh
  by_cases hq : q = page
  · subst hq
    rw [Function.update_self] at hh
    obtain rfl := Option.some.inj hh
    refine ⟨s.asks q, ?_, rfl, fun hsettled => ?_⟩
    · show s.asks q < Function.update s.asks q (s.asks q + 1) q
      rw [Function.update_self]
      exact Nat.lt_succ_self _
    · -- held before, so asked before
      cases hbefore : s.pages.held q with
      | none =>
        rw [hbefore] at hsettled
        cases hsettled
      | some h =>
        obtain ⟨n, hn, -⟩ := hs q h hbefore
        omega
  · rw [Function.update_of_ne hq] at hh
    obtain ⟨n, hn, hlen, hsettled⟩ := hs q h hh
    refine ⟨n, ?_, hlen, hsettled⟩
    show n < Function.update s.asks page (s.asks page + 1) q
    rw [Function.update_of_ne hq]
    exact hn

theorem Filed.call {s : Sys α} (hs : Filed svc s) (c : Call α) : Filed svc ⟨c.run s.pages, s.asks⟩ := by
  intro q h hh
  cases c with
  | empty => cases hh
  | mark revision => exact hs q h hh
  | asking page => exact hs q h hh
  | forgetAsking => exact hs q h hh
  | setTotal total =>
    have hsame : (s.pages.setTotal total).1.held = s.pages.held := by
      unfold Pages.setTotal
      split <;> rfl
    exact hs q h ((congrFun hsame q).symm.trans hh)
  | touched row =>
    have hsame : (s.pages.touched row).held = s.pages.held := by
      unfold Pages.touched
      split <;> rfl
    exact hs q h ((congrFun hsame q).symm.trans hh)
  | rowsMut page f =>
    have hh : Function.update s.pages.held page _ q = some h := hh
    by_cases hq : q = page
    · rw [hq, Function.update_self, Option.map_eq_some_iff] at hh
      obtain ⟨h', hheld, rfl⟩ := hh
      obtain ⟨n, hn, hlen, hsettled⟩ := hs page h' hheld
      rw [hq]
      exact ⟨n, hn, List.length_mapIdx.trans hlen, hsettled⟩
    · rw [Function.update_of_ne hq] at hh
      exact hs q h hh

/-- The answer of a round is filed, and the rest is held as it was or gone. -/
theorem Ready.put {s : Sys α} (hs : Ready svc s) (page : Nat) :
    let t : Sys α := ⟨((s.pages.asking page).put page (svc.answer page (s.asks page)) svc.total).1,
      Function.update s.asks page (s.asks page + 1)⟩
    let gone := (usedLast s.pages page).take ((usedLast s.pages page).length - KEPT)
    Ready svc t ∧
      t.pages.order = (usedLast s.pages page).drop ((usedLast s.pages page).length - KEPT) ∧
      (∀ q, q ≠ page → q ∉ gone → t.pages.held q = s.pages.held q) ∧
      (page ∉ gone → ∃ revision, t.pages.held page = some ⟨svc.answer page (s.asks page), revision,
        (s.pages.held page).any fun h => (svc.answer page (s.asks page)).length ≤ h.rows.length⟩) := by
  intro t gone
  have hasked : ∀ out ∈ (s.pages.asking page).asked, out.1 = page := by
    intro out hout
    exact (congrArg Prod.fst (Option.some.inj hout)).symm
  have hlisted : Listed (s.pages.asking page).order (s.pages.asking page).held := hs.listed
  obtain ⟨horder, hnone, htotal, revision, hheld⟩ :=
    @put_spec _ _ _ (svc.answer page (s.asks page)) svc.total hasked
  have hheld' : ∀ q, t.pages.held q = if q ∈ gone then none else
      Function.update s.pages.held page (some ⟨svc.answer page (s.asks page), revision,
        (s.pages.held page).any fun h => (svc.answer page (s.asks page)).length ≤ h.rows.length⟩) q :=
    fun q => congrFun hheld q
  have hfiled : Filed svc ⟨s.pages.asking page, s.asks⟩ := hs.filed.call (.asking page)
  refine ⟨⟨hlisted.put, htotal, hnone, hfiled.put page svc.total⟩, horder, ?_, ?_⟩
  · intro q hq hgone
    rw [hheld' q, if_neg hgone, Function.update_of_ne hq]
  · intro hgone
    refine ⟨revision, ?_⟩
    rw [hheld' page, if_neg hgone, Function.update_self]

/-! ## How much is left to ask -/

/-- What a page may still cost: one that is filed by now is asked for until it stops growing. -/
def cost (p : Pages α) (filed : List Nat) (page : Nat) : Nat :=
  if page ∈ filed then
    match p.held page with
    | some h => if h.settled then 0 else SPAN + 1 - h.rows.length
    | none => 0
  else SPAN + 2

/-- A run that files only pages of this set has filed the last ones of the order, and may cost so
much more. -/
structure Within (pages : Finset Nat) (k : Nat) (s : Sys α) : Prop extends Ready svc s where
  split : ∃ old filed, s.pages.order = old ++ filed ∧
    (∀ q ∈ filed, q ∈ pages ∧ ∀ h, s.pages.held q = some h → h.rows ≠ []) ∧
    ∑ q ∈ pages, cost s.pages filed q ≤ k

theorem within_of_ready {s : Sys α} (hs : Ready svc s) {pages : Finset Nat}
    (hcard : pages.card ≤ KEPT) : @Within α svc pages (KEPT * (SPAN + 2)) s := by
  refine ⟨hs, s.pages.order, [], (List.append_nil _).symm, nofun, ?_⟩
  have hcost : ∀ q ∈ pages, cost s.pages [] q = SPAN + 2 := fun q _ => by simp [cost]
  rw [Finset.sum_const_nat hcost]
  exact Nat.mul_le_mul_right _ hcard

theorem erase_split {old filed : List Nat} (hnodup : (old ++ filed).Nodup) (page : Nat) :
    (old ++ filed).erase page = old.erase page ++ filed.erase page := by
  by_cases hold : page ∈ old
  · have hfiled : page ∉ filed := fun hf => (List.nodup_append.mp hnodup).2.2 page hold page hf rfl
    rw [List.erase_append_left filed hold, List.erase_of_not_mem hfiled]
  · rw [List.erase_append_right filed hold, List.erase_of_not_mem hold]

/-- What is filed is not what goes. -/
theorem Within.usedLast_split {pages : Finset Nat} (hcard : pages.card ≤ KEPT) {p : Pages α}
    (hlisted : Listed p.order p.held) {old filed : List Nat} (horder : p.order = old ++ filed)
    (hfiled : ∀ q ∈ filed, q ∈ pages) {page : Nat} (hpage : page ∈ pages) :
    let gone := (usedLast p page).take ((usedLast p page).length - KEPT)
    ∃ rest, (usedLast p page).drop ((usedLast p page).length - KEPT) =
        rest ++ (filed.erase page ++ [page]) ∧
      ∀ q ∈ filed.erase page ++ [page], q ∉ gone := by
  intro gone
  have hused : usedLast p page = old.erase page ++ (filed.erase page ++ [page]) := by
    unfold usedLast
    rw [horder, erase_split (horder ▸ hlisted.nodup), List.append_assoc]
  have hnodup := hlisted.nodup_usedLast page
  have hsub : ∀ q ∈ filed.erase page ++ [page], q ∈ pages := by
    intro q hq
    rcases List.mem_append.mp hq with hq | hq
    · exact hfiled q (List.mem_of_mem_erase hq)
    · rw [List.mem_singleton.mp hq]
      exact hpage
  have hlen : (filed.erase page ++ [page]).length ≤ KEPT := by
    have hsuf : (filed.erase page ++ [page]).Nodup := by
      rw [hused] at hnodup
      exact hnodup.sublist (List.sublist_append_right _ _)
    rw [← List.toFinset_card_of_nodup hsuf]
    exact (Finset.card_le_card fun q hq => hsub q (List.mem_toFinset.mp hq)).trans hcard
  have hk : (usedLast p page).length - KEPT ≤ (old.erase page).length := by
    rw [hused, List.length_append]
    omega
  have hdrop : (usedLast p page).drop ((usedLast p page).length - KEPT) =
      (old.erase page).drop ((usedLast p page).length - KEPT) ++ (filed.erase page ++ [page]) := by
    conv_lhs => arg 2; rw [hused]
    exact List.drop_append_of_le_length hk
  refine ⟨_, hdrop, fun q hq hgone => ?_⟩
  rw [← List.take_append_drop ((usedLast p page).length - KEPT) (usedLast p page),
    List.nodup_append] at hnodup
  refine hnodup.2.2 q hgone q ?_ rfl
  rw [hdrop]
  exact List.mem_append_right _ hq

/-- A round files a page for less than it cost before. -/
theorem Within.step {pages : Finset Nat} (hcard : pages.card ≤ KEPT) {s : Sys α} {k : Nat}
    (hs : @Within α svc pages k s) {page : Nat} (hpage : page ∈ pages)
    (hin : startOf page < svc.total)
    (hlack : ∀ h, s.pages.held page = some h → h.rows ≠ [] → h.settled = false) :
    ∃ k' < k, @Within α svc pages k'
      ⟨((s.pages.asking page).put page (svc.answer page (s.asks page)) svc.total).1,
        Function.update s.asks page (s.asks page + 1)⟩ := by
  obtain ⟨hready, horder', hkeep, hput⟩ := hs.toReady.put page
  obtain ⟨old, filed, horder, hfiled, hsum⟩ := hs.split
  obtain ⟨rest, hdrop, hstay⟩ := Within.usedLast_split hcard hs.listed horder
    (fun q hq => (hfiled q hq).1) hpage
  obtain ⟨revision, hhere⟩ := hput (hstay page (by simp))
  have hanswer := answer_ne_nil hin (s.asks page)
  have hshort := svc.within page (s.asks page)
  generalize ((s.pages.asking page).put page (svc.answer page (s.asks page)) svc.total).1 = p'
    at hready horder' hkeep hhere ⊢
  have hmem : ∀ q, q ≠ page → (q ∈ filed.erase page ++ [page] ↔ q ∈ filed) := by
    intro q hq
    rw [List.mem_append, List.mem_singleton, List.mem_erase_of_ne hq]
    exact ⟨fun h => h.resolve_right hq, Or.inl⟩
  have hsame : ∀ q, q ≠ page → q ∈ filed → p'.held q = s.pages.held q := fun q hq hf =>
    hkeep q hq (hstay q ((hmem q hq).mpr hf))
  have hcost : ∀ q, q ≠ page →
      cost p' (filed.erase page ++ [page]) q = cost s.pages filed q := by
    intro q hq
    unfold cost
    by_cases hf : q ∈ filed
    · rw [if_pos hf, if_pos ((hmem q hq).mpr hf), hsame q hq hf]
    · rw [if_neg hf, if_neg (fun h => hf ((hmem q hq).mp h))]
  have hless : cost p' (filed.erase page ++ [page]) page < cost s.pages filed page := by
    unfold cost
    rw [if_pos (by simp), hhere]
    dsimp only
    by_cases hf : page ∈ filed
    · -- filed before: it has grown, or it is settled now
      obtain ⟨h, hbefore⟩ := Option.isSome_iff_exists.mp
        ((hs.listed.listed page).mp (horder ▸ List.mem_append_right old hf))
      obtain ⟨n, hn, hlen, -⟩ := hs.filed page h hbefore
      have hgrown := @length_answer_mono _ svc page _ _ (Nat.le_of_lt hn)
      rw [if_pos hf, hbefore]
      dsimp only
      rw [hlack h hbefore ((hfiled page hf).2 h hbefore), if_neg Bool.false_ne_true]
      split
      · omega
      · rename_i hlonger
        have hlt : h.rows.length < (svc.answer page (s.asks page)).length := by
          simpa using hlonger
        omega
    · have hpos := List.length_pos_iff.mpr hanswer
      rw [if_neg hf]
      split <;> omega
  refine ⟨∑ q ∈ pages, cost p' (filed.erase page ++ [page]) q, ?_, hready, rest,
    filed.erase page ++ [page], horder'.trans hdrop, ?_, le_refl _⟩
  · refine lt_of_lt_of_le (Finset.sum_lt_sum (fun q _ => ?_) ⟨page, hpage, hless⟩) hsum
    by_cases hq : q = page
    · rw [hq]
      exact le_of_lt hless
    · exact le_of_eq (hcost q hq)
  · intro q hq
    by_cases hqp : q = page
    · subst hqp
      refine ⟨hpage, fun h hh => ?_⟩
      have hrows := Option.some.inj (hhere.symm.trans hh)
      rw [← hrows]
      exact hanswer
    · have hf := (hmem q hqp).mp hq
      have hqf := hfiled q hf
      exact ⟨hqf.1, fun h hh => hqf.2 h ((hsame q hqp hf) ▸ hh)⟩

/-! ## The run -/

variable {first last : Nat} {speculate : Bool}

/-- A round with a page to ask for costs something. -/
theorem Within.round (h : first ≤ last) (hpages : pageOf last - pageOf first + 1 ≤ KEPT - 2)
    {s : Sys α} {k : Nat} (hs : @Within α svc (near first last svc.total) k s) :
    s.pages.nextPage first last speculate false = none ∨
      ∃ k' < k, @Within α svc (near first last svc.total) k'
        (PageCache.round svc first last speculate s) := by
  cases hnext : s.pages.nextPage first last speculate false with
  | none => exact Or.inl rfl
  | some page =>
    obtain ⟨hmem, hin, hlack⟩ := nextPage_some h hnext
    rw [hs.total] at hmem hin
    right
    unfold PageCache.round
    rw [hnext]
    exact hs.step (card_near h hpages svc.total) hmem hin hlack

/-- Rounds that cost something come to an end. -/
theorem Within.run (h : first ≤ last) (hpages : pageOf last - pageOf first + 1 ≤ KEPT - 2)
    {k : Nat} : ∀ {s : Sys α}, @Within α svc (near first last svc.total) k s →
    ∃ n ≤ k, Ready svc ((PageCache.round svc first last speculate)^[n] s) ∧
      ((PageCache.round svc first last speculate)^[n] s).pages.nextPage first last speculate false =
        none := by
  induction k using Nat.strong_induction_on with
  | _ k ih =>
    intro s hs
    rcases @Within.round _ _ _ _ speculate h hpages _ _ hs with hnone | ⟨k', hk', hstep⟩
    · exact ⟨0, Nat.zero_le k, hs.toReady, hnone⟩
    · obtain ⟨n, hn, hready, hnone⟩ := ih k' hk' hstep
      exact ⟨n + 1, by omega, hready, hnone⟩

/-- When nothing is asked for, every row that is shown is here, as far as the service serves it. -/
theorem Ready.filled {s : Sys α} (hs : Ready svc s)
    (hnone : s.pages.nextPage first last speculate false = none) {row : Nat} (hfirst : first ≤ row)
    (hlast : row ≤ last) (htotal : row < svc.total)
    (hserved : row - startOf (pageOf row) < (svc.answer (pageOf row) 1).length) :
    (s.pages.at_ row).isSome = true := by
  have hwants := @nextPage_none _ _ _ _ _ (by rw [hs.total]; omega) hs.asked hnone (pageOf row)
    (by rw [hs.total]; simp only [pageOf, SPAN]; omega)
    (by rw [hs.total]; simp only [pageOf, SPAN]; omega)
  unfold Pages.wants at hwants
  unfold Pages.at_
  cases hheld : s.pages.held (pageOf row) with
  | none =>
    rw [hheld] at hwants
    cases hwants
  | some h =>
    obtain ⟨n, -, hlen, hsettled⟩ := hs.filed _ h hheld
    have hlong : row - startOf (pageOf row) < h.rows.length := by
      cases hset : h.settled with
      | true =>
        have := @length_answer_mono _ svc (pageOf row) _ _ (hsettled hset)
        omega
      | false =>
        rw [hheld] at hwants
        simp only [hset, Bool.or_eq_false_iff, Bool.not_false, Bool.true_and,
          decide_eq_false_iff_not, hs.total] at hwants
        have := hwants.1.2
        simp only [pageOf, startOf, SPAN] at this ⊢
        omega
    rw [Option.bind_some, List.getElem?_eq_getElem hlong]
    rfl

end

/-! ## What a view comes to -/

section
variable {α : Type}

/-- A view that knows how long the result is, waits for nothing and has its pages from this service
asks until what it shows is there, and then it stops.  In every cache a view comes to, the pages in
order of use are the pages held, each once, and with answers to what is asked there are never more
than are kept. -/
theorem fills_and_stops (svc : Service α) (first last : Nat) (h : first ≤ last)
    (hpages : pageOf last - pageOf first + 1 ≤ KEPT - 2) (speculate : Bool) (s : Sys α)
    (hs : Reachable s.pages) (htotal : s.pages.total = svc.total) (hasked : s.pages.asked = none)
    (hfiled : Filed svc s) :
    Fills svc first last speculate s ∧
      (∀ p : Pages α, Reachable p → p.order.Nodup ∧
        ∀ page, page ∈ p.order ↔ (p.held page).isSome = true) ∧
      ∀ p : Pages α, Answered p → p.order.length ≤ KEPT := by
  refine ⟨?_, fun p hp => ⟨hp.listed.nodup, hp.listed.listed⟩, fun p hp => hp.kept⟩
  · have hready : Ready svc s := ⟨hs.listed, htotal, hasked, hfiled⟩
    obtain ⟨n, hn, hend, hnone⟩ :=
      @Within.run _ _ _ _ speculate h hpages _ _ (within_of_ready hready (card_near h hpages svc.total))
    exact ⟨n, hn, hnone, fun row hfirst hlast hrow hserved =>
      hend.filled hnone hfirst hlast hrow hserved⟩

/-- A result of two rows. -/
def pair : Service Unit where
  total := 2
  answer page _ := if page = 0 then [(), ()] else []
  grows _ _ := List.prefix_rfl
  serves page h := by
    have hpage : page = 0 := by
      simp only [startOf, SPAN] at h
      omega
    simp [hpage]
  within page n := by
    split <;> simp [SPAN]

theorem fills_and_stops_pair :
    Fills pair 0 1 true ⟨(Pages.fresh.setTotal 2).1, fun _ => 0⟩ :=
  (fills_and_stops pair 0 1 (by decide) (by decide) true ⟨(Pages.fresh.setTotal 2).1, fun _ => 0⟩
    (.call (.setTotal 2) .fresh) rfl rfl nofun).1

/-- A view at rest with a row missing does not fill. -/
theorem not_fills_of_rest {svc : Service α} {first last row : Nat} {speculate : Bool} {s : Sys α}
    (hnone : s.pages.nextPage first last speculate false = none) (hfirst : first ≤ row)
    (hlast : row ≤ last) (htotal : row < svc.total)
    (hserved : row - startOf (pageOf row) < (svc.answer (pageOf row) 1).length)
    (hmissing : s.pages.at_ row = none) : ¬ Fills svc first last speculate s := by
  rintro ⟨n, -, -, hall⟩
  have hrest : round svc first last speculate s = s := by
    unfold round
    rw [hnone]
  rw [Function.iterate_fixed hrest n] at hall
  have := hall row hfirst hlast htotal hserved
  rw [hmissing] at this
  cases this

/-- A view that does not know how long the result is asks for nothing, nor does one that waits, nor
one that was served less twice before. -/
theorem not_fills :
    ¬ (∀ (svc : Service Unit) (s : Sys Unit), Reachable s.pages → s.pages.asked = none →
      Filed svc s → Fills svc 0 1 true s) ∧
    ¬ (∀ (svc : Service Unit) (s : Sys Unit), Reachable s.pages → s.pages.total = svc.total →
      Filed svc s → Fills svc 0 1 true s) ∧
    ¬ (∀ (svc : Service Unit) (s : Sys Unit), Reachable s.pages → s.pages.total = svc.total →
      s.pages.asked = none → Fills svc 0 1 true s) := by
  refine ⟨fun h => ?_, fun h => ?_, fun h => ?_⟩
  · refine @not_fills_of_rest _ _ _ _ 0 _ _ ?_ (by decide) (by decide) (by decide) (by decide) ?_
      (h pair ⟨.fresh, fun _ => 0⟩ .fresh rfl nofun)
    · rfl
    · rfl
  · refine @not_fills_of_rest _ _ _ _ 0 _ _ ?_ (by decide) (by decide) (by decide) (by decide) ?_
      (h pair ⟨((Pages.fresh.setTotal 2).1).asking 0, fun _ => 0⟩
        (.call (.asking 0) (.call (.setTotal 2) .fresh)) rfl nofun)
    · rfl
    · rfl
  · have hreach : Reachable (((Pages.fresh.put 0 [()] 2).1.put 0 [()] 2).1) :=
      .put 0 [()] 2 (.put 0 [()] 2 .fresh)
    refine @not_fills_of_rest _ _ _ _ 1 _ _ ?_ (by decide) (by decide) (by decide) (by decide) ?_
      (h pair ⟨((Pages.fresh.put 0 [()] 2).1.put 0 [()] 2).1, fun _ => 0⟩ hreach rfl rfl)
    · rfl
    · rfl

end

end Scour.PageCache
