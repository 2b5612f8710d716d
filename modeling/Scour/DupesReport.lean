import Scour.DupesParts

/-!
# A duplicate report and its budget

`exact_iff`: with budget enough, the groups are exactly the classes of identical files, where no
file that can only be read in part stands at the head of a class that others belong to.
`keeps_budget`: cut short, a report keeps its budget and loses no identical pair, where the budget
does not part a pair in the middle of its class.
-/

namespace Scour.Dupes

open Search (Class Classed entries entry openers Tells Clear)
open Sizes (saturatingSub toNat_saturatingSub)

/-! ## The budget -/

/-- What the code counts for some steps. -/
def counted (steps : List Step) : Nat := (steps.map fun s => s.counted.toNat).sum

/-- What some steps take from the files. -/
def took (steps : List Step) : Nat := (steps.map Step.took).sum

theorem counted_append (xs ys : List Step) : counted (xs ++ ys) = counted xs + counted ys := by
  unfold counted
  rw [List.map_append, List.sum_append]

theorem counted_add (m : Meter) (n : UInt64) (taken : Nat) :
    counted (m.add n taken).steps = counted m.steps + n.toNat :=
  (counted_append _ _).trans rfl

/-- The budget is one that sums can pass, and the candidates are so few that their ends can be
summed up. -/
def Bounding (n : Nat) (budget : UInt64) : Prop := n < 2 ^ 51 ∧ budget.toNat < 2 ^ 64 - 1

/-- A meter that has counted right, and within the budget where that bounds anything. -/
structure Meter.Within (n : Nat) (budget : UInt64) (m : Meter) : Prop where
  read : m.read.toNat = counted m.steps % 2 ^ 64
  budget : Bounding n budget → counted m.steps ≤ budget.toNat

theorem toNat_saturatingAdd (a b : UInt64) :
    (saturatingAdd a b).toNat = min (a.toNat + b.toNat) (2 ^ 64 - 1) := by
  have ha := a.toNat_lt
  have hb := b.toNat_lt
  have hle : a ≤ a + b ↔ a.toNat ≤ (a.toNat + b.toNat) % 2 ^ 64 := by
    rw [UInt64.le_iff_toNat_le, UInt64.toNat_add]
  unfold saturatingAdd
  by_cases h : a.toNat + b.toNat < 2 ^ 64
  · rw [Nat.mod_eq_of_lt h] at hle
    rw [if_pos (hle.mpr (by omega)), UInt64.toNat_add, Nat.mod_eq_of_lt h]
    omega
  · have hmod : (a.toNat + b.toNat) % 2 ^ 64 = a.toNat + b.toNat - 2 ^ 64 := by
      rw [Nat.mod_eq_sub_mod (by omega), Nat.mod_eq_of_lt (by omega)]
    rw [hmod] at hle
    rw [if_neg fun h' => by have := hle.mp h'; omega]
    show 2 ^ 64 - 1 = _
    omega

section
variable {d : Disk} {h : Hasher} {files : List Candidate} {minSize size budget : UInt64} {n : Nat}

/-- What the check leaves room for. -/
theorem Meter.Within.room {m : Meter} (hm : m.Within n budget) {x : UInt64}
    (hcheck : ¬ budget < saturatingAdd m.read x) (hbudget : Bounding n budget) :
    counted m.steps + x.toNat ≤ budget.toNat := by
  rw [UInt64.lt_iff_toNat_lt, toNat_saturatingAdd] at hcheck
  have hle := hm.budget hbudget
  have hread := hm.read
  have hmax := hbudget.2
  rw [Nat.mod_eq_of_lt (by omega)] at hread
  omega

theorem Meter.Within.add {m : Meter} (hm : m.Within n budget) {x k : UInt64} {taken : Nat}
    (hcheck : ¬ budget < saturatingAdd m.read x) (hk : k.toNat ≤ x.toNat) :
    (m.add k taken).Within n budget where
  read := by
    show (m.read + k).toNat = _
    rw [counted_add, UInt64.toNat_add, hm.read]
    omega
  budget hbudget := by
    have := hm.room hcheck hbudget
    rw [counted_add]
    omega

theorem toNat_double (hsize : size.toNat < 2 ^ 63) : (size * 2).toNat = size.toNat * 2 := by
  rw [UInt64.toNat_mul]
  exact Nat.mod_eq_of_lt (by show size.toNat * 2 < 2 ^ 64; omega)

/-- How many paths have joined another. -/
def joined (classes : List (Class Str)) : Nat := (classes.map fun c => c.others.length).sum

theorem place_within (hsize : size.toNat < 2 ^ 63) {p : Str} {classes : List (Class Str)}
    {m m' : Meter} {after : Option (List (Class Str))} (hm : m.Within n budget)
    (h : place d size budget p classes m = (after, m')) : m'.Within n budget ∧
      counted m.steps ≤ counted m'.steps ∧ ∀ cs, after = some cs →
        counted m.steps + 2 * size.toNat * joined cs ≤
          counted m'.steps + 2 * size.toNat * joined classes := by
  have hdouble := toNat_double hsize
  induction classes generalizing m after with
  | nil =>
    cases h
    exact ⟨hm, Nat.le_refl _, fun cs hcs => by cases hcs; exact Nat.le_refl _⟩
  | cons c rest ih =>
    unfold place at h
    split at h
    · cases h
      exact ⟨hm, Nat.le_refl _, by rintro cs ⟨⟩⟩
    rename_i hcheck
    split at h
    · cases h
      refine ⟨hm.add hcheck (Nat.le_refl _), ?_, ?_⟩
      · unfold Meter.compare
        rw [counted_add]
        omega
      · rintro cs hcs
        cases hcs
        unfold Meter.compare joined Class.push
        rw [counted_add, hdouble]
        simp only [List.map_cons, List.sum_cons, List.length_append, List.length_singleton]
        rw [Nat.mul_add, Nat.mul_add, Nat.mul_add]
        omega
    · obtain ⟨hafter, hmeter⟩ := Prod.mk.inj h
      have hfirst : (m.compare d c.first p size).Within n budget := hm.add hcheck (by omega)
      obtain ⟨hwithin, hle, hpaid⟩ := ih hfirst (Prod.ext rfl hmeter)
      unfold Meter.compare at hle hpaid
      rw [counted_add] at hle hpaid
      refine ⟨hwithin, by omega, ?_⟩
      rintro cs rfl
      obtain ⟨rest', hrest, rfl⟩ := Option.map_eq_some_iff.mp hafter
      have := hpaid rest' hrest
      unfold joined at this ⊢
      simp only [List.map_cons, List.sum_cons]
      rw [Nat.mul_add, Nat.mul_add]
      omega
    · cases h
      refine ⟨hm.add hcheck (Nat.zero_le _), ?_, ?_⟩
      · unfold Meter.compare
        rw [counted_add]
        omega
      · rintro cs hcs
        cases hcs
        unfold Meter.compare
        rw [counted_add]
        exact Nat.le_refl _

theorem partitionFrom_within (hsize : size.toNat < 2 ^ 63) {paths left : List Str}
    {classes after : List (Class Str)} {m m' : Meter} (hm : m.Within n budget)
    (h : partitionFrom d size budget paths classes m = (after, left, m')) : m'.Within n budget ∧
      counted m.steps + 2 * size.toNat * joined after ≤
        counted m'.steps + 2 * size.toNat * joined classes := by
  induction paths generalizing classes m with
  | nil =>
    cases h
    exact ⟨hm, Nat.le_refl _⟩
  | cons p paths ih =>
    unfold partitionFrom at h
    split at h
    · rename_i m'' hplace
      cases h
      obtain ⟨hwithin, hle, -⟩ := place_within hsize hm hplace
      exact ⟨hwithin, by omega⟩
    · rename_i classes' m'' hplace
      obtain ⟨hwithin, -, hpaid⟩ := place_within hsize hm hplace
      obtain ⟨hlast, hrest⟩ := ih hwithin h
      have := hpaid classes' rfl
      exact ⟨hlast, by omega⟩

/-- A meter that went on from nothing, with what the budget had left, added to the meter before. -/
theorem Meter.Within.join {m m' : Meter} (hm : m.Within n budget)
    (hm' : m'.Within n (saturatingSub budget m.read)) :
    Meter.Within n budget ⟨m.read + m'.read, m.steps ++ m'.steps⟩ where
  read := by
    show (m.read + m'.read).toNat = _
    rw [UInt64.toNat_add, hm.read, hm'.read, counted_append]
    omega
  budget hbudget := by
    have hle := hm.budget hbudget
    have hread := hm.read
    have hmax := hbudget.2
    rw [Nat.mod_eq_of_lt (by omega)] at hread
    have hrest := hm'.budget
    unfold Bounding at hrest
    rw [toNat_saturatingSub] at hrest
    have := hrest ⟨hbudget.1, by omega⟩
    rw [counted_append]
    omega

/-- What the classes of a part give back. -/
def Part.saves : Part → Nat
  | .unread _ _ => 0
  | .parted size classes _ _ => size.toNat * joined classes

/-- A run within a budget, which has counted what its classes give back. -/
structure Run.Within (n : Nat) (budget : UInt64) (r : Run) : Prop where
  meter : r.meter.Within n budget
  saves : 2 * (r.parts.map Part.saves).sum ≤ counted r.meter.steps

theorem bucket_within {r : Run} {same : List Str} (hsize : same ≠ [] → size.toNat < 2 ^ 63)
    (hr : r.Within n budget) : (r.bucket d budget size same).Within n budget := by
  unfold Run.bucket
  split
  · exact hr
  · rename_i hlen
    have hne : same ≠ [] := by
      rintro rfl
      exact hlen (by decide)
    dsimp only
    cases hpart : partition d (same.insertionSort (· ≤ ·)) size
        (saturatingSub budget r.meter.read) with
    | mk classes rest =>
      obtain ⟨left, m⟩ := rest
      have hzero : Meter.Within n (saturatingSub budget r.meter.read) ⟨0, []⟩ :=
        ⟨rfl, fun _ => Nat.zero_le _⟩
      obtain ⟨hm, hpaid⟩ := partitionFrom_within (hsize hne) hzero hpart
      have hjoin := hr.meter.join hm
      have hsaves : 2 * ((r.parts ++ [Part.parted size classes ((same.insertionSort (· ≤ ·)).take
          ((same.insertionSort (· ≤ ·)).length - left.length)) left]).map Part.saves).sum ≤
            counted (r.meter.steps ++ m.steps) := by
        have hold := hr.saves
        have hnil : counted [] + 2 * size.toNat * joined classes ≤
            counted m.steps + 2 * size.toNat * joined [] := hpaid
        have hz : counted [] = 0 := rfl
        have hz' : joined [] = 0 := rfl
        rw [hz, hz', Nat.mul_zero, Nat.mul_assoc] at hnil
        rw [counted_append, List.map_append, List.sum_append]
        show 2 * (_ + (size.toNat * joined classes + 0)) ≤ _
        omega
      dsimp only
      split
      · exact ⟨hjoin, hsaves⟩
      · exact ⟨hjoin, hsaves⟩

theorem buckets_within {bs : List (List Str)} {r : Run}
    (hsize : ∀ b ∈ bs, b ≠ [] → size.toNat < 2 ^ 63) (hr : r.Within n budget) :
    (bs.foldl (Run.bucket d budget size) r).Within n budget := by
  induction bs generalizing r with
  | nil => exact hr
  | cons b bs ih =>
    exact ih (fun b hb => hsize b (List.mem_cons_of_mem _ hb))
      (bucket_within (hsize b List.mem_cons_self) hr)

theorem edges_file {p : Str} {mark : UInt64} (he : (edges d p size).map (·.1) = some mark) :
    ∃ f, d.file p = some f := by
  cases hopen : d.open_ p with
  | none =>
    unfold edges at he
    rw [hopen] at he
    cases he
  | some f => exact ⟨f, (Disk.open_eq_some.mp hopen).1⟩

/-- What the ends of a file cost. -/
theorem edges_counted {p : Str} {mark n : UInt64} (he : edges d p size = some (mark, n))
    (hsize : ∀ f, d.file p = some f → size.toNat = f.bytes.length) :
    n.toNat ≤ min size.toNat (2 * EDGE) := by
  have hedge : EDGE = 4096 := rfl
  have hcut {f : File} {start n : Nat} {bs : Str} (h : f.read start n = some bs) :
      bs.length ≤ n ∧ bs.length ≤ f.bytes.length := by
    rw [(File.read_eq_some.mp h).1, List.length_take, List.length_drop]
    omega
  unfold edges at he
  cases hopen : d.open_ p with
  | none =>
    rw [hopen] at he
    cases he
  | some f =>
    have hlen := hsize f (Disk.open_eq_some.mp hopen).1
    rw [hopen] at he
    dsimp only at he
    split at he
    · cases he
    rename_i head hhead
    have hhead := hcut hhead
    split at he
    · split at he
      · cases he
      split at he
      · cases he
      rename_i tail htail
      have htail := hcut htail
      cases he
      rw [UInt64.toNat_add, UInt64.toNat_ofNat', UInt64.toNat_ofNat']
      omega
    · cases he
      rw [UInt64.toNat_ofNat']
      omega

/-- What the ends of several files cost. -/
theorem ends_counted (d : Disk) (size : UInt64) (cap : Nat) (paths : List Str)
    (hcap : ∀ p ∈ paths, ∀ mark n, edges d p size = some (mark, n) → n.toNat ≤ cap) (e : Ends)
    (hread : e.meter.read.toNat = counted e.meter.steps % 2 ^ 64) :
    let m := (paths.foldl (Ends.next d size) e).meter
    m.read.toNat = counted m.steps % 2 ^ 64 ∧ counted e.meter.steps ≤ counted m.steps ∧
      counted m.steps ≤ counted e.meter.steps + paths.length * cap := by
  have hlook (e : Ends) (p : Str) (hp : ∀ mark n, edges d p size = some (mark, n) → n.toNat ≤ cap)
      (hread : e.meter.read.toNat = counted e.meter.steps % 2 ^ 64) :
      let m := (e.look d size p).meter
      m.read.toNat = counted m.steps % 2 ^ 64 ∧ counted e.meter.steps ≤ counted m.steps ∧
        counted m.steps ≤ counted e.meter.steps + cap := by
    have hadd (n : UInt64) (taken : Nat) (hn : n.toNat ≤ cap) :
        (e.meter.add n taken).read.toNat = counted (e.meter.add n taken).steps % 2 ^ 64 ∧
          counted e.meter.steps ≤ counted (e.meter.add n taken).steps ∧
          counted (e.meter.add n taken).steps ≤ counted e.meter.steps + cap := by
      rw [counted_add]
      refine ⟨?_, by omega, by omega⟩
      show (e.meter.read + n).toNat = _
      rw [UInt64.toNat_add, hread]
      omega
    unfold Ends.look
    split
    · exact hadd 0 _ (Nat.zero_le _)
    · rename_i mark n hedges
      exact hadd n _ (hp mark n hedges)
  induction paths generalizing e with
  | nil => exact ⟨hread, Nat.le_refl _, Nat.le_add_right _ _⟩
  | cons p paths ih =>
    have hnext : let m := (e.next d size p).meter
        m.read.toNat = counted m.steps % 2 ^ 64 ∧ counted e.meter.steps ≤ counted m.steps ∧
          counted m.steps ≤ counted e.meter.steps + cap := by
      have hp := hcap p List.mem_cons_self
      unfold Ends.next
      split
      · exact hlook e p hp hread
      · split
        · exact ⟨hread, Nat.le_refl _, Nat.le_add_right _ _⟩
        · exact hlook _ p hp hread
    obtain ⟨hread', hle, hcost⟩ := hnext
    obtain ⟨hlast, hmono, hall⟩ := ih (fun q hq => hcap q (List.mem_cons_of_mem _ hq)) _ hread'
    refine ⟨hlast, Nat.le_trans hle hmono, ?_⟩
    rw [List.foldl_cons, List.length_cons, Nat.succ_mul]
    omega

/-- The files of one size keep the budget. -/
theorem group_within {r : Run} (hr : r.Within n budget) {paths : List Str}
    (hlen : paths.length ≤ n)
    (hsizes : ∀ p ∈ paths, ∀ f, d.file p = some f → size.toNat = f.bytes.length) :
    (r.group d h budget (size, paths)).Within n budget := by
  unfold Run.group
  dsimp only
  split
  · refine ⟨hr.meter, ?_⟩
    have := hr.saves
    rw [List.map_append, List.sum_append]
    exact this
  · rename_i hcheck
    have hsizes' : ∀ p ∈ paths.insertionSort (· ≤ ·), ∀ f, d.file p = some f →
        size.toNat = f.bytes.length := fun p hp => hsizes p ((List.mem_insertionSort _).mp hp)
    obtain ⟨hread, hle, hcost⟩ := ends_counted d size (min size.toNat (2 * EDGE))
      (paths.insertionSort (· ≤ ·))
      (fun p hp mark n he => edges_counted he (hsizes' p hp)) ⟨[], [], r.meter⟩ hr.meter.read
    have hends (hbudget : Bounding n budget) : (UInt64.ofNat (paths.insertionSort (· ≤ ·)).length *
        min size (UInt64.ofNat (2 * EDGE))).toNat =
          (paths.insertionSort (· ≤ ·)).length * min size.toNat (2 * EDGE) := by
      have hmin : (min size (UInt64.ofNat (2 * EDGE))).toNat = min size.toNat (2 * EDGE) := by
        show (if size ≤ UInt64.ofNat (2 * EDGE) then size else UInt64.ofNat (2 * EDGE)).toNat = _
        have hle : size ≤ UInt64.ofNat (2 * EDGE) ↔ size.toNat ≤ 2 * EDGE := UInt64.le_iff_toNat_le
        split
        · rename_i h
          exact (Nat.min_eq_left (hle.mp h)).symm
        · rename_i h
          exact (Nat.min_eq_right (Nat.le_of_not_le (mt hle.mpr h))).symm
      have hcap : min size.toNat (2 * EDGE) ≤ 2 ^ 13 := Nat.min_le_right _ _
      have hfew := hbudget.1
      have hall : paths.length * min size.toNat (2 * EDGE) < 2 ^ 64 :=
        calc paths.length * min size.toNat (2 * EDGE)
            ≤ paths.length * 2 ^ 13 := Nat.mul_le_mul_left _ hcap
          _ < 2 ^ 64 := by omega
      rw [List.length_insertionSort, UInt64.toNat_mul, hmin, UInt64.toNat_ofNat',
        Nat.mod_eq_of_lt (show paths.length < 2 ^ 64 by omega), Nat.mod_eq_of_lt hall]
    refine buckets_within ?_ ⟨⟨hread, fun hbudget => ?_⟩, ?_⟩
    · intro b hb hne
      rw [Ends.foldl_marks] at hb
      obtain ⟨mark, -, rfl⟩ := mem_buckets.mp hb
      obtain ⟨p, hp⟩ := List.exists_mem_of_ne_nil _ hne
      obtain ⟨hp, hedges⟩ := List.mem_filter.mp hp
      obtain ⟨f, hf⟩ := edges_file (of_decide_eq_true hedges)
      rw [hsizes' p ((oneName_sublist _).subset hp) f hf]
      exact f.fits
    · have := hr.meter.room hcheck hbudget
      rw [hends hbudget] at this
      exact Nat.le_trans hcost this
    · exact Nat.le_trans hr.saves hle

theorem length_sized : (sized d files size).length ≤ files.length := by
  refine Nat.le_trans (unlinked_sublist _ _).length_le ?_
  rw [List.length_map, List.length_insertionSort, List.length_map]
  exact List.length_filter_le _ _

/-- A run keeps its budget. -/
theorem run_within (h : Hasher) (hsizes : TrueSizes d files) (o : Options) :
    (run d h files o).Within files.length o.readBudget := by
  have hall (l : List (UInt64 × List Str)) (hl : ∀ e ∈ l, e ∈ pending d h files o.minSize)
      {r : Run} (hr : r.Within files.length o.readBudget) :
      (l.foldl (Run.group d h o.readBudget) r).Within files.length o.readBudget := by
    induction l generalizing r with
    | nil => exact hr
    | cons e l ih =>
      obtain ⟨size, paths⟩ := e
      obtain ⟨-, hpaths, -⟩ := (mem_pending _).mp (hl _ List.mem_cons_self)
      obtain rfl : paths = sized d files size := hpaths
      refine ih (fun e he => hl e (List.mem_cons_of_mem _ he)) (group_within hr length_sized ?_)
      intro p hp f hf
      obtain ⟨c, hc, rfl, rfl⟩ := mem_sized hp
      exact hsizes c hc f hf
  exact hall _ (fun e he => he) ⟨⟨rfl, fun _ => Nat.zero_le _⟩, Nat.zero_le _⟩

/-- What a run makes of the candidates. -/
theorem run_apportioned (h : Hasher) (hsizes : TrueSizes d files) (o : Options) :
    Apportioned d files o.minSize (run d h files o).parts ∧
      (run d h files o).out = (run d h files o).parts.flatMap Part.groups := by
  obtain ⟨pss, hshares, hadds⟩ := run_adds h o.readBudget
    (pending d h files o.minSize) ⟨[], 0, ⟨0, []⟩, []⟩
  have hparts : (run d h files o).parts = pss.flatten := hadds.parts
  rw [hparts]
  exact ⟨apportioned hsizes hshares, hadds.out⟩

end

/-! ## A report cut short -/

/-- Each step of a run takes no more than is counted for it: nothing is read of a file that cannot
be read, and files that differ do so in their first half. -/
def Run.Honest (r : Run) : Prop := ∀ s ∈ r.meter.steps, s.took ≤ s.counted.toNat

/-- What a report that may be cut short promises. -/
structure KeepsBudget (d : Disk) (h : Hasher) (files : List Candidate) (o : Options) : Prop where
  took : took (run d h files o).meter.steps ≤ (findNamed d h files o).read.toNat
  read : (findNamed d h files o).read ≤ o.readBudget
  together : Together d files o.minSize (groups d h files o)

section
variable {d : Disk} {h : Hasher} {files : List Candidate} {o : Options}

theorem Together.perm {minSize : UInt64} {gs gs' : List Group} (hperm : gs.Perm gs') :
    Together d files minSize gs ↔ Together d files minSize gs' := by
  unfold Together
  simp only [hperm.mem_iff]

theorem took_le {steps : List Step} (hhonest : ∀ s ∈ steps, s.took ≤ s.counted.toNat) :
    took steps ≤ counted steps := by
  unfold took counted
  exact List.sum_le_sum hhonest

end

/-- A disk with these files. -/
def Disk.of (l : List (Str × File))
    (hl : ∀ x ∈ l, ∀ y ∈ l, x.2.identity = y.2.identity → x.2 = y.2) : Disk where
  file p := (l.find? fun x => x.1 = p).map (·.2)
  one hp hq hid := by
    obtain ⟨x, hx, rfl⟩ := Option.map_eq_some_iff.mp hp
    obtain ⟨y, hy, rfl⟩ := Option.map_eq_some_iff.mp hq
    exact hl x (List.mem_of_find?_eq_some hx) y (List.mem_of_find?_eq_some hy) hid

/-- A file of one byte that can be read. -/
def single (ino : UInt64) : File := ⟨0, ino, [120], true, fun _ => false, by decide⟩

/-- Two such files. -/
def twoSingles : Disk :=
  .of [([97], single 1), ([98], single 2)] (by
    rintro x hx y hy hid
    simp only [List.mem_cons, List.not_mem_nil, or_false] at hx hy
    rcases hx with rfl | rfl <;> rcases hy with rfl | rfl
    · rfl
    · exact absurd hid (by decide)
    · exact absurd hid (by decide)
    · rfl)

/-- A hash map that gives what it has in the order it came. -/
def inOrder : Hasher := ⟨fun m => m, fun m => .refl m⟩

def twoCandidates : List Candidate := [⟨[97], 1, 1⟩, ⟨[98], 1, 1⟩]

theorem single_whole (ino : UInt64) : (single ino).Whole := ⟨rfl, fun _ _ => rfl⟩

theorem twoSingles_sure {p : Str} (hp : p ∈ [[97], [98]]) : Sure twoSingles p := by
  simp only [List.mem_cons, List.not_mem_nil, or_false] at hp
  rcases hp with rfl | rfl
  · exact ⟨single 1, rfl, single_whole 1⟩
  · exact ⟨single 2, rfl, single_whole 2⟩

theorem trueSizes_of {d : Disk} {files : List Candidate}
    (hall : ∀ c ∈ files, ∃ f, d.file c.path = some f ∧ c.size.toNat = f.bytes.length) :
    TrueSizes d files := by
  intro c hc f hf
  obtain ⟨g, hg, hsize⟩ := hall c hc
  rw [hsize, Option.some.inj (hg.symm.trans hf)]

theorem twoCandidates_true : TrueSizes twoSingles twoCandidates := by
  refine trueSizes_of fun c hc => ?_
  simp only [twoCandidates, List.mem_cons, List.not_mem_nil, or_false] at hc
  rcases hc with rfl | rfl
  · exact ⟨single 1, rfl, rfl⟩
  · exact ⟨single 2, rfl, rfl⟩

/-- A run that can afford it compares the two. -/
theorem twoSingles_run : run twoSingles inOrder twoCandidates ⟨0, 100, 50⟩ =
    ⟨[⟨1, [[97], [98]], .content⟩], 0, ⟨4, [⟨1, 1⟩, ⟨1, 1⟩, ⟨2, 2⟩]⟩,
      [.parted 1 [⟨[97], [[98]]⟩] [[97], [98]] []]⟩ := by
  rfl

theorem twoSingles_twins :
    Twins twoSingles twoCandidates 0 (single 1) (single 2) where
  left := ⟨⟨[97], 1, 1⟩, by simp [twoCandidates], by decide, rfl⟩
  right := ⟨⟨[98], 1, 1⟩, by simp [twoCandidates], by decide, rfl⟩
  different := by decide
  leftWhole := single_whole 1
  rightWhole := single_whole 2
  same := rfl

def Part.Whole : Part → Prop
  | .unread _ _ => False
  | .parted _ _ _ left => left = []

/-- The budget is not reached: every comparison is made, and all that is counted is within it. -/
structure Unreached (d : Disk) (h : Hasher) (files : List Candidate) (o : Options) : Prop where
  whole : ∀ part ∈ (run d h files o).parts, part.Whole
  counted : counted (run d h files o).meter.steps ≤ o.readBudget.toNat

/-- What deleting all but one gives back. -/
def Group.saves (g : Group) : Nat := g.size.toNat * (g.paths.length - 1)

/-- The groups are the classes of files with the same bytes. -/
structure Exact (d : Disk) (files : List Candidate) (minSize : UInt64) (gs : List Group)
    (waste : UInt64) : Prop where
  content : ∀ g ∈ gs, g.certainty = .content
  together : Together d files minSize gs
  alike : ∀ g ∈ gs, 1 < g.paths.length ∧ g.paths.Pairwise fun p q => ∃ f f',
    d.file p = some f ∧ d.file q = some f' ∧ g.size.toNat = f.bytes.length ∧
      Twins d files minSize f f'
  candidates : ∀ g ∈ gs, ∀ p ∈ g.paths, ∃ c ∈ files, c.path = p
  apart : (gs.flatMap Group.paths).Pairwise fun p q => d.identity p ≠ d.identity q
  waste : waste.toNat = (gs.map Group.saves).sum

section
variable {d : Disk} {h : Hasher} {files : List Candidate} {minSize : UInt64} {o : Options}

theorem toNat_waste (g : Group) (hne : g.paths ≠ []) : g.waste.toNat = g.saves % 2 ^ 64 := by
  obtain ⟨p, rest, hpaths⟩ := List.exists_cons_of_ne_nil hne
  have hless : UInt64.ofNat (rest.length + 1) - 1 = UInt64.ofNat rest.length := by
    rw [UInt64.ofNat_add]
    exact UInt64.add_sub_cancel _ _
  unfold Group.waste Group.saves
  rw [hpaths, List.length_cons, hless, UInt64.toNat_mul, UInt64.toNat_ofNat', Nat.mul_mod_mod,
    Nat.add_sub_cancel]

theorem toNat_sum_waste (gs : List Group) (hne : ∀ g ∈ gs, g.paths ≠ []) :
    (gs.map Group.waste).sum.toNat = (gs.map Group.saves).sum % 2 ^ 64 := by
  induction gs with
  | nil => rfl
  | cons g gs ih =>
    rw [List.map_cons, List.map_cons, List.sum_cons, List.sum_cons, UInt64.toNat_add,
      toNat_waste g (hne g List.mem_cons_self),
      ih fun g hg => hne g (List.mem_cons_of_mem _ hg)]
    omega

/-- The groups of a part give back no more than its classes do. -/
theorem Part.saves_groups {part : Part} (hw : part.Whole) :
    (part.groups.map Group.saves).sum ≤ part.saves := by
  cases part with
  | unread _ _ => exact hw.elim
  | parted size classes done left =>
    obtain rfl : left = [] := hw
    have hall (cs : List (Class Str)) : (((cs.filter fun c => 1 < c.members.length).map
        fun c => (⟨size, c.members, .content⟩ : Group)).map Group.saves).sum ≤
          size.toNat * joined cs := by
      induction cs with
      | nil => exact Nat.zero_le _
      | cons c cs ih =>
        unfold joined at ih ⊢
        rw [List.filter_cons, List.map_cons, List.sum_cons, Nat.mul_add]
        split
        · rw [List.map_cons, List.map_cons, List.sum_cons]
          exact Nat.add_le_add (Nat.le_refl _) ih
        · exact Nat.le_trans ih (Nat.le_add_left _ _)
    dsimp only [Part.groups, Part.saves]
    rw [if_neg (by decide), List.append_nil]
    exact hall classes

theorem saves_flatMap {parts : List Part} (hw : ∀ part ∈ parts, part.Whole) :
    ((parts.flatMap Part.groups).map Group.saves).sum ≤ (parts.map Part.saves).sum := by
  induction parts with
  | nil => exact Nat.le_refl _
  | cons part parts ih =>
    rw [List.flatMap_cons, List.map_append, List.sum_append, List.map_cons, List.sum_cons]
    exact Nat.add_le_add (Part.saves_groups (hw part List.mem_cons_self))
      (ih fun part hpart => hw part (List.mem_cons_of_mem _ hpart))

/-- A group of a part that was read to the end. -/
theorem Arises.group_whole {part : Part} (ha : Arises d files minSize part) (hw : part.Whole)
    {grp : Group} (hgrp : grp ∈ part.groups) : ∃ size mark classes, minSize ≤ size ∧
      Classed (identical d) (bucket d files size mark) classes ∧
      part = .parted size classes (bucket d files size mark) [] ∧ ∃ c ∈ classes,
        1 < c.members.length ∧ grp = ⟨size, c.members, .content⟩ := by
  cases ha with
  | unread _ => exact hw.elim
  | @parted size mark classes done left hle hlen hsame hclassed =>
    obtain rfl : left = [] := hw
    rw [List.append_nil] at hsame
    subst hsame
    rcases mem_group_parted hgrp with ⟨c, hc, -, hlen, rfl⟩ | ⟨-, hlen⟩
    · exact ⟨size, mark, classes, hle, hclassed, rfl, c, hc, hlen, rfl⟩
    · cases hlen

/-- The paths of a class are twins. -/
theorem class_twins {size mark : UInt64} (hle : minSize ≤ size) (hsizes : TrueSizes d files)
    (hnodup : (files.map Candidate.path).Nodup) {classes : List (Class Str)}
    (hc : Classed (identical d) (bucket d files size mark) classes) {c : Class Str}
    (hmem : c ∈ classes) (hlen : 1 < c.members.length) : c.members.Pairwise fun p q => ∃ f f',
      d.file p = some f ∧ d.file q = some f' ∧ size.toNat = f.bytes.length ∧
        Twins d files minSize f f' := by
  have hbucket : (bucket d files size mark).Nodup := bucket_nodup hnodup
  have hmembers : c.members.Nodup := hc.members_pairwise hbucket hmem
  refine hmembers.imp_of_mem fun {p q} hp hq hne => ?_
  obtain ⟨hsp, hbp⟩ := hc.sure_of_several (tells d) hbucket hmem hlen hp
  obtain ⟨hsq, hbq⟩ := hc.sure_of_several (tells d) hbucket hmem hlen hq
  have hp := hc.mem_of_mem hmem hp
  have hq := hc.mem_of_mem hmem hq
  obtain ⟨f, f', hf, hf', ht⟩ := twins_of_bucket hle hp hq hne hsp hsq (hbp.symm.trans hbq)
  refine ⟨f, f', hf, hf', ?_, ht⟩
  obtain ⟨x, hx, rfl, rfl⟩ := mem_sized (mem_bucket_sized hp)
  exact hsizes x hx f hf

/-- Parts that were read to the end lose nothing where their buckets are clear. -/
theorem Apportioned.loses_iff {parts : List Part} (hparts : Apportioned d files minSize parts)
    (hwhole : ∀ part ∈ parts, part.Whole) : (∀ part ∈ parts, ¬ part.Loses d) ↔
      ∀ size mark, minSize ≤ size →
        Clear (identical d) (Sure d) (bytesOf d) (bucket d files size mark) := by
  constructor
  · intro hkeeps size mark hle
    by_cases hlen : 1 < (bucket d files size mark).length
    · rcases hparts.reaches size mark hle hlen with hpart | ⟨classes, done, left, hpart, hsame, -⟩
      · exact (hwhole _ hpart).elim
      · obtain rfl : left = [] := hwhole _ hpart
        rw [hsame, List.append_nil]
        by_contra hclear
        exact hkeeps _ hpart (Or.inl hclear)
    · exact Search.clear_of_length_le_one (Nat.le_of_not_lt hlen)
  · intro hclear part hpart hloses
    cases hparts.arises part hpart with
    | unread _ => exact hloses
    | @parted size mark classes done left hle _ hsame _ =>
      obtain rfl : left = [] := hwhole _ hpart
      rw [List.append_nil] at hsame
      rcases hloses with hlost | ⟨_, _, _, hq, _⟩
      · exact hlost (hsame ▸ hclear size mark hle)
      · cases hq

/-- Paths in the groups of parts that were read to the end are of different files. -/
theorem Apportioned.groups_apart {parts : List Part} (hparts : Apportioned d files minSize parts)
    (hwhole : ∀ part ∈ parts, part.Whole) :
    ((parts.flatMap Part.groups).flatMap Group.paths).Pairwise (Apart d) := by
  rw [List.flatMap_assoc, List.pairwise_flatMap]
  constructor
  · intro part hpart
    cases hparts.arises part hpart with
    | unread _ => exact (hwhole _ hpart).elim
    | @parted size mark classes done left _ _ hsame hclassed =>
      obtain rfl : left = [] := hwhole _ hpart
      rw [List.append_nil] at hsame
      have hall : (classes.flatMap Class.members).Pairwise (Apart d) :=
        hclassed.pairwise (hsame ▸ bucket_apart)
      dsimp only [Part.groups]
      rw [if_neg (by decide), List.append_nil, List.flatMap_map]
      exact hall.sublist (List.filter_sublist.flatMap _)
  · refine hparts.foreign.imp_of_mem fun {a b} ha hb hab p hp q hq => ?_
    obtain ⟨g, hg, hp⟩ := List.mem_flatMap.mp hp
    obtain ⟨g', hg', hq⟩ := List.mem_flatMap.mp hq
    exact hab p ((hparts.arises a ha).groups_names hg hp) q
      ((hparts.arises b hb).groups_names hg' hq)

/-- **With budget enough, the groups are the classes of identical files** exactly if in no bucket an
opener that cannot be told from others leaves out the first of several. -/
theorem exact_iff (hnodup : (files.map Candidate.path).Nodup) (hsizes : TrueSizes d files)
    (hun : Unreached d h files o) :
    Exact d files o.minSize (groups d h files o) (findNamed d h files o).waste ↔
      ∀ size mark, o.minSize ≤ size →
        Clear (identical d) (Sure d) (bytesOf d) (bucket d files size mark) := by
  obtain ⟨hparts, hout⟩ := run_apportioned h hsizes o
  have hwithin := run_within h hsizes o
  have hperm : (groups d h files o).Perm (run d h files o).out := List.perm_insertionSort _ _
  have htogether : Together d files o.minSize (groups d h files o) ↔
      ∀ part ∈ (run d h files o).parts, ¬ part.Loses d := by
    rw [← hparts.together_iff hnodup hsizes, ← hout]
    exact Together.perm hperm
  rw [← hparts.loses_iff hun.whole, ← htogether]
  refine ⟨Exact.together, fun ht => ?_⟩
  have hgroup {g : Group} (hg : g ∈ groups d h files o) :
      ∃ part ∈ (run d h files o).parts, g ∈ part.groups := by
    rw [hperm.mem_iff, hout] at hg
    exact List.mem_flatMap.mp hg
  have hwhole {g : Group} (hg : g ∈ groups d h files o) :
      ∃ size mark classes, o.minSize ≤ size ∧
        Classed (identical d) (bucket d files size mark) classes ∧ ∃ c ∈ classes,
          1 < c.members.length ∧ g = ⟨size, c.members, .content⟩ := by
    obtain ⟨part, hpart, hg⟩ := hgroup hg
    obtain ⟨size, mark, classes, hle, hc, -, hg⟩ :=
      (hparts.arises part hpart).group_whole (hun.whole part hpart) hg
    exact ⟨size, mark, classes, hle, hc, hg⟩
  refine ⟨fun g hg => ?_, ht, fun g hg => ?_, fun g hg p hp => ?_, ?_, ?_⟩
  · obtain ⟨_, _, _, _, _, _, _, _, rfl⟩ := hwhole hg
    rfl
  · obtain ⟨size, mark, classes, hle, hc, c, hmem, hlen, rfl⟩ := hwhole hg
    exact ⟨hlen, class_twins hle hsizes hnodup hc hmem hlen⟩
  · obtain ⟨size, mark, classes, hle, hc, c, hmem, hlen, rfl⟩ := hwhole hg
    obtain ⟨x, hx, -, hpath⟩ := mem_sized (mem_bucket_sized (hc.mem_of_mem hmem hp))
    exact ⟨x, hx, hpath⟩
  · have happart : ((groups d h files o).flatMap Group.paths).Pairwise (Apart d) := by
      refine List.Perm.pairwise (hperm.flatMap_right _).symm ?_ Apart.symm
      rw [hout]
      exact hparts.groups_apart hun.whole
    refine happart.imp_of_mem fun {p q} hp _ hpq heq => ?_
    obtain ⟨g, hg, hp⟩ := List.mem_flatMap.mp hp
    obtain ⟨size, mark, classes, -, hc, c, hmem, hlen, rfl⟩ := hwhole hg
    obtain ⟨⟨f, hf, -⟩, -⟩ := hc.sure_of_several (tells d) (bucket_nodup hnodup) hmem hlen hp
    exact hpq _ (Disk.identity_eq hf) (heq ▸ Disk.identity_eq hf)
  · have hle := saves_flatMap hun.whole
    have hsaves := hwithin.saves
    have hcounted := hun.counted
    have hlt := o.readBudget.toNat_lt
    rw [← hout, ← (hperm.map Group.saves).sum_eq] at hle
    show ((groups d h files o).map Group.waste).sum.toNat = _
    rw [toNat_sum_waste _ fun g hg => ?_, Nat.mod_eq_of_lt (by omega)]
    obtain ⟨_, _, _, _, _, c, _, _, rfl⟩ := hwhole hg
    exact List.cons_ne_nil _ _

end

theorem exact_two : Exact twoSingles twoCandidates 0 (groups twoSingles inOrder twoCandidates
    ⟨0, 100, 50⟩) (findNamed twoSingles inOrder twoCandidates ⟨0, 100, 50⟩).waste := by
  have hun : Unreached twoSingles inOrder twoCandidates ⟨0, 100, 50⟩ := by
    constructor
    · intro part hpart
      rw [twoSingles_run] at hpart
      obtain rfl := List.mem_singleton.mp hpart
      rfl
    · rw [twoSingles_run]
      decide
  refine (exact_iff (by decide) twoCandidates_true hun).mpr fun size mark _ => ?_
  refine Search.clear_of_sure (tells _) (bucket_nodup (by decide)) fun p hp => twoSingles_sure ?_
  obtain ⟨c, hc, -, rfl⟩ := mem_sized (mem_bucket_sized hp)
  simp only [twoCandidates, List.mem_cons, List.not_mem_nil, or_false] at hc
  rcases hc with rfl | rfl <;> simp

/-- A file of which the bytes of the first page can be read, and those behind it where told. -/
def paged (ino : UInt64) (bad : Bool) : File where
  dev := 0
  ino := ino
  bytes := List.replicate 4097 120
  opens := true
  bad i := bad && i == 4096
  fits := by
    rw [List.length_replicate]
    decide

/-- Three files of the same bytes, of which the first cannot be read to the end. -/
def threePaged : Disk :=
  .of [([97], paged 1 true), ([98], paged 2 false), ([99], paged 3 false)] (by
    rintro x hx y hy hid
    simp only [List.mem_cons, List.not_mem_nil, or_false] at hx hy
    have hino {i j : UInt64} {a b : Bool} (h : (paged i a).identity = (paged j b).identity) :
        i = j := congrArg Prod.snd h
    rcases hx with rfl | rfl | rfl <;> rcases hy with rfl | rfl | rfl
    all_goals first | rfl | exact absurd (hino hid) (by decide))

def threeCandidates : List Candidate := [⟨[97], 4097, 1⟩, ⟨[98], 4097, 1⟩, ⟨[99], 4097, 1⟩]

theorem paged_whole (ino : UInt64) : (paged ino false).Whole := ⟨rfl, fun _ _ => rfl⟩

theorem paged_length (ino : UInt64) (bad : Bool) : (paged ino bad).bytes.length = 4097 :=
  List.length_replicate

/-- The mark of the three. -/
def pagedMark : UInt64 := Fnv.write (Fnv.write Fnv.new (toLeBytes 4097)) (List.replicate 4096 120)

theorem paged_edges {p : Str} {ino : UInt64} {bad : Bool}
    (hf : threePaged.file p = some (paged ino bad)) :
    edges threePaged p 4097 = some (pagedMark, 4096) := by
  have hopen : threePaged.open_ p = some (paged ino bad) := Disk.open_eq_some.mpr ⟨hf, rfl⟩
  have hread : (paged ino bad).read 0 EDGE = some (List.replicate 4096 120) := by
    refine File.read_eq_some.mpr ⟨?_, fun i _ hi _ => ?_⟩
    · show _ = ((List.replicate 4097 120).drop 0).take 4096
      rw [List.drop_zero, List.take_replicate]
      rfl
    · have hi : i < 0 + 4096 := hi
      have hne : (i == 4096) = false := beq_eq_false_iff_ne.mpr (by omega)
      show (bad && i == 4096) = false
      rw [hne, Bool.and_false]
  unfold edges
  rw [hopen]
  dsimp only
  rw [hread]
  dsimp only
  rw [if_neg (by decide), List.length_replicate]
  rfl

theorem paged_identical {q : Str} (hne : [97] ≠ q) : identical threePaged [97] q = none := by
  have hopen : threePaged.open_ [97] = some (paged 1 true) := rfl
  have hread : (paged 1 true).read 0 CHUNK = none := by
    cases hread : (paged 1 true).read 0 CHUNK with
    | none => rfl
    | some bs =>
      have := (File.read_eq_some.mp hread).2 4096 (by decide) (by decide) (by
        rw [paged_length]
        decide)
      cases this
  unfold identical
  rw [if_neg hne, hopen]
  cases threePaged.open_ q with
  | none => rfl
  | some f =>
    dsimp only
    unfold identicalFrom
    rw [hread]

theorem threePaged_ends : ∃ files steps, counted steps = 12288 ∧
    [[97], [98], [99]].foldl (Ends.next threePaged 4097) ⟨[], [], ⟨0, []⟩⟩ =
      ⟨files, [(pagedMark, [97]), (pagedMark, [98]), (pagedMark, [99])], ⟨12288, steps⟩⟩ := by
  have hlook (e : Ends) {p : Str} {ino : UInt64} {bad : Bool}
      (hf : threePaged.file p = some (paged ino bad)) (hnew : ((0 : UInt64), ino) ∉ e.files) :
      e.next threePaged 4097 p = ⟨(0, ino) :: e.files, e.marks ++ [(pagedMark, p)],
        e.meter.add 4096 (edgesTook threePaged p 4097)⟩ := by
    unfold Ends.next Ends.look
    rw [Disk.identity_eq hf]
    dsimp only
    rw [show (paged ino bad).identity = (0, ino) from rfl, if_neg hnew, paged_edges hf]
  rw [List.foldl_cons, hlook _ rfl (by decide), List.foldl_cons, hlook _ rfl (by decide),
    List.foldl_cons, hlook _ rfl (by decide)]
  exact ⟨_, _, rfl, rfl⟩

theorem threePaged_partition : ∃ steps, counted steps = 0 ∧
    partition threePaged [[97], [98], [99]] 4097 87712 = ([⟨[97], []⟩], [], ⟨0, steps⟩) := by
  have hplace (m : Meter) (hm : m.read = 0) {q : Str} (hne : [97] ≠ q) :
      place threePaged 4097 87712 q [⟨[97], []⟩] m =
        (some [⟨[97], []⟩], m.compare threePaged [97] q 0) := by
    unfold place
    rw [hm, if_neg (by decide), paged_identical hne]
  unfold partition partitionFrom
  dsimp only [place]
  unfold partitionFrom
  rw [hplace ⟨0, []⟩ rfl (by decide)]
  dsimp only
  unfold partitionFrom
  rw [hplace _ rfl (by decide)]
  exact ⟨_, rfl, rfl⟩

/-- None of the three is compared with another but the one that cannot be read. -/
theorem threePaged_run : ∃ steps, counted steps = 12288 ∧
    run threePaged inOrder threeCandidates ⟨0, 100000, 50⟩ =
      ⟨[], 0, ⟨12288, steps⟩, [.parted 4097 [⟨[97], []⟩] [[97], [98], [99]] []]⟩ := by
  have hpending : pending threePaged inOrder threeCandidates 0 =
      [(4097, [[97], [98], [99]])] := rfl
  have hsorted : [[97], [98], [99]].insertionSort (· ≤ · : Str → Str → Prop) =
      [[97], [98], [99]] := rfl
  obtain ⟨files, steps, hsteps, hends⟩ := threePaged_ends
  obtain ⟨more, hmore, hparted⟩ := threePaged_partition
  have hentries : inOrder.order
      (entries [(pagedMark, [97]), (pagedMark, [98]), (pagedMark, [99])]) =
        [(pagedMark, [[97], [98], ([99] : Str)])] := by
    generalize pagedMark = m
    simp [inOrder, Search.entries, Search.entry]
  refine ⟨steps ++ more, by rw [counted_append, hsteps, hmore], ?_⟩
  unfold run
  rw [hpending, List.foldl_cons, List.foldl_nil]
  unfold Run.group
  dsimp only
  rw [hsorted, if_neg (by decide), hends, hentries]
  rw [List.map_cons, List.map_nil, List.foldl_cons, List.foldl_nil]
  unfold Run.bucket
  rw [if_neg (by decide), hsorted, show saturatingSub 100000 12288 = 87712 from rfl]
  dsimp only
  rw [hparted]
  rfl

/-- The second and the third are the same, and no group has them. -/
theorem not_exact : ∃ d h files o, (files.map Candidate.path).Nodup ∧ TrueSizes d files ∧
    Unreached d h files o ∧
      ¬ Exact d files o.minSize (groups d h files o) (findNamed d h files o).waste := by
  obtain ⟨steps, hsteps, hrun⟩ := threePaged_run
  refine ⟨threePaged, inOrder, threeCandidates, ⟨0, 100000, 50⟩, by decide, ?_, ?_, ?_⟩
  · refine trueSizes_of fun c hc => ?_
    simp only [threeCandidates, List.mem_cons, List.not_mem_nil, or_false] at hc
    rcases hc with rfl | rfl | rfl
    · exact ⟨_, rfl, (paged_length 1 true).symm⟩
    · exact ⟨_, rfl, (paged_length 2 false).symm⟩
    · exact ⟨_, rfl, (paged_length 3 false).symm⟩
  · constructor
    · intro part hpart
      rw [hrun] at hpart
      obtain rfl := List.mem_singleton.mp hpart
      rfl
    · rw [hrun]
      show counted steps ≤ _
      rw [hsteps]
      decide
  · intro hexact
    have htwins : Twins threePaged threeCandidates 0 (paged 2 false) (paged 3 false) := {
      left := ⟨⟨[98], 4097, 1⟩, by simp [threeCandidates], by decide, rfl⟩
      right := ⟨⟨[99], 4097, 1⟩, by simp [threeCandidates], by decide, rfl⟩
      different := by
        intro h
        exact absurd (congrArg Prod.snd h) (by decide)
      leftWhole := paged_whole 2
      rightWhole := paged_whole 3
      same := rfl }
    obtain ⟨grp, hgrp, -⟩ := hexact.together _ _ htwins
    unfold groups at hgrp
    rw [hrun] at hgrp
    cases hgrp

end Scour.Dupes
