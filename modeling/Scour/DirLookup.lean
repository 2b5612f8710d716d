import Scour.DirBytes
import Scour.Reference
import Scour.Usage

/-!
# The directory table answers exactly

A set of directories is written (`written`) and each is given a number (`numberOf`).  Asked in place
for a path, the table gives its number and the numbers at or below it, and a row whose directory has
a number is selected by `under:` and `parent:` as the reference selects it (`Answers`).

The root is the exception: `exact` trims its separator away and looks for the empty path
(`answers_iff`).
-/

namespace Scour

variable {P : Platform} {S : List Str} {d : Text}

/-- The table of these directories, interned in this order. -/
def tableOf (S : List Str) : DirTable := (DirWriter.empty.internAll S).1.finish.1

/-- The bytes the table is written as. -/
def written (S : List Str) : Str := encode (tableOf S)

/-- The number a directory is given: the provisional one, remapped. -/
def numberOf (S : List Str) (p : Str) : Option Nat :=
  (S.idxOf? p).bind fun i => (DirWriter.empty.internAll S).2[i]?.bind fun id =>
    (DirWriter.empty.internAll S).1.finish.2[id]?

/-- Does `under:d` select a row of this directory? -/
def RawTable.selectsUnder (r : RawTable) (d : Text) (id : Nat) : Bool :=
  if (r.subtree (utf8 d)).isEmpty then false else (r.subtree (utf8 d)).contains id

/-- Does `parent:d` select a row of this directory? -/
def RawTable.selectsParent (r : RawTable) (d : Text) (id : Nat) : Bool :=
  match r.exact (utf8 d) with
  | some own => DirScope.contains ⟨some own, (own, own)⟩ id
  | none => false

/-- What the table answers about a path. -/
structure Answers (P : Platform) (S : List Str) (d : Text) (r : RawTable) : Prop where
  exact : r.exact (utf8 d) = numberOf S (utf8 d)
  subtree : ∀ id, (r.subtree (utf8 d)).contains id = true ↔
    ∃ q, numberOf S q = some id ∧ under q (utf8 d) = true
  selectsUnder : ∀ e id, numberOf S (Entry.parent e) = some id →
    r.selectsUnder d id = matchesOne P e (.under d)
  selectsParent : ∀ e id, numberOf S (Entry.parent e) = some id →
    r.selectsParent d id = matchesOne P e (.parentIs d)

/-! ## Numbers -/

theorem tableOf_sorted (S : List Str) : (tableOf S).Sorted :=
  DirWriter.finish_sorted _ (DirWriter.internAll_spec S DirWriter.empty List.nodup_nil).1

theorem mem_tableOf (S : List Str) (p : Str) : p ∈ (tableOf S).paths ↔ p ∈ S := by
  unfold tableOf
  rw [DirWriter.mem_finish,
    (DirWriter.internAll_spec S DirWriter.empty List.nodup_nil).2.2.2.2 p]
  simp [DirWriter.empty]

/-- A number is the place of its path in the table. -/
theorem numberOf_iff (S : List Str) (p : Str) (n : Nat) :
    numberOf S p = some n ↔ (tableOf S).paths[n]? = some p := by
  have hfound : p ∈ S → ∃ m, numberOf S p = some m ∧ (tableOf S).paths[m]? = some p := by
    intro hp
    obtain ⟨i, hi⟩ := Option.isSome_iff_exists.mp (List.isSome_idxOf?.mpr hp)
    have hget : S[i]? = some p := by
      obtain ⟨hlt, hval, -⟩ := List.idxOf?_eq_some_iff.mp hi
      rw [List.getElem?_eq_getElem hlt, hval]
    obtain ⟨id, hid, hpath⟩ :=
      (DirWriter.internAll_spec S DirWriter.empty List.nodup_nil).2.2.2.1 i p hget
    have hremap := DirWriter.finish_remap _ id p hpath
    have hlt : id < (DirWriter.empty.internAll S).1.finish.2.length := by
      have := (List.getElem?_eq_some_iff.mp hpath).1
      simpa [DirWriter.finish] using this
    refine ⟨_, ?_, hremap⟩
    unfold numberOf
    rw [hi, Option.bind_some, hid, Option.bind_some, List.getD_eq_getElem?_getD,
      List.getElem?_eq_getElem hlt]
    rfl
  constructor
  · intro h
    have hp : p ∈ S := by
      obtain ⟨i, hi, -⟩ := Option.bind_eq_some_iff.mp h
      exact List.isSome_idxOf?.mp (Option.isSome_iff_exists.mpr ⟨i, hi⟩)
    obtain ⟨m, hm, hget⟩ := hfound hp
    rw [hm, Option.some.injEq] at h
    rwa [← h]
  · intro h
    obtain ⟨m, hm, hget⟩ := hfound ((mem_tableOf S p).mp (List.mem_of_getElem? h))
    rw [hm, index_eq_of_eq (tableOf_sorted S) hget h]

/-! ## Rows -/

/-- `under:` asks of a row whether its directory is the one named, or below it. -/
theorem matchesOne_under (e : Entry) (d : Text) :
    matchesOne P e (.under d) = under e.parent (utf8 d) := by
  rw [Bool.eq_iff_iff, under_iff]
  simp only [matchesOne]
  rw [Bool.and_eq_true, Bool.and_eq_true, decide_eq_true_eq]
  by_cases hd : trimEnd (utf8 d) = []
  · obtain ⟨t, ht⟩ := e.path.head
    rw [hd, ht]
    simp
  · rw [show e.parent = _ ∨ Below e.parent _ ↔ _ from
      (below_iff_dir e.path _ hd (trimEnd_trimEnd _)).symm]
    unfold Below
    rw [prefix_iff_lt_getElem, and_assoc]
    simp [hd]

/-- The numbers in the scope of a directory are those at or below it. -/
theorem contains_iff_under (hS : ∀ p ∈ S, DirPath p) (id : Nat) :
    ((tableOf S).subtree (utf8 d)).contains id = true ↔
      ∃ q, numberOf S q = some id ∧ under q (utf8 d) = true := by
  have hsorted := tableOf_sorted S
  constructor
  · intro h
    -- both ranges of a scope are inside the table
    have hlt : id < (tableOf S).paths.length := by
      rcases (DirScope.contains_iff _ _).mp h with hown | ⟨-, hlast⟩
      · exact (List.getElem?_eq_some_iff.mp
          ((DirTable.exact_eq_some_iff _ hsorted _ id).mp hown)).1
      · have h₁ := DirTable.lowerBound_le _ hsorted (trimEnd (utf8 d) ++ [slash])
        have h₂ := DirTable.lowerBound_le _ hsorted (trimEnd (utf8 d) ++ [slash + 1])
        simp only [DirTable.subtree] at hlast
        omega
    have hget := List.getElem?_eq_getElem hlt
    refine ⟨_, (numberOf_iff S _ id).mpr hget, ?_⟩
    rw [under_iff]
    exact Or.inr ((DirTable.subtree_contains_iff _ hsorted _ id _ hget).mp h)
  · rintro ⟨q, hq, hu⟩
    have hget := (numberOf_iff S q id).mp hq
    refine (DirTable.subtree_contains_iff _ hsorted _ id q hget).mpr ?_
    rcases (under_iff _ _).mp hu with hroot | hu
    · -- everything begins with the root
      right
      rw [hroot]
      have hqd := hS q ((mem_tableOf S q).mp (List.mem_of_getElem? hget))
      rcases hqd with rfl | ⟨hhead, -⟩
      · exact List.prefix_refl _
      · cases q with
        | nil => cases hhead
        | cons b q =>
          rw [List.head?_cons, Option.some.injEq] at hhead
          rw [hhead]
          exact ⟨q, rfl⟩
    · exact hu

/-- A directory's number is found, but for the root's. -/
theorem exact_iff_numberOf (hS : ∀ p ∈ S, DirPath p) (hd : DirPath (utf8 d)) (id : Nat) :
    (tableOf S).exact (utf8 d) = some id ↔ numberOf S (utf8 d) = some id ∧ utf8 d ≠ [slash] := by
  rw [DirTable.exact_eq_some_iff _ (tableOf_sorted S), numberOf_iff]
  by_cases hroot : utf8 d = [slash]
  · rw [hroot, trimEnd_root]
    constructor
    · intro h
      exact absurd rfl (hS [] ((mem_tableOf S []).mp (List.mem_of_getElem? h))).ne_nil
    · rintro ⟨-, h⟩
      exact absurd rfl h
  · rw [(hd.resolve_left hroot).2]
    exact (and_iff_left hroot).symm

theorem exact_eq_numberOf_iff (hS : ∀ p ∈ S, DirPath p) (hd : DirPath (utf8 d)) :
    (tableOf S).exact (utf8 d) = numberOf S (utf8 d) ↔ ¬ (utf8 d = [slash] ∧ [slash] ∈ S) := by
  have hmem : [slash] ∈ S ↔ ∃ id, numberOf S [slash] = some id := by
    rw [← mem_tableOf, List.mem_iff_getElem?]
    exact exists_congr fun id => (numberOf_iff S _ id).symm
  constructor
  · rintro h ⟨hroot, hin⟩
    rw [hroot] at h
    obtain ⟨id, hid⟩ := hmem.mp hin
    have := (exact_iff_numberOf hS hd id).mp (by rw [hroot, h, hid])
    exact this.2 hroot
  · intro h
    refine Option.ext fun id => ?_
    rw [exact_iff_numberOf hS hd, and_iff_left_iff_imp]
    intro hid hroot
    rw [hroot] at hid
    exact h ⟨hroot, hmem.mpr ⟨id, hid⟩⟩

theorem utf8_eq_root_iff (d : Text) : utf8 d = [slash] ↔ d = ['/'] := by
  constructor
  · intro h
    have := congrArg fromUtf8 h
    rw [fromUtf8_utf8, show fromUtf8 [slash] = fromUtf8 (utf8 ['/']) from rfl, fromUtf8_utf8,
      Option.some.injEq] at this
    exact this
  · rintro rfl
    rfl

/-- `parent:` selects by the number as the reference does by the directory. -/
theorem selectsParent_eq {r : RawTable} (hS : ∀ p ∈ S, DirPath p) (hd : DirPath (utf8 d))
    (hroot : ¬ (utf8 d = [slash] ∧ [slash] ∈ S)) (hexact : r.exact (utf8 d) = numberOf S (utf8 d))
    {e : Entry} {id : Nat} (hid : numberOf S e.parent = some id) :
    r.selectsParent d id = matchesOne P e (.parentIs d) := by
  have hparent := (numberOf_iff S _ id).mp hid
  have hmem : e.parent ∈ S := (mem_tableOf S _).mp (List.mem_of_getElem? hparent)
  have hselects : r.selectsParent d id = true ↔ numberOf S (utf8 d) = some id := by
    unfold RawTable.selectsParent
    rw [hexact]
    cases numberOf S (utf8 d) with
    | none => exact ⟨nofun, nofun⟩
    | some own =>
      dsimp only
      rw [DirScope.contains_iff]
      constructor
      · rintro (h | ⟨h₁, h₂⟩)
        · exact h
        · exact absurd (Nat.lt_of_le_of_lt h₁ h₂) (Nat.lt_irrefl own)
      · exact Or.inl
  have hsame : numberOf S (utf8 d) = some id ↔ e.parent = utf8 d := by
    rw [numberOf_iff, hparent, Option.some.injEq]
  rw [Bool.eq_iff_iff, hselects, hsame]
  simp only [matchesOne, Bool.or_eq_true, Bool.and_eq_true, beq_iff_eq]
  rw [← utf8_eq_root_iff]
  by_cases hslash : utf8 d = [slash]
  · rw [hslash, trimEnd_root]
    have hno : [slash] ∉ S := fun h => hroot ⟨hslash, h⟩
    constructor
    · intro h
      exact absurd (h ▸ hmem) hno
    · rintro (h | ⟨-, h⟩)
      · exact absurd h (hS _ hmem).ne_nil
      · exact h
  · rw [(hd.resolve_left hslash).2]
    constructor
    · exact Or.inl
    · rintro (h | ⟨h, -⟩)
      · exact h
      · exact absurd h hslash

/-- **The table answers exactly** unless it is asked for the root and holds it.  What is at or below
a path it always says. -/
theorem answers_iff (P : Platform) (S : List Str) (d : Text) (hS : ∀ p ∈ S, DirPath p ∧ IsText p)
    (hd : DirPath (utf8 d)) (hfits : Fits (tableOf S).paths) :
    ∃ r, RawTable.open_ (written S) = some r ∧
      (∀ id, (r.subtree (utf8 d)).contains id = true ↔
        ∃ q, numberOf S q = some id ∧ under q (utf8 d) = true) ∧
      (Answers P S d r ↔ ¬ (utf8 d = [slash] ∧ [slash] ∈ S)) := by
  have hdir : ∀ p ∈ S, DirPath p := fun p hp => (hS p hp).1
  have htext : ∀ p ∈ (tableOf S).paths, IsText p := fun p hp => (hS p ((mem_tableOf S p).mp hp)).2
  have hexact := exact_opened hfits htext (utf8 d)
  have hsubtree := subtree_opened hfits htext (utf8 d)
  have hcontains : ∀ id, ((opened (tableOf S).paths).subtree (utf8 d)).contains id = true ↔
      ∃ q, numberOf S q = some id ∧ under q (utf8 d) = true := by
    intro id
    rw [hsubtree]
    exact contains_iff_under hdir id
  refine ⟨opened (tableOf S).paths, open_encode _ hfits, hcontains, fun h => ?_, fun hroot => ?_⟩
  · rw [← exact_eq_numberOf_iff hdir hd, ← h.exact, hexact]
  · have hnumber := hexact.trans ((exact_eq_numberOf_iff hdir hd).mpr hroot)
    refine ⟨hnumber, hcontains, fun e id hid => ?_, fun e id hid => ?_⟩
    · have hparent := (numberOf_iff S _ id).mp hid
      have hselects : (opened (tableOf S).paths).selectsUnder d id =
          ((opened (tableOf S).paths).subtree (utf8 d)).contains id := by
        unfold RawTable.selectsUnder
        split
        · rename_i hempty
          exact (DirScope.not_contains_of_isEmpty _ hempty id).symm
        · rfl
      rw [hselects, matchesOne_under, Bool.eq_iff_iff, hcontains]
      constructor
      · rintro ⟨q, hq, hu⟩
        have hpath := (numberOf_iff S q id).mp hq
        rw [hparent, Option.some.injEq] at hpath
        rwa [hpath]
      · exact fun hu => ⟨_, hid, hu⟩
    · exact selectsParent_eq hdir hd hroot hnumber hid

theorem fits_of_short {ps : List Str} (hlen : ps.length ≤ RESTART)
    (hsizes : ∀ p ∈ ps, p.length < 2 ^ 64) : Fits ps := by
  have hR : RESTART = 16 := rfl
  refine ⟨fun k hk => ?_, hsizes⟩
  obtain rfl : k = 0 := by
    rw [hR] at hk hlen
    omega
  rw [Nat.zero_mul]
  exact Nat.two_pow_pos 32

/-- Siblings sort between a directory and what is below it. -/
def siblings : List Str := [str "/a/b", str "/a", str "/a-x"]

theorem answers_siblings :
    ∃ r, RawTable.open_ (written siblings) = some r ∧ Answers .plain siblings "/a".toList r := by
  have hdirs : ∀ p ∈ siblings, DirPath p ∧ IsText p := by
    intro p hp
    simp only [siblings, List.mem_cons, List.not_mem_nil, or_false] at hp
    rcases hp with rfl | rfl | rfl
    · exact ⟨Or.inr (by decide), "/a/b".toList, rfl⟩
    · exact ⟨Or.inr (by decide), "/a".toList, rfl⟩
    · exact ⟨Or.inr (by decide), "/a-x".toList, rfl⟩
  obtain ⟨r, hopen, -, hiff⟩ := answers_iff .plain siblings "/a".toList hdirs (Or.inr (by decide))
    (fits_of_short (by decide) (by decide))
  exact ⟨r, hopen, hiff.mpr (by decide)⟩

/-- The root and what is in it. -/
def withRoot : List Str := [str "/", str "/a"]

/-- The root has a number, but it is not found, and no file in it is selected by its parent. -/
theorem not_answers :
    ∃ r, RawTable.open_ (written withRoot) = some r ∧ numberOf withRoot (str "/") = some 0 ∧
      r.exact (str "/") = none ∧ (Entry.file "/f").parent = str "/" ∧
      matchesOne .plain (Entry.file "/f") (.parentIs "/".toList) = true ∧
      r.selectsParent "/".toList 0 = false := by
  have hfits : Fits (tableOf withRoot).paths := fits_of_short (by decide) (by decide)
  have htext : ∀ p ∈ (tableOf withRoot).paths, IsText p := by
    intro p hp
    have hp := (mem_tableOf withRoot p).mp hp
    simp only [withRoot, List.mem_cons, List.not_mem_nil, or_false] at hp
    rcases hp with rfl | rfl
    · exact ⟨"/".toList, rfl⟩
    · exact ⟨"/a".toList, rfl⟩
  have hexact : (opened (tableOf withRoot).paths).exact (str "/") = none := by
    rw [exact_opened hfits htext]
    decide
  refine ⟨opened (tableOf withRoot).paths, open_encode _ hfits, by decide, hexact, by decide,
    by decide, ?_⟩
  unfold RawTable.selectsParent
  show (match (opened (tableOf withRoot).paths).exact (str "/") with
    | some own => DirScope.contains ⟨some own, (own, own)⟩ 0
    | none => false) = false
  rw [hexact]

end Scour
