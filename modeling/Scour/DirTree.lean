import Mathlib.Data.List.Chain
import Scour.DirMap
import Scour.Lib.Split

/-!
# Paths and trees of directories

A path is absolute, with no separator doubled or at its end (`IsAbs`), and a name joined to it makes
another (`IsAbs.join`), which splits where it was joined (`splitName_join`).

`Hung` is directories hung one off another below a topmost one.  Where a directory is there, it has
one path and one depth (`Hung.At.unique`).
-/

namespace Scour

open Search

/-! ## Paths -/

/-- The name of a directory. -/
def IsDirName (n : Text) : Prop := n ≠ [] ∧ '/' ∉ n

/-- No separator is doubled. -/
def NoDoubled (p : Text) : Prop := p.IsChain fun a b => a = '/' → b ≠ '/'

/-- An absolute path, with no separator doubled or at its end. -/
structure IsAbs (p : Text) : Prop where
  head : p.head? = some '/'
  single : NoDoubled p
  last : p = ['/'] ∨ p.getLast? ≠ some '/'

/-- The path of what is in a directory. -/
def joinText (p n : Text) : Text := if p = ['/'] then '/' :: n else p ++ '/' :: n

/-- How many components a path has. -/
def pathDepth (p : Text) : Nat := ((split '/' p).filter (!·.isEmpty)).length

theorem IsAbs.ne_nil {p : Text} (h : IsAbs p) : p ≠ [] := by
  intro hp
  have := h.head
  rw [hp] at this
  cases this

theorem noDoubled_name {n : Text} (hn : '/' ∉ n) : NoDoubled ('/' :: n) := by
  unfold NoDoubled
  rw [List.isChain_cons]
  refine ⟨fun y hy _ hs => hn (hs ▸ List.mem_of_mem_head? hy), ?_⟩
  apply List.Pairwise.isChain
  apply List.pairwise_of_forall_mem_list
  exact fun a ha _ _ hs => absurd (hs ▸ ha) hn

theorem IsAbs.join {p n : Text} (h : IsAbs p) (hn : IsDirName n) : IsAbs (joinText p n) := by
  have hlast : ∀ l : Text, (l ++ '/' :: n).getLast? ≠ some '/' := by
    intro l hl
    rw [List.getLast?_append_of_ne_nil _ (List.cons_ne_nil _ _),
      List.getLast?_cons_of_ne_nil hn.1] at hl
    exact hn.2 (List.mem_of_getLast? hl)
  unfold joinText
  split
  · exact ⟨rfl, noDoubled_name hn.2, Or.inr (hlast [])⟩
  · rename_i hp
    refine ⟨?_, ?_, Or.inr (hlast p)⟩
    · rw [List.head?_append, h.head, Option.some_or]
    · unfold NoDoubled
      rw [List.isChain_append]
      refine ⟨h.single, noDoubled_name hn.2, ?_⟩
      intro x hx y _ hs
      exact absurd (hs ▸ hx) (h.last.resolve_left hp)

/-- The code writes a component as it is joined. -/
theorem IsAbs.writeName_eq {p : Text} (h : IsAbs p) (n : Text) :
    DirMap.writeName p n = joinText p n := by
  unfold DirMap.writeName joinText
  by_cases hp : p = ['/']
  · rw [if_pos hp, if_neg, hp]
    · rfl
    · rintro ⟨-, hlast⟩
      rw [hp] at hlast
      exact hlast rfl
  · rw [if_neg hp, if_pos ⟨h.ne_nil, h.last.resolve_left hp⟩]

theorem rtakeWhile_name {l n : Text} (hn : '/' ∉ n) :
    (l ++ '/' :: n).rtakeWhile (· ≠ '/') = n ∧ (l ++ '/' :: n).rdropWhile (· ≠ '/') = l ++ ['/'] := by
  have hall : ∀ c ∈ n.reverse, decide (c ≠ '/') = true := by
    intro c hc
    exact decide_eq_true fun h => hn (h ▸ List.mem_reverse.mp hc)
  have hrev : (l ++ '/' :: n).reverse = n.reverse ++ '/' :: l.reverse := by simp
  unfold List.rtakeWhile List.rdropWhile
  rw [hrev, List.takeWhile_append_of_pos hall, List.dropWhile_append_of_pos hall]
  simp

theorem splitName_join {p n : Text} (h : IsAbs p) (hn : IsDirName n) :
    splitName (joinText p n) = some (p, n) := by
  unfold joinText splitName
  split
  · rename_i hp
    obtain ⟨htake, hdrop⟩ := rtakeWhile_name (l := []) hn.2
    rw [List.nil_append] at htake hdrop
    simp only [htake, hdrop]
    rw [if_neg (by simp [hn.1]), hp]
    rfl
  · rename_i hp
    obtain ⟨htake, hdrop⟩ := rtakeWhile_name (l := p) hn.2
    simp only [htake, hdrop]
    rw [if_neg (by simp [hn.1]), if_neg, List.dropLast_concat]
    rw [List.length_append, List.length_singleton]
    have := List.length_pos_of_ne_nil h.ne_nil
    omega

/-- A path that splits is that of a name in a directory. -/
theorem splitName_some {path p n : Text} (h : IsAbs path) (hsplit : splitName path = some (p, n)) :
    IsAbs p ∧ IsDirName n ∧ path = joinText p n := by
  obtain ⟨l, m, rfl, hm⟩ : ∃ l m, path = l ++ '/' :: m ∧ '/' ∉ m := by
    have hmem : '/' ∈ path.reverse := List.mem_reverse.mpr (List.mem_of_head? h.head)
    obtain ⟨as, bs, heq, has⟩ := List.eq_append_cons_of_mem hmem
    refine ⟨bs.reverse, as.reverse, ?_, fun hs => has (List.mem_reverse.mp hs)⟩
    rw [← List.reverse_reverse path, heq]
    simp
  obtain ⟨htake, hdrop⟩ := rtakeWhile_name (l := l) hm
  unfold splitName at hsplit
  simp only [htake, hdrop] at hsplit
  split at hsplit
  · cases hsplit
  · rename_i hne
    rw [not_or] at hne
    have hsplit := Option.some.inj hsplit
    obtain rfl : m = n := (Prod.mk.inj hsplit).2
    have hp := (Prod.mk.inj hsplit).1
    have hname : IsDirName m := ⟨hne.2, hm⟩
    by_cases hl : l = []
    · subst hl
      obtain rfl : ['/'] = p := hp
      exact ⟨⟨rfl, List.IsChain.singleton _, Or.inl rfl⟩, hname, rfl⟩
    · have hlen : (l ++ ['/']).length ≠ 1 := by
        have := List.length_pos_of_ne_nil hl
        rw [List.length_append, List.length_singleton]
        omega
      rw [if_neg hlen, List.dropLast_concat] at hp
      subst hp
      have hchain := h.single
      unfold NoDoubled at hchain
      rw [List.isChain_append] at hchain
      have hlast : l.getLast? ≠ some '/' := fun hs => hchain.2.2 '/' hs '/' rfl rfl rfl
      refine ⟨⟨?_, hchain.1, Or.inr hlast⟩, hname, ?_⟩
      · rw [← h.head, List.head?_append_of_ne_nil _ hl]
      · unfold joinText
        rw [if_neg]
        rintro rfl
        exact hlast rfl

/-- A name is one more component. -/
theorem names_join {p n : Text} (hn : IsDirName n) :
    (split '/' (joinText p n)).filter (!·.isEmpty) =
      (split '/' p).filter (!·.isEmpty) ++ [n] := by
  have hone : ∀ l : Text, (split '/' (l ++ '/' :: n)).filter (!·.isEmpty) =
      (split '/' l).filter (!·.isEmpty) ++ [n] := by
    intro l
    rw [split_append_cons, split_of_notMem hn.2, List.filter_append]
    simp [hn.1]
  unfold joinText
  split
  · rename_i hp
    rw [hp]
    exact hone []
  · exact hone p

theorem pathDepth_join {p n : Text} (hn : IsDirName n) :
    pathDepth (joinText p n) = pathDepth p + 1 := by
  unfold pathDepth
  rw [names_join hn, List.length_append, List.length_singleton]

/-! ## Trees of directories -/

/-- Directories hung one off another, and the path of the topmost. -/
structure Hung where
  top : DirKey
  topPath : Text
  up : DirKey → Option (DirKey × Text)

/-- This directory is there, so far below the topmost. -/
inductive Hung.At (x : Hung) : DirKey → Text → Nat → Prop where
  | top : x.At x.top x.topPath 0
  | step {k p : DirKey} {n path : Text} {d : Nat} : x.At p path d → x.up k = some (p, n) →
      x.At k (joinText path n) (d + 1)

structure Hung.Ok (x : Hung) : Prop where
  abs : IsAbs x.topPath
  topmost : x.up x.top = none
  names : ∀ k p n, x.up k = some (p, n) → IsDirName n

namespace Hung

variable {x : Hung} {k p : DirKey} {n path : Text} {d : Nat}

theorem At.isAbs (h : x.At k path d) (hx : x.Ok) : IsAbs path := by
  induction h with
  | top => exact hx.abs
  | step _ hup ih => exact ih.join (hx.names _ _ _ hup)

/-- A directory has one place. -/
theorem At.unique (hx : x.Ok) (h : x.At k path d) :
    ∀ {path' : Text} {d' : Nat}, x.At k path' d' → path' = path ∧ d' = d := by
  induction h with
  | top =>
    intro path' d' h'
    cases h' with
    | top => exact ⟨rfl, rfl⟩
    | step _ hup =>
      rw [hx.topmost] at hup
      cases hup
  | step _ hup ih =>
    intro path' d' h'
    cases h' with
    | top =>
      rw [hx.topmost] at hup
      cases hup
    | step hp hup' =>
      rw [hup] at hup'
      cases hup'
      obtain ⟨rfl, rfl⟩ := ih hp
      exact ⟨rfl, rfl⟩

/-- No directory is in itself. -/
theorem At.ne_parent (hx : x.Ok) (h : x.At k path d) (hup : x.up k = some (p, n)) : p ≠ k := by
  rintro rfl
  cases h with
  | top =>
    rw [hx.topmost] at hup
    cases hup
  | step hp hup' =>
    have hk := At.step hp hup'
    rw [hup] at hup'
    cases hup'
    have := (hp.unique hx hk).2
    omega

/-- A directory is no deeper than its path has components. -/
theorem At.depth_le (h : x.At k path d) (hx : x.Ok) : d ≤ pathDepth path := by
  induction h with
  | top => exact Nat.zero_le _
  | step hp hup ih =>
    rw [pathDepth_join (hx.names _ _ _ hup)]
    omega

theorem At.up_isSome (h : x.At k path d) : k = x.top ∨ ∃ p n, x.up k = some (p, n) := by
  cases h with
  | top => exact Or.inl rfl
  | step _ hup => exact Or.inr ⟨_, _, hup⟩

end Hung

end Scour
