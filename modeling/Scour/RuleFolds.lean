import Scour.Rules

/-!
# The fast rule test and the plain one

A rule is folded once, as a text, and a path is folded where a rule is tried: `allows` folds the end
of it character by character, and so does `insideExcluded` with the names above.  A text folded as a
text has a final sigma where a word ends in `Σ`; folded character by character it has not.

`toLowercase_eq_chars_iff`: the two folds differ there and nowhere else.  `fastIsPlain_iff`: the fast
test is the plain one exactly where that decides nothing.
-/

namespace Scour

/-! ## The two folds -/

namespace Unicode

variable (U : Unicode)

/-- Somewhere in the text a word ends in `Σ`. -/
def FinalSigma (b : Str) : Prop :=
  ∃ before after, fromUtf8 b = some (before ++ 'Σ' :: after) ∧
    U.mapUppercaseSigma before.reverse after = 'ς'

variable {U}

theorem mapUppercaseSigma_cases (before after : List Char) :
    U.mapUppercaseSigma before after = 'ς' ∨ U.mapUppercaseSigma before after = 'σ' := by
  unfold mapUppercaseSigma
  split
  · exact Or.inl rfl
  · exact Or.inr rfl

/-- The loop folds character by character but for a final sigma. -/
theorem lowerText_eq_iff (hsigma : U.lower 'Σ' = ['σ']) (cs : List Char) : ∀ passed : List Char,
    U.lowerText passed cs = cs.flatMap U.lower ↔
      ∀ before after, cs = before ++ 'Σ' :: after →
        U.mapUppercaseSigma (before.reverse ++ passed) after ≠ 'ς' := by
  induction cs with
  | nil => exact fun passed => ⟨fun _ before after h => by simp at h, fun _ => rfl⟩
  | cons c cs ih =>
    intro passed
    -- the rest, whose text before it is one character longer
    have hrest : (∀ before after, cs = before ++ 'Σ' :: after →
          U.mapUppercaseSigma (before.reverse ++ c :: passed) after ≠ 'ς') ↔
        ∀ before after, cs = before ++ 'Σ' :: after →
          U.mapUppercaseSigma ((c :: before).reverse ++ passed) after ≠ 'ς' := by
      simp
    rw [lowerText, List.flatMap_cons]
    by_cases hc : c = 'Σ'
    · subst hc
      rw [if_pos rfl, hsigma, List.singleton_append, List.singleton_append, List.cons.injEq, ih,
        hrest]
      constructor
      · rintro ⟨hhere, hthere⟩ before after h
        cases before with
        | nil =>
          obtain rfl := (List.cons.inj h).2
          rw [List.reverse_nil, List.nil_append, hhere]
          decide
        | cons b before =>
          have hb : 'Σ' = b := (List.cons.inj h).1
          subst hb
          exact hthere before after (List.cons.inj h).2
      · intro h
        refine ⟨(mapUppercaseSigma_cases passed cs).resolve_left (h [] cs rfl), ?_⟩
        exact fun before after heq => h ('Σ' :: before) after (congrArg _ heq)
    · rw [if_neg hc, List.append_cancel_left_eq, ih, hrest]
      constructor
      · intro hthere before after h
        cases before with
        | nil => exact absurd (List.cons.inj h).1 hc
        | cons b before =>
          have hb : c = b := (List.cons.inj h).1
          subst hb
          exact hthere before after (List.cons.inj h).2
      · exact fun h before after heq => h (c :: before) after (congrArg _ heq)

theorem utf8_sigma_not_ascii (before after : List Char) :
    (utf8 (before ++ 'Σ' :: after)).all (· < 128) = false := by
  rw [List.all_eq_false]
  refine ⟨0xCE, ?_, by decide⟩
  unfold utf8
  rw [List.flatMap_append, List.flatMap_cons]
  exact List.mem_append_right _ (List.mem_append_left _ (by decide))

/-- The two folds of a text differ where a word ends in `Σ`. -/
theorem toLowercase_eq_chars_iff (hsigma : U.lower 'Σ' = ['σ']) (b : Str) :
    U.toLowercase b = U.charsLowercase b ↔ ¬ U.FinalSigma b := by
  unfold toLowercase charsLowercase
  by_cases hascii : b.all (· < 128) = true
  · rw [if_pos hascii, if_pos hascii]
    refine ⟨fun _ => ?_, fun _ => rfl⟩
    rintro ⟨before, after, htext, -⟩
    rw [← utf8_of_fromUtf8 htext, utf8_sigma_not_ascii] at hascii
    cases hascii
  · rw [if_neg hascii, if_neg hascii]
    cases htext : fromUtf8 b with
    | none =>
      refine ⟨fun _ => ?_, fun _ => rfl⟩
      rintro ⟨before, after, htext', -⟩
      rw [htext] at htext'
      cases htext'
    | some cs =>
      dsimp only
      have hinj : ∀ ds es : List Char, utf8 ds = utf8 es ↔ ds = es := fun ds es =>
        ⟨fun h => Option.some.inj (by rw [← fromUtf8_utf8, h, fromUtf8_utf8]), congrArg utf8⟩
      rw [hinj, lowerText_eq_iff hsigma]
      unfold FinalSigma
      rw [htext]
      constructor
      · rintro h ⟨before, after, heq, hend⟩
        have := h before after (Option.some.inj heq)
        rw [List.append_nil] at this
        exact this hend
      · intro h before after heq hend
        rw [List.append_nil] at hend
        exact h ⟨before, after, congrArg some heq, hend⟩

end Unicode

/-! ## The plain test -/

namespace Rules

variable (U : Unicode) (r : Rules)

/-- The components a sequence rule would be compared with, the last `from_` left out. -/
def piece (path : Str) (rule : List Str) (from_ : Nat) : List Str :=
  ((components path).take ((components path).length - from_)).drop
    ((components path).length - from_ - rule.length)

/-- Where the sequence rules are tried: at the end of the path, and for a file before its name. -/
def tried (path : Str) (isDir : Bool) : List (List Str × List Str) :=
  r.allowSeqs.flatMap fun rule =>
    ((if isDir then [0] else [0, 1]).filter fun from_ =>
      decide (from_ + rule.length ≤ (components path).length)).map fun from_ =>
        (piece path rule from_, rule)

/-- Is this path taken back, with this fold for the path?  With `toLowercase` it is the plain
test. -/
def allowsBy (fold : Str → Str) (path : Str) (isDir : Bool) : Bool :=
  r.allow.any (under path ·) || (r.tried path isDir).any fun t => t.1.map fold == t.2

/-- The loop of `inside_excluded`, with this fold for the names. -/
def findsAncestor (fold : Str → Str) (path : Str) : Bool :=
  (components path).dropLast.any fun c => r.dirs.contains (fold c)

/-- The fast test is the plain one. -/
def FastIsPlain (path : Str) (isDir : Bool) : Prop :=
  r.allows U path isDir = r.allowsBy U.toLowercase path isDir ∧
    r.findsAncestor U.charsLowercase path = r.findsAncestor U.toLowercase path

variable {U r}

/-! ## The tail -/

theorem zip_all_iff (f : Str → Str) : ∀ {rule tail : List Str}, rule.length ≤ tail.length →
    ((rule.zip tail).all (fun c => f c.2 == c.1) = true ↔ (tail.take rule.length).map f = rule)
  | [], tail, _ => by simp
  | _ :: _, [], h => absurd h (by simp)
  | a :: rule, b :: tail, h => by
    have ih := @zip_all_iff f rule tail (Nat.le_of_succ_le_succ h)
    rw [List.zip_cons_cons, List.all_cons, Bool.and_eq_true, ih, List.length_cons,
      List.take_succ_cons, List.map_cons, List.cons.injEq, beq_iff_eq]

/-- The tail, read from its end, is the piece. -/
theorem take_tail {path : Str} {rule : List Str} {from_ keep : Nat}
    (hkeep : from_ + rule.length ≤ keep) :
    ((tailOf path keep).drop from_).take rule.length = (piece path rule from_).reverse := by
  unfold tailOf piece
  rw [List.drop_take, List.take_take, Nat.min_eq_left (by omega), List.drop_reverse,
    List.take_reverse, List.length_take, Nat.min_eq_left (Nat.sub_le _ _)]

theorem le_foldl_max (ns : List Nat) : ∀ m, m ≤ ns.foldl max m ∧ ∀ n ∈ ns, n ≤ ns.foldl max m := by
  induction ns with
  | nil => exact fun m => ⟨le_refl m, nofun⟩
  | cons n ns ih =>
    intro m
    obtain ⟨hm, hns⟩ := ih (max m n)
    refine ⟨(le_max_left m n).trans hm, fun k hk => ?_⟩
    rcases List.mem_cons.mp hk with rfl | hk
    · exact (le_max_right m k).trans hm
    · exact hns k hk

theorem lt_keep {rule : List Str} (h : rule ∈ r.allowSeqs) : rule.length < r.keep :=
  Nat.lt_succ_of_le ((le_foldl_max _ 0).2 _ (List.mem_map_of_mem h))

/-- How the path is folded for a comparison with a sequence rule. -/
def fold (U : Unicode) (r : Rules) : Str → Str :=
  if MAX_TAIL < r.keep then U.toLowercase else U.charsLowercase

theorem tailMatches_eq {path : Str} {rule : List Str} (h : rule ∈ r.allowSeqs) {from_ : Nat}
    (hfrom : from_ ≤ 1) : r.tailMatches U path rule from_ =
      (decide (from_ + rule.length ≤ (components path).length) &&
        (piece path rule from_).map (r.fold U) == rule) := by
  have hkeep := lt_keep h
  unfold tailMatches Rules.fold
  split
  · dsimp only
    unfold lowerComponents piece
    rw [List.length_map, ← List.map_take, ← List.map_drop]
  · dsimp only
    by_cases hlen : from_ + rule.length ≤ (components path).length
    · have htail : from_ + rule.length ≤ (tailOf path r.keep).length := by
        unfold tailOf
        rw [List.length_take, List.length_reverse]
        omega
      rw [decide_eq_true htail, decide_eq_true hlen, Bool.true_and, Bool.true_and, Bool.eq_iff_iff,
        beq_iff_eq]
      refine (zip_all_iff U.charsLowercase ?_).trans ?_
      · rw [List.length_reverse, List.length_drop]
        omega
      · rw [List.length_reverse, take_tail (by omega), List.map_reverse]
        exact List.reverse_inj
    · have htail : ¬ from_ + rule.length ≤ (tailOf path r.keep).length := by
        unfold tailOf
        rw [List.length_take, List.length_reverse]
        omega
      rw [decide_eq_false htail, decide_eq_false hlen, Bool.false_and, Bool.false_and]

/-- The tail comparison is a comparison of lists, with a fold of its own. -/
theorem allows_eq (path : Str) (isDir : Bool) :
    r.allows U path isDir = r.allowsBy (r.fold U) path isDir := by
  have hrule : ∀ rule ∈ r.allowSeqs,
      (r.tailMatches U path rule 0 || (!isDir && r.tailMatches U path rule 1)) =
        (((if isDir then [0] else [0, 1]).filter fun from_ =>
          decide (from_ + rule.length ≤ (components path).length)).map fun from_ =>
            (piece path rule from_, rule)).any fun t => t.1.map (r.fold U) == t.2 := by
    intro rule h
    rw [tailMatches_eq h (Nat.zero_le 1), tailMatches_eq h (le_refl 1), Nat.zero_add]
    cases isDir with
    | true => by_cases h0 : rule.length ≤ (components path).length <;> simp [h0]
    | false =>
      by_cases h1 : 1 + rule.length ≤ (components path).length
      · have h0 : rule.length ≤ (components path).length := by omega
        simp [h0, h1]
      · by_cases h0 : rule.length ≤ (components path).length <;> simp [h0, h1]
  have hany : (r.allowSeqs.any fun rule =>
      r.tailMatches U path rule 0 || (!isDir && r.tailMatches U path rule 1)) =
        (r.tried path isDir).any fun t => t.1.map (r.fold U) == t.2 := by
    unfold tried
    rw [List.any_flatMap, Bool.eq_iff_iff, List.any_eq_true, List.any_eq_true]
    constructor
    · rintro ⟨rule, h, ht⟩
      exact ⟨rule, h, hrule rule h ▸ ht⟩
    · rintro ⟨rule, h, ht⟩
      exact ⟨rule, h, (hrule rule h).symm ▸ ht⟩
  unfold allows allowsBy
  rw [hany]
  cases r.allow.any (under path ·) with
  | true => rfl
  | false =>
    rw [if_neg Bool.false_ne_true, Bool.false_or]
    split
    · rename_i hnil
      unfold tried
      rw [List.isEmpty_iff.mp hnil]
      rfl
    · rfl

/-! ## Where they agree -/

/-- Two tests that agree on some items agree on a list where one of those holds, or where the others
say the same. -/
theorem any_eq_any_iff {α : Type} (xs : List α) (p q : α → Bool) (Same : α → Prop)
    (h : ∀ x, Same x → p x = q x) : xs.any p = xs.any q ↔
      (∃ x ∈ xs, Same x ∧ q x = true) ∨
        ((∃ x ∈ xs, ¬ Same x ∧ p x = true) ↔ ∃ x ∈ xs, ¬ Same x ∧ q x = true) := by
  rw [Bool.eq_iff_iff, List.any_eq_true, List.any_eq_true]
  constructor
  · intro hpq
    by_cases hsame : ∃ x ∈ xs, Same x ∧ q x = true
    · exact Or.inl hsame
    · right
      constructor
      · rintro ⟨x, hx, -, hp⟩
        obtain ⟨y, hy, hq⟩ := hpq.mp ⟨x, hx, hp⟩
        exact ⟨y, hy, fun hs => hsame ⟨y, hy, hs, hq⟩, hq⟩
      · rintro ⟨x, hx, -, hq⟩
        obtain ⟨y, hy, hp⟩ := hpq.mpr ⟨x, hx, hq⟩
        exact ⟨y, hy, fun hs => hsame ⟨y, hy, hs, h y hs ▸ hp⟩, hp⟩
  · rintro (⟨x, hx, hs, hq⟩ | hother)
    · exact ⟨fun _ => ⟨x, hx, hq⟩, fun _ => ⟨x, hx, (h x hs).symm ▸ hq⟩⟩
    · constructor
      · rintro ⟨x, hx, hp⟩
        by_cases hs : Same x
        · exact ⟨x, hx, h x hs ▸ hp⟩
        · obtain ⟨y, hy, -, hq⟩ := hother.mp ⟨x, hx, hs, hp⟩
          exact ⟨y, hy, hq⟩
      · rintro ⟨x, hx, hq⟩
        by_cases hs : Same x
        · exact ⟨x, hx, (h x hs).symm ▸ hq⟩
        · obtain ⟨y, hy, -, hp⟩ := hother.mpr ⟨x, hx, hs, hq⟩
          exact ⟨y, hy, hp⟩

variable (U)

/-- No component of the piece has a word that ends in `Σ`. -/
def Sure (piece : List Str) : Prop := ∀ c ∈ piece, ¬ U.FinalSigma c

/-- A path the rules decide without a final sigma, or where the rules that have one at the end of
each such word match exactly when those match that have none at it. -/
def TailAgrees (r : Rules) (path : Str) (isDir : Bool) : Prop :=
  MAX_TAIL < r.keep ∨ r.allow.any (under path ·) = true ∨
    (∃ t ∈ r.tried path isDir, Sure U t.1 ∧ t.1.map U.toLowercase = t.2) ∨
    ((∃ t ∈ r.tried path isDir, ¬ Sure U t.1 ∧ t.1.map U.charsLowercase = t.2) ↔
      ∃ t ∈ r.tried path isDir, ¬ Sure U t.1 ∧ t.1.map U.toLowercase = t.2)

/-- The same of the names above a path. -/
def AncestorsAgree (r : Rules) (path : Str) : Prop :=
  (∃ c ∈ (components path).dropLast, ¬ U.FinalSigma c ∧ U.toLowercase c ∈ r.dirs) ∨
    ((∃ c ∈ (components path).dropLast, U.FinalSigma c ∧ U.charsLowercase c ∈ r.dirs) ↔
      ∃ c ∈ (components path).dropLast, U.FinalSigma c ∧ U.toLowercase c ∈ r.dirs)

variable {U}

theorem tailAgrees_iff (hsigma : U.lower 'Σ' = ['σ']) (path : Str) (isDir : Bool) :
    r.allows U path isDir = r.allowsBy U.toLowercase path isDir ↔ r.TailAgrees U path isDir := by
  rw [allows_eq]
  unfold TailAgrees Rules.fold
  by_cases hdeep : MAX_TAIL < r.keep
  · rw [if_pos hdeep]
    exact ⟨fun _ => Or.inl hdeep, fun _ => rfl⟩
  rw [if_neg hdeep]
  unfold allowsBy
  by_cases hallow : r.allow.any (under path ·) = true
  · rw [hallow, Bool.true_or, Bool.true_or]
    exact ⟨fun _ => Or.inr (Or.inl rfl), fun _ => rfl⟩
  have hfalse : r.allow.any (under path ·) = false := Bool.eq_false_iff.mpr hallow
  have hsame : ∀ t : List Str × List Str, Sure U t.1 →
      (t.1.map U.charsLowercase == t.2) = (t.1.map U.toLowercase == t.2) := by
    intro t ht
    rw [List.map_congr_left fun c hc => ((Unicode.toLowercase_eq_chars_iff hsigma c).mpr (ht c hc)).symm]
  rw [hfalse, Bool.false_or, Bool.false_or, any_eq_any_iff _ _ _ (fun t => Sure U t.1) hsame]
  simp only [beq_iff_eq, hdeep, Bool.false_eq_true, false_or]

theorem ancestorsAgree_iff (hsigma : U.lower 'Σ' = ['σ']) (path : Str) :
    r.findsAncestor U.charsLowercase path = r.findsAncestor U.toLowercase path ↔
      r.AncestorsAgree U path := by
  have hsame : ∀ c : Str, ¬ U.FinalSigma c →
      r.dirs.contains (U.charsLowercase c) = r.dirs.contains (U.toLowercase c) := by
    intro c hc
    rw [(Unicode.toLowercase_eq_chars_iff hsigma c).mpr hc]
  unfold findsAncestor AncestorsAgree
  rw [any_eq_any_iff _ _ _ (fun c => ¬ U.FinalSigma c) hsame]
  simp only [List.contains_iff_mem, not_not]

/-- The fast test is the plain one where a final sigma decides nothing. -/
theorem fastIsPlain_iff (U : Unicode) (hsigma : U.lower 'Σ' = ['σ']) (opts : ScanOptions)
    (path : Str) (isDir : Bool) :
    (fromOptions U opts).FastIsPlain U path isDir ↔
      (fromOptions U opts).TailAgrees U path isDir ∧ (fromOptions U opts).AncestorsAgree U path := by
  unfold FastIsPlain
  rw [tailAgrees_iff hsigma, ancestorsAgree_iff hsigma]

end Rules

/-- ASCII and the Greek capitals. -/
def Unicode.greek : Unicode where
  lower c := if 0x391 ≤ c.toNat ∧ c.toNat ≤ 0x3A9 then [Char.ofNat (c.toNat + 32)] else [c.toLower]
  ascii c h := if_neg (by omega)
  separator c h := by
    split at h
    · rename_i hc
      have hchar := List.mem_singleton.mp h
      have hval : (Char.ofNat (c.toNat + 32)).toNat = c.toNat + 32 := by
        unfold Char.ofNat
        rw [dif_pos (Or.inl (by omega))]
        rfl
      rw [← hchar] at hval
      have : '/'.toNat = 47 := rfl
      omega
    · exact toLower_eq_slash c (List.mem_singleton.mp h).symm
  cased c := c.isAlpha || (0x391 ≤ c.toNat && c.toNat ≤ 0x3C9)
  caseIgnorable _ := false

namespace Rules

/-- `target/release` on a path that ends in a capital sigma elsewhere. -/
theorem fastIsPlain_elsewhere :
    (fromOptions .greek { allow := [str "target/release"], excludeDirs := [str "TARGET"] }).FastIsPlain
      .greek (str "/ΟΔΟΣ/target/release/ΟΔΟΣ") false :=
  (fastIsPlain_iff .greek (by decide) _ _ _).mpr ⟨
    Or.inr (Or.inr (Or.inl ⟨([str "target", str "release"], [str "target", str "release"]),
      by decide, fun c hc => by
        apply (Unicode.toLowercase_eq_chars_iff (U := .greek) (by decide) c).mp
        rcases List.mem_pair.mp hc with rfl | rfl <;> rfl, by decide⟩)),
    Or.inl ⟨str "target", by decide,
      (Unicode.toLowercase_eq_chars_iff (U := .greek) (by decide) _).mp rfl, by decide⟩⟩

/-- A rule is not tried on the name it was made of: the rule ends in a final sigma, the folded name
does not. -/
theorem not_fastIsPlain : ¬ ∀ (U : Unicode), U.lower 'Σ' = ['σ'] → ∀ (opts : ScanOptions)
    (path : Str) (isDir : Bool), (fromOptions U opts).FastIsPlain U path isDir := by
  intro h
  have := h .greek (by decide) { allow := [str "ΟΔΟΣ"], excludeDirs := [str "ΟΔΟΣ"] }
    (str "/ΟΔΟΣ/x") false
  revert this
  unfold FastIsPlain
  decide

end Rules

end Scour
