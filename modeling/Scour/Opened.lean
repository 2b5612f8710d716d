import Scour.Admits
import Scour.Kept

/-!
# What a rule change opens

`openedUp` compares two rule sets and says what has to be walked: what the second lets back in.  It
compares texts, ignoring ASCII case.  What the second walk reports and the first did not is there, if
no exclusion and no allow rule was only respelled over it, the last allow rule did not go while it
lies in an excluded directory, and no directory above it is gone into for a new allow rule alone
(`openedUp_walked_iff`).
-/

namespace Scour

open Search

/-! ## Texts that differ in ASCII case -/

/-- `str::eq_ignore_ascii_case`. -/
def eqIgnoreAsciiCase (a b : Str) : Bool := a.map asciiLower == b.map asciiLower

theorem toLower_cases (c : Char) : c.toLower = c ∨
    (65 ≤ c.toNat ∧ c.toNat ≤ 90 ∧ c.toLower.toNat = c.toNat + 32) := by
  unfold Char.toLower
  split
  · rename_i hc
    right
    have h1 := UInt32.le_iff_toNat_le.mp hc.1
    have h2 := UInt32.le_iff_toNat_le.mp hc.2
    have h3 : (c.val + 32).toNat = c.val.toNat + 32 := by
      rw [UInt32.toNat_add]
      simp at h2 ⊢
      omega
    refine ⟨?_, ?_, h3⟩
    · simpa using h1
    · simpa using h2
  · exact Or.inl rfl

theorem encode_toLower (c : Char) :
    (String.utf8EncodeChar c).map asciiLower = String.utf8EncodeChar c.toLower := by
  by_cases h : c.toNat < 128
  · exact Folded.asciiLower_encode c h
  · have hc : c.toLower = c := by
      rcases toLower_cases c with hc | ⟨-, hc, -⟩
      · exact hc
      · omega
    rw [hc]
    conv_rhs => rw [← List.map_id (String.utf8EncodeChar c)]
    apply List.map_congr_left
    intro b hb
    have hb := le_of_mem_utf8EncodeChar c (by omega) b hb
    unfold asciiLower
    rw [if_neg]
    · rfl
    · rintro ⟨-, h90⟩
      have := UInt8.le_iff_toNat_le.mp h90
      simp at this
      omega

theorem utf8_toLower (cs : List Char) : (utf8 cs).map asciiLower = utf8 (cs.map Char.toLower) := by
  induction cs with
  | nil => rfl
  | cons c cs ih => rw [utf8_cons, List.map_append, ih, encode_toLower, List.map_cons, utf8_cons]

theorem eqIgnoreAsciiCase_utf8 (cs ds : List Char) :
    eqIgnoreAsciiCase (utf8 cs) (utf8 ds) = true ↔ cs.map Char.toLower = ds.map Char.toLower := by
  unfold eqIgnoreAsciiCase
  rw [beq_iff_eq, utf8_toLower, utf8_toLower]
  exact ⟨fun h => utf8_injective h, congrArg utf8⟩

/-- The tables tell no letter of ASCII from its other case. -/
def Unicode.Caseless (U : Unicode) : Prop :=
  ∀ c : Char, U.cased c.toLower = U.cased c ∧ U.caseIgnorable c.toLower = U.caseIgnorable c

theorem Unicode.asciiOnly_caseless : Unicode.Caseless .asciiOnly := by
  intro c
  refine ⟨?_, rfl⟩
  rcases toLower_cases c with hc | ⟨h1, h2, h3⟩
  · rw [hc]
  · have hup : c.isUpper = true :=
      decide_eq_true ⟨UInt32.le_iff_toNat_le.mpr h1, UInt32.le_iff_toNat_le.mpr h2⟩
    have hlow : c.toLower.isLower = true := by
      have h97 : (97 : UInt32) ≤ c.toLower.val :=
        UInt32.le_iff_toNat_le.mpr (show 97 ≤ c.toLower.toNat by omega)
      have h122 : c.toLower.val ≤ 122 :=
        UInt32.le_iff_toNat_le.mpr (show c.toLower.toNat ≤ 122 by omega)
      exact Bool.and_eq_true_iff.mpr ⟨decide_eq_true h97, decide_eq_true h122⟩
    show (c.toLower.isUpper || c.toLower.isLower) = (c.isUpper || c.isLower)
    rw [hup, hlow, Bool.or_true, Bool.true_or]

namespace Unicode

variable {U : Unicode}

theorem lower_toLower (c : Char) : U.lower c.toLower = U.lower c := by
  rcases toLower_cases c with hc | ⟨h1, h2, h3⟩
  · rw [hc]
  · rw [U.ascii c (by omega), U.ascii c.toLower (by omega)]
    rcases toLower_cases c.toLower with hc | ⟨h4, h5, -⟩
    · rw [hc]
    · omega

theorem toLower_eq_sigma (c : Char) : c.toLower = 'Σ' ↔ c = 'Σ' := by
  have hs : ('Σ' : Char).toNat = 931 := rfl
  rcases toLower_cases c with hc | ⟨h1, h2, h3⟩
  · rw [hc]
  · constructor
    · intro h
      rw [h] at h3
      omega
    · intro h
      rw [h] at h2
      omega

theorem caseIgnorableThenCased_toLower (hU : U.Caseless) (cs : List Char) :
    U.caseIgnorableThenCased (cs.map Char.toLower) = U.caseIgnorableThenCased cs := by
  unfold caseIgnorableThenCased
  induction cs with
  | nil => rfl
  | cons c cs ih =>
    rw [List.map_cons, List.dropWhile_cons, List.dropWhile_cons, (hU c).2]
    cases hc : U.caseIgnorable c with
    | true => simpa using ih
    | false => simp [(hU c).1]

/-- A text is lowercased as its ASCII lowercase is. -/
theorem lowerText_toLower (hU : U.Caseless) (cs : List Char) : ∀ before : List Char,
    U.lowerText (before.map Char.toLower) (cs.map Char.toLower) = U.lowerText before cs := by
  induction cs with
  | nil => exact fun _ => rfl
  | cons c cs ih =>
    intro before
    have ih := ih (c :: before)
    rw [List.map_cons] at ih
    rw [List.map_cons, lowerText, lowerText, ih]
    congr 1
    by_cases hc : c = 'Σ'
    · rw [if_pos hc, if_pos ((toLower_eq_sigma c).mpr hc)]
      unfold mapUppercaseSigma
      rw [caseIgnorableThenCased_toLower hU, caseIgnorableThenCased_toLower hU]
    · rw [if_neg hc, if_neg (mt (toLower_eq_sigma c).mp hc), lower_toLower]

theorem lowerText_ascii (cs : List Char) (h : ∀ c ∈ cs, c.toNat < 128) : ∀ before : List Char,
    U.lowerText before cs = cs.map Char.toLower := by
  induction cs with
  | nil => exact fun _ => rfl
  | cons c cs ih =>
    intro before
    have hc := h c List.mem_cons_self
    have hne : c ≠ 'Σ' := by
      rintro rfl
      exact absurd hc (by decide)
    rw [lowerText, if_neg hne, U.ascii c hc, ih (fun d hd => h d (List.mem_cons_of_mem c hd))]
    rfl

/-- The branch for ASCII is the loop. -/
theorem toLowercase_utf8 (cs : List Char) : U.toLowercase (utf8 cs) = utf8 (U.lowerText [] cs) := by
  unfold toLowercase
  by_cases h : (utf8 cs).all (· < 128) = true
  · rw [if_pos h, utf8_toLower, lowerText_ascii cs]
    intro c hc
    by_contra h128
    obtain ⟨b, hb⟩ := List.exists_mem_of_ne_nil _ (String.utf8EncodeChar_ne_nil (c := c))
    have hle := le_of_mem_utf8EncodeChar c (by omega) b hb
    have hlt := List.all_eq_true.mp h b (List.mem_flatMap.mpr ⟨c, hc, hb⟩)
    have := UInt8.lt_iff_toNat_lt.mp (of_decide_eq_true hlt)
    simp at this
    omega
  · rw [if_neg h, fromUtf8_utf8]

/-- `str::to_lowercase` does not see ASCII case. -/
theorem toLowercase_eq (hU : U.Caseless) {a b : Str} (ha : IsText a) (hb : IsText b)
    (h : eqIgnoreAsciiCase a b = true) : U.toLowercase a = U.toLowercase b := by
  obtain ⟨cs, rfl⟩ := ha
  obtain ⟨ds, rfl⟩ := hb
  have hmap := (eqIgnoreAsciiCase_utf8 cs ds).mp h
  have hcs := lowerText_toLower hU cs []
  have hds := lowerText_toLower hU ds []
  rw [toLowercase_utf8, toLowercase_utf8, ← hcs, ← hds, hmap]

end Unicode

/-! ## Comparing two rule sets -/

/-- What a rule change re-admits, and therefore what has to be walked. -/
inductive Opened where
  /-- The change only ever removes. -/
  | nothing
  /-- These subtrees, and nothing else. -/
  | subtrees (paths : List Str)
  /-- A name was re-admitted, and a name can be anywhere. -/
  | everything
deriving DecidableEq

/-- The texts of one list that another is without. -/
def gone (was now : List Str) : List Str :=
  was.filter fun v => !now.any fun x => eqIgnoreAsciiCase x v

/-- What the second rule set lets back in. -/
def openedUp (before after : ScanOptions) : Opened :=
  if !(gone before.excludeDirs after.excludeDirs).isEmpty ||
      !(gone before.excludeFiles after.excludeFiles).isEmpty then .everything
  else
    -- an `allow` is only a place when it looks like one
    let admitted := gone after.allow before.allow
    if admitted.any fun v => !(v.head? == some slash) then .everything
    else
      let subtrees := gone before.excludePaths after.excludePaths ++ admitted
      if subtrees.isEmpty then .nothing else .subtrees subtrees

/-- Is a path walked when a change opens this much? -/
def Opened.Covers (o : Opened) (path : Str) : Prop :=
  match o with
  | .nothing => False
  | .subtrees paths => ∃ p ∈ paths, under path p = true
  | .everything => True

/-- A directory or file name went, or a relative allow rule came. -/
def Anywhere (before after : ScanOptions) : Prop :=
  gone before.excludeDirs after.excludeDirs ≠ [] ∨ gone before.excludeFiles after.excludeFiles ≠ [] ∨
    ∃ v ∈ gone after.allow before.allow, v.head? ≠ some slash

/-- A path rule that went, or an allow rule that came, covers the path. -/
def Named (before after : ScanOptions) (path : Str) : Prop :=
  ∃ p ∈ gone before.excludePaths after.excludePaths ++ gone after.allow before.allow,
    under path p = true

theorem covers_openedUp (before after : ScanOptions) (path : Str) :
    (openedUp before after).Covers path ↔ Anywhere before after ∨ Named before after path := by
  unfold openedUp Anywhere Named
  by_cases h1 : gone before.excludeDirs after.excludeDirs = []
  · by_cases h2 : gone before.excludeFiles after.excludeFiles = []
    · rw [if_neg (by simp [h1, h2])]
      simp only
      by_cases h3 : ∃ v ∈ gone after.allow before.allow, v.head? ≠ some slash
      · rw [if_pos (by simpa using h3)]
        simp only [Opened.Covers, true_iff]
        exact Or.inl (Or.inr (Or.inr h3))
      · rw [if_neg (by simpa using h3)]
        have hno : ¬(gone before.excludeDirs after.excludeDirs ≠ [] ∨
            gone before.excludeFiles after.excludeFiles ≠ [] ∨
            ∃ v ∈ gone after.allow before.allow, v.head? ≠ some slash) := by
          rintro (h | h | h)
          · exact h h1
          · exact h h2
          · exact h3 h
        rw [or_iff_right hno]
        split
        · rename_i he
          rw [List.isEmpty_iff.mp he]
          simp [Opened.Covers]
        · rfl
    · rw [if_pos (by simp [h2])]
      simp only [Opened.Covers, true_iff]
      exact Or.inl (Or.inr (Or.inl h2))
  · rw [if_pos (by simp [h1])]
    simp only [Opened.Covers, true_iff]
    exact Or.inl (Or.inl h1)

/-! ## Rules that only grew -/

section
variable {U : Unicode}

theorem lower_subset (hU : U.Caseless) {was now : List Str} (hwas : ∀ v ∈ was, IsText v)
    (hnow : ∀ v ∈ now, IsText v) (h : gone was now = []) :
    was.map U.toLowercase ⊆ now.map U.toLowercase := by
  intro d hd
  obtain ⟨v, hv, rfl⟩ := List.mem_map.mp hd
  unfold gone at h
  rw [List.filter_eq_nil_iff] at h
  have hany := h v hv
  simp only [Bool.not_eq_true', Bool.not_eq_false, List.any_eq_true] at hany
  obtain ⟨x, hx, heq⟩ := hany
  rw [← Unicode.toLowercase_eq hU (hnow x hx) (hwas v hv) heq]
  exact List.mem_map_of_mem hx

theorem anyM_some_false {α : Type} (f : α → Option Bool) (l : List α) :
    l.anyM f = some false ↔ ∀ a ∈ l, f a = some false := by
  induction l with
  | nil => simp
  | cons a l ih =>
    rw [List.forall_mem_cons, ← ih]
    simp only [List.anyM_cons, Option.bind_eq_bind, Option.pure_def]
    cases f a with
    | none => simp
    | some b => cases b <;> simp

/-- What names the entries that the first rule set leaves out, the second does too. -/
structure Grown (r r' : Rules) : Prop where
  dirs : r.dirs ⊆ r'.dirs
  dirSeqs : r.dirSeqs ⊆ r'.dirSeqs
  files : r.files ⊆ r'.files

theorem grown_fromOptions (hU : U.Caseless) {before after : ScanOptions}
    (hbefore : ∀ v ∈ before.excludeDirs ++ before.excludeFiles, IsText v)
    (hafter : ∀ v ∈ after.excludeDirs ++ after.excludeFiles, IsText v)
    (hno : ¬Anywhere before after) :
    Grown (Rules.fromOptions U before) (Rules.fromOptions U after) := by
  unfold Anywhere at hno
  push Not at hno
  simp only [List.mem_append] at hbefore hafter
  have hdirs := lower_subset hU (fun v hv => hbefore v (Or.inl hv)) (fun v hv => hafter v (Or.inl hv))
    hno.1
  have hfiles := lower_subset hU (fun v hv => hbefore v (Or.inr hv))
    (fun v hv => hafter v (Or.inr hv)) hno.2.1
  refine ⟨?_, ?_, hfiles⟩
  · exact List.filter_subset _ hdirs
  · exact List.map_subset _ (List.filter_subset _ hdirs)

namespace Grown

variable {r r' : Rules} (h : Grown r r')
include h

theorem caught {path name : Str} {isDir : Bool} (hc : r.caught U path name isDir = true) :
    r'.caught U path name isDir = true := by
  unfold Rules.caught at hc ⊢
  cases isDir with
  | false =>
    simp only [Bool.false_eq_true, if_false, List.contains_iff_mem] at hc ⊢
    exact h.files hc
  | true =>
    simp only [if_true, Bool.or_eq_true, List.contains_iff_mem] at hc ⊢
    refine hc.imp (fun hd => h.dirs hd) fun hs => ?_
    unfold Rules.seqEndsAt at hs ⊢
    obtain ⟨rule, hr, hm⟩ := List.any_eq_true.mp hs
    exact List.any_eq_true.mpr ⟨rule, h.dirSeqs hr, hm⟩

/-- An entry that lies in no directory the second set names lies in none the first does. -/
theorem insideExcluded {path : Str} (hi : r'.insideExcluded U path = some false) :
    r.insideExcluded U path = some false := by
  unfold Rules.insideExcluded at hi ⊢
  by_cases h1 : ((components path).dropLast.any fun c => r'.dirs.contains (U.charsLowercase c)) = true
  · rw [if_pos h1] at hi
    cases hi
  · rw [if_neg h1] at hi
    rw [if_neg]
    · unfold Rules.seqWithin at hi ⊢
      by_cases he : r.dirSeqs = []
      · rw [he]
        rfl
      · have he' : r'.dirSeqs ≠ [] := fun hn => he (List.subset_nil.mp (hn ▸ h.dirSeqs))
        rw [if_neg (by simpa using he')] at hi
        rw [if_neg (by simpa using he)]
        rw [anyM_some_false] at hi ⊢
        exact fun rule hr => hi rule (h.dirSeqs hr)
    · intro h2
      obtain ⟨c, hc, hd⟩ := List.any_eq_true.mp h2
      apply h1
      refine List.any_eq_true.mpr ⟨c, hc, ?_⟩
      rw [List.contains_iff_mem] at hd ⊢
      exact h.dirs hd

end Grown

namespace Rules

variable (r : Rules)

/-- Where nothing is denied: is there a rule against the entry? -/
def Against (U : Unicode) (path name : Str) (isDir : Bool) : Prop :=
  r.paths.any (under path ·) = true ∨ r.caught U path name isDir = true ∨
    (r.hasAllow = true ∧ r.insideExcluded U path = some true)

theorem excludes_true_iff {path name : Str} {isDir : Bool} (hd : r.denied path = false) :
    r.excludes U path name isDir = some true ↔
      r.allows U path isDir = false ∧ r.Against U path name isDir := by
  rw [excludes_eq, hd]
  unfold Against
  by_cases h1 : r.allows U path isDir = true
  · simp [h1]
  · rw [Bool.not_eq_true] at h1
    rw [h1]
    by_cases h2 : r.paths.any (under path ·) = true
    · simp [h2]
    · by_cases h3 : r.caught U path name isDir = true
      · simp [h3]
      · by_cases h4 : r.hasAllow = true
        · simp [h2, h3, h4]
        · simp [h2, h3, h4]

/-- What leaves an entry in: an allow rule, or nothing against it. -/
theorem excludes_false {path name : Str} {isDir : Bool}
    (hx : r.excludes U path name isDir = some false) : r.denied path = false ∧
      (r.allows U path isDir = true ∨ (r.paths.any (under path ·) = false ∧
        r.caught U path name isDir = false ∧
          (r.hasAllow = true → r.insideExcluded U path = some false))) := by
  rw [excludes_eq] at hx
  by_cases h0 : r.denied path = true
  · rw [if_pos h0] at hx
    cases hx
  rw [if_neg h0] at hx
  refine ⟨by simpa using h0, ?_⟩
  by_cases h1 : r.allows U path isDir = true
  · exact Or.inl h1
  rw [if_neg h1] at hx
  by_cases h2 : r.paths.any (under path ·) = true
  · rw [if_pos h2] at hx
    cases hx
  rw [if_neg h2] at hx
  by_cases h3 : r.caught U path name isDir = true
  · rw [if_pos h3] at hx
    cases hx
  rw [if_neg h3] at hx
  refine Or.inr ⟨by simpa using h2, by simpa using h3, fun h4 => ?_⟩
  rwa [if_pos h4] at hx

end Rules

/-! ## What the first rule set left out -/

variable (U)

/-- A rule against the entry was overruled or dropped by a respelling, or the last allow rule went
while the entry lies in an excluded directory. -/
def Loosened (r r' : Rules) (path name : Str) (isDir : Bool) : Prop :=
  r.allows U path isDir = false ∧
    ((r'.allows U path isDir = true ∧ r.Against U path name isDir) ∨
      (r.paths.any (under path ·) = true ∧ r'.paths.any (under path ·) = false) ∨
      (r.hasAllow = true ∧ r'.hasAllow = false ∧ r.insideExcluded U path = some true))

/-- When what the second rule set reports, the first did too: nothing is loosened on the entry, nor
on a directory above it that kept nothing allowed, and no directory above it is gone into for what
the second rule set alone allows below it. -/
def Stays (r r' : Rules) (root : Str) (s : Spot) : Prop :=
  ¬Loosened U r r' (pathAt root s.names) (nameAt root s.names) s.isDir ∧
    ∀ l, l <+: s.names → l ≠ s.names → r.mayContainAllowed U (pathAt root l) = false →
      ¬Loosened U r r' (pathAt root l) (nameAt root l) true ∧
        ¬(r.excludes U (pathAt root l) (nameAt root l) true = some true ∧
          r'.mayContainAllowed U (pathAt root l) = true)

/-- Does a walk report the entry? -/
def Rules.Reports (r : Rules) (root : Str) (below : Forest) (s : Spot) : Prop :=
  ∃ out, r.scan U root below = some out ∧ s ∈ out

variable {U}

theorem Loosened.against {r r' : Rules} {path name : Str} {isDir : Bool}
    (h : Loosened U r r' path name isDir) :
    r.allows U path isDir = false ∧ r.Against U path name isDir := by
  obtain ⟨ha, ⟨-, hag⟩ | ⟨hp, -⟩ | ⟨h1, -, h2⟩⟩ := h
  · exact ⟨ha, hag⟩
  · exact ⟨ha, Or.inl hp⟩
  · exact ⟨ha, Or.inr (Or.inr ⟨h1, h2⟩)⟩

/-- What one rule set leaves out and the grown one leaves in was loosened. -/
theorem Grown.loosened {r r' : Rules} (h : Grown r r') {path name : Str} {isDir : Bool}
    (hx' : r'.excludes U path name isDir = some false) (ha : r.allows U path isDir = false)
    (hag : r.Against U path name isDir) : Loosened U r r' path name isDir := by
  refine ⟨ha, ?_⟩
  obtain ⟨-, ha' | ⟨hp', hc', hi'⟩⟩ := r'.excludes_false hx'
  · exact Or.inl ⟨ha', hag⟩
  · right
    rcases hag with hp | hc | ⟨h1, hi⟩
    · exact Or.inl ⟨hp, hp'⟩
    · rw [h.caught hc] at hc'
      cases hc'
    · refine Or.inr ⟨h1, ?_, hi⟩
      by_contra h2
      have := h.insideExcluded (hi' (by simpa using h2))
      rw [hi] at this
      cases this

theorem reports_iff (r : Rules) (root : Str) (below : Forest) {s : Spot} (hs : s ∈ treeSpots below) :
    r.Reports U root below s ↔ (r.scan U root below).isSome = true ∧ r.Reached U root 0 s.names ∧
      r.excludes U (pathAt root s.names) (nameAt root s.names) s.isDir = some false := by
  unfold Rules.Reports
  constructor
  · rintro ⟨out, hout, hmem⟩
    rw [r.scan_spec U root below out hout, r.reported_iff] at hmem
    exact ⟨by rw [hout]; rfl, hmem.2⟩
  · rintro ⟨hscan, hmem⟩
    obtain ⟨out, hout⟩ := Option.isSome_iff_exists.mp hscan
    refine ⟨out, hout, ?_⟩
    rw [r.scan_spec U root below out hout, r.reported_iff]
    exact ⟨hs, hmem⟩

/-- Of an entry the grown rule set reports: the other does exactly when it does not panic and nothing
was loosened. -/
theorem Grown.reports_iff {r r' : Rules} (h : Grown r r') (hdeny : r.deny = r'.deny) {root : Str}
    {below : Forest} {s : Spot} (hs : s ∈ treeSpots below) (hrep : r'.Reports U root below s) :
    r.Reports U root below s ↔ (∀ x ∈ treeSpots below, r.Calm U root x) ∧ Stays U r r' root s := by
  rw [Scour.reports_iff r' root below hs] at hrep
  obtain ⟨-, hreach', hx'⟩ := hrep
  have hd' := (r'.excludes_false hx').1
  have hd : r.denied (pathAt root s.names) = false := by
    unfold Rules.denied at hd' ⊢
    rwa [hdeny]
  have hdl : ∀ l, l <+: s.names → l ≠ s.names → r.denied (pathAt root l) = false := by
    intro l hl hne
    by_contra hno
    rw [r.denied_mono (leads_pathAt root hl hne) (by simpa using hno)] at hd
    cases hd
  rw [Scour.reports_iff r root below hs, Rules.scan_isSome_iff]
  refine and_congr_right fun hcalm => ?_
  have hscan := (r.scan_isSome_iff U root below).mpr hcalm
  rw [r.reached_iff U root below hscan hs hd]
  constructor
  · rintro ⟨hshut, hx⟩
    refine ⟨fun hl => ?_, fun l hl hne hmay => ⟨fun hlo => ?_, fun hex => ?_⟩⟩
    · rw [(r.excludes_true_iff hd).mpr hl.against] at hx
      cases hx
    · exact hshut ⟨l, hl, hne, hlo.against.1, hlo.against.2, hmay⟩
    · exact hshut ⟨l, hl, hne, (r.closes_iff U (hdl l hl hne)).mpr ⟨hex.1, hmay⟩⟩
  · rintro ⟨hself, habove⟩
    have hshut : ¬r.Shut U root s.names := by
      rintro ⟨l, hl, hne, hc⟩
      obtain ⟨hno, hmay⟩ := (r.closes_iff U (hdl l hl hne)).mp hc
      obtain ⟨hlo, hopen⟩ := habove l hl hne hmay
      rcases (r'.entered_iff U root l).mp (hreach' l hl hne (Nat.zero_le _)) with he | ⟨-, he⟩
      · exact hlo (h.loosened he hc.1 hc.2.1)
      · exact hopen ⟨hno, he⟩
    refine ⟨hshut, ?_⟩
    cases hx : r.excludes U (pathAt root s.names) (nameAt root s.names) s.isDir with
    | none =>
      have hreach := (r.reached_iff U root below hscan hs hd).mpr hshut
      rw [Rules.scan_isSome] at hscan
      exact absurd hx ((r.visitAt_ne_none_iff U root s).mp (hscan s hs hreach))
    | some b =>
      cases b with
      | false => rfl
      | true =>
        obtain ⟨ha, hag⟩ := (r.excludes_true_iff hd).mp hx
        exact absurd (h.loosened hx' ha hag) hself

end

/-- What a walk of the roots reports under the second options, and one under the first did not, is
walked. -/
def OpenedIsWalked (U : Unicode) (before after : ScanOptions) (roots : List (Str × Forest)) : Prop :=
  ∀ w ∈ roots, ∀ s ∈ treeSpots w.2, (Rules.fromOptions U after).Reports U w.1 w.2 s →
    ¬(Rules.fromOptions U before).Reports U w.1 w.2 s →
      (openedUp before after).Covers (pathAt w.1 s.names)

/-- The names that rules exclude are texts. -/
def ScanOptions.Spelled (opts : ScanOptions) : Prop :=
  ∀ v ∈ opts.excludeDirs ++ opts.excludeFiles, IsText v

/-- What a change opens is walked exactly when everything is, or whatever is reported and no rule
named was reported before for the reasons of `Stays`. -/
theorem openedUp_walked_iff (U : Unicode) (hU : U.Caseless) (before after : ScanOptions)
    (hbefore : before.Spelled) (hafter : after.Spelled) (hdeny : before.deny = after.deny)
    (roots : List (Str × Forest)) :
    OpenedIsWalked U before after roots ↔ Anywhere before after ∨
      ∀ w ∈ roots, ∀ s ∈ treeSpots w.2, (Rules.fromOptions U after).Reports U w.1 w.2 s →
        Named before after (pathAt w.1 s.names) ∨
          ((∀ x ∈ treeSpots w.2, (Rules.fromOptions U before).Calm U w.1 x) ∧
            Stays U (Rules.fromOptions U before) (Rules.fromOptions U after) w.1 s) := by
  unfold OpenedIsWalked
  by_cases hany : Anywhere before after
  · simp [covers_openedUp, hany]
  · have hgrown := grown_fromOptions hU hbefore hafter hany
    have hnorm : (Rules.fromOptions U before).deny = (Rules.fromOptions U after).deny := by
      show Rules.norm before.deny = Rules.norm after.deny
      rw [hdeny]
    simp only [covers_openedUp, hany, false_or]
    refine forall_congr' fun w => forall_congr' fun _ => forall_congr' fun s => forall_congr' fun hs =>
      forall_congr' fun hrep => ?_
    rw [← hgrown.reports_iff hnorm hs hrep]
    tauto

/-- A path rule that goes away, over a directory of one file. -/
theorem openedUp_walked_dropped :
    let before : ScanOptions := { excludePaths := [str "/w/a"], excludeDirs := [str "target"] }
    let after : ScanOptions := { excludeDirs := [str "Target"] }
    let below : Forest := .dir ⟨str "a", by decide⟩ (.file ⟨str "f", by decide⟩ .nil) .nil
    OpenedIsWalked .asciiOnly before after [(str "/w", below)] ↔ Anywhere before after ∨
      ∀ w ∈ [(str "/w", below)], ∀ s ∈ treeSpots w.2,
        (Rules.fromOptions .asciiOnly after).Reports .asciiOnly w.1 w.2 s →
          Named before after (pathAt w.1 s.names) ∨
            ((∀ x ∈ treeSpots w.2, (Rules.fromOptions .asciiOnly before).Calm .asciiOnly w.1 x) ∧
              Stays .asciiOnly (Rules.fromOptions .asciiOnly before)
                (Rules.fromOptions .asciiOnly after) w.1 s) := by
  intro before after below
  refine openedUp_walked_iff .asciiOnly Unicode.asciiOnly_caseless before after ?_ ?_ rfl _
  · intro v hv
    rw [List.mem_singleton.mp hv]
    exact ⟨['t', 'a', 'r', 'g', 'e', 't'], by decide⟩
  · intro v hv
    rw [List.mem_singleton.mp hv]
    exact ⟨['T', 'a', 'r', 'g', 'e', 't'], by decide⟩

/-- A path rule spelled in another case is no longer a rule over the directory, and nothing walks
it. -/
theorem not_openedUp_walked : ¬ ∀ (U : Unicode), U.Caseless → ∀ before after : ScanOptions,
    before.Spelled → after.Spelled → before.deny = after.deny →
      ∀ roots : List (Str × Forest), OpenedIsWalked U before after roots := by
  intro h
  have hspelled : ∀ p : Str, ScanOptions.Spelled { excludePaths := [p] } := by
    intro p v hv
    cases hv
  have hrep : (Rules.fromOptions .asciiOnly { excludePaths := [str "/w/data"] }).Reports .asciiOnly
      (str "/w") (.dir ⟨str "Data", by decide⟩ .nil .nil) ⟨[⟨str "Data", by decide⟩], true⟩ :=
    ⟨[⟨[], true⟩, ⟨[⟨str "Data", by decide⟩], true⟩], by decide +kernel, by simp⟩
  have hnot : ¬(Rules.fromOptions .asciiOnly { excludePaths := [str "/w/Data"] }).Reports .asciiOnly
      (str "/w") (.dir ⟨str "Data", by decide⟩ .nil .nil) ⟨[⟨str "Data", by decide⟩], true⟩ := by
    rintro ⟨out, hout, hmem⟩
    have hscan : (Rules.fromOptions .asciiOnly { excludePaths := [str "/w/Data"] }).scan .asciiOnly
        (str "/w") (.dir ⟨str "Data", by decide⟩ .nil .nil) = some [⟨[], true⟩] := by decide +kernel
    rw [hscan, Option.some.injEq] at hout
    rw [← hout] at hmem
    simp at hmem
  have hcov := h .asciiOnly Unicode.asciiOnly_caseless { excludePaths := [str "/w/Data"] }
    { excludePaths := [str "/w/data"] } (hspelled _) (hspelled _) rfl
    [(str "/w", .dir ⟨str "Data", by decide⟩ .nil .nil)] _ List.mem_cons_self
    ⟨[⟨str "Data", by decide⟩], true⟩ (by simp [treeSpots, Forest.spots]) hrep hnot
  have hopen : openedUp { excludePaths := [str "/w/Data"] } { excludePaths := [str "/w/data"] } =
      .nothing := by decide +kernel
  rw [hopen] at hcov
  exact hcov

end Scour
