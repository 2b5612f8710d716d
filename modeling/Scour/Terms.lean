import Scour.Parse
import Scour.Reference

/-!
# One token through the parser

What the passes leave of a token that stands alone, what a mark in front of it changes, and what the
query then says of a row: every expanded token that has an alternative must have one that holds
(`matches_parseIn`).
-/

namespace Scour

/-! ## Characters -/

section Characters

variable (R : Reader)

theorem bang_not_whitespace : R.isWhitespace '!' = false := by
  rw [R.whitespace_ascii '!' (by decide)]
  decide

theorem bang_not_alphabetic : R.isAlphabetic '!' = false := by
  rw [R.alphabetic_ascii '!' (by decide)]
  decide

theorem quote_not_alphabetic : R.isAlphabetic '"' = false := by
  rw [R.alphabetic_ascii '"' (by decide)]
  decide

/-- A letter of ASCII is not folded away. -/
theorem fold_ne_nil_of_ascii (T : CaseTable) {t : Text} {c : Char} (hc : c ∈ t)
    (h : c.toNat < 128) : DefaultFolder.fold T t ≠ [] := by
  intro h0
  have hm : c.toLower ∈ DefaultFolder.fold T t := by
    unfold DefaultFolder.fold
    rw [List.mem_flatMap]
    exact ⟨c, hc, by rw [DefaultFolder.foldChar_ascii T c h]; exact List.mem_singleton_self _⟩
  rw [h0] at hm
  cases hm

/-- Lower case ASCII is folded. -/
theorem fold_of_lower (T : CaseTable) (t : Text) (h : ∀ c ∈ t, c.toNat < 128 ∧ c.toLower = c) :
    DefaultFolder.fold T t = t := by
  induction t with
  | nil => rfl
  | cons c t ih =>
    obtain ⟨h1, h2⟩ := h c List.mem_cons_self
    rw [DefaultFolder.fold_cons, DefaultFolder.foldChar_ascii T c h1, h2,
      ih fun d hd => h d (List.mem_cons_of_mem _ hd)]
    rfl

end Characters

/-! ## Tokens -/

section Tokens

variable (R : Reader)

/-- No white space outside quotes, when it begins inside of some or not. -/
def bare : Bool → Text → Bool
  | _, [] => true
  | q, c :: s => if c = '"' then bare (!q) s else (!R.isWhitespace c || q) && bare q s

/-- Is the end inside quotes? -/
def endsQuoted : Bool → Text → Bool
  | q, [] => q
  | q, c :: s => endsQuoted (if c = '"' then !q else q) s

theorem bare_append (a b : Text) : ∀ q, bare R q (a ++ b) = (bare R q a && bare R (endsQuoted q a) b) := by
  induction a with
  | nil => simp [bare, endsQuoted]
  | cons c a ih =>
    intro q
    by_cases hc : c = '"'
    · simp [bare, endsQuoted, hc, ih]
    · simp [bare, endsQuoted, hc, ih, Bool.and_assoc]

theorem endsQuoted_append (a b : Text) : ∀ q,
    endsQuoted q (a ++ b) = endsQuoted (endsQuoted q a) b := by
  induction a with
  | nil => simp [endsQuoted]
  | cons c a ih => simp [endsQuoted, ih]

/-- What holds no white space goes into the current token. -/
theorem tokenizeFrom_append (a s : Text) : ∀ q cur, bare R q a = true →
    tokenizeFrom R cur q (a ++ s) = tokenizeFrom R (cur ++ a) (endsQuoted q a) s := by
  induction a with
  | nil => simp [endsQuoted]
  | cons c a ih =>
    intro q cur h
    unfold bare at h
    rw [List.cons_append, tokenizeFrom]
    by_cases hc : c = '"'
    · rw [if_pos hc] at h
      rw [if_pos hc, ih _ _ h]
      simp [endsQuoted, hc]
    · rw [if_neg hc, Bool.and_eq_true] at h
      rw [if_neg hc, if_neg (by simpa [imp_iff_not_or] using h.1), ih _ _ h.2]
      simp [endsQuoted, hc]

theorem tokenize_of_bare {t : Text} (h : bare R false t = true) (hne : t ≠ []) :
    tokenize R t = [t] := by
  have := tokenizeFrom_append R t [] false [] h
  rw [List.append_nil, List.nil_append] at this
  unfold tokenize
  rw [this]
  simp [tokenizeFrom, hne]

/-- Every token is bare. -/
theorem bare_of_mem_tokenizeFrom (s : Text) : ∀ cur q, bare R false cur = true →
    endsQuoted false cur = q → ∀ t ∈ tokenizeFrom R cur q s, bare R false t = true ∧ t ≠ [] := by
  induction s with
  | nil =>
    intro cur q hb _ t ht
    unfold tokenizeFrom at ht
    split at ht
    · cases ht
    · rename_i hne
      rw [List.mem_singleton.mp ht]
      exact ⟨hb, hne⟩
  | cons c s ih =>
    intro cur q hb hq t ht
    unfold tokenizeFrom at ht
    split at ht
    · rename_i hc
      apply ih _ _ _ _ t ht
      · rw [bare_append, hb]
        rfl
      · rw [endsQuoted_append, hq]
        rfl
    · rename_i hc
      split at ht
      · rename_i hw
        rcases List.mem_append.mp ht with ht | ht
        · split at ht
          · cases ht
          · rename_i hne
            rw [List.mem_singleton.mp ht]
            exact ⟨hb, hne⟩
        · obtain rfl : q = false := by simpa using hw.2
          exact ih [] false rfl rfl t ht
      · rename_i hw
        apply ih _ _ _ _ t ht
        · rw [bare_append, hb, hq]
          simpa [bare, hc, imp_iff_not_or] using hw
        · rw [endsQuoted_append, hq]
          simp [endsQuoted, hc]

theorem bare_of_mem_tokenize {q t : Text} (h : t ∈ tokenize R q) :
    bare R false t = true ∧ t ≠ [] :=
  bare_of_mem_tokenizeFrom R q [] false rfl rfl t h

theorem tokenize_bang {t : Text} (h : bare R false t = true) : tokenize R ('!' :: t) = ['!' :: t] := by
  apply tokenize_of_bare R _ (List.cons_ne_nil _ _)
  simp [bare, bang_not_whitespace, h]

end Tokens

/-! ## Pieces -/

section Pieces

theorem splitOutsideQuotesFrom_ne_nil (mark : Char) (s : Text) :
    ∀ q, splitOutsideQuotesFrom mark q s ≠ [] := by
  induction s with
  | nil => simp [splitOutsideQuotesFrom]
  | cons c s ih =>
    intro q
    unfold splitOutsideQuotesFrom
    split
    · rw [Ne, List.modifyHead_eq_nil_iff]
      exact ih _
    · split
      · exact List.cons_ne_nil _ _
      · rw [Ne, List.modifyHead_eq_nil_iff]
        exact ih _

theorem splitOutsideQuotes_ne_nil (s : Text) (mark : Char) : splitOutsideQuotes s mark ≠ [] :=
  splitOutsideQuotesFrom_ne_nil mark s false

/-- What holds neither a quote nor the mark stays with what follows it. -/
theorem splitOutsideQuotes_append (mark : Char) (a s : Text)
    (h : ∀ c ∈ a, c ≠ '"' ∧ c ≠ mark) :
    splitOutsideQuotes (a ++ s) mark = (splitOutsideQuotes s mark).modifyHead (a ++ ·) := by
  induction a with
  | nil => exact (congrFun List.modifyHead_id _).symm
  | cons c a ih =>
    obtain ⟨h1, h2⟩ := h c List.mem_cons_self
    have ih := ih fun d hd => h d (List.mem_cons_of_mem _ hd)
    unfold splitOutsideQuotes at ih ⊢
    rw [List.cons_append, splitOutsideQuotesFrom, if_neg h1, if_neg (by simp [h2]), ih,
      List.modifyHead_modifyHead]
    rfl

theorem splitOutsideQuotes_of_notMem (mark : Char) (a : Text) (h : ∀ c ∈ a, c ≠ '"' ∧ c ≠ mark) :
    splitOutsideQuotes a mark = [a] := by
  have := splitOutsideQuotes_append mark a [] h
  rw [List.append_nil] at this
  rw [this]
  simp [splitOutsideQuotes, splitOutsideQuotesFrom]

/-- The pieces of a token whose current piece begins with one more character. -/
theorem cutBangs_cons (d : Char) (s : Text) : ∀ cur, cur ≠ [] →
    cutBangs (d :: cur) s = (cutBangs cur s).modifyHead (d :: ·) := by
  induction s with
  | nil =>
    intro cur _
    rfl
  | cons c s ih =>
    intro cur hne
    have hlast : (d :: cur).getLast? = cur.getLast? := by
      cases cur with
      | nil => exact absurd rfl hne
      | cons b cur => rfl
    simp only [cutBangs, hlast]
    split
    · rw [← ih (cur ++ [c]) (by simp)]
      rfl
    · rfl

theorem cutBangs_bang {t : Text} (hne : t ≠ []) (hbang : t.head? ≠ some '!') :
    cutBangs [] ('!' :: t) = (cutBangs [] t).modifyHead ('!' :: ·) := by
  cases t with
  | nil => exact absurd rfl hne
  | cons c t =>
    have hc : c ≠ '!' := by simpa using hbang
    have h1 : cutBangs [] ('!' :: c :: t) = cutBangs (['!'] ++ [c]) t := by
      simp [cutBangs, hc]
    have h2 : cutBangs [] (c :: t) = cutBangs [c] t := by
      simp [cutBangs, hc]
    rw [h1, h2]
    exact cutBangs_cons '!' t [c] (by simp)

end Pieces

/-! ## The passes on one token -/

section One

variable (R : Reader)

/-- The passes leave the token as it is. -/
structure OneTerm (t : Text) : Prop where
  /-- it is a field, or nothing in it separates two terms, -/
  uncut : isFieldToken R t = true ∨ splitOutsideQuotes t ';' = [t] ∧ cutBangs [] t = [t]
  /-- no operator is left at its end, -/
  closed : t.getLast? ≠ some '|'
  /-- and it is no group in parentheses. -/
  ungrouped : joinParens R [t] = [t]

theorem joinLists_one (t : Text) : joinLists R [t] = [t] := by
  by_cases h : startsQuoted t = true
  · simp [joinLists, joinListsStep, h]
  · simp [joinLists, joinListsStep, h]

theorem joinOperators_one {t : Text} (hne : t ≠ []) (hbang : t ≠ ['!'])
    (hbar : t.getLast? ≠ some '|') : joinOperators [t] = [t] := by
  have h1 : t ≠ ['|'] := by
    rintro rfl
    exact hbar rfl
  simp [joinOperators, joinOperatorsStep, hne, hbang, hbar, h1]

variable {R}

theorem passes_one {q t : Text} (hq : tokenize R q = [t]) (hne : t ≠ []) (hbang : t ≠ ['!'])
    (h : OneTerm R t) : passes R q = [t] := by
  have h1 : splitSemicolons R [t] = [t] := by
    unfold splitSemicolons
    rcases h.uncut with h | ⟨h, -⟩ <;> simp [h, hne]
  have h2 : splitBangs R [t] = [t] := by
    unfold splitBangs
    rcases h.uncut with h | ⟨-, h⟩ <;> simp [h]
  unfold passes
  rw [hq, joinLists_one, h1, h2, joinOperators_one hne hbang h.closed, h.ungrouped]

/-- A mark in front of a term leaves it one. -/
theorem OneTerm.bang {t : Text} (h : OneTerm R t) (hne : t ≠ []) (hbang : t.head? ≠ some '!') :
    OneTerm R ('!' :: t) where
  uncut := by
    have hfield : isFieldToken R ('!' :: t) = isFieldToken R t := by
      have h1 : stripPrefix ['!'] ('!' :: t) = some t := by simp [stripPrefix]
      have h2 : stripPrefix ['!'] t = none := by
        unfold stripPrefix
        rw [if_neg]
        rintro ⟨s, rfl⟩
        exact hbang rfl
      simp [isFieldToken, tokenField, h1, h2]
    rcases h.uncut with h | ⟨h1, h2⟩
    · left
      rw [hfield, h]
    · right
      refine ⟨?_, ?_⟩
      · have := splitOutsideQuotes_append ';' ['!'] t (by decide)
        rw [show ['!'] ++ t = '!' :: t from rfl] at this
        rw [this, h1]
        rfl
      · rw [cutBangs_bang hne hbang, h2]
        rfl
  closed := by
    have hlast : ('!' :: t).getLast? = t.getLast? := by
      cases t with
      | nil => exact absurd rfl hne
      | cons b t => rfl
    rw [hlast]
    exact h.closed
  ungrouped := by simp [joinParens, joinParensFrom, opensGroup]

end One

/-! ## Expansion -/

section Expansion

variable (R : Reader)

/-- A field is what stands before the first colon. -/
theorem splitField_colon (l r : Text) (h : ':' ∉ l) :
    splitField R (l ++ ':' :: r) =
      if l.length < 2 ∨ ¬ l.all R.isAlphabetic then none
      else some (DefaultFolder.fold R.case l, r) := by
  have hne : ∀ c ∈ l, decide (c ≠ ':') = true := by
    intro c hc
    simpa using fun he : c = ':' => h (he ▸ hc)
  have htake : (l ++ ':' :: r).takeWhile (· ≠ ':') = l := by
    rw [List.takeWhile_append_of_pos hne]
    simp
  have hdrop : (l ++ ':' :: r).dropWhile (· ≠ ':') = ':' :: r := by
    rw [List.dropWhile_append_of_pos hne]
    simp
  unfold splitField
  rw [if_neg (by simp)]
  simp only [htake, hdrop, List.tail_cons]

theorem splitField_eq_none {s : Text} {c : Char} (hc : s.head? = some c)
    (ha : R.isAlphabetic c = false) (hcolon : c ≠ ':') : splitField R s = none := by
  cases s with
  | nil => cases hc
  | cons d s =>
    obtain rfl : d = c := by simpa using hc
    unfold splitField
    split
    · rfl
    · simp [hcolon, ha]

theorem expand_quoted {t : Text} (h : startsQuoted t = true) : expand R t = [t] := by
  simp [expand, h]

theorem splitField_quoted {t : Text} (h : startsQuoted t = true) : splitField R t = none := by
  apply splitField_eq_none R (c := '"') (by simpa [startsQuoted] using h)
    (quote_not_alphabetic R) (by decide)

/-- The field a token names, as it was spelled, and its value. -/
def fieldOf (t : Text) : Option (FieldName × Text × Text) :=
  (splitField R t).bind fun fv => (lookup fv.1).map fun f => (f, fv.1, fv.2)

/-- What a token becomes that carries no mark. -/
theorem expand_eq {t : Text} (hbang : t.head? ≠ some '!') :
    expand R t =
      match fieldOf R t with
      | some (f, field, value) => expandField f field value t
      | none => [t] := by
  by_cases hquote : startsQuoted t = true
  · rw [expand_quoted R hquote]
    simp [fieldOf, splitField_quoted R hquote]
  · cases t with
    | nil => simp [expand, startsQuoted, splitField, fieldOf]
    | cons c t =>
      have hc : c ≠ '!' := by simpa using hbang
      unfold expand fieldOf
      rw [if_neg hquote]
      cases hs : splitField R (c :: t) with
      | none => simp [hc, hs]
      | some fv => cases hl : lookup fv.1 <;> simp [hc, hs, hl]

/-- A mark is distributed over the pieces. -/
theorem expand_bang {t : Text} (hbang : t.head? ≠ some '!') :
    expand R ('!' :: t) = (expand R t).map ('!' :: ·) := by
  have hq : ¬ startsQuoted ('!' :: t) = true := by simp [startsQuoted]
  rw [expand_eq R hbang]
  unfold expand fieldOf
  rw [if_neg hq]
  cases hs : splitField R t with
  | none => simp [hs]
  | some fv => cases hl : lookup fv.1 <;> simp [hs, hl]

end Expansion

/-! ## Alternatives -/

section Alternatives

variable (R : Reader) (now : Int64) (home : Option Text)

theorem parseAlt_nil : parseAlt R now home [] = none := rfl

theorem parseAlt_bang {p : Text} (hne : p ≠ []) :
    parseAlt R now home ('!' :: p) = (parseBody R now home p).map fun m => (true, m) := by
  simp [parseAlt, hne]

theorem parseAlt_plain {p : Text} (hne : p ≠ []) (hbang : p.head? ≠ some '!') :
    parseAlt R now home p = (parseBody R now home p).map fun m => (false, m) := by
  cases p with
  | nil => exact absurd rfl hne
  | cons c p =>
    have hc : c ≠ '!' := by simpa using hbang
    simp [parseAlt, hc]

/-- What holds a character of ASCII other than a quote is read as something. -/
theorem parseBody_isSome {p : Text} {c : Char} (hc : c ∈ p) (hascii : c.toNat < 128)
    (hquote : c ≠ '"') : (parseBody R now home p).isSome = true := by
  have htext : DefaultFolder.fold R.case (unquote p) ≠ [] :=
    fold_ne_nil_of_ascii R.case (List.mem_filter.mpr ⟨hc, by simpa using hquote⟩) hascii
  unfold parseBody
  split
  · rfl
  · simp only [if_neg htext]
    split <;> rfl

theorem parseBody_of_field {p field value : Text} {f : FieldName} {m : Match}
    (hs : splitField R p = some (field, value)) (hl : lookup field = some f)
    (hm : fieldMatch R now home f (unquote value) = some m) :
    parseBody R now home p = some m := by
  simp [parseBody, hs, hl, hm]

/-- The first alternative of a token, as it is written. -/
def firstText (x : Text) : Text := (splitOutsideQuotes x '|').headD []

/-- The alternatives after the first. -/
def later (x : Text) : List (Bool × Match) :=
  (splitOutsideQuotes x '|').tail.filterMap (parseAlt R now home)

theorem alternatives_eq (x : Text) : alternatives R now home x =
    (parseAlt R now home (firstText x)).toList ++ later R now home x := by
  have hnil : ∀ ps : List Text, (ps.filter (· ≠ [])).filterMap (parseAlt R now home) =
      ps.filterMap (parseAlt R now home) := by
    intro ps
    induction ps with
    | nil => rfl
    | cons p ps ih => cases p <;> simp_all [parseAlt_nil, List.filterMap_cons]
  unfold alternatives firstText later
  rw [hnil]
  cases hs : splitOutsideQuotes x '|' with
  | nil => exact absurd hs (splitOutsideQuotes_ne_nil x '|')
  | cons p ps =>
    rw [List.headD_cons, List.tail_cons, List.filterMap_cons]
    cases parseAlt R now home p <;> rfl

/-- What holds neither a quote nor a bar is in the first alternative. -/
theorem firstText_append (a s : Text) (h : ∀ c ∈ a, c ≠ '"' ∧ c ≠ '|') :
    firstText (a ++ s) = a ++ firstText s := by
  unfold firstText
  rw [splitOutsideQuotes_append '|' a s h]
  cases hs : splitOutsideQuotes s '|' with
  | nil => exact absurd hs (splitOutsideQuotes_ne_nil s '|')
  | cons p ps => rfl

theorem later_append (a s : Text) (h : ∀ c ∈ a, c ≠ '"' ∧ c ≠ '|') :
    later R now home (a ++ s) = later R now home s := by
  unfold later
  rw [splitOutsideQuotes_append '|' a s h]
  cases splitOutsideQuotes s '|' <;> rfl

theorem firstText_bang (x : Text) : firstText ('!' :: x) = '!' :: firstText x :=
  firstText_append ['!'] x (by decide)

theorem later_bang (x : Text) : later R now home ('!' :: x) = later R now home x :=
  later_append R now home ['!'] x (by decide)

end Alternatives

/-! ## Rows -/

section Rows

variable (R : Reader) (now : Int64) (home : Option Text) (row : Entry)

/-- What a token says of a row; nothing, when it has no alternative. -/
def tells (x : Text) : Bool :=
  alternatives R now home x == [] || row.meets R.toPlatform (alternatives R now home x)

theorem matches_parseIn (q : Text) :
    «matches» R.toPlatform row (parseIn R now home q) =
      ((passes R q).flatMap (expand R)).all (tells R now home row) := by
  unfold «matches» parseIn
  induction (passes R q).flatMap (expand R) with
  | nil => rfl
  | cons x xs ih =>
    rw [List.map_cons, List.filterMap_cons, List.all_cons, ← ih]
    by_cases h : alternatives R now home x = []
    · simp [h, tells]
    · have hn : (alternatives R now home x == []) = false := by simpa using h
      rw [if_neg h, tells, hn, Bool.false_or]
      rfl

theorem groups_ne_nil {q : Text} (h : (parseIn R now home q).groups ≠ []) :
    ∃ x ∈ (passes R q).flatMap (expand R), alternatives R now home x ≠ [] := by
  by_contra hall
  push Not at hall
  apply h
  unfold parseIn
  rw [List.filterMap_eq_nil_iff]
  intro alts halts
  obtain ⟨x, hx, rfl⟩ := List.mem_map.mp halts
  rw [if_pos (hall x hx)]

/-- Does the first alternative of a token hold? -/
def firstHolds (x : Text) : Bool :=
  (parseAlt R now home (firstText x)).any (row.holds R.toPlatform)

/-- Does a later one? -/
def laterHolds (x : Text) : Bool := row.meets R.toPlatform (later R now home x)

theorem tells_eq {x : Text} (h : alternatives R now home x ≠ []) :
    tells R now home row x = (firstHolds R now home row x || laterHolds R now home row x) := by
  have hn : (alternatives R now home x == []) = false := by simpa using h
  unfold tells firstHolds laterHolds Entry.meets
  rw [hn, Bool.false_or, alternatives_eq, List.any_append]
  cases parseAlt R now home (firstText x) <;> simp

end Rows

end Scour
