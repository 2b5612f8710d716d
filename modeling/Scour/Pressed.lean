import Scour.Alternation
import Scour.Facets
import Scour.Opened
import Scour.Rail

/-!
# A filter and a typed query

Pressing a line of the rail pastes its term behind what was typed (`compose`), or puts it in the
place of the term on its field (`toggle`).  The pasted text means both where the typed one is
finished (`Finished`): its quotes are closed, and nothing at its end waits for another token.
-/

namespace Scour.Rail

variable (R : Reader) (U : Unicode)

/-- The query the service is asked, given what was typed and what is pressed. -/
def compose (typed : Text) (filter : Option Text) : Text :=
  let typed := R.trim typed
  match filter with
  | some term => if typed = [] then term else typed ++ ' ' :: term
  | none => typed

/-- Pressing a filter: the one that is now in force. -/
def pressed (current : Option Text) (term : Text) : Option Text :=
  if current = some term then none else some term

def termsFrom : Option Text → Bool → Text → List Text
  | start, _, [] => start.toList
  | start, quoted, c :: s =>
      if c = '"' then termsFrom (some (start.getD [] ++ [c])) (!quoted) s
      else if R.isWhitespace c ∧ ¬ quoted then start.toList ++ termsFrom none quoted s
      else termsFrom (some (start.getD [] ++ [c])) quoted s

/-- The terms of a query as typed: split on spaces outside double quotes. -/
def terms (text : Text) : List Text := termsFrom R none false text

/-- The field a term names, if it names one: letters before a colon. -/
def field (term : Text) : Option Text :=
  let bare := (stripPrefix ['!'] term).getD term
  if ':' ∉ bare then none
  else
    let f := bare.takeWhile (· ≠ ':')
    if f ≠ [] ∧ f.all R.isAlphabetic then some (U.lowerText [] f) else none

/-- `str::eq_ignore_ascii_case` -/
def eqIgnoreAsciiCase (a b : Text) : Bool := a.map Char.toLower == b.map Char.toLower

/-- Whether this filter is in the query, written as a term of its own. -/
def hasTerm (text term : Text) : Bool := (terms R text).any (eqIgnoreAsciiCase · term)

/-- Pressing a filter: the term goes into the text.  One per field: another value replaces it, the
same one takes it out. -/
def toggle (text term : Text) : Text :=
  let parts := terms R text
  let want := field R U term
  joinAll [' '] <|
    match parts.findIdx? fun t => want.isSome && field R U t == want with
    | some i =>
        if eqIgnoreAsciiCase (parts.getD i []) term then parts.eraseIdx i else parts.set i term
    | none => parts ++ [term]

/-- What the rail offers. -/
inductive Offered : Text → Prop
  | kind (k : Kind) : Offered (ofKind k.token.toList)
  | size {term : Text} (h : term ∈ SIZES) : Offered term
  | age (days : UInt32) : Offered (ofAge days)
  | place {path : Text} (h : '"' ∉ path) : Offered (ofPlace path)

/-- What is typed is finished: no quote is open, no list goes on, and neither a `!` nor a `|` at the
end waits for a token. -/
structure Finished (typed : Text) : Prop where
  closed : endsQuoted false typed = false
  ended : ((tokenize R typed).foldl (joinListsStep R) ([], false)).2 = false
  unmarked : ((splitBangs R (splitSemicolons R (joinLists R (tokenize R typed)))).foldl
    joinOperatorsStep ⟨[], false, false⟩).pendingBang = false
  unjoined : ((splitBangs R (splitSemicolons R (joinLists R (tokenize R typed)))).foldl
    joinOperatorsStep ⟨[], false, false⟩).wantAlt = false

/-! ## The tokens of a text -/

section Tokens

variable {R}

theorem termsFrom_eq (s : Text) : ∀ cur q, cur ≠ [] →
    termsFrom R (some cur) q s = tokenizeFrom R cur q s ∧
      termsFrom R none q s = tokenizeFrom R [] q s := by
  induction s with
  | nil =>
    intro cur q hne
    unfold termsFrom tokenizeFrom
    rw [if_neg hne]
    exact ⟨rfl, rfl⟩
  | cons c s ih =>
    intro cur q hne
    unfold termsFrom tokenizeFrom
    simp only [Option.getD_some, Option.getD_none, Option.toList_some, Option.toList_none, if_neg hne,
      if_true, List.nil_append]
    rw [(ih (cur ++ [c]) q (by simp)).1, (ih [c] q (by simp)).1, (ih [c] q (by simp)).2,
      (ih (cur ++ [c]) (!q) (by simp)).1, (ih [c] (!q) (by simp)).1]
    split
    · rename_i hc
      rw [hc]
      exact ⟨rfl, rfl⟩
    · exact ⟨rfl, rfl⟩

/-- The interface cuts a text as the parser does. -/
theorem terms_eq (text : Text) : terms R text = tokenize R text :=
  (termsFrom_eq text [' '] false (by simp)).2

/-- White space outside quotes ends a token. -/
theorem tokenizeFrom_space {w : Char} (hw : R.isWhitespace w = true) (s : Text) (a : Text) :
    ∀ cur q, endsQuoted q a = false →
      tokenizeFrom R cur q (a ++ w :: s) = tokenizeFrom R cur q a ++ tokenizeFrom R [] false s := by
  have hquote : w ≠ '"' := by
    rintro rfl
    rw [R.whitespace_ascii _ (by decide)] at hw
    exact absurd hw (by decide)
  generalize hrest : tokenizeFrom R [] false s = rest
  induction a with
  | nil =>
    rintro cur q rfl
    rw [List.nil_append]
    simp [tokenizeFrom, hquote, hw, hrest]
  | cons c a ih =>
    intro cur q hq
    unfold endsQuoted at hq
    rw [List.cons_append]
    unfold tokenizeFrom
    split
    · rename_i hc
      rw [if_pos hc] at hq
      exact ih _ _ hq
    · rename_i hc
      rw [if_neg hc] at hq
      split
      · rw [ih _ _ hq, List.append_assoc]
      · exact ih _ _ hq

theorem tokenize_append {w : Char} (hw : R.isWhitespace w = true) {a : Text} (s : Text)
    (h : endsQuoted false a = false) : tokenize R (a ++ w :: s) = tokenize R a ++ tokenize R s :=
  tokenizeFrom_space hw s a [] false h

theorem quote_not_whitespace : R.isWhitespace '"' = false := by
  rw [R.whitespace_ascii _ (by decide)]
  decide

theorem space_whitespace : R.isWhitespace ' ' = true := by
  rw [R.whitespace_ascii _ (by decide)]
  decide

theorem ne_quote {w : Char} (hw : R.isWhitespace w = true) : w ≠ '"' := by
  rintro rfl
  rw [quote_not_whitespace] at hw
  cases hw

theorem tokenize_dropWhile (s : Text) : tokenize R (s.dropWhile R.isWhitespace) = tokenize R s ∧
    endsQuoted false (s.dropWhile R.isWhitespace) = endsQuoted false s := by
  induction s with
  | nil => exact ⟨rfl, rfl⟩
  | cons c s ih =>
    by_cases hc : R.isWhitespace c = true
    · have hends : endsQuoted false (c :: s) = endsQuoted false s := by
        rw [endsQuoted, if_neg (ne_quote hc)]
      rw [List.dropWhile_cons_of_pos hc, ih.1, ih.2, hends]
      exact ⟨(tokenize_append hc (a := []) s rfl).symm, rfl⟩
    · rw [List.dropWhile_cons_of_neg hc]
      exact ⟨rfl, rfl⟩

theorem tokenize_rdropWhile (s : Text) (h : endsQuoted false s = false) :
    tokenize R (s.rdropWhile R.isWhitespace) = tokenize R s ∧
      endsQuoted false (s.rdropWhile R.isWhitespace) = false := by
  induction s using List.reverseRecOn with
  | nil => exact ⟨rfl, rfl⟩
  | append_singleton s c ih =>
    by_cases hc : R.isWhitespace c = true
    · have hs : endsQuoted false s = false := by
        rw [endsQuoted_append] at h
        unfold endsQuoted at h
        rwa [if_neg (ne_quote hc)] at h
      rw [List.rdropWhile_concat_pos _ _ _ hc, tokenize_append hc [] hs]
      exact ⟨(ih hs).1.trans (List.append_nil _).symm, (ih hs).2⟩
    · rw [List.rdropWhile_concat_neg _ _ _ hc]
      exact ⟨rfl, h⟩

/-- White space around a text whose quotes are closed is none of it. -/
theorem tokenize_trim {s : Text} (h : endsQuoted false s = false) :
    tokenize R (R.trim s) = tokenize R s ∧ endsQuoted false (R.trim s) = false := by
  obtain ⟨h1, h2⟩ := tokenize_dropWhile (R := R) s
  rw [← h2] at h
  obtain ⟨h3, h4⟩ := tokenize_rdropWhile (R := R) _ h
  exact ⟨h3.trans h1, h4⟩

end Tokens

/-! ## A term behind a finished text -/

/-- A term on a field, which no pass joins to what follows or cuts. -/
structure FieldTerm (t : Text) : Prop where
  bare : bare R false t = true
  closed : endsQuoted false t = false
  named : ∃ name f v, t = name ++ ':' :: v ∧ 2 ≤ name.length ∧ (∀ c ∈ name, c.isLower = true) ∧
    lookup name = some f
  last : ∀ c, t.getLast? = some c → c ≠ '|' ∧ c ≠ ')' ∧ c ≠ '>'

section Term

variable {R} {t : Text}

theorem FieldTerm.isField (h : FieldTerm R t) : isFieldToken R t = true := by
  obtain ⟨name, f, v, rfl, hlen, hlower, hname⟩ := h.named
  exact isFieldToken_lower hlen hlower hname v

/-- It begins with a letter. -/
theorem FieldTerm.head (h : FieldTerm R t) : ∃ c, t.head? = some c ∧ c.isLower = true := by
  obtain ⟨name, f, v, rfl, hlen, hlower, -⟩ := h.named
  cases name with
  | nil => cases hlen
  | cons c name => exact ⟨c, rfl, hlower c List.mem_cons_self⟩

theorem FieldTerm.ne_nil (h : FieldTerm R t) : t ≠ [] := by
  obtain ⟨c, hc, -⟩ := h.head
  rintro rfl
  cases hc

theorem FieldTerm.head_ne (h : FieldTerm R t) {d : Char} (hd : d.isLower = false) :
    t.head? ≠ some d := by
  obtain ⟨c, hc, hlower⟩ := h.head
  rw [hc]
  rintro he
  rw [Option.some.inj he, hd] at hlower
  cases hlower

theorem FieldTerm.unquoted (h : FieldTerm R t) : startsQuoted t = false := by
  unfold startsQuoted
  rw [beq_eq_false_iff_ne]
  exact h.head_ne (by decide)

theorem FieldTerm.ungrouped (h : FieldTerm R t) : opensGroup t = false := by
  unfold opensGroup
  rw [beq_eq_false_iff_ne.mpr (h.head_ne (by decide)), beq_eq_false_iff_ne.mpr (h.head_ne (by decide))]
  rfl

theorem FieldTerm.joinLists (h : FieldTerm R t) {ts : List Text}
    (hopen : (ts.foldl (joinListsStep R) ([], false)).2 = false) :
    joinLists R (ts ++ [t]) = Scour.joinLists R ts ++ [t] := by
  unfold Scour.joinLists
  rw [List.foldl_append, List.foldl_cons, List.foldl_nil]
  generalize ts.foldl (joinListsStep R) ([], false) = st at hopen ⊢
  obtain ⟨out, o⟩ := st
  obtain rfl : o = false := hopen
  unfold joinListsStep
  simp [h.unquoted, h.head_ne (d := ';') (by decide)]

theorem FieldTerm.splits (h : FieldTerm R t) (ts : List Text) :
    splitBangs R (splitSemicolons R (ts ++ [t])) = splitBangs R (splitSemicolons R ts) ++ [t] := by
  unfold splitSemicolons splitBangs
  rw [List.flatMap_append, List.flatMap_singleton, if_pos (Or.inr h.isField), List.flatMap_append,
    List.flatMap_singleton, if_pos (Or.inr h.isField)]

theorem FieldTerm.joinOperators (h : FieldTerm R t) {ts : List Text}
    (hbang : (ts.foldl joinOperatorsStep ⟨[], false, false⟩).pendingBang = false)
    (halt : (ts.foldl joinOperatorsStep ⟨[], false, false⟩).wantAlt = false) :
    joinOperators (ts ++ [t]) = Scour.joinOperators ts ++ [t] := by
  unfold Scour.joinOperators
  rw [List.foldl_append, List.foldl_cons, List.foldl_nil]
  generalize ts.foldl joinOperatorsStep ⟨[], false, false⟩ = j at hbang halt ⊢
  obtain ⟨out, b, w⟩ := j
  obtain rfl : b = false := hbang
  obtain rfl : w = false := halt
  have h1 : t ≠ ['|'] := fun he => h.head_ne (d := '|') (by decide) (he ▸ rfl)
  have h2 : t ≠ ['!'] := fun he => h.head_ne (d := '!') (by decide) (he ▸ rfl)
  have h3 : t.getLast? ≠ some '|' := fun he => (h.last _ he).1 rfl
  simp [joinOperatorsStep, h1, h2, h3, h.ne_nil, h.head_ne (d := '|') (by decide)]

theorem through_length {closer : Char} {ts run rest : List Text}
    (h : through closer ts = some (run, rest)) : rest.length < ts.length := by
  induction ts generalizing run rest with
  | nil => cases h
  | cons t ts ih =>
    unfold through at h
    split at h
    · cases h
      exact Nat.lt_succ_self _
    · obtain ⟨⟨run', rest'⟩, hr, he⟩ := Option.map_eq_some_iff.mp h
      cases he
      exact Nat.lt_succ_of_lt (ih hr)

theorem through_append {closer : Char} (h : t.getLast? ≠ some closer) (ts : List Text) :
    through closer (ts ++ [t]) = (through closer ts).map fun r => (r.1, r.2 ++ [t]) := by
  induction ts with
  | nil => simp [through, h]
  | cons u ts ih =>
    rw [List.cons_append]
    unfold through
    split
    · rfl
    · rw [ih, Option.map_map, Option.map_map]
      rfl

theorem FieldTerm.joinParens (h : FieldTerm R t) (ts : List Text) :
    joinParens R (ts ++ [t]) = Scour.joinParens R ts ++ [t] := by
  have hfuel : ∀ n ts, List.length ts ≤ n →
      joinParensFrom R (n + 1) (ts ++ [t]) = joinParensFrom R n ts ++ [t] := by
    intro n
    induction n with
    | zero =>
      intro ts hts
      obtain rfl := List.length_eq_zero_iff.mp (Nat.le_zero.mp hts)
      simp [joinParensFrom, h.ungrouped]
    | succ n ih =>
      intro ts hts
      cases ts with
      | nil => simp [joinParensFrom, h.ungrouped]
      | cons u us =>
        have hus : us.length ≤ n := Nat.le_of_succ_le_succ hts
        rw [List.cons_append]
        unfold joinParensFrom
        by_cases ho : opensGroup u = true
        · have hcloser : t.getLast? ≠ some (if u.head? = some '<' then '>' else ')') := by
            intro he
            by_cases hu : u.head? = some '<'
            · rw [if_pos hu] at he
              exact (h.last _ he).2.2 rfl
            · rw [if_neg hu] at he
              exact (h.last _ he).2.1 rfl
          rw [if_pos ho, if_pos ho, ← List.cons_append, through_append hcloser]
          cases hrun : through (if u.head? = some '<' then '>' else ')') (u :: us) with
          | none =>
            dsimp only [Option.map_none]
            rw [ih us hus]
            rfl
          | some r =>
            obtain ⟨run, rest⟩ := r
            have hrest : rest.length ≤ n := (Nat.lt_succ_iff.mp (through_length hrun)).trans hus
            dsimp only [Option.map_some]
            split
            · rw [ih rest hrest]
              rfl
            · rw [ih us hus]
              rfl
        · rw [if_neg ho, if_neg ho, ih us hus]
          rfl
  unfold Scour.joinParens
  rw [List.length_append]
  exact hfuel _ ts (Nat.le_refl _)

theorem FieldTerm.passes (h : FieldTerm R t) : passes R t = [t] := by
  refine passes_one (tokenize_of_bare R h.bare h.ne_nil) h.ne_nil ?_ ⟨Or.inl h.isField, ?_, ?_⟩
  · rintro rfl
    exact h.head_ne (d := '!') (by decide) rfl
  · exact fun he => (h.last _ he).1 rfl
  · exact (h.joinParens []).trans rfl

/-- Behind a finished text the term is a token of its own. -/
theorem FieldTerm.passes_append (h : FieldTerm R t) {typed q : Text} (hf : Finished R typed)
    (hq : tokenize R q = tokenize R typed ++ [t]) : Scour.passes R q = Scour.passes R typed ++ [t] := by
  unfold Scour.passes
  rw [hq, h.joinLists hf.ended, h.splits, h.joinOperators hf.unmarked hf.unjoined, h.joinParens]

theorem FieldTerm.matches_append (h : FieldTerm R t) (now : Int64) (home : Option Text) (row : Entry)
    {typed q : Text} (hf : Finished R typed) (hq : tokenize R q = tokenize R typed ++ [t]) :
    «matches» R.toPlatform row (parseIn R now home q) =
      («matches» R.toPlatform row (parseIn R now home typed) &&
        «matches» R.toPlatform row (parseIn R now home t)) := by
  rw [matches_parseIn, matches_parseIn, matches_parseIn, h.passes_append hf hq, h.passes,
    List.flatMap_append, List.all_append]

theorem tokenize_compose (h : FieldTerm R t) {typed : Text} (hclosed : endsQuoted false typed = false) :
    tokenize R (compose R typed (some t)) = tokenize R typed ++ [t] := by
  obtain ⟨htrim, htrimmed⟩ := tokenize_trim (R := R) hclosed
  have ht := tokenize_of_bare R h.bare h.ne_nil
  unfold compose
  dsimp only
  split
  · rename_i hnil
    rw [← htrim, hnil, ht]
    rfl
  · rw [tokenize_append space_whitespace t htrimmed, htrim, ht]

end Term

/-! ## What the rail offers -/

section Offers

variable {R}

/-- A field and a value of printable ASCII. -/
theorem fieldTerm_printable {name v : Text} {f : FieldName} (hlen : 2 ≤ name.length)
    (hlower : ∀ c ∈ name, c.isLower = true) (hname : lookup name = some f)
    (hv : ∀ c ∈ v, 32 < c.toNat ∧ c.toNat < 127 ∧ c ≠ '"')
    (hlast : v.getLast?.all (fun c => c != '|' && c != ')' && c != '>') = true) (hne : v ≠ []) :
    FieldTerm R (name ++ ':' :: v) := by
  have hprint : ∀ c : Char, 32 < c.toNat → c.toNat < 127 → R.isWhitespace c = false := by
    intro c h1 h2
    rw [R.whitespace_ascii c (by omega)]
    have hspace : c ≠ ' ' := by
      rintro rfl
      exact absurd h1 (by decide)
    simp [hspace]
    omega
  have hplain : ∀ c ∈ name ++ ':' :: v, R.isWhitespace c = false ∧ c ≠ '"' := by
    intro c hc
    rcases List.mem_append.mp hc with hc | hc
    · have hrange : 97 ≤ c.toNat ∧ c.toNat ≤ 122 := by
        have hl : decide (c.val ≥ 'a'.val) && decide (c.val ≤ 'z'.val) := hlower c hc
        simpa [UInt32.le_iff_toNat_le] using hl
      refine ⟨hprint c (by omega) (by omega), ?_⟩
      rintro rfl
      exact absurd hrange.1 (by decide)
    · rcases List.mem_cons.mp hc with rfl | hc
      · exact ⟨hprint _ (by decide) (by decide), by decide⟩
      · exact ⟨hprint c (hv c hc).1 (hv c hc).2.1, (hv c hc).2.2⟩
  obtain ⟨hbare, hclosed⟩ := bare_of_plain _ hplain
  refine ⟨hbare, hclosed, ⟨name, f, v, rfl, hlen, hlower, hname⟩, ?_⟩
  intro c hc
  cases v using List.reverseRecOn with
  | nil => exact absurd rfl hne
  | append_singleton v d =>
    rw [show name ++ ':' :: (v ++ [d]) = (name ++ ':' :: v) ++ [d] by simp,
      List.getLast?_concat] at hc
    rw [List.getLast?_concat, hc] at hlast
    simpa [and_assoc] using hlast

theorem ofPlace_last (path : Text) : (ofPlace path).getLast? = some '"' := by
  unfold ofPlace
  exact List.getLast?_concat

theorem fieldTerm_place {path : Text} (h : '"' ∉ path) : FieldTerm R (ofPlace path) := by
  obtain ⟨h1, h2⟩ := quoted_run R h
  have hfield : bare R false "under:\"".toList = true ∧ endsQuoted false "under:\"".toList = true := by
    have hopen := opening_bare R
    rw [show opening = "under:\"".toList ++ ['/'] from rfl, bare_append] at hopen
    exact ⟨(Bool.and_eq_true_iff.mp hopen).1, by decide⟩
  have hpath : ofPlace path = "under:\"".toList ++ (path ++ ['"']) := List.append_assoc _ _ _
  refine ⟨?_, ?_, ⟨"under".toList, .under, '"' :: (path ++ ['"']), rfl, by decide, by decide,
    lookup_under⟩, fun c hc => ?_⟩
  · rw [hpath, bare_append, hfield.1, hfield.2, h1]
    rfl
  · rw [hpath, endsQuoted_append, hfield.2, h2]
  · rw [ofPlace_last] at hc
    obtain rfl := Option.some.inj hc
    decide

theorem lookup_dm : lookup "dm".toList = some .dm := by decide

theorem fieldTerm_size {t : Text} (h : t ∈ SIZES) : FieldTerm R t := by
  have hterm : ∀ v ∈ [">10mb".toList, ">1mb".toList, "0".toList],
      FieldTerm R ("size".toList ++ ':' :: v) := by
    intro v hv
    exact fieldTerm_printable (by decide) (by decide) lookup_size
      (by revert v; decide) (by revert v; decide) (by revert v; decide)
  simp only [SIZES, List.mem_cons, List.not_mem_nil, or_false] at h
  rcases h with rfl | rfl | rfl
  · exact hterm ">10mb".toList (by decide)
  · exact hterm ">1mb".toList (by decide)
  · exact hterm "0".toList (by decide)

theorem fieldTerm_age (days : UInt32) : FieldTerm R (ofAge days) := by
  have hdigit : ∀ c ∈ Nat.toDigits 10 days.toNat, 48 ≤ c.toNat ∧ c.toNat ≤ 57 := by
    intro c hc
    have hd := Nat.isDigit_of_mem_toDigits (by decide) (by decide) hc
    have hd : decide (c.val ≥ '0'.val) && decide (c.val ≤ '9'.val) := hd
    simpa [UInt32.le_iff_toNat_le] using hd
  have hterm : FieldTerm R ("dm".toList ++ ':' :: (Nat.toDigits 10 days.toNat ++ ['d'])) := by
    refine fieldTerm_printable (by decide) (by decide) lookup_dm ?_ ?_ (by simp)
    · intro c hc
      rcases List.mem_append.mp hc with hc | hc
      · have hrange := hdigit c hc
        refine ⟨by omega, by omega, ?_⟩
        rintro rfl
        exact absurd hrange.1 (by decide)
      · rw [List.mem_singleton.mp hc]
        decide
    · rw [List.getLast?_concat]
      rfl
  exact hterm

theorem Offered.fieldTerm {t : Text} (h : Offered t) : FieldTerm R t := by
  cases h with
  | kind k =>
    exact fieldTerm_printable (show 2 ≤ "kind".toList.length by decide) (by decide) lookup_kind
      (by cases k <;> decide) (by cases k <;> decide) (by cases k <;> decide)
  | size h => exact fieldTerm_size h
  | age days => exact fieldTerm_age days
  | place h => exact fieldTerm_place h

end Offers

/-! ## Pressing -/

section Pressing

variable {R U} {t typed : Text}

/-- The terms of a text are closed, all but the last one when a quote is open. -/
theorem closed_tokenizeFrom (s : Text) : ∀ cur q, endsQuoted false cur = q →
    (∀ u ∈ (tokenizeFrom R cur q s).dropLast, endsQuoted false u = false) ∧
      (endsQuoted q s = false → ∀ u ∈ tokenizeFrom R cur q s, endsQuoted false u = false) := by
  induction s with
  | nil =>
    intro cur q hq
    unfold tokenizeFrom
    split
    · simp
    · refine ⟨by simp, fun hs u hu => ?_⟩
      rw [List.mem_singleton.mp hu, hq]
      exact hs
  | cons c s ih =>
    intro cur q hq
    rw [show endsQuoted q (c :: s) = endsQuoted (if c = '"' then !q else q) s from rfl]
    unfold tokenizeFrom
    split
    · rename_i hc
      refine ih _ _ ?_
      rw [endsQuoted_append, hq]
      rfl
    · rename_i hc
      split
      · rename_i hw
        obtain rfl : q = false := by simpa using hw.2
        obtain ⟨h1, h2⟩ := ih [] false rfl
        have hcur : ∀ u ∈ (if cur = [] then [] else [cur]), endsQuoted false u = false := by
          intro u hu
          split at hu
          · cases hu
          · rw [List.mem_singleton.mp hu, hq]
        refine ⟨fun u hu => ?_, fun hs u hu => ?_⟩
        · cases htail : tokenizeFrom R [] false s with
          | nil =>
            rw [htail, List.append_nil] at hu
            exact hcur u (List.dropLast_subset _ hu)
          | cons w ws =>
            rw [htail, List.dropLast_append_of_ne_nil (List.cons_ne_nil _ _), List.mem_append] at hu
            rcases hu with hu | hu
            · exact hcur u hu
            · exact h1 u (by rwa [htail])
        · rcases List.mem_append.mp hu with hu | hu
          · exact hcur u hu
          · exact h2 hs u hu
      · refine ih _ _ ?_
        rw [endsQuoted_append, hq]
        simp [endsQuoted, hc]

/-- Terms pasted together with spaces are the terms again. -/
theorem tokenize_joinAll : ∀ {ts : List Text}, (∀ u ∈ ts, bare R false u = true ∧ u ≠ []) →
    (∀ u ∈ ts.dropLast, endsQuoted false u = false) → tokenize R (joinAll [' '] ts) = ts := by
  intro ts
  induction ts with
  | nil => exact fun _ _ => rfl
  | cons u us ih =>
    intro hbare hclosed
    obtain ⟨hu, hne⟩ := hbare u List.mem_cons_self
    cases us with
    | nil => exact tokenize_of_bare R hu hne
    | cons v vs =>
      have hrest := ih (fun x hx => hbare x (List.mem_cons_of_mem _ hx)) fun x hx =>
        hclosed x (by rw [List.dropLast_cons_cons]; exact List.mem_cons_of_mem _ hx)
      have hcut := tokenize_append (R := R) space_whitespace (joinAll [' '] (v :: vs))
        (hclosed u (by rw [List.dropLast_cons_cons]; exact List.mem_cons_self))
      rw [tokenize_of_bare R hu hne, hrest] at hcut
      rw [show joinAll [' '] (u :: v :: vs) = u ++ ' ' :: joinAll [' '] (v :: vs) by simp [joinAll],
        hcut]
      rfl

theorem terms_joinAll {ts : List Text} (hbare : ∀ u ∈ ts, bare R false u = true ∧ u ≠ [])
    (hclosed : ∀ u ∈ ts.dropLast, endsQuoted false u = false) :
    terms R (joinAll [' '] ts) = ts := by
  rw [terms_eq, tokenize_joinAll hbare hclosed]

theorem bare_terms {u : Text} (h : u ∈ terms R typed) : bare R false u = true ∧ u ≠ [] := by
  rw [terms_eq] at h
  exact bare_of_mem_tokenize R h

theorem closed_terms : (∀ u ∈ (terms R typed).dropLast, endsQuoted false u = false) ∧
    (endsQuoted false typed = false → ∀ u ∈ terms R typed, endsQuoted false u = false) := by
  rw [terms_eq]
  exact closed_tokenizeFrom typed [] false rfl

/-- The terms with one of them put in the place of another, or taken out. -/
theorem terms_instead (ht : FieldTerm R t) {before after : List Text} {u : Text}
    (h : terms R typed = before ++ u :: after) :
    terms R (joinAll [' '] (before ++ t :: after)) = before ++ t :: after ∧
      terms R (joinAll [' '] (before ++ after)) = before ++ after := by
  obtain ⟨hclosed, -⟩ := @closed_terms R typed
  have hbare := fun v (hv : v ∈ before ++ u :: after) => @bare_terms R typed v (h ▸ hv)
  rw [h] at hclosed
  have hbefore : ∀ v ∈ before, endsQuoted false v = false := by
    intro v hv
    apply hclosed
    rw [List.dropLast_append_of_ne_nil (List.cons_ne_nil _ _)]
    exact List.mem_append_left _ hv
  have hafter : ∀ v ∈ after.dropLast, endsQuoted false v = false := by
    intro v hv
    apply hclosed
    rw [List.dropLast_append_of_ne_nil (List.cons_ne_nil _ _)]
    cases after with
    | nil => cases hv
    | cons w ws =>
      rw [List.dropLast_cons_cons]
      exact List.mem_append_right _ (List.mem_cons_of_mem _ hv)
  refine ⟨terms_joinAll (fun v hv => ?_) fun v hv => ?_,
    terms_joinAll (fun v hv => ?_) fun v hv => ?_⟩
  · rcases List.mem_append.mp hv with hv | hv
    · exact hbare v (List.mem_append_left _ hv)
    · rcases List.mem_cons.mp hv with rfl | hv
      · exact ⟨ht.bare, ht.ne_nil⟩
      · exact hbare v (List.mem_append_right _ (List.mem_cons_of_mem _ hv))
  · rw [List.dropLast_append_of_ne_nil (List.cons_ne_nil _ _)] at hv
    rcases List.mem_append.mp hv with hv | hv
    · exact hbefore v hv
    · cases after with
      | nil => cases hv
      | cons w ws =>
        rw [List.dropLast_cons_cons] at hv
        rcases List.mem_cons.mp hv with rfl | hv
        · exact ht.closed
        · exact hafter v hv
  · rcases List.mem_append.mp hv with hv | hv
    · exact hbare v (List.mem_append_left _ hv)
    · exact hbare v (List.mem_append_right _ (List.mem_cons_of_mem _ hv))
  · cases after with
    | nil =>
      rw [List.append_nil] at hv
      exact hbefore v (List.dropLast_subset _ hv)
    | cons w ws =>
      rw [List.dropLast_append_of_ne_nil (List.cons_ne_nil _ _)] at hv
      rcases List.mem_append.mp hv with hv | hv
      · exact hbefore v hv
      · exact hafter v hv

theorem terms_behind (ht : FieldTerm R t) (hclosed : endsQuoted false typed = false) :
    terms R (joinAll [' '] (terms R typed ++ [t])) = terms R typed ++ [t] := by
  refine terms_joinAll (fun v hv => ?_) fun v hv => ?_
  · rcases List.mem_append.mp hv with hv | hv
    · exact bare_terms hv
    · rw [List.mem_singleton.mp hv]
      exact ⟨ht.bare, ht.ne_nil⟩
  · rw [List.dropLast_concat] at hv
    exact closed_terms.2 hclosed v hv

theorem field_lower {name v : Text} (hlen : 2 ≤ name.length) (hlower : ∀ c ∈ name, c.isLower = true) :
    field R U (name ++ ':' :: v) = some name := by
  have hchar := fun c hc => ascii_of_lower (hlower c hc)
  have hcolon : ∀ c ∈ name, decide (c ≠ ':') = true := fun c hc => by simpa using (hchar c hc).2.2.2
  have htake : (name ++ ':' :: v).takeWhile (· ≠ ':') = name := by
    rw [List.takeWhile_append_of_pos hcolon]
    simp
  have hlow : U.lowerText [] name = name := by
    rw [U.lowerText_ascii name (fun c hc => (hchar c hc).1)]
    exact (List.map_congr_left fun c hc => (hchar c hc).2.1).trans (List.map_id name)
  have hne : name ≠ [] := by
    rintro rfl
    cases hlen
  unfold field
  rw [stripPrefix_bang hlen hlower v, Option.getD_none, if_neg (by simp)]
  dsimp only
  rw [htake, if_pos ⟨hne, all_alphabetic_of_lower hlower⟩, hlow]

/-- What pressing does to the terms. -/
theorem toggle_none (h : ∀ u ∈ terms R typed, field R U u ≠ field R U t) :
    toggle R U typed t = joinAll [' '] (terms R typed ++ [t]) := by
  have hfind : (terms R typed).findIdx? (fun u => (field R U t).isSome && field R U u == field R U t)
      = none := by
    rw [List.findIdx?_eq_none_iff]
    intro u hu
    rw [beq_eq_false_iff_ne.mpr (h u hu), Bool.and_false]
  unfold toggle
  dsimp only
  rw [hfind]

theorem toggle_some {name : Text} (ht : field R U t = some name) {before after : List Text} {u : Text}
    (h : terms R typed = before ++ u :: after) (hbefore : ∀ v ∈ before, field R U v ≠ some name)
    (hu : field R U u = some name) :
    toggle R U typed t =
      joinAll [' '] (if eqIgnoreAsciiCase u t then before ++ after else before ++ t :: after) := by
  have hfind : (terms R typed).findIdx? (fun u => (field R U t).isSome && field R U u == field R U t)
      = some before.length := by
    have hnone : before.findIdx? (fun u => (field R U t).isSome && field R U u == field R U t) =
        none := by
      rw [List.findIdx?_eq_none_iff]
      intro v hv
      rw [ht, beq_eq_false_iff_ne.mpr (hbefore v hv), Bool.and_false]
    rw [h, List.findIdx?_append, hnone, List.findIdx?_cons, ht, hu]
    simp
  unfold toggle
  dsimp only
  rw [hfind, h]
  have hget : (before ++ u :: after).getD before.length [] = u := by simp
  have herase : (before ++ u :: after).eraseIdx before.length = before ++ after := by
    rw [List.eraseIdx_append_of_length_le (Nat.le_refl _), Nat.sub_self]
    rfl
  have hset : (before ++ u :: after).set before.length t = before ++ t :: after := by
    rw [List.set_append_right _ _ (Nat.le_refl _), Nat.sub_self]
    rfl
  dsimp only
  rw [hget, herase, hset]

theorem Offered.field_isSome (h : Offered t) : ∃ name, field R U t = some name := by
  obtain ⟨name, f, v, rfl, hlen, hlower, -⟩ := h.fieldTerm (R := R).named
  exact ⟨name, field_lower hlen hlower⟩

/-- The one term on a field gives way to the pressed one, or to none. -/
theorem filter_field {name : Text} (ht : field R U t = some name) {before after : List Text} {u : Text}
    (hbefore : ∀ v ∈ before, field R U v ≠ some name) (hafter : ∀ v ∈ after, field R U v ≠ some name) :
    (if eqIgnoreAsciiCase u t then before ++ after else before ++ t :: after).filter
        (fun v => field R U v == some name) = if eqIgnoreAsciiCase u t then [] else [t] := by
  have hb : before.filter (fun v => field R U v == some name) = [] :=
    List.filter_eq_nil_iff.mpr fun v hv => by simpa using hbefore v hv
  have ha : after.filter (fun v => field R U v == some name) = [] :=
    List.filter_eq_nil_iff.mpr fun v hv => by simpa using hafter v hv
  split
  · rw [List.filter_append, hb, ha, List.append_nil]
  · rw [List.filter_append, hb, List.filter_cons_of_pos (by simp [ht]), ha, List.nil_append]

/-- The same letters in ASCII, whatever their case. -/
theorem eqIgnoreAsciiCase_self (t : Text) : eqIgnoreAsciiCase t t = true := beq_self_eq_true _

/-- A press asks for both; pressing the active term again asks for what was typed. -/
theorem compose_pressed (h : Offered t) (now : Int64) (home : Option Text) (hf : Finished R typed)
    (current : Option Text) (row : Entry) :
    «matches» R.toPlatform row (parseIn R now home (compose R typed (pressed current t))) =
      («matches» R.toPlatform row (parseIn R now home typed) &&
        (current == some t || «matches» R.toPlatform row (parseIn R now home t))) := by
  unfold pressed
  split
  · rename_i hcurrent
    have htokens : tokenize R (compose R typed none) = tokenize R typed := (tokenize_trim hf.closed).1
    rw [matches_parseIn, matches_parseIn, hcurrent, beq_self_eq_true, Bool.true_or, Bool.and_true]
    unfold passes
    rw [htokens]
  · rename_i hcurrent
    rw [beq_eq_false_iff_ne.mpr hcurrent, Bool.false_or]
    have ht := h.fieldTerm (R := R)
    exact ht.matches_append now home row hf (tokenize_compose ht hf.closed)

/-- A term that was put in is found in. -/
theorem hasTerm_toggle (h : Offered t) (hclosed : endsQuoted false typed = false)
    (hnone : ∀ u ∈ terms R typed, field R U u ≠ field R U t) :
    hasTerm R (toggle R U typed t) t = true := by
  unfold hasTerm
  rw [toggle_none hnone, terms_behind h.fieldTerm hclosed, List.any_append, List.any_cons,
    eqIgnoreAsciiCase_self, Bool.true_or, Bool.or_true]

end Pressing

theorem finished_rapor : Finished .plain "rapor ext:rs".toList where
  closed := by decide
  ended := by decide
  unmarked := by decide
  unjoined := by decide

end Scour.Rail
