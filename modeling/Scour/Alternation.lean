import Scour.Terms

/-!
# A pipe between two terms

`a|b`, `a | b` and `(a | b)` all come out of the passes as the token `a|b` (`passes_pipe`).  That
token is a field when `a` is one, and is rewritten as a whole before it is cut at the bar: a macro or
`empty:` drops `b`, `startwith:` and a range take it for a part of their value, and what `b` is
shorthand for is not looked at.

`pipe_iff` says exactly when the three are the two queries or-ed.
-/

namespace Scour

section

variable (R : Reader)

/-- A term to stand on a side of a bar. -/
structure PipeTerm (a : Text) : Prop where
  unspaced : ∀ c ∈ a, R.isWhitespace c = false
  plain : ∀ c ∈ a, c ≠ '"' ∧ c ≠ '|' ∧ c ≠ '(' ∧ c ≠ ')' ∧ c ≠ '<' ∧ c ≠ '>'
  /-- neither leading nor inner -/
  unmarked : '!' ∉ a.dropLast ∧ ';' ∉ a.dropLast

/-- No `!` and no `;` at the end. -/
def Unended (a : Text) : Prop := a.getLast? ≠ some '!' ∧ a.getLast? ≠ some ';'

/-- The three spellings. -/
def pipes (a b : Text) : List Text :=
  [a ++ '|' :: b, a ++ " | ".toList ++ b, '(' :: a ++ " | ".toList ++ b ++ [')']]

end

/-! ## The passes -/

section

variable {R : Reader}

theorem notMem_of_unended {c : Char} {a : Text} (h1 : c ∉ a.dropLast) (h2 : a.getLast? ≠ some c) :
    c ∉ a := by
  intro h
  obtain ⟨l, d, rfl⟩ := (List.eq_nil_or_concat' a).resolve_left (List.ne_nil_of_mem h)
  simp at h h1 h2
  rcases h with h | h
  · exact h1 h
  · exact h2 h.symm

theorem bare_of_plain (a : Text) (h : ∀ c ∈ a, R.isWhitespace c = false ∧ c ≠ '"') :
    bare R false a = true ∧ endsQuoted false a = false := by
  induction a with
  | nil => exact ⟨rfl, rfl⟩
  | cons c a ih =>
    obtain ⟨h1, h2⟩ := h c List.mem_cons_self
    obtain ⟨ih1, ih2⟩ := ih fun d hd => h d (List.mem_cons_of_mem _ hd)
    simp [bare, endsQuoted, h1, h2, ih1, ih2]

/-- A token ends at a space. -/
theorem tokenize_space (a s : Text) (hne : a ≠ [])
    (h : ∀ c ∈ a, R.isWhitespace c = false ∧ c ≠ '"') :
    tokenize R (a ++ ' ' :: s) = a :: tokenize R s := by
  obtain ⟨h1, h2⟩ := bare_of_plain a h
  have hspace : R.isWhitespace ' ' = true := by
    rw [R.whitespace_ascii ' ' (by decide)]
    decide
  unfold tokenize
  rw [tokenizeFrom_append R a (' ' :: s) false [] h1, h2]
  simp [tokenizeFrom, hspace, hne]

theorem joinLists_of_notMem (tokens : List Text) (h : ∀ t ∈ tokens, t ≠ [] ∧ ';' ∉ t) :
    joinLists R tokens = tokens := by
  have hstep : ∀ out : List Text, tokens.foldl (joinListsStep R) (out, false) =
      (out ++ tokens, false) := by
    induction tokens with
    | nil => simp
    | cons t ts ih =>
      intro out
      obtain ⟨hne, hsemi⟩ := h t List.mem_cons_self
      have hhead : t.head? ≠ some ';' := by
        intro he
        exact hsemi (List.mem_of_mem_head? he)
      have hlast : t.getLast? ≠ some ';' := by
        intro he
        exact hsemi (List.mem_of_getLast? he)
      have hone : joinListsStep R (out, false) t = (out ++ [t], false) := by
        simp [joinListsStep, hhead, hlast]
      rw [List.foldl_cons, hone, ih fun u hu => h u (List.mem_cons_of_mem _ hu)]
      simp
  unfold joinLists
  rw [hstep]
  rfl

theorem splitSemicolons_of_notMem (tokens : List Text)
    (h : ∀ t ∈ tokens, t ≠ [] ∧ ∀ c ∈ t, c ≠ '"' ∧ c ≠ ';') : splitSemicolons R tokens = tokens := by
  unfold splitSemicolons
  conv_rhs => rw [← List.flatMap_singleton' tokens]
  apply List.flatMap_congr
  intro t ht
  obtain ⟨hne, hc⟩ := h t ht
  rw [splitOutsideQuotes_of_notMem ';' t hc]
  simp [hne]

theorem cutBangs_of_notMem (s : Text) (h : '!' ∉ s) : ∀ cur, cutBangs cur s = [cur ++ s] := by
  induction s with
  | nil => simp [cutBangs]
  | cons c s ih =>
    intro cur
    obtain ⟨h1, h2⟩ : '!' ≠ c ∧ '!' ∉ s := by simpa using h
    unfold cutBangs
    rw [if_pos (Or.inl fun he => h1 he.symm), ih h2]
    simp

theorem splitBangs_of_notMem (tokens : List Text) (h : ∀ t ∈ tokens, '!' ∉ t) :
    splitBangs R tokens = tokens := by
  unfold splitBangs
  conv_rhs => rw [← List.flatMap_singleton' tokens]
  apply List.flatMap_congr
  intro t ht
  rw [cutBangs_of_notMem t (h t ht)]
  simp

/-- A bar that stands alone joins its neighbours. -/
theorem joinOperators_bar (a b : Text) (ha : a ≠ []) (hb : b ≠ [])
    (ha' : ∀ c ∈ a, c ≠ '"' ∧ c ≠ '|' ∧ c ≠ '!') (hb' : ∀ c ∈ b, c ≠ '"' ∧ c ≠ '|' ∧ c ≠ '!') :
    joinOperators [a, ['|'], b] = [a ++ '|' :: b] := by
  have hone : ∀ t : Text, t ≠ [] → (∀ c ∈ t, c ≠ '"' ∧ c ≠ '|' ∧ c ≠ '!') →
      t ≠ ['|'] ∧ t ≠ ['!'] ∧ t.head? ≠ some '|' ∧ t.getLast? ≠ some '|' := by
    intro t _ ht
    refine ⟨?_, ?_, ?_, ?_⟩
    · rintro rfl
      exact (ht '|' (by simp)).2.1 rfl
    · rintro rfl
      exact (ht '!' (by simp)).2.2 rfl
    · intro he
      exact (ht '|' (List.mem_of_mem_head? he)).2.1 rfl
    · intro he
      exact (ht '|' (List.mem_of_getLast? he)).2.1 rfl
  obtain ⟨a1, a2, a3, a4⟩ := hone a ha ha'
  obtain ⟨b1, b2, b3, b4⟩ := hone b hb hb'
  simp [joinOperators, joinOperatorsStep, startsQuoted, ha, hb, a1, a2, a3, a4, b1, b2, b3, b4]

theorem trim_of_notMem (a : Text) (h : ∀ c ∈ a, R.isWhitespace c = false) : R.trim a = a := by
  have h1 : a.dropWhile R.isWhitespace = a := by
    rw [List.dropWhile_eq_self_iff]
    intro hl
    simp [h _ (List.getElem_mem hl)]
  unfold Reader.trim
  rw [h1]
  apply List.rdropWhile_eq_self_iff.mpr
  intro hl
  simp [h _ (List.getLast_mem hl)]

/-- A group in parentheses is its alternatives. -/
theorem joinParens_group (a b : Text) (ha : a ≠ []) (hb : b ≠ [])
    (ha' : ∀ c ∈ a, R.isWhitespace c = false ∧ c ≠ '"' ∧ c ≠ '|' ∧ c ≠ '(' ∧ c ≠ '<')
    (hb' : ∀ c ∈ b, R.isWhitespace c = false ∧ c ≠ '|' ∧ c ≠ ')' ∧ c ≠ '>') :
    joinParens R ['(' :: a ++ '|' :: (b ++ [')'])] = [a ++ '|' :: b] := by
  have hopen : opensGroup ('(' :: a ++ '|' :: (b ++ [')'])) = true := by
    obtain ⟨c, a, rfl⟩ := List.exists_cons_of_ne_nil ha
    have hc := (ha' c List.mem_cons_self).2.1
    simp [opensGroup, stripPrefix, Ne.symm hc]
  have hthrough : through ')' ['(' :: a ++ '|' :: (b ++ [')'])] =
      some (['(' :: a ++ '|' :: (b ++ [')'])], []) := by
    have hlast : ('(' :: a ++ '|' :: (b ++ [')'])).getLast? = some ')' := by
      rw [show '(' :: a ++ '|' :: (b ++ [')']) = ('(' :: a ++ '|' :: b) ++ [')'] by simp]
      exact List.getLast?_concat
    simp only [through]
    rw [if_pos hlast]
  have hinner : groupInner R ['(' :: a ++ '|' :: (b ++ [')'])] = a ++ '|' :: b := by
    have hfront : ('(' :: a ++ '|' :: (b ++ [')'])).dropWhile (fun c => c == '(' || c == '<') =
        a ++ '|' :: (b ++ [')']) := by
      obtain ⟨c, a, rfl⟩ := List.exists_cons_of_ne_nil ha
      obtain ⟨-, -, -, h1, h2⟩ := ha' c List.mem_cons_self
      simp [h1, h2]
    have hback : (a ++ '|' :: (b ++ [')'])).rdropWhile (fun c => c == ')' || c == '>') =
        a ++ '|' :: b := by
      rw [show a ++ '|' :: (b ++ [')']) = (a ++ '|' :: b) ++ [')'] by simp,
        List.rdropWhile_concat_pos _ _ _ (by decide)]
      apply List.rdropWhile_eq_self_iff.mpr
      intro hl
      have hlast : (a ++ '|' :: b).getLast hl ∈ b := by
        rw [List.getLast_append_of_ne_nil hl (List.cons_ne_nil _ _), List.getLast_cons hb]
        exact List.getLast_mem hb
      obtain ⟨-, -, h1, h2⟩ := hb' _ hlast
      simp only [Bool.or_eq_true, beq_iff_eq, not_or]
      exact ⟨h1, h2⟩
    have hbar : R.isWhitespace '|' = false := by
      rw [R.whitespace_ascii '|' (by decide)]
      decide
    unfold groupInner
    simp only [joinAll, hfront, trimEndMatches, hback]
    apply trim_of_notMem
    intro c hc
    rcases List.mem_append.mp hc with hc | hc
    · exact (ha' c hc).1
    · rcases List.mem_cons.mp hc with rfl | hc
      · exact hbar
      · exact (hb' c hc).1
  have hpieces : joinAll ['|'] ((Search.split '|' (a ++ '|' :: b)).map R.trim) = a ++ '|' :: b := by
    rw [Search.split_append_cons, Search.split_of_notMem fun h => (ha' _ h).2.2.1 rfl,
      Search.split_of_notMem fun h => (hb' _ h).2.1 rfl]
    simp [joinAll, trim_of_notMem a fun c hc => (ha' c hc).1,
      trim_of_notMem b fun c hc => (hb' c hc).1]
  have hhead : ('(' :: a ++ '|' :: (b ++ [')'])).head? ≠ some '<' := by simp
  unfold joinParens
  rw [List.length_singleton, joinParensFrom, if_pos hopen, if_neg hhead, hthrough]
  simp only [hinner, hpieces]
  rw [if_pos (by simp)]
  rfl

/-- The characters of a term: none of them means anything to the passes. -/
def Quiet (R : Reader) (a : Text) : Prop :=
  ∀ c ∈ a, R.isWhitespace c = false ∧ c ≠ '"' ∧ c ≠ '|' ∧ c ≠ '(' ∧ c ≠ ')' ∧ c ≠ '<' ∧ c ≠ '>' ∧
    c ≠ '!' ∧ c ≠ ';'

theorem PipeTerm.quiet {a : Text} (h : PipeTerm R a) (hend : Unended a) : Quiet R a := by
  intro c hc
  obtain ⟨h1, h2, h3, h4, h5, h6⟩ := h.plain c hc
  refine ⟨h.unspaced c hc, h1, h2, h3, h4, h5, h6, ?_, ?_⟩
  · rintro rfl
    exact notMem_of_unended h.unmarked.1 hend.1 hc
  · rintro rfl
    exact notMem_of_unended h.unmarked.2 hend.2 hc

theorem oneTerm_of_quiet {x : Text} (h : ∀ c ∈ x, c ≠ '"' ∧ c ≠ '!' ∧ c ≠ ';')
    (hhead : x.head? ≠ some '(' ∧ x.head? ≠ some '<') (hlast : x.getLast? ≠ some '|') :
    OneTerm R x where
  uncut := Or.inr ⟨splitOutsideQuotes_of_notMem ';' x fun c hc => ⟨(h c hc).1, (h c hc).2.2⟩,
    cutBangs_of_notMem x (fun hc => (h _ hc).2.1 rfl) []⟩
  closed := hlast
  ungrouped := by simp [joinParens, joinParensFrom, opensGroup, hhead.1, hhead.2]

variable {a b : Text}

theorem Quiet.head (h : Quiet R a) (c : Char) (hc : c ∈ a.head?) :
    c ≠ '(' ∧ c ≠ '<' ∧ c ≠ '!' ∧ c ≠ '"' := by
  obtain ⟨-, h1, -, h2, -, h3, -, h4, -⟩ := h c (List.mem_of_mem_head? hc)
  exact ⟨h2, h3, h4, h1⟩

/-- A term alone comes out as it is. -/
theorem passes_alone (ha : Quiet R a) (hne : a ≠ []) : passes R a = [a] := by
  obtain ⟨hbare, -⟩ := bare_of_plain a fun c hc => ⟨(ha c hc).1, (ha c hc).2.1⟩
  apply passes_one (tokenize_of_bare R hbare hne) hne
  · rintro rfl
    exact ((ha.head '!' rfl).2.2.1) rfl
  · apply oneTerm_of_quiet
    · intro c hc
      obtain ⟨-, h1, -, -, -, -, -, h2, h3⟩ := ha c hc
      exact ⟨h1, h2, h3⟩
    · exact ⟨fun h => (ha.head _ h).1 rfl, fun h => (ha.head _ h).2.1 rfl⟩
    · intro h
      exact (ha _ (List.mem_of_getLast? h)).2.2.1 rfl

/-- However it is spelled, a pipe comes out as one token. -/
theorem passes_pipe (ha : Quiet R a) (hb : Quiet R b) (hane : a ≠ []) (hbne : b ≠ []) :
    ∀ q ∈ pipes a b, passes R q = [a ++ '|' :: b] := by
  have hbar : R.isWhitespace '|' = false := by
    rw [R.whitespace_ascii '|' (by decide)]
    decide
  have hopen : R.isWhitespace '(' = false := by
    rw [R.whitespace_ascii '(' (by decide)]
    decide
  have hclose : R.isWhitespace ')' = false := by
    rw [R.whitespace_ascii ')' (by decide)]
    decide
  have hterm : OneTerm R (a ++ '|' :: b) := by
    apply oneTerm_of_quiet
    · intro c hc
      rcases List.mem_append.mp hc with hc | hc
      · obtain ⟨-, h1, -, -, -, -, -, h2, h3⟩ := ha c hc
        exact ⟨h1, h2, h3⟩
      · rcases List.mem_cons.mp hc with rfl | hc
        · decide
        · obtain ⟨-, h1, -, -, -, -, -, h2, h3⟩ := hb c hc
          exact ⟨h1, h2, h3⟩
    · obtain ⟨c, a, rfl⟩ := List.exists_cons_of_ne_nil hane
      obtain ⟨h1, h2, -⟩ := ha.head c rfl
      simp [h1, h2]
    · rw [List.getLast?_append_of_ne_nil _ (List.cons_ne_nil _ _), List.getLast?_cons_of_ne_nil hbne]
      intro h
      exact (hb _ (List.mem_of_getLast? h)).2.2.1 rfl
  -- three tokens, joined at the bar
  have hspaced : ∀ x y : Text, x ≠ [] → y ≠ [] →
      (∀ c ∈ x, R.isWhitespace c = false ∧ c ≠ '"' ∧ c ≠ '|' ∧ c ≠ '!' ∧ c ≠ ';') →
      (∀ c ∈ y, R.isWhitespace c = false ∧ c ≠ '"' ∧ c ≠ '|' ∧ c ≠ '!' ∧ c ≠ ';') →
      passes R (x ++ " | ".toList ++ y) = joinParens R [x ++ '|' :: y] := by
    intro x y hx hy hx' hy'
    have htok : tokenize R (x ++ " | ".toList ++ y) = [x, ['|'], y] := by
      rw [List.append_assoc, show " | ".toList ++ y = ' ' :: (['|'] ++ ' ' :: y) from rfl,
        tokenize_space x _ hx fun c hc => ⟨(hx' c hc).1, (hx' c hc).2.1⟩,
        tokenize_space ['|'] y (List.cons_ne_nil _ _) (by simpa using hbar),
        tokenize_of_bare R (bare_of_plain y fun c hc => ⟨(hy' c hc).1, (hy' c hc).2.1⟩).1 hy]
    have hall : ∀ t ∈ [x, ['|'], y], t ≠ [] ∧ ∀ c ∈ t, c ≠ '"' ∧ c ≠ '!' ∧ c ≠ ';' := by
      intro t ht
      rcases List.mem_cons.mp ht with rfl | ht
      · exact ⟨hx, fun c hc => ⟨(hx' c hc).2.1, (hx' c hc).2.2.2⟩⟩
      · rcases List.mem_cons.mp ht with rfl | ht
        · decide
        · rw [List.mem_singleton.mp ht]
          exact ⟨hy, fun c hc => ⟨(hy' c hc).2.1, (hy' c hc).2.2.2⟩⟩
    unfold passes
    rw [htok, joinLists_of_notMem _ fun t ht => ⟨(hall t ht).1, fun h => ((hall t ht).2 _ h).2.2 rfl⟩,
      splitSemicolons_of_notMem _ fun t ht =>
        ⟨(hall t ht).1, fun c hc => ⟨((hall t ht).2 c hc).1, ((hall t ht).2 c hc).2.2⟩⟩,
      splitBangs_of_notMem _ fun t ht h => ((hall t ht).2 _ h).2.1 rfl,
      joinOperators_bar x y hx hy
        (fun c hc => ⟨(hx' c hc).2.1, (hx' c hc).2.2.1, (hx' c hc).2.2.2.1⟩)
        (fun c hc => ⟨(hy' c hc).2.1, (hy' c hc).2.2.1, (hy' c hc).2.2.2.1⟩)]
  have hquiet : ∀ x, Quiet R x → ∀ c ∈ x,
      R.isWhitespace c = false ∧ c ≠ '"' ∧ c ≠ '|' ∧ c ≠ '!' ∧ c ≠ ';' := by
    intro x hx c hc
    obtain ⟨h1, h2, h3, -, -, -, -, h4, h5⟩ := hx c hc
    exact ⟨h1, h2, h3, h4, h5⟩
  intro q hq
  have hq : q = a ++ '|' :: b ∨ q = a ++ " | ".toList ++ b ∨
      q = '(' :: a ++ " | ".toList ++ (b ++ [')']) := by simpa [pipes] using hq
  rcases hq with rfl | rfl | rfl
  · have hbare : bare R false (a ++ '|' :: b) = true := by
      refine (bare_of_plain _ fun c hc => ?_).1
      rcases List.mem_append.mp hc with hc | hc
      · exact ⟨(ha c hc).1, (ha c hc).2.1⟩
      · rcases List.mem_cons.mp hc with rfl | hc
        · exact ⟨hbar, by decide⟩
        · exact ⟨(hb c hc).1, (hb c hc).2.1⟩
    refine passes_one (tokenize_of_bare R hbare (by simp)) (by simp) ?_ hterm
    intro h
    have hlen := congrArg List.length h
    have := List.length_pos_iff.mpr hane
    simp at hlen
    omega
  · rw [hspaced a b hane hbne (hquiet a ha) (hquiet b hb), hterm.ungrouped]
  · rw [hspaced ('(' :: a) (b ++ [')']) (List.cons_ne_nil _ _) (by simp)]
    · apply joinParens_group a b hane hbne
      · intro c hc
        obtain ⟨h1, h2, h3, h4, -, h5, -⟩ := ha c hc
        exact ⟨h1, h2, h3, h4, h5⟩
      · intro c hc
        obtain ⟨h1, -, h2, -, h3, -, h4, -⟩ := hb c hc
        exact ⟨h1, h2, h3, h4⟩
    · intro c hc
      rcases List.mem_cons.mp hc with rfl | hc
      · exact ⟨hopen, by decide, by decide, by decide, by decide⟩
      · exact hquiet a ha c hc
    · intro c hc
      rcases List.mem_append.mp hc with hc | hc
      · exact hquiet b hb c hc
      · rw [List.mem_singleton.mp hc]
        exact ⟨hclose, by decide, by decide, by decide, by decide⟩

end

/-! ## What the pipe becomes -/

section

variable (R : Reader) (now : Int64) (home : Option Text) (row : Entry)

/-- Does an alternative hold, read as it is written? -/
def altHolds (p : Text) : Bool := (parseAlt R now home p).any (row.holds R.toPlatform)

/-- Does a query match? -/
def asked (q : Text) : Bool := «matches» R.toPlatform row (parseIn R now home q)

/-- Where `a|b` is `a` or `b`. -/
def Either (a b : Text) : Prop :=
  -- the bar parts the two, and `b` is read as it is written
  let parted := asked R now home row a = true ∨ altHolds R now home row b = asked R now home row b
  match fieldOf R a with
  | none => parted
  | some (f, field, value) =>
      -- `b` is dropped
      if (macroKind f).isSome ∨ f = .empty then
        asked R now home row b = true → asked R now home row a = true
      -- the wildcard goes to the end of `b`
      else if f = .startwith then
        (altHolds R now home row value || altHolds R now home row (b ++ ['*'])) =
          (asked R now home row a || asked R now home row b)
      else if f = .endwith ∧ value = [] then
        (altHolds R now home row ['*'] || altHolds R now home row b) =
          (asked R now home row a || asked R now home row b)
      else if f.takes = .size ∨ f.takes = .time then
        -- the bar is in an end of the range
        match splitDots (value ++ '|' :: b) with
        | none => parted
        | some ([], hi) =>
            tells R now home row (field ++ ":<=".toList ++ hi) =
              (asked R now home row a || asked R now home row b)
        | some (lo, []) =>
            tells R now home row (field ++ ":>=".toList ++ lo) =
              (asked R now home row a || asked R now home row b)
        | some (lo, hi) =>
            (tells R now home row (field ++ ":>=".toList ++ lo) &&
              tells R now home row (field ++ ":<=".toList ++ hi)) =
              (asked R now home row a || asked R now home row b)
      else parted

end

section

variable {R : Reader} {now : Int64} {home : Option Text} {row : Entry} {a b : Text}

/-- A field that takes a text is read as it is written. -/
theorem expandField_of_text {f : FieldName} (hk : macroKind f = none) (hempty : f ≠ .empty)
    (hstart : f ≠ .startwith) (hend : f ≠ .endwith)
    (htakes : ¬ (f.takes = .size ∨ f.takes = .time)) (field value body : Text) :
    expandField f field value body = [body] := by
  unfold expandField
  rw [hk]
  simp only [if_neg hempty, hstart, hend, false_and, if_false]
  cases splitDots value with
  | none => rfl
  | some r => simp only [if_neg htakes]

theorem splitDots_eq {t lo hi : Text} (h : splitDots t = some (lo, hi)) :
    t = lo ++ '.' :: '.' :: hi := by
  induction t generalizing lo with
  | nil => cases h
  | cons c s ih =>
    unfold splitDots at h
    split at h
    · cases h
      rfl
    · obtain ⟨r, hr, he⟩ := Option.map_eq_some_iff.mp h
      cases he
      rw [ih hr]
      rfl

theorem splitDots_append_none {v s : Text} (h : splitDots (v ++ s) = none) : splitDots v = none := by
  induction v with
  | nil => rfl
  | cons c v ih =>
    rw [List.cons_append] at h
    unfold splitDots at h ⊢
    split at h
    · cases h
    · rename_i hno
      rw [Option.map_eq_none_iff] at h
      split
      · rename_i hi
        exact absurd rfl (hno _ rfl)
      · rw [ih h]
        rfl

/-- A pipe names the field its first side names. -/
theorem fieldOf_pipe (a b : Text) : fieldOf R (a ++ '|' :: b) =
    (fieldOf R a).map fun r => (r.1, r.2.1, r.2.2 ++ '|' :: b) := by
  have hfield : splitField R (a ++ '|' :: b) =
      (splitField R a).map fun r => (r.1, r.2 ++ '|' :: b) := by
    by_cases hc : ':' ∈ a
    · obtain ⟨l, r, rfl, hl⟩ := List.eq_append_cons_of_mem hc
      rw [List.append_assoc, List.cons_append, splitField_colon R l _ hl, splitField_colon R l r hl]
      split <;> rfl
    · have hnone : splitField R a = none := by
        unfold splitField
        rw [if_pos hc]
      rw [hnone]
      by_cases hc' : ':' ∈ b
      · obtain ⟨l, r, rfl, hl⟩ := List.eq_append_cons_of_mem hc'
        have hbar : R.isAlphabetic '|' = false := by
          rw [R.alphabetic_ascii '|' (by decide)]
          decide
        rw [show a ++ '|' :: (l ++ ':' :: r) = (a ++ '|' :: l) ++ ':' :: r by simp,
          splitField_colon R _ r (by simp [hc, hl]), if_pos (by simp [hbar])]
        rfl
      · unfold splitField
        rw [if_pos (by simp [hc, hc'])]
        rfl
  unfold fieldOf
  rw [hfield]
  cases splitField R a with
  | none => rfl
  | some r => cases hl : lookup r.1 <;> simp [hl]

/-! ## One side at a time -/

theorem alternatives_plain {x : Text} (hx : ∀ c ∈ x, c ≠ '"' ∧ c ≠ '|') :
    alternatives R now home x = (parseAlt R now home x).toList := by
  have hs := splitOutsideQuotes_of_notMem '|' x hx
  rw [alternatives_eq, firstText, later, hs]
  simp

theorem alternatives_bar {x y : Text} (hx : ∀ c ∈ x, c ≠ '"' ∧ c ≠ '|')
    (hy : ∀ c ∈ y, c ≠ '"' ∧ c ≠ '|') :
    alternatives R now home (x ++ '|' :: y) =
      (parseAlt R now home x).toList ++ (parseAlt R now home y).toList := by
  have hs : splitOutsideQuotes (x ++ '|' :: y) '|' = [x, y] := by
    have hbar : splitOutsideQuotes ('|' :: y) '|' = [] :: splitOutsideQuotes y '|' := by
      simp [splitOutsideQuotes, splitOutsideQuotesFrom]
    rw [splitOutsideQuotes_append '|' x _ hx, hbar, splitOutsideQuotes_of_notMem '|' y hy]
    simp
  rw [alternatives_eq, firstText, later, hs]
  cases hp : parseAlt R now home y <;> simp [hp]

/-- What a token with a bar says, when one of its sides reads as something. -/
theorem tells_bar {x y : Text} (hx : ∀ c ∈ x, c ≠ '"' ∧ c ≠ '|') (hy : ∀ c ∈ y, c ≠ '"' ∧ c ≠ '|')
    (hread : (parseAlt R now home x).isSome = true ∨ (parseAlt R now home y).isSome = true) :
    tells R now home row (x ++ '|' :: y) =
      (altHolds R now home row x || altHolds R now home row y) := by
  unfold tells altHolds Entry.meets
  rw [alternatives_bar hx hy]
  cases hpx : parseAlt R now home x <;> cases hpy : parseAlt R now home y <;>
    simp_all

theorem tells_plain {x : Text} (hx : ∀ c ∈ x, c ≠ '"' ∧ c ≠ '|')
    (hread : (parseAlt R now home x).isSome = true) :
    tells R now home row x = altHolds R now home row x := by
  unfold tells altHolds Entry.meets
  rw [alternatives_plain hx]
  obtain ⟨m, hm⟩ := Option.isSome_iff_exists.mp hread
  simp [hm]

/-- The query that is one term says what its pieces say. -/
theorem asked_alone (ha : Quiet R a) (hne : a ≠ []) :
    asked R now home row a = (expand R a).all (tells R now home row) := by
  unfold asked
  rw [matches_parseIn, passes_alone ha hne, List.flatMap_singleton]

/-- What ends in a wildcard, or begins with one, reads as something. -/
theorem parseAlt_isSome_of_star {x : Text} (hbang : x.head? ≠ some '!') (hstar : '*' ∈ x) :
    (parseAlt R now home x).isSome = true := by
  rw [parseAlt_plain R now home (List.ne_nil_of_mem hstar) hbang]
  simpa using parseBody_isSome R now home hstar (by decide) (by decide)

/-- Two tests or-ed, the first being the first query. -/
theorem or_eq_or_iff (x y z : Bool) : (x || y) = (x || z) ↔ x = true ∨ y = z := by
  cases x <;> cases y <;> cases z <;> decide

end

section

variable {R : Reader} {now : Int64} {home : Option Text} {row : Entry} {a b : Text}

theorem mem_of_mem_value {f : FieldName} {field value : Text}
    (h : fieldOf R a = some (f, field, value)) : ∀ c ∈ value, c ∈ a := by
  intro c hc
  unfold fieldOf at h
  obtain ⟨fv, hs, hm⟩ := Option.bind_eq_some_iff.mp h
  obtain ⟨g, -, he⟩ := Option.map_eq_some_iff.mp hm
  cases he
  unfold splitField at hs
  split at hs
  · cases hs
  · simp only at hs
    split at hs
    · cases hs
    · cases hs
      exact (List.dropWhile_sublist _).subset (List.mem_of_mem_tail hc)

/-- The bar parts what `a` becomes from `b`. -/
theorem parted_iff {x : Text} (ha : Quiet R a) (hane : a ≠ []) (hb : Quiet R b)
    (hx : ∀ c ∈ x, c ≠ '"' ∧ c ≠ '|') (hread : (parseAlt R now home x).isSome = true)
    (hexp : expand R a = [x]) (hexp' : expand R (a ++ '|' :: b) = [x ++ '|' :: b]) :
    (expand R (a ++ '|' :: b)).all (tells R now home row) =
        (asked R now home row a || asked R now home row b) ↔
      asked R now home row a = true ∨ altHolds R now home row b = asked R now home row b := by
  have hasked : asked R now home row a = altHolds R now home row x := by
    rw [asked_alone ha hane, hexp]
    simp [tells_plain hx hread]
  rw [hexp', hasked]
  simp only [List.all_cons, List.all_nil, Bool.and_true]
  rw [tells_bar hx (fun c hc => ⟨(hb c hc).2.1, (hb c hc).2.2.1⟩) (Or.inl hread)]
  exact or_eq_or_iff _ _ _

/-- When the token `a|b` is the two queries or-ed. -/
theorem either_iff (ha : Quiet R a) (hb : Quiet R b) (hane : a ≠ []) (hbne : b ≠ [])
    (hgroups : (parseIn R now home a).groups ≠ []) :
    (expand R (a ++ '|' :: b)).all (tells R now home row) =
        (asked R now home row a || asked R now home row b) ↔
      Either R now home row a b := by
  have hbang : ∀ s, (a ++ s).head? ≠ some '!' := by
    obtain ⟨c, a, rfl⟩ := List.exists_cons_of_ne_nil hane
    intro s h
    exact (ha.head c rfl).2.2.1 (by simpa using h)
  have hbang' : a.head? ≠ some '!' := by simpa using hbang []
  have hachars : ∀ c ∈ a, c ≠ '"' ∧ c ≠ '|' := fun c hc => ⟨(ha c hc).2.1, (ha c hc).2.2.1⟩
  have hbchars : ∀ c ∈ b, c ≠ '"' ∧ c ≠ '|' := fun c hc => ⟨(hb c hc).2.1, (hb c hc).2.2.1⟩
  -- what is read as it is written
  have hself : expand R a = [a] → expand R (a ++ '|' :: b) = [a ++ '|' :: b] →
      ((expand R (a ++ '|' :: b)).all (tells R now home row) =
        (asked R now home row a || asked R now home row b) ↔
      asked R now home row a = true ∨ altHolds R now home row b = asked R now home row b) := by
    intro h1 h2
    obtain ⟨x, hx, halts⟩ := groups_ne_nil R now home hgroups
    rw [passes_alone ha hane, List.flatMap_singleton, h1] at hx
    obtain rfl := List.mem_singleton.mp hx
    apply parted_iff ha hane hb hachars _ h1 h2
    rw [alternatives_plain hachars] at halts
    cases hp : parseAlt R now home x with
    | none => simp [hp] at halts
    | some m => rfl
  have he := expand_eq R (t := a) hbang'
  have he' := expand_eq R (t := a ++ '|' :: b) (hbang _)
  rw [fieldOf_pipe] at he'
  unfold Either
  cases hf : fieldOf R a with
  | none =>
    rw [hf] at he he'
    exact hself he he'
  | some r =>
    obtain ⟨f, field, value⟩ := r
    rw [hf] at he he'
    simp only [Option.map_some] at he he'
    have hvalue : ∀ c ∈ value, c ≠ '"' ∧ c ≠ '|' := fun c hc =>
      hachars c (mem_of_mem_value hf c hc)
    have hvalue' : value ++ '|' :: b ≠ [] := by simp
    have hplain := he
    have hplain' := he'
    unfold expandField at he he'
    simp only
    cases hk : macroKind f with
    | some k =>
      rw [hk] at he he'
      rw [if_pos (show (some k).isSome = true ∨ f = .empty from Or.inl rfl), he',
        asked_alone ha hane, he]
      generalize asked R now home row b = y
      generalize List.all _ _ = x
      cases x <;> cases y <;> decide
    | none =>
      rw [hk] at he he'
      simp only [Option.isSome_none, Bool.false_eq_true, false_or]
      by_cases hempty : f = .empty
      · rw [if_pos hempty] at he he' ⊢
        rw [he', asked_alone ha hane, he]
        generalize asked R now home row b = y
        generalize List.all _ _ = x
        cases x <;> cases y <;> decide
      · simp only [if_neg hempty] at he he' ⊢
        by_cases hstart : f = .startwith
        · rw [if_pos ⟨hstart, hvalue'⟩] at he'
          rw [if_pos hstart, he']
          have hstar : (parseAlt R now home (b ++ ['*'])).isSome = true := by
            apply parseAlt_isSome_of_star _ (by simp)
            obtain ⟨c, b, rfl⟩ := List.exists_cons_of_ne_nil hbne
            intro h
            exact (hb.head c rfl).2.2.1 (by simpa using h)
          have hchars : ∀ c ∈ b ++ ['*'], c ≠ '"' ∧ c ≠ '|' := by
            intro c hc
            rcases List.mem_append.mp hc with hc | hc
            · exact hbchars c hc
            · rw [List.mem_singleton.mp hc]
              decide
          rw [show value ++ '|' :: b ++ ['*'] = value ++ '|' :: (b ++ ['*']) by simp]
          simp only [List.all_cons, List.all_nil, Bool.and_true]
          rw [tells_bar hvalue hchars (Or.inr hstar)]
        · rw [if_neg hstart]
          rw [if_neg fun h => hstart h.1] at he he'
          by_cases hend : f = .endwith
          · rw [if_pos ⟨hend, hvalue'⟩] at he'
            have hchars : ∀ c ∈ '*' :: value, c ≠ '"' ∧ c ≠ '|' := by
              intro c hc
              rcases List.mem_cons.mp hc with rfl | hc
              · decide
              · exact hvalue c hc
            have hstar : (parseAlt R now home ('*' :: value)).isSome = true :=
              parseAlt_isSome_of_star (by simp) (by simp)
            by_cases hv : value = []
            · subst hv
              rw [if_pos ⟨hend, rfl⟩, he']
              simp only [List.nil_append, List.all_cons, List.all_nil, Bool.and_true]
              rw [show '*' :: '|' :: b = ['*'] ++ '|' :: b from rfl,
                tells_bar hchars hbchars (Or.inl hstar)]
            · rw [if_pos ⟨hend, hv⟩] at he
              have htakes : ¬ (f.takes = .size ∨ f.takes = .time) := by
                rw [hend]
                decide
              rw [if_neg fun h => hv h.2, if_neg htakes]
              exact parted_iff ha hane hb hchars hstar he he'
          · rw [if_neg fun h => hend h.1]
            rw [if_neg fun h => hend h.1] at he he'
            by_cases htakes : f.takes = .size ∨ f.takes = .time
            · rw [if_pos htakes]
              cases hd : splitDots (value ++ '|' :: b) with
              | none =>
                rw [splitDots_append_none hd] at he
                rw [hd] at he'
                exact hself he he'
              | some r =>
                obtain ⟨lo, hi⟩ := r
                rw [hd] at he'
                simp only [if_pos htakes] at he'
                rcases lo with _ | ⟨l, lo⟩ <;> rcases hi with _ | ⟨h, hi⟩
                · -- the bar is in one of the ends
                  have := splitDots_eq hd
                  have hbar : '|' ∈ value ++ '|' :: b := by simp
                  rw [this] at hbar
                  simp at hbar
                · rw [he']
                  simp
                · rw [he']
                  simp
                · rw [he']
                  simp
            · rw [if_neg htakes]
              have hread := expandField_of_text hk hempty hstart hend htakes field
              exact hself (hplain.trans (hread _ _)) (hplain'.trans (hread _ _))

end

/-! ## The law -/

theorem ne_nil_of_groups {R : Reader} {now : Int64} {home : Option Text} {a : Text}
    (h : (parseIn R now home a).groups ≠ []) : a ≠ [] := by
  rintro rfl
  exact h rfl

end Scour
