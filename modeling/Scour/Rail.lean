import Scour.Negation

/-!
# The terms of the rail

What pressing a line of the rail puts into a query: a kind, a size band, an age or a place
(`term`).  A place stands between quotes, which keep it in one piece through the passes.

`place_term` says what the parser makes of it: a quote of the path ends the quotes early and a
backslash is read as a separator, and every other character stays what it is.
-/

namespace Scour.Rail

/-- The term a kind bar stands for. -/
def ofKind (token : Text) : Text := "kind:".toList ++ token

/-- The term a place stands for. -/
def ofPlace (path : Text) : Text := "under:\"".toList ++ path ++ ['"']

/-- The term a bar of the time strip stands for. -/
def ofAge (days : UInt32) : Text := "dm:".toList ++ Nat.toDigits 10 days.toNat ++ ['d']

/-- The three size bands the rail offers. -/
def SIZES : List Text := ["size:>10mb".toList, "size:>1mb".toList, "size:0".toList]

/-- An absolute path as the index spells it. -/
structure Absolute (path : Text) : Prop where
  rooted : path.head? = some '/'
  ended : path.getLast? = some '/' → path = ['/']

/-! ## What a token begins with -/

section Leads

variable {R : Reader} {p : Text}

/-- The first token begins with `p`. -/
def Leads (p : Text) (ts : List Text) : Prop := ∃ t rest, ts = t :: rest ∧ p <+: t

theorem Leads.append {ts : List Text} (h : Leads p ts) (us : List Text) : Leads p (ts ++ us) := by
  obtain ⟨t, rest, rfl, hp⟩ := h
  exact ⟨t, rest ++ us, rfl, hp⟩

/-- What goes on at the last token leaves the first one's beginning. -/
theorem Leads.extend {ts : List Text} (h : Leads p ts) {last new : Text}
    (hlast : ts.getLast? = some last) (hnew : last <+: new) : Leads p (ts.dropLast ++ [new]) := by
  obtain ⟨t, rest, rfl, hp⟩ := h
  cases rest with
  | nil =>
    obtain rfl : t = last := Option.some.inj hlast
    exact ⟨new, [], rfl, hp.trans hnew⟩
  | cons u rest => exact ⟨t, (u :: rest).dropLast ++ [new], rfl, hp⟩

theorem tokenizeFrom_leads (s : Text) : ∀ cur q, cur ≠ [] → p <+: cur →
    Leads p (tokenizeFrom R cur q s) := by
  induction s with
  | nil =>
    intro cur q hne hp
    unfold tokenizeFrom
    rw [if_neg hne]
    exact ⟨cur, [], rfl, hp⟩
  | cons c s ih =>
    intro cur q hne hp
    unfold tokenizeFrom
    split
    · exact ih _ _ (by simp) (hp.trans (List.prefix_append _ _))
    · split
      · exact ⟨cur, _, rfl, hp⟩
      · exact ih _ _ (by simp) (hp.trans (List.prefix_append _ _))

theorem joinListsStep_leads {out : List Text} {o : Bool} (h : Leads p out) (t : Text) :
    Leads p (joinListsStep R (out, o) t).1 := by
  unfold joinListsStep
  dsimp only
  split
  · exact h.append [t]
  · split
    · obtain ⟨u, rest, rfl, hp⟩ := h
      have hlast : (u :: rest).getLast? = some ((u :: rest).getLast?.getD []) := by
        rw [List.getLast?_cons]
        rfl
      refine Leads.extend ⟨u, rest, rfl, hp⟩ hlast ?_
      split
      · exact List.prefix_append _ _
      · rw [List.append_assoc]
        exact List.prefix_append _ _
    · exact h.append [t]

theorem joinLists_leads {t : Text} {ts : List Text} (hp : p <+: t) :
    Leads p (joinLists R (t :: ts)) := by
  have hstep : ∀ (us : List Text) (s : List Text × Bool), Leads p s.1 →
      Leads p (us.foldl (joinListsStep R) s).1 := by
    intro us
    induction us with
    | nil => exact fun _ h => h
    | cons u us ih => exact fun s h => ih _ (joinListsStep_leads h u)
  have hfirst : (joinListsStep R ([], false) t).1 = [t] := by
    unfold joinListsStep
    by_cases hq : startsQuoted t = true
    · simp [hq]
    · simp [hq]
  exact hstep ts _ ⟨t, [], hfirst, hp⟩

/-- A token is dropped, put out, or joined to the last one. -/
theorem joinOperatorsStep_out (j : Joining) (t : Text) :
    (joinOperatorsStep j t).out = j.out ∨ (∃ u, (joinOperatorsStep j t).out = j.out ++ [u]) ∨
      ∃ last u, j.out.getLast? = some last ∧
        (joinOperatorsStep j t).out = j.out.dropLast ++ [last ++ '|' :: u] := by
  unfold joinOperatorsStep
  dsimp only
  split
  · exact Or.inl rfl
  · generalize decide ((!startsQuoted t) = true ∧ t.head? = some '|' ∧ j.out ≠ []) = leading
    generalize (if leading = true then t.tail else t) = t₁
    generalize decide ((!startsQuoted t) = true ∧ 1 < t₁.length ∧ t₁.getLast? = some '|') = trailing
    generalize (if trailing = true then t₁.dropLast else t₁) = t₂
    split
    · exact Or.inl rfl
    · split
      · exact Or.inl rfl
      · generalize (if j.pendingBang = true ∧ t₂.head? ≠ some '!' then '!' :: t₂ else t₂) = t₃
        split
        · rename_i last _ hlast
          exact Or.inr (Or.inr ⟨last, t₃, hlast, rfl⟩)
        · exact Or.inr (Or.inl ⟨t₃, rfl⟩)

theorem joinOperatorsStep_leads {j : Joining} (h : Leads p j.out) (t : Text) :
    Leads p (joinOperatorsStep j t).out := by
  obtain hout | ⟨u, hout⟩ | ⟨last, u, hlast, hout⟩ := joinOperatorsStep_out j t
  · rwa [hout]
  · rw [hout]
    exact h.append [u]
  · rw [hout]
    exact h.extend hlast (List.prefix_append _ _)

end Leads

/-! ## A place -/

section Place

variable {R : Reader} {now : Int64} {home : Option Text} {path : Text}

/-- How the term of a place begins. -/
def opening : Text := ['u', 'n', 'd', 'e', 'r', ':', '"', '/']

theorem opening_bare (R : Reader) : bare R false opening = true := by
  have h : ∀ c ∈ opening, R.isWhitespace c = false := by
    intro c hc
    rw [R.whitespace_ascii c (by revert c; decide)]
    revert c
    decide
  have hbare : ∀ (t : Text) q, (∀ c ∈ t, R.isWhitespace c = false) → bare R q t = true := by
    intro t
    induction t with
    | nil => exact fun _ _ => rfl
    | cons c t ih =>
      intro q ht
      have hrest := fun q => ih q fun d hd => ht d (List.mem_cons_of_mem _ hd)
      unfold bare
      rw [ht c List.mem_cons_self, hrest, hrest]
      split <;> rfl
  exact hbare _ _ h

theorem stripPrefix_bang {name : Text} (hlen : 2 ≤ name.length)
    (hlower : ∀ c ∈ name, c.isLower = true) (v : Text) :
    stripPrefix ['!'] (name ++ ':' :: v) = none := by
  unfold stripPrefix
  rw [if_neg]
  rintro ⟨s, hs⟩
  cases name with
  | nil => cases hlen
  | cons c name =>
    have hc : '!' = c := (List.cons.inj hs).1
    exact absurd (hlower c List.mem_cons_self) (hc ▸ by decide)

/-- A name of lower case before a colon is a field when the table has it. -/
theorem isFieldToken_lower {name : Text} {f : FieldName} (hlen : 2 ≤ name.length)
    (hlower : ∀ c ∈ name, c.isLower = true) (hname : lookup name = some f) (v : Text) :
    isFieldToken R (name ++ ':' :: v) = true := by
  unfold isFieldToken tokenField
  rw [stripPrefix_bang hlen hlower v, Option.getD_none, splitField_lower name hlen hlower v,
    Option.any_some, hname]
  rfl

theorem lookup_under : lookup "under".toList = some .under := by decide

theorem isFieldToken_under (v : Text) : isFieldToken R ("under:".toList ++ v) = true :=
  isFieldToken_lower (show 2 ≤ "under".toList.length by decide) (by decide) lookup_under v

/-- The first token goes out as it is, a bar at its end aside. -/
theorem joinOperatorsStep_first {t u : Text} (hq : startsQuoted t = false) (hne : t ≠ ['|'])
    (hu : (if 1 < t.length ∧ t.getLast? = some '|' then t.dropLast else t) = u) (hbang : u ≠ ['!'])
    (hnil : u ≠ []) : (joinOperatorsStep ⟨[], false, false⟩ t).out = [u] := by
  simp [joinOperatorsStep, hq, hne, hu, hbang, hnil]

theorem joinOperators_leads {t : Text} {ts : List Text} (hp : opening <+: t) :
    Leads opening (joinOperators (t :: ts)) := by
  have hstep : ∀ (us : List Text) (j : Joining), Leads opening j.out →
      Leads opening (us.foldl joinOperatorsStep j).out := by
    intro us
    induction us with
    | nil => exact fun _ h => h
    | cons u us ih => exact fun j h => ih _ (joinOperatorsStep_leads h u)
  have hplain : ∀ u, opening <+: u → u ≠ ['|'] ∧ u ≠ ['!'] ∧ u ≠ [] := by
    rintro u ⟨v, rfl⟩
    refine ⟨?_, ?_, List.cons_ne_nil _ _⟩ <;> intro h <;> cases (List.cons.inj h).2
  -- a bar at the end is none of the beginning
  have hu : opening <+: if 1 < t.length ∧ t.getLast? = some '|' then t.dropLast else t := by
    split
    · rename_i hlast
      obtain ⟨v, rfl⟩ := hp
      cases v using List.reverseRecOn with
      | nil => cases hlast.2
      | append_singleton v c =>
        rw [← List.append_assoc, List.dropLast_concat]
        exact List.prefix_append _ _
    · exact hp
  obtain ⟨hne, -, -⟩ := hplain t hp
  obtain ⟨-, hbang, hnil⟩ := hplain _ hu
  have hquoted : startsQuoted t = false := by
    obtain ⟨v, rfl⟩ := hp
    rfl
  exact hstep ts _ ⟨_, [], joinOperatorsStep_first hquoted hne rfl hbang hnil, hu⟩

/-- Whatever the path holds, the first token is the field and a value that begins in its quotes. -/
theorem passes_leads (s : Text) : Leads opening (passes R (opening ++ s)) := by
  have htoken : Leads opening (tokenize R (opening ++ s)) := by
    unfold tokenize
    rw [tokenizeFrom_append R _ _ _ _ (opening_bare R)]
    exact tokenizeFrom_leads s _ _ (by decide) (List.prefix_refl _)
  obtain ⟨t₁, ts₁, h₁, hp₁⟩ := htoken
  obtain ⟨t₂, ts₂, h₂, hp₂⟩ := @joinLists_leads R opening t₁ ts₁ hp₁
  have hfield : isFieldToken R t₂ = true := by
    obtain ⟨v, rfl⟩ := hp₂
    exact isFieldToken_under (R := R) ('"' :: '/' :: v)
  have h₃ : splitSemicolons R (t₂ :: ts₂) = t₂ :: splitSemicolons R ts₂ := by
    unfold splitSemicolons
    rw [List.flatMap_cons, if_pos (Or.inr hfield)]
    rfl
  have h₄ : splitBangs R (t₂ :: splitSemicolons R ts₂) =
      t₂ :: splitBangs R (splitSemicolons R ts₂) := by
    unfold splitBangs
    rw [List.flatMap_cons, if_pos (Or.inr hfield)]
    rfl
  obtain ⟨t₅, ts₅, h₅, hp₅⟩ := @joinOperators_leads t₂
    (splitBangs R (splitSemicolons R ts₂)) hp₂
  unfold passes joinParens
  rw [h₁, h₂, h₃, h₄, h₅, List.length_cons]
  unfold joinParensFrom
  have hopen : opensGroup t₅ = false := by
    obtain ⟨v, rfl⟩ := hp₅
    rfl
  rw [hopen]
  exact ⟨t₅, _, rfl, hp₅⟩

theorem expand_under (v : Text) : expand R ("under:".toList ++ v) = ["under:".toList ++ v] := by
  have hfield : fieldOf R ("under:".toList ++ v) = some (.under, "under".toList, v) := by
    unfold fieldOf
    rw [show "under:".toList ++ v = "under".toList ++ ':' :: v from rfl,
      splitField_lower "under".toList (by decide) (by decide) v, Option.bind_some, lookup_under]
    rfl
  rw [expand_eq R (by simp), hfield]
  dsimp only
  unfold expandField
  simp only [macroKind, reduceCtorEq, false_and, if_false]
  split
  · rfl
  · rfl

/-- The first alternative begins in the quotes too. -/
theorem firstText_opening (v : Text) :
    firstText (opening ++ v) = opening ++ (splitOutsideQuotesFrom '|' true v).headD [] := by
  have hopen : firstText ('"' :: '/' :: v) =
      '"' :: '/' :: (splitOutsideQuotesFrom '|' true v).headD [] := by
    unfold firstText splitOutsideQuotes
    rw [splitOutsideQuotesFrom, if_pos rfl, splitOutsideQuotesFrom, if_neg (by decide),
      if_neg (by simp)]
    cases hs : splitOutsideQuotesFrom '|' (!false) v with
    | nil => exact absurd hs (splitOutsideQuotesFrom_ne_nil _ _ _)
    | cons t ts =>
      rw [Bool.not_false] at hs
      rw [hs]
      rfl
  rw [show opening ++ v = "under:".toList ++ '"' :: '/' :: v from rfl,
    firstText_append _ _ (by decide), hopen]
  rfl

theorem parseAlt_opening (w : Text) : parseAlt R now home (opening ++ w) =
    some (false, .under (trimDir ('/' :: unquote w) home)) := by
  have hraw : unquote ('"' :: '/' :: w) = '/' :: unquote w := by
    unfold unquote
    rw [List.filter_cons_of_neg (by decide), List.filter_cons_of_pos (by decide)]
  have hmatch : fieldMatch R now home .under (unquote ('"' :: '/' :: w)) =
      some (.under (trimDir ('/' :: unquote w) home)) := by
    rw [hraw]
    unfold fieldMatch
    dsimp only
    rw [if_pos (List.cons_ne_nil _ _)]
  have hfield : splitField R (opening ++ w) = some ("under".toList, '"' :: '/' :: w) :=
    splitField_lower "under".toList (by decide) (by decide) ('"' :: '/' :: w)
  rw [parseAlt_plain R now home (show opening ++ w ≠ [] from List.cons_ne_nil _ _) (by simp [opening]),
    parseBody_of_field R now home hfield lookup_under hmatch]
  rfl

/-! ## The folder that is read -/

/-- A path that begins at the root is under no home. -/
theorem trimDir_rooted (raw : Text) (home : Option Text) :
    trimDir ('/' :: raw) home = trimDir ('/' :: raw) none := by
  unfold trimDir trimEndMatches
  rw [List.map_cons, if_neg (show ¬ '/' = '\\' by decide)]
  generalize raw.map (fun c => if c = '\\' then '/' else c) = t
  obtain hnil | ⟨r, hr, -⟩ := List.prefix_cons_iff.mp (List.rdropWhile_prefix (· == '/') ('/' :: t))
  · dsimp only
    rw [if_pos hnil, if_pos hnil]
  · have hstrip : stripPrefix "~/".toList ('/' :: r) = none := by
      unfold stripPrefix
      rw [if_neg]
      rintro ⟨s, hs⟩
      cases hs
    have hhome : '/' :: r ≠ ['~'] := fun h => absurd (List.cons.inj h).1 (by decide)
    dsimp only
    rw [hr, hstrip]
    cases home with
    | none => rfl
    | some h => simp only [if_neg hhome]

theorem notMem_trimDir (raw : Text) : '\\' ∉ trimDir raw none := by
  unfold trimDir
  dsimp only
  split
  · decide
  · intro h
    obtain ⟨c, -, hc⟩ := List.mem_map.mp ((List.rdropWhile_prefix _ _).subset h)
    split at hc
    · cases hc
    · contradiction

theorem quote_notMem_trimDir {raw : Text} (hq : '"' ∉ raw) : '"' ∉ trimDir raw none := by
  unfold trimDir
  dsimp only
  split
  · decide
  · intro h
    obtain ⟨c, hc, he⟩ := List.mem_map.mp ((List.rdropWhile_prefix _ _).subset h)
    split at he
    · cases he
    · exact hq (he ▸ hc)

/-- A path without a backslash stays as it is. -/
theorem trimDir_self (h : Absolute path) (hb : '\\' ∉ path) : trimDir path none = path := by
  have hmap : (path.map fun c => if c = '\\' then '/' else c) = path := by
    refine (List.map_congr_left fun c hc => ?_).trans path.map_id
    rw [if_neg fun (he : c = '\\') => hb (he ▸ hc)]
    rfl
  unfold trimDir
  rw [hmap]
  dsimp only
  by_cases hroot : path = ['/']
  · subst hroot
    rfl
  · have hkeep : trimEndMatches (· == '/') path = path := by
      unfold trimEndMatches
      rw [List.rdropWhile_eq_self_iff]
      intro hne he
      refine hroot (h.ended ?_)
      rw [List.getLast?_eq_some_getLast hne, beq_iff_eq.mp he]
    rw [hkeep, if_neg]
    rintro rfl
    cases h.rooted

/-! ## What a press asks -/

/-- A term between quotes that holds none is one alternative. -/
theorem splitOutsideQuotesFrom_quoted (mark : Char) {a : Text} (h : '"' ∉ a) :
    splitOutsideQuotesFrom mark true (a ++ ['"']) = [a ++ ['"']] := by
  induction a with
  | nil => rfl
  | cons c a ih =>
    simp only [List.mem_cons, not_or] at h
    rw [List.cons_append, splitOutsideQuotesFrom, if_neg (Ne.symm h.1), if_neg (by simp), ih h.2]
    rfl

theorem splitOutsideQuotes_place (h : '"' ∉ path) :
    splitOutsideQuotes (ofPlace path) '|' = [ofPlace path] := by
  have hquoted : splitOutsideQuotes ('"' :: (path ++ ['"'])) '|' = ['"' :: (path ++ ['"'])] := by
    unfold splitOutsideQuotes
    rw [splitOutsideQuotesFrom, if_pos rfl, Bool.not_false, splitOutsideQuotesFrom_quoted '|' h]
    rfl
  rw [show ofPlace path = "under:".toList ++ '"' :: (path ++ ['"']) from rfl,
    splitOutsideQuotes_append '|' _ _ (by decide), hquoted]
  rfl

theorem ofPlace_eq (h : Absolute path) : ofPlace path = opening ++ (path.tail ++ ['"']) := by
  cases path with
  | nil => cases h.rooted
  | cons c path =>
    obtain rfl : c = '/' := Option.some.inj h.rooted
    rfl

/-- A run between quotes is bare, and ends closed. -/
theorem quoted_run (R : Reader) {a : Text} (h : '"' ∉ a) :
    bare R true (a ++ ['"']) = true ∧ endsQuoted true (a ++ ['"']) = false := by
  induction a with
  | nil => exact ⟨rfl, rfl⟩
  | cons c a ih =>
    simp only [List.mem_cons, not_or] at h
    obtain ⟨h1, h2⟩ := ih h.2
    rw [List.cons_append, bare, endsQuoted, if_neg (Ne.symm h.1), if_neg (Ne.symm h.1), h1, h2,
      Bool.or_true]
    exact ⟨rfl, rfl⟩

/-- Between its quotes a place is one term. -/
theorem oneTerm_place (h : Absolute path) (hq : '"' ∉ path) :
    passes R (ofPlace path) = [ofPlace path] := by
  have hbare : bare R false (ofPlace path) = true := by
    rw [ofPlace_eq h, bare_append, opening_bare, Bool.true_and]
    exact (quoted_run R fun hm => hq (List.mem_of_mem_tail hm)).1
  have hne : ofPlace path ≠ [] := List.cons_ne_nil _ _
  refine passes_one (tokenize_of_bare R hbare hne) hne ?_ ⟨Or.inl ?_, ?_, ?_⟩
  · intro he
    cases (List.cons.inj he).2
  · exact isFieldToken_under ('"' :: (path ++ ['"']))
  · unfold ofPlace
    rw [List.getLast?_concat]
    decide
  · rfl

/-- The first condition of what a place asks. -/
theorem parseIn_place (h : Absolute path) : ∃ w alts rest,
    parseIn R now home (ofPlace path) =
      ⟨⟨(false, .under (trimDir ('/' :: unquote w) none)) :: alts⟩ :: rest⟩ := by
  obtain ⟨t, ts, hpasses, v, rfl⟩ := passes_leads (R := R) (path.tail ++ ['"'])
  have halts : alternatives R now home (opening ++ v) =
      (false, .under (trimDir ('/' :: unquote ((splitOutsideQuotesFrom '|' true v).headD [])) none))
        :: later R now home (opening ++ v) := by
    rw [alternatives_eq, firstText_opening, parseAlt_opening, trimDir_rooted]
    rfl
  unfold parseIn
  rw [ofPlace_eq h, hpasses, List.flatMap_cons,
    show opening ++ v = "under:".toList ++ '"' :: '/' :: v from rfl, expand_under,
    List.singleton_append, List.map_cons, List.filterMap_cons,
    show "under:".toList ++ '"' :: '/' :: v = opening ++ v from rfl, halts,
    if_neg (List.cons_ne_nil _ _)]
  exact ⟨_, _, _, rfl⟩

/-- The whole of it, when the path holds no quote. -/
theorem parseIn_place_unquoted (h : Absolute path) (hq : '"' ∉ path) :
    parseIn R now home (ofPlace path) = ⟨[⟨[(false, .under (trimDir path none))]⟩]⟩ := by
  have htail : '"' ∉ path.tail := fun hm => hq (List.mem_of_mem_tail hm)
  have hpath : '/' :: unquote (path.tail ++ ['"']) = path := by
    unfold unquote
    rw [List.filter_append, List.filter_eq_self.mpr fun c hc => by
      simpa using fun he : c = '"' => htail (he ▸ hc)]
    cases path with
    | nil => cases h.rooted
    | cons c path =>
      obtain rfl : c = '/' := Option.some.inj h.rooted
      exact congrArg _ (List.append_nil _)
  have halts : alternatives R now home (ofPlace path) = [(false, .under (trimDir path none))] := by
    have hparse : parseAlt R now home (ofPlace path) = some (false, .under (trimDir path none)) := by
      rw [ofPlace_eq h, parseAlt_opening, trimDir_rooted, hpath]
    unfold alternatives
    rw [splitOutsideQuotes_place hq]
    have hne : ofPlace path ≠ [] := List.cons_ne_nil _ _
    simp [hne, hparse]
  unfold parseIn
  have hexpand : expand R (ofPlace path) = [ofPlace path] :=
    expand_under ('"' :: (path ++ ['"']))
  rw [oneTerm_place h hq, List.flatMap_singleton, hexpand, List.map_singleton, halts]
  rfl

/-- The rows under a folder are those below it. -/
theorem matchesOne_under_iff (P : Platform) (e : Entry) (d : Text) :
    matchesOne P e (.under d) = true ↔ Below e.path.bytes (trimEnd (utf8 d)) := by
  unfold matchesOne
  dsimp only
  rw [Bool.and_eq_true, Bool.and_eq_true, decide_eq_true_eq]
  by_cases hd : trimEnd (utf8 d) = []
  · obtain ⟨t, ht⟩ := e.path.head
    unfold Below
    rw [hd, ht]
    simp
  · unfold Below
    rw [prefix_iff_lt_getElem, and_assoc]
    simp [hd]

/-- A place's term asks for that place where the path holds no quote and no backslash, and shows
what lies below it. -/
theorem place_term (R : Reader) (now : Int64) (home : Option Text) (h : Absolute path) :
    (parseIn R now home (ofPlace path) = ⟨[⟨[(false, .under path)]⟩]⟩ ↔
      '"' ∉ path ∧ '\\' ∉ path) ∧
    ('"' ∉ path → '\\' ∉ path → ∀ e : Entry,
      «matches» R.toPlatform e (parseIn R now home (ofPlace path)) = true ↔
        Below e.path.bytes (trimEnd (utf8 path))) := by
  have hholds : '"' ∉ path → '\\' ∉ path →
      parseIn R now home (ofPlace path) = ⟨[⟨[(false, .under path)]⟩]⟩ := by
    intro hq hb
    rw [parseIn_place_unquoted h hq, trimDir_self h hb]
  refine ⟨⟨fun he => ?_, fun hc => hholds hc.1 hc.2⟩, fun hq hb e => ?_⟩
  · obtain ⟨w, alts, rest, hfirst⟩ := @parseIn_place R now home path h
    have hpath : trimDir ('/' :: unquote w) none = path := by
      rw [hfirst] at he
      have hgroup := (List.cons.inj (Ast.mk.inj he)).1
      have halt := (List.cons.inj (Group.mk.inj hgroup)).1
      exact Match.under.inj (Prod.mk.inj halt).2
    have hraw : '"' ∉ '/' :: unquote w := by
      simp [unquote]
    exact ⟨hpath ▸ quote_notMem_trimDir hraw, hpath ▸ notMem_trimDir _⟩
  · rw [hholds hq hb, ← matchesOne_under_iff R.toPlatform]
    unfold «matches» Entry.meets Entry.holds
    simp

theorem place_term_spaced : Absolute "/home/u/My | Files;".toList ∧
    parseIn .plain 0 (some "/root".toList) (ofPlace "/home/u/My | Files;".toList) =
      ⟨[⟨[(false, .under "/home/u/My | Files;".toList)]⟩]⟩ := by
  have h : Absolute "/home/u/My | Files;".toList := ⟨by decide, by decide⟩
  exact ⟨h, (place_term .plain 0 _ h).1.mpr ⟨by decide, by decide⟩⟩

/-- A quote is dropped, a backslash is a separator, and a folder is not below itself. -/
theorem not_place_term :
    (Absolute ['/', 'a', '"', 'b'] ∧ parseIn .plain 0 none (ofPlace ['/', 'a', '"', 'b']) =
      ⟨[⟨[(false, .under ['/', 'a', 'b'])]⟩]⟩) ∧
    (Absolute ['/', 'a', '\\', 'b'] ∧ parseIn .plain 0 none (ofPlace ['/', 'a', '\\', 'b']) =
      ⟨[⟨[(false, .under ['/', 'a', '/', 'b'])]⟩]⟩) ∧
    (Absolute ['/', 'a'] ∧ under (Entry.file "/a").path.bytes (utf8 ['/', 'a']) = true ∧
      «matches» .plain (Entry.file "/a") (parseIn .plain 0 none (ofPlace ['/', 'a'])) = false) := by
  refine ⟨⟨⟨by decide, by decide⟩, ?_⟩, ⟨⟨by decide, by decide⟩, ?_⟩, ⟨by decide, by decide⟩, ?_, ?_⟩
  · decide +kernel
  · decide +kernel
  · decide +kernel
  · decide +kernel

end Place

end Scour.Rail
